import PolarPlot.Grammar.Derivation
import PolarPlot.Grammar.Parse
import PolarPlot.Proofs.Matching

/-!
# Runs and derivations

A run of the parser decides what the grammar derives. Three properties of a grammar are used, and
each can be computed: its rules take a character whenever they match (`Peg.consumes`), they take one
before they call a rule (`Peg.guarded`), and every repetition takes one each time (`Peg.steady`).
Then rules are never nested deeper than there are characters, so the bound on the depth is never
felt (`Derives.of_ruleRun`), and a derivation is unique (`Derives.unique`).
-/

namespace PolarPlot.Grammar

variable {R : Type → Type} {grammar : (α : Type) → R α → Peg R α}

namespace Peg

/-- Whether a character is taken whenever there is a match, given that rules do so. -/
def consumes : {α : Type} → Peg R α → Bool
  | _, .token t => t ≠ .eof
  | _, .rule _ => true
  | _, .seq p q => p.consumes || q.consumes
  | _, .choice p q => p.consumes && q.consumes
  | _, .many _ => false
  | _, .option _ => false
  | _, .map _ p => p.consumes

/-- Whether a character is taken before any rule is called. -/
def guarded : {α : Type} → Peg R α → Bool
  | _, .token _ => true
  | _, .rule _ => false
  | _, .seq p q => p.guarded && (p.consumes || q.guarded)
  | _, .choice p q => p.guarded && q.guarded
  | _, .many p => p.guarded
  | _, .option p => p.guarded
  | _, .map _ p => p.guarded

/-- Whether every repetition takes a character each time. -/
def steady : {α : Type} → Peg R α → Bool
  | _, .token _ => true
  | _, .rule _ => true
  | _, .seq p q => p.steady && q.steady
  | _, .choice p q => p.steady && q.steady
  | _, .many p => p.consumes && p.steady
  | _, .option p => p.steady
  | _, .map _ p => p.steady

end Peg

/-- A grammar whose rules make progress. -/
structure Progressive (grammar : (α : Type) → R α → Peg R α) : Prop where
  consumes : ∀ {α} (r : R α), (grammar α r).consumes
  guarded : ∀ {α} (r : R α), (grammar α r).guarded
  steady : ∀ {α} (r : R α), (grammar α r).steady

theorem grammar_progressive : Progressive Grammar.grammar where
  consumes r := by cases r <;> rfl
  guarded r := by cases r <;> rfl
  steady r := by cases r <;> rfl

/-! ## Progress -/

/-- A place is reached from another by going ahead, over a character at least if `strictly`. -/
def Ahead (strictly : Bool) (c d : Cursor) : Prop :=
  ∃ n, d = c.advance n ∧ n ≤ c.rest.length ∧ (strictly → 0 < n)

namespace Ahead

variable {s s' : Bool} {c d e : Cursor}

theorem refl (c : Cursor) : Ahead false c c := ⟨0, by simp⟩

theorem trans (h : Ahead s c d) (h' : Ahead s' d e) : Ahead (s || s') c e := by
  obtain ⟨m, rfl, hm, hpos⟩ := h
  obtain ⟨n, rfl, hn, hpos'⟩ := h'
  refine ⟨m + n, (Cursor.advance_add ..).symm, ?_, ?_⟩
  · simp only [Cursor.advance_rest, List.length_drop] at hn
    omega
  · intro hs
    obtain hs | hs := Bool.or_eq_true_iff.mp hs
    · exact Nat.add_pos_left (hpos hs) n
    · exact Nat.add_pos_right m (hpos' hs)

theorem mono (h : Ahead s c d) (hs : s' → s) : Ahead s' c d := by
  obtain ⟨n, hd, hn, hpos⟩ := h
  exact ⟨n, hd, hn, fun h => hpos (hs h)⟩

theorem length_le (h : Ahead s c d) : d.rest.length ≤ c.rest.length := by
  obtain ⟨n, rfl, _⟩ := h
  simp

theorem length_lt (h : Ahead true c d) : d.rest.length < c.rest.length := by
  obtain ⟨n, rfl, hn, hpos⟩ := h
  have := hpos rfl
  simp only [Cursor.advance_rest, List.length_drop]
  omega

end Ahead

theorem Reads.ahead {t : Token} {c d : Cursor} {l : Lexeme} (h : Reads t c (some (l, d))) :
    Ahead (t ≠ .eof) c d := by
  cases h with
  | @found n h =>
    obtain ⟨xs, hx⟩ := exists_skips c
    obtain ⟨hle, hpos⟩ := Token.length?_bounds h
    refine ⟨xs.length + n, ?_, ?_, ?_⟩
    · rw [Cursor.advance_add, ← hx.place]
    · rw [hx.split, List.length_append]
      omega
    · intro ht
      have := hpos (by simpa using ht)
      omega

/-- What is derived ends at or after its start, and after it if a character must be taken. -/
theorem Derives.ahead (hg : Progressive grammar) {α : Type} {p : Peg R α} {c : Cursor}
    {o : Option (α × Cursor)} (h : Derives grammar p c o) :
    ∀ a d, o = some (a, d) → Ahead p.consumes c d := by
  induction h with
  | token h =>
    rintro l d rfl
    exact h.ahead
  | rule h ih => exact fun a d ho => (ih a d ho).mono fun _ => hg.consumes _
  | seq h h' ih ih' =>
    rintro _ _ ⟨⟩
    exact (ih _ _ rfl).trans (ih' _ _ rfl)
  | seqFirst | seqSecond | mapNone => exact nofun
  | choiceFirst h ih =>
    rintro _ _ ⟨⟩
    exact (ih _ _ rfl).mono fun hc => (Bool.and_eq_true_iff.mp hc).1
  | choiceSecond h h' ih ih' =>
    exact fun a d ho => (ih' a d ho).mono fun hc => (Bool.and_eq_true_iff.mp hc).2
  | manyEnd | optionNone =>
    rintro _ _ ⟨⟩
    exact .refl _
  | manyNext h h' ih ih' =>
    rintro _ _ ⟨⟩
    exact ((ih _ _ rfl).trans (ih' _ _ rfl)).mono nofun
  | optionOne h ih =>
    rintro _ _ ⟨⟩
    exact (ih _ _ rfl).mono nofun
  | map h ih =>
    rintro _ _ ⟨⟩
    exact ih _ _ rfl

/-! ## Runs -/

/-- The depth that is left is enough for a parsing expression: there are more levels than
characters, or just as many if no rule is called before the next character. -/
def Room {α : Type} (p : Peg R α) (c : Cursor) (depth : Nat) : Prop :=
  c.rest.length < depth ∨ p.guarded ∧ c.rest.length ≤ depth

theorem Room.imp {α β : Type} {p : Peg R α} {q : Peg R β} {c d : Cursor} {depth : Nat}
    (h : Room p c depth) (hg : p.guarded → q.guarded) (hd : d.rest.length ≤ c.rest.length) :
    Room q d depth := by
  obtain h | ⟨hp, h⟩ := h
  · exact .inl (by omega)
  · exact .inr ⟨hg hp, by omega⟩

/-- There is room for the second of two after the first. -/
theorem Room.second {α β : Type} {p : Peg R α} {q : Peg R β} {c d : Cursor} {depth : Nat}
    (h : Room (p.seq q) c depth) (hd : Ahead p.consumes c d) : Room q d depth := by
  have hle := hd.length_le
  obtain h | ⟨hp, h⟩ := h
  · exact .inl (by omega)
  · obtain ⟨_, hq⟩ := Bool.and_eq_true_iff.mp hp
    obtain hc | hq := Bool.or_eq_true_iff.mp hq
    · rw [hc] at hd
      have := hd.length_lt
      exact .inl (by omega)
    · exact .inr ⟨hq, by omega⟩

theorem Derives.of_manyFrom (hg : Progressive grammar) {α : Type} {p : Peg R α}
    (hp : p.consumes) {run : Run α} {depth : Nat}
    (ih : ∀ c f, Room p c depth → Derives grammar p c (run c f).1) {fuel : Nat} {c : Cursor}
    (hc : c.rest.length < fuel) (hr : Room p c depth) (f : Furthest) :
    Derives grammar p.many c (some (Run.manyFrom run fuel c f).1) := by
  induction fuel generalizing c f with
  | zero => omega
  | succ fuel ihf =>
    have h := ih c f hr
    simp only [Run.manyFrom]
    rcases hrun : run c f with ⟨_ | ⟨a, d⟩, f'⟩
    · rw [hrun] at h
      exact .manyEnd h
    · rw [hrun] at h
      have hd := h.ahead hg a d rfl
      rw [hp] at hd
      have hlt := hd.length_lt
      exact .manyNext h (ihf (by omega) (hr.imp id (by omega)) f')

/-- A run derives what it returns if its rules do. -/
theorem Derives.of_rules (hg : Progressive grammar) {rules : (α : Type) → R α → Run α} {depth : Nat}
    (hrules : ∀ {β} (r : R β) {c : Cursor}, c.rest.length < depth →
      ∀ f, Derives grammar (.rule r) c (rules β r c f).1)
    {α : Type} {p : Peg R α} {c : Cursor} (hs : p.steady) (hr : Room p c depth) (f : Furthest) :
    Derives grammar p c (p.run rules c f).1 := by
  induction p generalizing c f with
  | token t =>
    refine .token ?_
    simp only [Peg.run, Run.token]
    cases h : t.length? (skipLayout c).rest with
    | none => exact .missing h
    | some n => exact .found h
  | rule r =>
    obtain h | ⟨h, _⟩ := hr
    · exact hrules r h f
    · cases h
  | seq p q ihp ihq =>
    obtain ⟨hsp, hsq⟩ := Bool.and_eq_true_iff.mp hs
    have h := ihp hsp (hr.imp (fun h => (Bool.and_eq_true_iff.mp h).1) (Nat.le_refl _)) f
    simp only [Peg.run, Run.seq]
    rcases hp : p.run rules c f with ⟨_ | ⟨a, d⟩, f'⟩ <;> rw [hp] at h
    · exact .seqFirst h
    · have h' := ihq hsq (hr.second (h.ahead hg a d rfl)) f'
      simp only
      rcases hq : q.run rules d f' with ⟨_ | ⟨b, e⟩, f''⟩ <;> rw [hq] at h'
      · exact .seqSecond h h'
      · exact .seq h h'
  | choice p q ihp ihq =>
    obtain ⟨hsp, hsq⟩ := Bool.and_eq_true_iff.mp hs
    have h := ihp hsp (hr.imp (fun h => (Bool.and_eq_true_iff.mp h).1) (Nat.le_refl _)) f
    simp only [Peg.run, Run.choice]
    rcases hp : p.run rules c f with ⟨_ | ⟨a, d⟩, f'⟩ <;> rw [hp] at h
    · exact .choiceSecond h
        (ihq hsq (hr.imp (fun h => (Bool.and_eq_true_iff.mp h).2) (Nat.le_refl _)) f')
    · exact .choiceFirst h
  | many p ih =>
    obtain ⟨hc, hsp⟩ := Bool.and_eq_true_iff.mp hs
    exact .of_manyFrom hg hc (fun c f hr => ih hsp hr f) (Nat.lt_succ_self _)
      (hr.imp id (Nat.le_refl _)) f
  | option p ih =>
    have h := ih hs (hr.imp id (Nat.le_refl _)) f
    simp only [Peg.run, Run.option]
    rcases hp : p.run rules c f with ⟨_ | ⟨a, d⟩, f'⟩ <;> rw [hp] at h
    · exact .optionNone h
    · exact .optionOne h
  | map g p ih =>
    have h := ih hs (hr.imp id (Nat.le_refl _)) f
    simp only [Peg.run, Run.map]
    rcases hp : p.run rules c f with ⟨_ | ⟨a, d⟩, f'⟩ <;> rw [hp] at h
    · exact .mapNone h
    · exact .map h

/-- A run with enough depth derives what it returns: a rule is called at depth `n` only with fewer
than `n` characters left. -/
theorem Derives.of_ruleRun (hg : Progressive grammar) {depth : Nat} {α : Type} (r : R α)
    {c : Cursor} (hc : c.rest.length < depth) (f : Furthest) :
    Derives grammar (.rule r) c (ruleRun grammar depth α r c f).1 := by
  induction depth generalizing α r c f with
  | zero => omega
  | succ depth ih =>
    refine .rule (.of_rules hg (fun r _ hc f => ih r hc f) (hg.steady r) ?_ f)
    exact .inr ⟨hg.guarded r, by omega⟩

/-! ## Uniqueness -/

/-- The last step of a derivation, by the form of the parsing expression. -/
def LastStep (grammar : (α : Type) → R α → Peg R α) :
    {α : Type} → Peg R α → Cursor → Option (α × Cursor) → Prop
  | _, .token t, c, o => Reads t c o
  | _, .rule r, c, o => Derives grammar (grammar _ r) c o
  | _, .seq p q, c, o => Derives grammar p c none ∧ o = none ∨
      ∃ a d, Derives grammar p c (some (a, d)) ∧
        (Derives grammar q d none ∧ o = none ∨
          ∃ b e, Derives grammar q d (some (b, e)) ∧ o = some ((a, b), e))
  | _, .choice p q, c, o => (∃ a d, Derives grammar p c (some (a, d)) ∧ o = some (a, d)) ∨
      Derives grammar p c none ∧ Derives grammar q c o
  | _, .many p, c, o => Derives grammar p c none ∧ o = some ([], c) ∨
      ∃ a d as e, Derives grammar p c (some (a, d)) ∧ Derives grammar p.many d (some (as, e)) ∧
        o = some (a :: as, e)
  | _, .option p, c, o => Derives grammar p c none ∧ o = some (none, c) ∨
      ∃ a d, Derives grammar p c (some (a, d)) ∧ o = some (some a, d)
  | _, .map g p, c, o => Derives grammar p c none ∧ o = none ∨
      ∃ a d, Derives grammar p c (some (a, d)) ∧ o = some (g a, d)

theorem Derives.lastStep {α : Type} {p : Peg R α} {c : Cursor} {o : Option (α × Cursor)}
    (h : Derives grammar p c o) : LastStep grammar p c o := by
  cases h with
  | token h => exact h
  | rule h => exact h
  | seq h h' => exact .inr ⟨_, _, h, .inr ⟨_, _, h', rfl⟩⟩
  | seqFirst h => exact .inl ⟨h, rfl⟩
  | seqSecond h h' => exact .inr ⟨_, _, h, .inl ⟨h', rfl⟩⟩
  | choiceFirst h => exact .inl ⟨_, _, h, rfl⟩
  | choiceSecond h h' => exact .inr ⟨h, h'⟩
  | manyEnd h => exact .inl ⟨h, rfl⟩
  | manyNext h h' => exact .inr ⟨_, _, _, _, h, h', rfl⟩
  | optionOne h => exact .inr ⟨_, _, h, rfl⟩
  | optionNone h => exact .inl ⟨h, rfl⟩
  | map h => exact .inr ⟨_, _, h, rfl⟩
  | mapNone h => exact .inl ⟨h, rfl⟩

theorem Reads.unique {t : Token} {c : Cursor} {o o' : Option (Lexeme × Cursor)} (h : Reads t c o)
    (h' : Reads t c o') : o = o' := by
  cases h <;> cases h' <;> simp_all

/-- A parsing expression derives one result at a place. -/
theorem Derives.unique {α : Type} {p : Peg R α} {c : Cursor} {o o' : Option (α × Cursor)}
    (h : Derives grammar p c o) (h' : Derives grammar p c o') : o = o' := by
  induction h with
  | token h => exact h.unique h'.lastStep
  | rule h ih => exact ih h'.lastStep
  | seq h₁ h₂ ih₁ ih₂ =>
    obtain ⟨hn, _⟩ | ⟨a, d, hp, hq⟩ := h'.lastStep
    · cases ih₁ hn
    · cases ih₁ hp
      obtain ⟨hn, _⟩ | ⟨b, e, hq, rfl⟩ := hq
      · cases ih₂ hn
      · cases ih₂ hq
        rfl
  | seqFirst h ih =>
    obtain ⟨_, rfl⟩ | ⟨a, d, hp, _⟩ := h'.lastStep
    · rfl
    · cases ih hp
  | seqSecond h₁ h₂ ih₁ ih₂ =>
    obtain ⟨_, rfl⟩ | ⟨a, d, hp, hq⟩ := h'.lastStep
    · rfl
    · cases ih₁ hp
      obtain ⟨_, rfl⟩ | ⟨b, e, hq, _⟩ := hq
      · rfl
      · cases ih₂ hq
  | choiceFirst h ih =>
    obtain ⟨a, d, hp, rfl⟩ | ⟨hn, _⟩ := h'.lastStep
    · exact ih hp
    · cases ih hn
  | choiceSecond h₁ h₂ ih₁ ih₂ =>
    obtain ⟨a, d, hp, _⟩ | ⟨_, hq⟩ := h'.lastStep
    · cases ih₁ hp
    · exact ih₂ hq
  | manyEnd h ih =>
    obtain ⟨_, rfl⟩ | ⟨a, d, as, e, hp, _⟩ := h'.lastStep
    · rfl
    · cases ih hp
  | manyNext h₁ h₂ ih₁ ih₂ =>
    obtain ⟨hn, _⟩ | ⟨a, d, as, e, hp, hm, rfl⟩ := h'.lastStep
    · cases ih₁ hn
    · cases ih₁ hp
      cases ih₂ hm
      rfl
  | optionOne h ih =>
    obtain ⟨hn, _⟩ | ⟨a, d, hp, rfl⟩ := h'.lastStep
    · cases ih hn
    · cases ih hp
      rfl
  | optionNone h ih =>
    obtain ⟨_, rfl⟩ | ⟨a, d, hp, _⟩ := h'.lastStep
    · rfl
    · cases ih hp
  | map h ih =>
    obtain ⟨hn, _⟩ | ⟨a, d, hp, rfl⟩ := h'.lastStep
    · cases ih hn
    · cases ih hp
      rfl
  | mapNone h ih =>
    obtain ⟨_, rfl⟩ | ⟨a, d, hp, _⟩ := h'.lastStep
    · rfl
    · cases ih hp

/-! ## Parsing -/

theorem derives_runProgram (origin : String) (text : List Char) :
    Derives Grammar.grammar program (Cursor.start origin text) (runProgram origin text).1 :=
  .of_rules grammar_progressive (fun r _ hc f => .of_ruleRun grammar_progressive r hc f) rfl
    (.inl (Nat.lt_succ_self _)) _

/-- What `parse` reads is what the grammar derives. -/
theorem parse_eq_ok {origin text : String} {ss : List Stmt} :
    parse origin text = .ok ss ↔ IsProgram origin text.toList ss := by
  have hrun := derives_runProgram origin text.toList
  unfold parse IsProgram
  rcases h : runProgram origin text.toList with ⟨_ | ⟨ss', d⟩, f⟩ <;> rw [h] at hrun
  · constructor
    · intro he
      cases he
    · rintro ⟨d, hd⟩
      cases hrun.unique hd
  · constructor
    · intro he
      cases he
      exact ⟨d, hrun⟩
    · rintro ⟨e, he⟩
      cases hrun.unique he
      rfl

end PolarPlot.Grammar

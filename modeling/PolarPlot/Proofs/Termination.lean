import PolarPlot.Proofs.Adequacy

/-!
# The parser ends

Whatever a run takes is ahead of where it starts (`Peg.advances_run`). So calls are not nested
deeper than some number of levels for each character that is left, and `runWithin`, which counts
every call and says when its fuel is used up, has enough fuel if there is that much for each
character (`runWithin_eq`). The measure is the text that is left, and after it the height of the
parsing expression: a rule is only called once a character was taken, a repetition only goes on
after a round that took one, and all other calls are for a lower part.
-/

namespace PolarPlot.Grammar

variable {R : Type → Type} {grammar : (α : Type) → R α → Peg R α} {α : Type}

/-! ## Progress of runs -/

theorem Ahead.weaken {s : Bool} {c d : Cursor} (h : Ahead s c d) : Ahead false c d :=
  h.mono fun h => absurd h Bool.false_ne_true

theorem ahead_advance (c : Cursor) (n : Nat) : Ahead false c (c.advance n) := by
  obtain hlt | hge := Nat.lt_or_ge c.rest.length n
  · -- there is nothing to move over beyond the end
    obtain ⟨k, rfl⟩ := Nat.exists_eq_add_of_le (Nat.le_of_lt hlt)
    refine ⟨c.rest.length, ?_, Nat.le_refl _, fun h => absurd h Bool.false_ne_true⟩
    rw [Cursor.advance_add, Cursor.advance_nil _ (by simp)]
  · exact ⟨n, rfl, hge, fun h => absurd h Bool.false_ne_true⟩

theorem ahead_skipWith (length? : List Char → Option Nat) (fuel : Nat) (c : Cursor) :
    Ahead false c (skipWith length? fuel c) := by
  induction fuel generalizing c with
  | zero => exact ahead_advance c _
  | succ fuel ih =>
    simp only [skipWith]
    split
    · exact ahead_advance c _
    · exact ((ahead_advance c _).trans (ahead_advance _ _)).trans (ih _)

/-- What a run takes is ahead of where it starts, and at least a character if one must be taken. -/
def Advances (strictly : Bool) (run : Run α) : Prop :=
  ∀ c f a d, (run c f).1 = some (a, d) → Ahead strictly c d

theorem Advances.manyFrom {run : Run α} {s : Bool} (h : Advances s run) (fuel : Nat) (c : Cursor)
    (f : Furthest) : Ahead false c (Run.manyFrom run fuel c f).1.2 := by
  induction fuel generalizing c f with
  | zero => exact .refl c
  | succ fuel ih =>
    have hstep := h c f
    simp only [Run.manyFrom]
    rcases hrun : run c f with ⟨_ | ⟨a, d⟩, f'⟩
    · exact .refl c
    · rw [hrun] at hstep
      exact ((hstep a d rfl).trans (ih d f')).weaken

/-- A run goes ahead if its rules do. -/
theorem Peg.advances_run {rules : (α : Type) → R α → Run α}
    (hrules : ∀ {β} (r : R β), Advances true (rules β r)) (p : Peg R α) :
    Advances p.consumes (p.run rules) := by
  induction p with
  | token t =>
    intro c f a d h
    refine Reads.ahead (t := t) (l := a) ?_
    simp only [Peg.run, Run.token] at h
    cases hl : t.length? (skipLayout c).rest with
    | none =>
      rw [hl] at h
      cases h
    | some n =>
      rw [hl] at h
      cases h
      exact .found hl
  | rule r => exact hrules r
  | seq p q ihp ihq =>
    intro c f a d h
    simp only [Peg.run, Run.seq] at h
    have hp := ihp c f
    rcases hrun : p.run rules c f with ⟨_ | ⟨b, e⟩, f'⟩ <;> rw [hrun] at h hp
    · cases h
    · simp only at h
      have hq := ihq e f'
      rcases hrun' : q.run rules e f' with ⟨_ | ⟨b', e'⟩, f''⟩ <;> rw [hrun'] at h hq
      · cases h
      · cases h
        exact (hp _ _ rfl).trans (hq _ _ rfl)
  | choice p q ihp ihq =>
    intro c f a d h
    simp only [Peg.run, Run.choice] at h
    have hp := ihp c f
    rcases hrun : p.run rules c f with ⟨_ | ⟨b, e⟩, f'⟩ <;> rw [hrun] at h hp
    · exact (ihq c f' a d h).mono fun hc => (Bool.and_eq_true_iff.mp hc).2
    · cases h
      exact (hp _ _ rfl).mono fun hc => (Bool.and_eq_true_iff.mp hc).1
  | many p ih =>
    intro c f a d h
    have hmany := ih.manyFrom (c.rest.length + 1) c f
    have hresult : (Run.manyFrom (p.run rules) (c.rest.length + 1) c f).1 = (a, d) :=
      Option.some.inj h
    rw [hresult] at hmany
    exact hmany
  | option p ih =>
    intro c f a d h
    simp only [Peg.run, Run.option] at h
    have hp := ih c f
    rcases hrun : p.run rules c f with ⟨_ | ⟨b, e⟩, f'⟩ <;> rw [hrun] at h hp
    · cases h
      exact .refl c
    · cases h
      exact (hp _ _ rfl).weaken
  | map g p ih =>
    intro c f a d h
    simp only [Peg.run, Run.map] at h
    have hp := ih c f
    rcases hrun : p.run rules c f with ⟨_ | ⟨b, e⟩, f'⟩ <;> rw [hrun] at h hp
    · cases h
    · cases h
      exact hp _ _ rfl

theorem advances_ruleRun (hg : Progressive grammar) (depth : Nat) (r : R α) :
    Advances true (ruleRun grammar depth α r) := by
  induction depth generalizing α with
  | zero =>
    intro c f a d h
    cases h
  | succ depth ih =>
    intro c f a d h
    exact (Peg.advances_run ih (grammar α r) c f a d h).mono fun _ => hg.consumes r

/-! ## Runs within a bound -/

/-- Skips blanks and comments, one comment for each unit of fuel. Without fuel it gives up. -/
def skipWithin : Nat → Cursor → Option Cursor
  | 0, _ => none
  | fuel + 1, c =>
    (commentLength? (skipBlanks c).rest).elim (some (skipBlanks c)) fun n =>
      skipWithin fuel ((skipBlanks c).advance n)

/-- What a token takes at a place, given where skipping ends. -/
def Token.readAt (t : Token) (c : Cursor) (f : Furthest) : Option (Lexeme × Cursor) × Furthest :=
  (t.length? c.rest).elim (none, f.note (.token t) c) fun n =>
    (some (⟨String.ofList (c.rest.take n), c.position⟩, c.advance n), f)

/-- What a parsing expression takes when calls may be nested as deep as there is fuel. Every call
counts: that of a part, of a rule, of the next round of a repetition and of the next comment to
skip. `none` says that the fuel was used up, which is not the same as no match. -/
def runWithin (grammar : (α : Type) → R α → Peg R α) :
    Nat → {α : Type} → Peg R α → Cursor → Furthest → Option (Option (α × Cursor) × Furthest)
  | 0, _, _, _, _ => none
  | fuel + 1, _, .token t, c, f => (skipWithin fuel c).map fun d => t.readAt d f
  | fuel + 1, _, .rule r, c, f => runWithin grammar fuel (grammar _ r) c f
  | fuel + 1, _, .seq p q, c, f =>
    (runWithin grammar fuel p c f).bind fun x => x.1.elim (some (none, x.2)) fun a =>
      (runWithin grammar fuel q a.2 x.2).map fun y => (y.1.map fun b => ((a.1, b.1), b.2), y.2)
  | fuel + 1, _, .choice p q, c, f =>
    (runWithin grammar fuel p c f).bind fun x => x.1.elim (runWithin grammar fuel q c x.2) fun a =>
      some (some a, x.2)
  | fuel + 1, _, .many p, c, f =>
    (runWithin grammar fuel p c f).bind fun x => x.1.elim (some (some ([], c), x.2)) fun a =>
      (runWithin grammar fuel p.many a.2 x.2).map fun y =>
        (y.1.map fun as => (a.1 :: as.1, as.2), y.2)
  | fuel + 1, _, .option p, c, f =>
    (runWithin grammar fuel p c f).map fun x =>
      (some (x.1.elim (none, c) fun a => (some a.1, a.2)), x.2)
  | fuel + 1, _, .map g p, c, f =>
    (runWithin grammar fuel p c f).map fun x => (x.1.map fun a => (g a.1, a.2), x.2)

/-! ## Heights -/

/-- How deep the parts of a parsing expression are nested. -/
def Peg.height : {α : Type} → Peg R α → Nat
  | _, .token _ => 2
  | _, .rule _ => 1
  | _, .seq p q => max p.height q.height + 1
  | _, .choice p q => max p.height q.height + 1
  | _, .many p => p.height + 1
  | _, .option p => p.height + 1
  | _, .map _ p => p.height + 1

theorem lt_max_add_one_left (m n : Nat) : m < max m n + 1 := Nat.lt_succ_of_le (Nat.le_max_left m n)

theorem lt_max_add_one_right (m n : Nat) : n < max m n + 1 :=
  Nat.lt_succ_of_le (Nat.le_max_right m n)

theorem Peg.height_pos (p : Peg R α) : 0 < p.height := by cases p <;> exact Nat.succ_pos _

/-- There is fuel for a parsing expression: `H` for each character and one for the next rule, if a
rule may be called before the next character. -/
def Affords (H : Nat) (p : Peg R α) (c : Cursor) (fuel : Nat) : Prop :=
  p.height + H * (c.rest.length + 1) ≤ fuel ∨ p.guarded ∧ p.height + H * c.rest.length ≤ fuel

section Affords

variable {H fuel : Nat} {β : Type} {p : Peg R α} {q : Peg R β} {c d : Cursor}

theorem Affords.least (h : Affords H p c fuel) : p.height + H * c.rest.length ≤ fuel := by
  obtain h | ⟨_, h⟩ := h
  · exact Nat.le_trans (Nat.add_le_add_left (Nat.mul_le_mul_left H (Nat.le_succ _)) _) h
  · exact h

theorem Affords.part (h : Affords H p c (fuel + 1)) (hheight : q.height < p.height)
    (hguarded : p.guarded → q.guarded) (hle : d.rest.length ≤ c.rest.length) :
    Affords H q d fuel := by
  have hmul := Nat.mul_le_mul_left H hle
  obtain h | ⟨hp, h⟩ := h
  · refine .inl ?_
    rw [Nat.mul_succ] at h ⊢
    omega
  · exact .inr ⟨hguarded hp, by omega⟩

/-- There is fuel for the second of two after the first. -/
theorem Affords.second (h : Affords H (p.seq q) c (fuel + 1)) (hd : Ahead p.consumes c d) :
    Affords H q d fuel := by
  have hheight : q.height < (p.seq q).height := lt_max_add_one_right _ _
  by_cases hguarded : (p.seq q).guarded → q.guarded
  · exact h.part hheight hguarded hd.length_le
  · obtain ⟨hp, hq⟩ := Classical.not_imp.mp hguarded
    have hconsumes : p.consumes = true :=
      (Bool.or_eq_true_iff.mp (Bool.and_eq_true_iff.mp hp).2).resolve_right hq
    rw [hconsumes] at hd
    have hmul := Nat.mul_le_mul_left H hd.length_lt
    have hleast := h.least
    refine .inl ?_
    rw [Nat.mul_succ] at hmul ⊢
    omega

/-- There is fuel for the next round of a repetition that has taken a character. -/
theorem Affords.next (h : Affords H p c (fuel + 1)) (hH : 0 < H) (hd : Ahead true c d) :
    Affords H p d fuel := by
  have hmul := Nat.mul_le_mul_left H hd.length_lt
  obtain h | ⟨hp, h⟩ := h
  · refine .inl ?_
    rw [Nat.mul_succ] at h hmul ⊢
    omega
  · refine .inr ⟨hp, ?_⟩
    rw [Nat.mul_succ] at hmul
    omega

/-- There is fuel for a rule: all rules are lower than `H`, and take a character before they call
another. -/
theorem Affords.body {r : R β} (h : Affords H (.rule r) c (fuel + 1)) (hg : Progressive grammar)
    (hlow : (grammar β r).height < H) : Affords H (grammar β r) c fuel := by
  obtain h | ⟨hr, _⟩ := h
  · refine .inr ⟨hg.guarded r, ?_⟩
    rw [Nat.mul_succ, Peg.height] at h
    omega
  · cases hr

end Affords

/-! ## Enough fuel -/

theorem skipWithin_eq {fuel : Nat} {c : Cursor} (h : c.rest.length < fuel) :
    skipWithin fuel c = some (skipLayout c) := by
  induction fuel generalizing c with
  | zero => exact absurd h (Nat.not_lt_zero _)
  | succ fuel ih =>
    rw [← skipWith_fuel (Nat.le_of_lt h)]
    simp only [skipWithin, skipWith]
    cases hl : commentLength? (skipBlanks c).rest with
    | none => rfl
    | some n =>
      have hshorter : ((skipBlanks c).advance n).rest.length < fuel := by
        have hblanks := (ahead_advance c (c.rest.takeWhile isLayout).length).length_le
        have hn := (commentLength?_pos hl).1
        have hle := (commentLength?_pos hl).2
        change (skipBlanks c).rest.length ≤ c.rest.length at hblanks
        rw [Cursor.advance_rest, List.length_drop]
        omega
      rw [Option.elim_some, ih hshorter]
      exact congrArg some (skipWith_fuel (Nat.le_of_lt hshorter)).symm

section Many

variable {run : Run α}

/-- One try for each character and one more are enough. -/
theorem Advances.manyFrom_eq (h : Advances true run) {m n : Nat} {c : Cursor}
    (hm : c.rest.length < m) (hn : c.rest.length < n) (f : Furthest) :
    Run.manyFrom run m c f = Run.manyFrom run n c f := by
  induction m generalizing n c f with
  | zero => exact absurd hm (Nat.not_lt_zero _)
  | succ m ih =>
    obtain ⟨n, rfl⟩ : ∃ k, n = k + 1 := ⟨n - 1, by omega⟩
    have hstep := h c f
    simp only [Run.manyFrom]
    rcases hrun : run c f with ⟨_ | ⟨a, d⟩, f'⟩
    · rfl
    · rw [hrun] at hstep
      have hlt := (hstep a d rfl).length_lt
      simp only [ih (show d.rest.length < m by omega) (show d.rest.length < n by omega) f']

/-- A repetition is one try, and another repetition if it succeeds. -/
theorem Advances.many_eq (h : Advances true run) (c : Cursor) (f : Furthest) :
    Run.many run c f = (run c f).1.elim (some ([], c), (run c f).2) fun a =>
      ((Run.many run a.2 (run c f).2).1.map fun as => (a.1 :: as.1, as.2),
        (Run.many run a.2 (run c f).2).2) := by
  have hstep := h c f
  simp only [Run.many]
  rw [Run.manyFrom]
  rcases hrun : run c f with ⟨_ | ⟨a, d⟩, f'⟩
  · rfl
  · rw [hrun] at hstep
    have hlt := (hstep a d rfl).length_lt
    simp only [h.manyFrom_eq hlt (Nat.lt_succ_self d.rest.length) f']
    rfl

end Many

/-- With enough fuel, and enough depth for rules, a run within a bound is the run without one. -/
theorem runWithin_eq (hg : Progressive grammar) {H : Nat}
    (hlow : ∀ {β} (r : R β), (grammar β r).height < H) (hH : 0 < H) {fuel depth : Nat} {p : Peg R α}
    {c : Cursor} (hs : p.steady) (hroom : Room p c depth) (hfuel : Affords H p c fuel)
    (f : Furthest) : runWithin grammar fuel p c f = some (p.run (ruleRun grammar depth) c f) := by
  induction fuel generalizing α depth c f with
  | zero =>
    have hleast := hfuel.least
    have hpos := p.height_pos
    omega
  | succ fuel ih =>
    have hahead {β : Type} (q : Peg R β) := Peg.advances_run (advances_ruleRun hg depth) q
    cases p with
    | token t =>
      have hleast := hfuel.least
      have hmul := Nat.mul_le_mul_right c.rest.length hH
      rw [Peg.height] at hleast
      rw [runWithin, skipWithin_eq (by omega), Option.map_some, Token.readAt]
      simp only [Peg.run, Run.token]
      cases t.length? (skipLayout c).rest <;> rfl
    | rule r =>
      have hlt : c.rest.length < depth := hroom.resolve_right fun h => absurd h.1 Bool.false_ne_true
      obtain ⟨depth, rfl⟩ : ∃ k, depth = k + 1 := ⟨depth - 1, by omega⟩
      exact ih (hg.steady r) (.inr ⟨hg.guarded r, Nat.le_of_lt_succ hlt⟩) (hfuel.body hg (hlow r)) f
    | seq p q =>
      obtain ⟨hsp, hsq⟩ := Bool.and_eq_true_iff.mp hs
      have hp := ih hsp (hroom.imp (fun h => (Bool.and_eq_true_iff.mp h).1) (Nat.le_refl _))
        (hfuel.part (lt_max_add_one_left _ _) (fun h => (Bool.and_eq_true_iff.mp h).1)
          (Nat.le_refl _)) f
      have hfirst := hahead p c f
      rw [runWithin, hp, Option.bind_some]
      simp only [Peg.run, Run.seq]
      rcases hrun : p.run (ruleRun grammar depth) c f with ⟨_ | ⟨a, d⟩, f'⟩
      · rfl
      · rw [hrun] at hfirst
        have hd := hfirst a d rfl
        simp only [Option.elim_some, ih hsq (hroom.second hd) (hfuel.second hd) f', Option.map_some]
        rcases q.run (ruleRun grammar depth) d f' with ⟨_ | ⟨b, e⟩, f''⟩ <;> rfl
    | choice p q =>
      obtain ⟨hsp, hsq⟩ := Bool.and_eq_true_iff.mp hs
      have hp := ih hsp (hroom.imp (fun h => (Bool.and_eq_true_iff.mp h).1) (Nat.le_refl _))
        (hfuel.part (lt_max_add_one_left _ _) (fun h => (Bool.and_eq_true_iff.mp h).1)
          (Nat.le_refl _)) f
      have hq := ih hsq (hroom.imp (fun h => (Bool.and_eq_true_iff.mp h).2) (Nat.le_refl _))
        (hfuel.part (lt_max_add_one_right _ _) (fun h => (Bool.and_eq_true_iff.mp h).2)
          (Nat.le_refl _))
      rw [runWithin, hp, Option.bind_some]
      simp only [Peg.run, Run.choice]
      rcases p.run (ruleRun grammar depth) c f with ⟨_ | ⟨a, d⟩, f'⟩
      · exact hq f'
      · rfl
    | many p =>
      obtain ⟨hconsumes, hsp⟩ := Bool.and_eq_true_iff.mp hs
      have hp :=
        ih hsp (hroom.imp id (Nat.le_refl _)) (hfuel.part (Nat.lt_succ_self _) id (Nat.le_refl _)) f
      have hround := hahead p
      rw [hconsumes] at hround
      have hfirst := hround c f
      rw [runWithin, hp, Option.bind_some, Peg.run, hround.many_eq]
      rcases hrun : p.run (ruleRun grammar depth) c f with ⟨_ | ⟨a, d⟩, f'⟩
      · rfl
      · rw [hrun] at hfirst
        have hd := hfirst a d rfl
        have hrest := ih hs (hroom.imp id (Nat.le_of_lt hd.length_lt)) (hfuel.next hH hd) f'
        rw [Peg.run] at hrest
        simp only [Option.elim_some, hrest, Option.map_some]
    | option p =>
      have hp :=
        ih (p := p) hs (hroom.imp id (Nat.le_refl _))
          (hfuel.part (Nat.lt_succ_self _) id (Nat.le_refl _)) f
      rw [runWithin, hp, Option.map_some]
      simp only [Peg.run, Run.option]
      rcases p.run (ruleRun grammar depth) c f with ⟨_ | ⟨a, d⟩, f'⟩ <;> rfl
    | map g p =>
      have hp :=
        ih (p := p) hs (hroom.imp id (Nat.le_refl _))
          (hfuel.part (Nat.lt_succ_self _) id (Nat.le_refl _)) f
      rw [runWithin, hp, Option.map_some]
      simp only [Peg.run, Run.map]
      rcases p.run (ruleRun grammar depth) c f with ⟨_ | ⟨a, d⟩, f'⟩ <;> rfl

/-! ## More fuel -/

theorem skipWithin_succ {fuel : Nat} {c d : Cursor} (h : skipWithin fuel c = some d) :
    skipWithin (fuel + 1) c = some d := by
  induction fuel generalizing c with
  | zero => cases h
  | succ fuel ih =>
    rw [skipWithin] at h ⊢
    cases hl : commentLength? (skipBlanks c).rest with
    | none =>
      rw [hl] at h
      exact h
    | some n =>
      rw [hl] at h
      exact ih h

theorem runWithin_succ {fuel : Nat} {p : Peg R α} {c : Cursor} {f : Furthest}
    {r : Option (α × Cursor) × Furthest} (h : runWithin grammar fuel p c f = some r) :
    runWithin grammar (fuel + 1) p c f = some r := by
  induction fuel generalizing α c f with
  | zero => cases h
  | succ fuel ih =>
    cases p with
    | token t =>
      rw [runWithin] at h ⊢
      obtain ⟨d, hd, rfl⟩ := Option.map_eq_some_iff.mp h
      rw [skipWithin_succ hd, Option.map_some]
    | rule r => exact ih h
    | seq p q =>
      rw [runWithin] at h ⊢
      obtain ⟨⟨_ | a, f'⟩, hp, h⟩ := Option.bind_eq_some_iff.mp h
      · rw [ih hp]
        exact h
      · obtain ⟨y, hq, rfl⟩ := Option.map_eq_some_iff.mp h
        rw [ih hp, Option.bind_some, Option.elim_some, ih hq, Option.map_some]
    | choice p q =>
      rw [runWithin] at h ⊢
      obtain ⟨⟨_ | a, f'⟩, hp, h⟩ := Option.bind_eq_some_iff.mp h
      · rw [ih hp]
        exact ih h
      · rw [ih hp]
        exact h
    | many p =>
      rw [runWithin] at h ⊢
      obtain ⟨⟨_ | a, f'⟩, hp, h⟩ := Option.bind_eq_some_iff.mp h
      · rw [ih hp]
        exact h
      · obtain ⟨y, hrest, rfl⟩ := Option.map_eq_some_iff.mp h
        rw [ih hp, Option.bind_some, Option.elim_some, ih hrest, Option.map_some]
    | option p | map g p =>
      rw [runWithin] at h ⊢
      obtain ⟨x, hp, rfl⟩ := Option.map_eq_some_iff.mp h
      rw [ih hp, Option.map_some]

theorem runWithin_mono {fuel fuel' : Nat} {p : Peg R α} {c : Cursor} {f : Furthest}
    {r : Option (α × Cursor) × Furthest} (h : runWithin grammar fuel p c f = some r)
    (hle : fuel ≤ fuel') : runWithin grammar fuel' p c f = some r := by
  induction hle with
  | refl => exact h
  | step _ ih => exact runWithin_succ ih

/-! ## Programs -/

theorem height_grammar {β : Type} (r : Rule β) : (Grammar.grammar β r).height < 24 := by
  cases r <;> decide

/-- The run of the program rule from the start of a text, within a bound. -/
def runProgramWithin (fuel : Nat) (origin : String) (text : List Char) :
    Option (Option (List Stmt × Cursor) × Furthest) :=
  runWithin Grammar.grammar fuel program (.start origin text) (.start (.start origin text))

theorem runProgramWithin_eq {fuel depth : Nat} (origin : String) {text : List Char}
    (hfuel : 24 * text.length + 30 ≤ fuel) (hdepth : text.length < depth) :
    runProgramWithin fuel origin text =
      some (program.run (ruleRun Grammar.grammar depth) (.start origin text)
        (.start (.start origin text))) := by
  have hheight : program.height = 6 := rfl
  refine runWithin_eq grammar_progressive height_grammar (by decide) rfl (.inl hdepth) (.inl ?_) _
  rw [hheight]
  change 6 + 24 * (text.length + 1) ≤ fuel
  omega

/-- A pattern takes a character whenever it matches, at whatever place and with rules nested however
deep. -/
def AlwaysAdvances (p : Pattern α) : Prop :=
  ∀ depth, Advances true (p.run (ruleRun Grammar.grammar depth))

theorem alwaysAdvances_of_consumes {p : Pattern α} (h : p.consumes = true) : AlwaysAdvances p := by
  intro depth
  have hahead := Peg.advances_run (advances_ruleRun grammar_progressive depth) p
  rwa [h] at hahead

theorem parse_ok_or_error (origin text : String) :
    (∃ ss, parse origin text = .ok ss ∧ IsProgram origin text.toList ss) ∨
      ∃ e, parse origin text = .error e ∧ IsNoProgram origin text.toList := by
  have hrun := derives_runProgram origin text.toList
  unfold parse
  rcases h : runProgram origin text.toList with ⟨_ | ⟨ss, d⟩, f⟩ <;> rw [h] at hrun
  · exact .inr ⟨_, rfl, hrun⟩
  · exact .inl ⟨ss, rfl, d, hrun⟩

/-- The parser ends on every text. All matches of a rule and all comments take a character, and
skipping goes ahead. A bound on nested calls that is linear in the length of the text is not used
up, no bound gives another result, and more depth for rules changes nothing either. So there is
always a program or an error, as the grammar has it. -/
theorem parse_ends (origin text : String) :
    (AlwaysAdvances stmt ∧ AlwaysAdvances expr ∧ AlwaysAdvances term ∧ AlwaysAdvances factor ∧
      AlwaysAdvances call) ∧
    (∀ cs n, commentLength? cs = some n → 0 < n ∧ n ≤ cs.length) ∧
    (∀ c, Ahead false c (skipLayout c) ∧ Ahead false c (skipLineComments c)) ∧
    (∀ fuel, 24 * text.length + 30 ≤ fuel →
      runProgramWithin fuel origin text.toList = some (runProgram origin text.toList)) ∧
    (∀ fuel r, runProgramWithin fuel origin text.toList = some r →
      r = runProgram origin text.toList) ∧
    (∀ depth, text.length < depth →
      program.run (ruleRun Grammar.grammar depth) (.start origin text.toList)
        (.start (.start origin text.toList)) = runProgram origin text.toList) ∧
    ((∃ ss, parse origin text = .ok ss ∧ IsProgram origin text.toList ss) ∨
      ∃ e, parse origin text = .error e ∧ IsNoProgram origin text.toList) := by
  rw [← String.length_toList]
  have henough {fuel : Nat} (hfuel : 24 * text.toList.length + 30 ≤ fuel) :
      runProgramWithin fuel origin text.toList = some (runProgram origin text.toList) :=
    runProgramWithin_eq origin hfuel (Nat.lt_succ_self _)
  refine ⟨⟨?_, ?_, ?_, ?_, ?_⟩, ?_, ?_, ?_, ?_, ?_, parse_ok_or_error origin text⟩
  · exact alwaysAdvances_of_consumes rfl
  · exact alwaysAdvances_of_consumes rfl
  · exact alwaysAdvances_of_consumes rfl
  · exact alwaysAdvances_of_consumes rfl
  · exact alwaysAdvances_of_consumes rfl
  · exact fun cs n h => commentLength?_pos h
  · exact fun c => ⟨ahead_skipWith _ _ c, ahead_skipWith _ _ c⟩
  · exact fun fuel => henough
  · intro fuel r hr
    have hmore := runWithin_mono hr (Nat.le_max_left fuel (24 * text.toList.length + 30))
    exact Option.some.inj (hmore.symm.trans (henough (Nat.le_max_right _ _)))
  · intro depth hdepth
    have hsame := runProgramWithin_eq origin (Nat.le_refl _) hdepth
    exact Option.some.inj (hsame.symm.trans (henough (Nat.le_refl _)))

/-- A call and a comment that are never closed. -/
def unclosedText : String := "f((1/*"

/-- The place of a number. -/
def digitCursor : Cursor := .start "" ['1']

theorem parse_ends_unclosedText :
    (∃ e, parse "" unclosedText = .error e ∧ IsNoProgram "" unclosedText.toList) ∧
    runProgramWithin 200 "" unclosedText.toList = some (runProgram "" unclosedText.toList) ∧
    ∃ a d, (factor.run (ruleRun Grammar.grammar 1) digitCursor (.start digitCursor)).1 =
      some (a, d) ∧ Ahead true digitCursor d := by
  have hfails : (parse "" unclosedText).toBool = false := by decide +kernel
  have hmatch : (factor.run (ruleRun Grammar.grammar 1) digitCursor (.start digitCursor)).1.isSome =
      true := by
    decide +kernel
  obtain ⟨⟨-, -, -, hfactor, -⟩, -, -, hfuel, -, -, hends⟩ := parse_ends "" unclosedText
  obtain ⟨⟨a, d⟩, ha⟩ := Option.isSome_iff_exists.mp hmatch
  refine ⟨?_, hfuel 200 (by decide), a, d, ha, hfactor 1 _ _ a d ha⟩
  obtain ⟨ss, hok, -⟩ | herror := hends
  · rw [hok] at hfails
    cases hfails
  · exact herror

end PolarPlot.Grammar

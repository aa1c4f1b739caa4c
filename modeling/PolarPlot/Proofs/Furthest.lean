import Mathlib.Data.List.Nodup
import PolarPlot.Proofs.Recognition

/-!
# The furthest failure

While a text is parsed, tokens are tried at many places, also in alternatives that are given up
later (`Tries`). A run keeps the furthest place where a token was missing, and what was missing
there (`Records`). So a text that is refused is refused at a place that no token went past
(`parse_error_furthest`).
-/

namespace PolarPlot.Grammar

open Text

variable {R : Type → Type} {grammar : (α : Type) → R α → Peg R α}

/-! ## Tries -/

/-- While a parsing expression is matched at a place, a token is tried at another one, after blanks
and comments. Alternatives that are given up count as well. -/
inductive Tries (grammar : (α : Type) → R α → Peg R α) :
    {α : Type} → Peg R α → Cursor → Token → Cursor → Prop where
  | token {t : Token} {c : Cursor} : Tries grammar (.token t) c t (skipLayout c)
  | rule {α : Type} {r : R α} {c d : Cursor} {t : Token} :
      Tries grammar (grammar α r) c t d → Tries grammar (.rule r) c t d
  | seqFirst {α β : Type} {p : Peg R α} {q : Peg R β} {c d : Cursor} {t : Token} :
      Tries grammar p c t d → Tries grammar (.seq p q) c t d
  | seqSecond {α β : Type} {p : Peg R α} {q : Peg R β} {c d e : Cursor} {t : Token} {a : α} :
      Derives grammar p c (some (a, e)) → Tries grammar q e t d → Tries grammar (.seq p q) c t d
  | choiceFirst {α : Type} {p q : Peg R α} {c d : Cursor} {t : Token} :
      Tries grammar p c t d → Tries grammar (.choice p q) c t d
  | choiceSecond {α : Type} {p q : Peg R α} {c d : Cursor} {t : Token} :
      Derives grammar p c none → Tries grammar q c t d → Tries grammar (.choice p q) c t d
  | manyFirst {α : Type} {p : Peg R α} {c d : Cursor} {t : Token} :
      Tries grammar p c t d → Tries grammar (.many p) c t d
  | manyNext {α : Type} {p : Peg R α} {c d e : Cursor} {t : Token} {a : α} :
      Derives grammar p c (some (a, e)) → Tries grammar (.many p) e t d →
      Tries grammar (.many p) c t d
  | option {α : Type} {p : Peg R α} {c d : Cursor} {t : Token} :
      Tries grammar p c t d → Tries grammar (.option p) c t d
  | map {α β : Type} {f : α → β} {p : Peg R α} {c d : Cursor} {t : Token} :
      Tries grammar p c t d → Tries grammar (.map f p) c t d

/-- The last step of a try, by the form of the parsing expression. -/
def LastTry (grammar : (α : Type) → R α → Peg R α) :
    {α : Type} → Peg R α → Cursor → Token → Cursor → Prop
  | _, .token u, c, t, d => t = u ∧ d = skipLayout c
  | _, .rule r, c, t, d => Tries grammar (grammar _ r) c t d
  | _, .seq p q, c, t, d => Tries grammar p c t d ∨
      ∃ a e, Derives grammar p c (some (a, e)) ∧ Tries grammar q e t d
  | _, .choice p q, c, t, d =>
    Tries grammar p c t d ∨ Derives grammar p c none ∧ Tries grammar q c t d
  | _, .many p, c, t, d => Tries grammar p c t d ∨
      ∃ a e, Derives grammar p c (some (a, e)) ∧ Tries grammar p.many e t d
  | _, .option p, c, t, d => Tries grammar p c t d
  | _, .map _ p, c, t, d => Tries grammar p c t d

theorem Tries.lastTry {α : Type} {p : Peg R α} {c d : Cursor} {t : Token}
    (h : Tries grammar p c t d) : LastTry grammar p c t d := by
  cases h with
  | token => exact ⟨rfl, rfl⟩
  | rule h => exact h
  | seqFirst h => exact .inl h
  | seqSecond hp h => exact .inr ⟨_, _, hp, h⟩
  | choiceFirst h => exact .inl h
  | choiceSecond hp h => exact .inr ⟨hp, h⟩
  | manyFirst h => exact .inl h
  | manyNext hp h => exact .inr ⟨_, _, hp, h⟩
  | option h => exact h
  | map h => exact h

section Forms

variable {α β : Type} {p : Peg R α} {q : Peg R β} {c d e : Cursor} {t : Token} {a : α}

theorem tries_seq (hp : Derives grammar p c (some (a, e))) :
    Tries grammar (p.seq q) c t d ↔ Tries grammar p c t d ∨ Tries grammar q e t d := by
  constructor
  · intro h
    obtain h | ⟨a', e', hp', h⟩ := h.lastTry
    · exact .inl h
    · cases hp.unique hp'
      exact .inr h
  · rintro (h | h)
    · exact .seqFirst h
    · exact .seqSecond hp h

theorem tries_seq_none (hp : Derives grammar p c none) :
    Tries grammar (p.seq q) c t d ↔ Tries grammar p c t d := by
  constructor
  · intro h
    obtain h | ⟨a', e', hp', _⟩ := h.lastTry
    · exact h
    · cases hp.unique hp'
  · exact .seqFirst

theorem tries_choice {q : Peg R α} (hp : Derives grammar p c (some (a, e))) :
    Tries grammar (p.choice q) c t d ↔ Tries grammar p c t d := by
  constructor
  · intro h
    obtain h | ⟨hp', _⟩ := h.lastTry
    · exact h
    · cases hp.unique hp'
  · exact .choiceFirst

theorem tries_choice_none {q : Peg R α} (hp : Derives grammar p c none) :
    Tries grammar (p.choice q) c t d ↔ Tries grammar p c t d ∨ Tries grammar q c t d := by
  constructor
  · intro h
    exact h.lastTry.imp id And.right
  · rintro (h | h)
    · exact .choiceFirst h
    · exact .choiceSecond hp h

theorem tries_many (hp : Derives grammar p c (some (a, e))) :
    Tries grammar p.many c t d ↔ Tries grammar p c t d ∨ Tries grammar p.many e t d := by
  constructor
  · intro h
    obtain h | ⟨a', e', hp', h⟩ := h.lastTry
    · exact .inl h
    · cases hp.unique hp'
      exact .inr h
  · rintro (h | h)
    · exact .manyFirst h
    · exact .manyNext hp h

theorem tries_many_none (hp : Derives grammar p c none) :
    Tries grammar p.many c t d ↔ Tries grammar p c t d := by
  constructor
  · intro h
    obtain h | ⟨a', e', hp', _⟩ := h.lastTry
    · exact h
    · cases hp.unique hp'
  · exact .manyFirst

end Forms

/-! ## Places of one text -/

section Text

variable (origin : String) (text : List Char)

/-- A place of a text, up to its end. -/
def Cursor.Within (c : Cursor) : Prop := c.offset ≤ text.length ∧ c = cursorAt origin text c.offset

variable {origin text} {c d : Cursor}

theorem Cursor.within_start : (Cursor.start origin text).Within origin text := ⟨Nat.zero_le _, rfl⟩

theorem Cursor.Within.rest_eq (h : c.Within origin text) : c.rest = text.drop c.offset := by
  conv_lhs => rw [h.2]
  exact cursorAt_rest ..

theorem Cursor.Within.eq (hc : c.Within origin text) (hd : d.Within origin text)
    (h : c.offset = d.offset) : c = d := by
  rw [hc.2, hd.2, h]

theorem Cursor.Within.advance (hc : c.Within origin text) {n : Nat} (hn : n ≤ c.rest.length) :
    (c.advance n).Within origin text := by
  have hoffset := Cursor.advance_offset c hn
  have hlength : c.offset + n ≤ text.length := by
    rw [hc.rest_eq, List.length_drop] at hn
    have := hc.1
    omega
  refine ⟨by rw [hoffset]; exact hlength, ?_⟩
  rw [hoffset, cursorAt_add, ← hc.2]

theorem Ahead.within {strictly : Bool} (h : Ahead strictly c d) (hc : c.Within origin text) :
    d.Within origin text := by
  obtain ⟨n, rfl, hn, -⟩ := h
  exact hc.advance hn

theorem Ahead.offset_le {strictly : Bool} (h : Ahead strictly c d) : c.offset ≤ d.offset := by
  obtain ⟨n, rfl, hn, -⟩ := h
  rw [Cursor.advance_offset c hn]
  exact Nat.le_add_right ..

theorem ahead_skipLayout (c : Cursor) : Ahead false c (skipLayout c) := by
  obtain ⟨xs, hx⟩ := exists_skips c
  refine ⟨xs.length, hx.place, ?_, nofun⟩
  rw [hx.split, List.length_append]
  exact Nat.le_add_right ..

theorem settled_skipLayout (c : Cursor) : Settled (skipLayout c).rest := by
  obtain ⟨xs, hx⟩ := exists_skips c
  exact hx.settled

theorem lineCommentLength?_comment {cs : List Char} {n : Nat} (h : lineCommentLength? cs = some n) :
    commentLength? cs = some n := by
  unfold lineCommentLength? at h
  split at h
  · exact h
  · cases h

theorem ahead_skipBlanks (c : Cursor) : Ahead false c (skipBlanks c) :=
  ⟨_, rfl, (List.takeWhile_sublist _).length_le, nofun⟩

theorem skipLayout_skipBlanks (c : Cursor) : skipLayout (skipBlanks c) = skipLayout c := by
  generalize hn : c.rest = cs
  induction cs generalizing c with
  | nil => rw [skipBlanks_of_settled (by simp [hn])]
  | cons ch cs ih =>
    by_cases hch : isLayout ch
    · rw [skipBlanks_blank hn hch, skipLayout_blank hn hch]
      exact ih _ (by simp [hn])
    · rw [skipBlanks_of_settled (by simpa [hn] using hch)]

/-- Over blanks and line comments alone no token place is passed. -/
theorem skipLayout_skipWith (fuel : Nat) (c : Cursor) :
    Ahead false c (skipWith lineCommentLength? fuel c) ∧
      skipLayout (skipWith lineCommentLength? fuel c) = skipLayout c := by
  induction fuel generalizing c with
  | zero => exact ⟨ahead_skipBlanks c, skipLayout_skipBlanks c⟩
  | succ fuel ih =>
    rw [skipWith]
    split
    · exact ⟨ahead_skipBlanks c, skipLayout_skipBlanks c⟩
    · rename_i n hn
      have hcomment := lineCommentLength?_comment hn
      have hstep : Ahead false (skipBlanks c) ((skipBlanks c).advance n) :=
        ⟨n, rfl, (commentLength?_pos hcomment).2, fun h => absurd h Bool.false_ne_true⟩
      obtain ⟨hahead, hskip⟩ := ih ((skipBlanks c).advance n)
      refine ⟨(ahead_skipBlanks c).trans (hstep.trans hahead), ?_⟩
      rw [hskip, ← skipLayout_comment hcomment, skipLayout_skipBlanks]

end Text

/-! ## The record of failures -/

section Record

variable (origin : String) (text : List Char)

/-- A record of failures is about a place of the text where tokens start, and about what does not
match there. Before any token was tried a block comment may still be ahead. -/
structure Furthest.Sound (f : Furthest) : Prop where
  within : f.place.Within origin text
  settled : Settled f.place.rest ∨ f.place = skipLineComments (Cursor.start origin text)
  nonempty : f.expected ≠ []
  nodup : f.expected.Nodup
  missing : ∀ t, .token t ∈ f.expected → t.length? f.place.rest = none

/-- What a part of a run, which tries the tokens `tries` from `c` on and ends at `o`, makes of the
record of failures. -/
structure Records (tries : Token → Cursor → Prop) (c : Cursor) (f : Furthest) (o : Option Cursor)
    (f' : Furthest) : Prop where
  sound : f'.Sound origin text
  grows : f.place.offset ≤ f'.place.offset
  keeps : f.place.offset = f'.place.offset → ∀ x ∈ f.expected, x ∈ f'.expected
  /-- What is listed was listed before, or is tried at the place. -/
  listed : ∀ t, .token t ∈ f'.expected →
    f'.place = f.place ∧ .token t ∈ f.expected ∨ tries t f'.place
  missed : ∀ t d, tries t d → t.length? d.rest = none →
    d.offset ≤ f'.place.offset ∧ (d.offset = f'.place.offset → .token t ∈ f'.expected)
  /-- A token that matches ends before the furthest failure, or else before the end of the part. -/
  taken : ∀ t d n, tries t d → t.length? d.rest = some n →
    d.offset + n ≤ f'.place.offset ∨ ∃ e, o = some e ∧ d.offset + n ≤ e.offset
  forward : ∀ e, o = some e → c.offset ≤ e.offset
  failed : o = none → c.offset ≤ f'.place.offset

variable {origin text} {f f₁ f₂ : Furthest} {c d e : Cursor} {o : Option Cursor}
  {tries tries' : Token → Cursor → Prop}

/-! ### A token -/

section Note

variable {x : Expectation}

theorem Furthest.note_of_lt (h : f.place.offset < d.offset) : f.note x d = ⟨d, [x]⟩ := if_pos h

theorem Furthest.note_of_gt (h : d.offset < f.place.offset) : f.note x d = f := by
  rw [Furthest.note, if_neg (by omega), if_pos (by simp [h])]

theorem Furthest.note_of_mem (h : d.offset = f.place.offset) (hx : x ∈ f.expected) :
    f.note x d = f := by
  rw [Furthest.note, if_neg (by omega), if_pos (by simp [hx])]

theorem Furthest.note_of_not_mem (h : d.offset = f.place.offset) (hx : x ∉ f.expected) :
    f.note x d = { f with expected := f.expected ++ [x] } := by
  rw [Furthest.note, if_neg (by omega), if_neg (by simp [hx, h])]

end Note

/-- A token that is missing is noted. -/
theorem Records.note {t : Token} (hf : f.Sound origin text) (hd : d.Within origin text)
    (hs : Settled d.rest) (hmissing : t.length? d.rest = none) (hle : c.offset ≤ d.offset) :
    Records origin text (fun u e => u = t ∧ e = d) c f none (f.note (.token t) d) := by
  have htaken : ∀ (u : Token) (e : Cursor) (n : Nat), u = t ∧ e = d →
      ¬ u.length? e.rest = some n := by
    rintro u e n ⟨rfl, rfl⟩ hn
    rw [hmissing] at hn
    cases hn
  have hforward : ∀ e : Cursor, none = some e → c.offset ≤ e.offset := by
    intro e he
    cases he
  rcases Nat.lt_trichotomy d.offset f.place.offset with h | h | h
  · rw [Furthest.note_of_gt h]
    refine ⟨hf, Nat.le_refl _, fun _ _ hx => hx, fun u hu => .inl ⟨rfl, hu⟩, ?_,
      fun u e n hu hn => absurd hn (htaken u e n hu), hforward, fun _ => hle.trans h.le⟩
    rintro u e ⟨rfl, rfl⟩ _
    exact ⟨h.le, fun he => absurd he h.ne⟩
  · have hplace : f.place = d := hf.within.eq hd h.symm
    by_cases hx : .token t ∈ f.expected
    · rw [Furthest.note_of_mem h hx]
      refine ⟨hf, Nat.le_refl _, fun _ _ hx => hx, fun u hu => .inl ⟨rfl, hu⟩, ?_,
        fun u e n hu hn => absurd hn (htaken u e n hu), hforward, fun _ => hle.trans h.le⟩
      rintro u e ⟨rfl, rfl⟩ _
      exact ⟨h.le, fun _ => hx⟩
    · rw [Furthest.note_of_not_mem h hx]
      refine ⟨⟨hf.within, hf.settled, by simp, ?_, ?_⟩, Nat.le_refl _,
        fun _ _ => List.mem_append_left _, ?_, ?_,
        fun u e n hu hn => absurd hn (htaken u e n hu), hforward, fun _ => hle.trans h.le⟩
      · exact List.nodup_append.mpr ⟨hf.nodup, by simp, fun a ha b hb he => hx (by simp_all)⟩
      · intro u hu
        rcases List.mem_append.mp hu with hu | hu
        · exact hf.missing u hu
        · cases List.mem_singleton.mp hu
          rw [hplace]
          exact hmissing
      · intro u hu
        rcases List.mem_append.mp hu with hu | hu
        · exact .inl ⟨rfl, hu⟩
        · cases List.mem_singleton.mp hu
          exact .inr ⟨rfl, hplace⟩
      · rintro u e ⟨rfl, rfl⟩ _
        exact ⟨h.le, fun _ => List.mem_append_right _ (List.mem_singleton_self _)⟩
  · rw [Furthest.note_of_lt h]
    refine ⟨⟨hd, .inl hs, by simp, by simp, ?_⟩, h.le, fun he => absurd he h.ne, ?_, ?_,
      fun u e n hu hn => absurd hn (htaken u e n hu), hforward, fun _ => hle⟩
    · intro u hu
      cases List.mem_singleton.mp hu
      exact hmissing
    · intro u hu
      cases List.mem_singleton.mp hu
      exact .inr ⟨rfl, rfl⟩
    · rintro u e ⟨rfl, rfl⟩ _
      exact ⟨Nat.le_refl _, fun _ => List.mem_singleton_self _⟩

/-- A token that matches leaves the record as it is. -/
theorem Records.take {t : Token} {n : Nat} (hf : f.Sound origin text)
    (hn : t.length? d.rest = some n) (hle : c.offset ≤ d.offset) :
    Records origin text (fun u e => u = t ∧ e = d) c f (some (d.advance n)) f := by
  have hoffset := Cursor.advance_offset d (Token.length?_bounds hn).1
  refine ⟨hf, Nat.le_refl _, fun _ _ hx => hx, fun u hu => .inl ⟨rfl, hu⟩, ?_, ?_, ?_, nofun⟩
  · rintro u e ⟨rfl, rfl⟩ hnone
    rw [hn] at hnone
    cases hnone
  · rintro u e m ⟨rfl, rfl⟩ hm
    rw [hn] at hm
    cases hm
    exact .inr ⟨_, rfl, hoffset.ge⟩
  · rintro e ⟨⟩
    omega

/-! ### Parts after one another -/

theorem Records.congr (h : Records origin text tries c f o f₁)
    (he : ∀ t d, tries' t d ↔ tries t d) : Records origin text tries' c f o f₁ := by
  have : tries' = tries := funext fun t => funext fun d => propext (he t d)
  rwa [this]

/-- A part that fails, for one that takes nothing. -/
theorem Records.giveUp (h : Records origin text tries c f none f₁) :
    Records origin text tries c f (some c) f₁ :=
  { h with
    taken := fun t d n ht hn => by
      obtain hle | ⟨e, he, _⟩ := h.taken t d n ht hn
      · exact .inl hle
      · cases he
    forward := by
      rintro e ⟨⟩
      exact Nat.le_refl _
    failed := nofun }

/-- Two parts one after the other. The second starts where the first one ended, or again where it
started if the first one failed. -/
theorem Records.next {o₁ : Option Cursor} (h : Records origin text tries c f o₁ f₁)
    (h' : Records origin text tries' (o₁.getD c) f₁ o f₂) :
    Records origin text (fun t e => tries t e ∨ tries' t e) c f o f₂ := by
  have hgrows := h.grows
  have hgrows' := h'.grows
  have hstart : c.offset ≤ (o₁.getD c).offset := by
    cases o₁ with
    | none => exact Nat.le_refl _
    | some d => exact h.forward d rfl
  refine ⟨h'.sound, hgrows.trans hgrows', ?_, ?_, ?_, ?_, ?_, ?_⟩
  · intro he x hx
    exact h'.keeps (by omega) x (h.keeps (by omega) x hx)
  · intro t ht
    obtain ⟨hplace, ht⟩ | ht := h'.listed t ht
    · rw [hplace]
      exact (h.listed t ht).imp_right .inl
    · exact .inr (.inr ht)
  · rintro t d (ht | ht) hnone
    · obtain ⟨hle, hmem⟩ := h.missed t d ht hnone
      exact ⟨hle.trans hgrows', fun he => h'.keeps (by omega) _ (hmem (by omega))⟩
    · exact h'.missed t d ht hnone
  · rintro t d n (ht | ht) hn
    · obtain hle | ⟨e, rfl, hle⟩ := h.taken t d n ht hn
      · exact .inl (hle.trans hgrows')
      · -- the second part starts after the token
        cases o with
        | none => exact .inl (hle.trans (h'.failed rfl))
        | some e' => exact .inr ⟨e', rfl, hle.trans (h'.forward e' rfl)⟩
    · exact h'.taken t d n ht hn
  · intro e he
    exact hstart.trans (h'.forward e he)
  · intro ho
    exact hstart.trans (h'.failed ho)

/-! ### Runs -/

variable {R : Type → Type} {grammar : (α : Type) → R α → Peg R α}

/-- A run keeps the record of the tokens that a parsing expression tries. -/
def Tracks (grammar : (α : Type) → R α → Peg R α) (origin : String) (text : List Char) {α : Type}
    (p : Peg R α) (c : Cursor) (run : Run α) : Prop :=
  ∀ f : Furthest, f.Sound origin text →
    Records origin text (Tries grammar p c) c f ((run c f).1.map Prod.snd) (run c f).2

theorem Tracks.token {t : Token} (hc : c.Within origin text) :
    Tracks grammar origin text (.token t) c (Run.token t) := by
  intro f hf
  have hle := (ahead_skipLayout c).offset_le
  have htries : ∀ u d, Tries grammar (.token t) c u d ↔ u = t ∧ d = skipLayout c := by
    intro u d
    constructor
    · exact Tries.lastTry
    · rintro ⟨rfl, rfl⟩
      exact .token
  simp only [Run.token]
  cases hn : t.length? (skipLayout c).rest with
  | none =>
    exact (Records.note hf ((ahead_skipLayout c).within hc) (settled_skipLayout c) hn hle).congr
      htries
  | some n => exact (Records.take hf hn hle).congr htries

theorem Tracks.of_manyFrom (hg : Progressive grammar) {α : Type} {p : Peg R α} (hp : p.consumes)
    {run : Run α} {depth : Nat} (hderives : ∀ c f, Room p c depth → Derives grammar p c (run c f).1)
    (ih : ∀ c, Room p c depth → c.Within origin text → Tracks grammar origin text p c run)
    {fuel : Nat} (hfuel : c.rest.length < fuel) (hr : Room p c depth) (hc : c.Within origin text)
    (hf : f.Sound origin text) :
    Records origin text (Tries grammar p.many c) c f (some (Run.manyFrom run fuel c f).1.2)
      (Run.manyFrom run fuel c f).2 := by
  induction fuel generalizing c f with
  | zero => omega
  | succ fuel ihf =>
    have h := hderives c f hr
    have hrecords := ih c hr hc f hf
    simp only [Run.manyFrom]
    rcases hrun : run c f with ⟨_ | ⟨a, d⟩, f'⟩ <;> rw [hrun] at h hrecords
    · exact hrecords.giveUp.congr fun t d => tries_many_none h
    · have hd := h.ahead hg a d rfl
      have hwithin := hd.within hc
      rw [hp] at hd
      have hlt := hd.length_lt
      have htail := ihf (c := d) (f := f') (by omega) (hr.imp id (by omega)) hwithin hrecords.sound
      exact (hrecords.next htail).congr fun t e => tries_many h

/-- A run keeps the record of what is tried if its rules do. -/
theorem Tracks.of_rules (hg : Progressive grammar) {rules : (α : Type) → R α → Run α} {depth : Nat}
    (hderives : ∀ {β} (r : R β) {c : Cursor}, c.rest.length < depth →
      ∀ f, Derives grammar (.rule r) c (rules β r c f).1)
    (hrules : ∀ {β} (r : R β) {c : Cursor}, c.rest.length < depth → c.Within origin text →
      Tracks grammar origin text (.rule r) c (rules β r))
    {α : Type} {p : Peg R α} {c : Cursor} (hs : p.steady) (hr : Room p c depth)
    (hc : c.Within origin text) : Tracks grammar origin text p c (p.run rules) := by
  induction p generalizing c with
  | token t => exact .token hc
  | rule r =>
    obtain h | ⟨h, _⟩ := hr
    · exact hrules r h hc
    · cases h
  | seq p q ihp ihq =>
    intro f hf
    obtain ⟨hsp, hsq⟩ := Bool.and_eq_true_iff.mp hs
    have hrp := hr.imp (q := p) (fun h => (Bool.and_eq_true_iff.mp h).1) (Nat.le_refl _)
    have hp := Derives.of_rules hg hderives hsp hrp f
    have h := ihp hsp hrp hc f hf
    simp only [Peg.run, Run.seq]
    rcases hrun : p.run rules c f with ⟨_ | ⟨a, d⟩, f'⟩ <;> rw [hrun] at hp h
    · exact h.congr fun t d => tries_seq_none hp
    · have hd := hp.ahead hg a d rfl
      have h' := ihq hsq (hr.second hd) (hd.within hc) f' h.sound
      have hnext := (h.next h').congr fun t e => tries_seq (t := t) (d := e) hp
      simp only
      rcases hrun' : q.run rules d f' with ⟨_ | ⟨b, e⟩, f''⟩ <;> rw [hrun'] at hnext <;> exact hnext
  | choice p q ihp ihq =>
    intro f hf
    obtain ⟨hsp, hsq⟩ := Bool.and_eq_true_iff.mp hs
    have hrp := hr.imp (q := p) (fun h => (Bool.and_eq_true_iff.mp h).1) (Nat.le_refl _)
    have hrq := hr.imp (q := q) (fun h => (Bool.and_eq_true_iff.mp h).2) (Nat.le_refl _)
    have hp := Derives.of_rules hg hderives hsp hrp f
    have h := ihp hsp hrp hc f hf
    simp only [Peg.run, Run.choice]
    rcases hrun : p.run rules c f with ⟨_ | ⟨a, d⟩, f'⟩ <;> rw [hrun] at hp h
    · exact (h.next (ihq hsq hrq hc f' h.sound)).congr fun t e => tries_choice_none hp
    · exact h.congr fun t e => tries_choice hp
  | many p ih =>
    intro f hf
    obtain ⟨hc', hsp⟩ := Bool.and_eq_true_iff.mp hs
    exact Tracks.of_manyFrom hg hc' (fun c f hr => Derives.of_rules hg hderives hsp hr f)
      (fun c hr hc => ih hsp hr hc) (Nat.lt_succ_self _) (hr.imp id (Nat.le_refl _)) hc hf
  | option p ih =>
    intro f hf
    have h := (ih hs (hr.imp id (Nat.le_refl _)) hc f hf).congr
      fun t d => (⟨Tries.lastTry, .option⟩ : Tries grammar p.option c t d ↔ Tries grammar p c t d)
    simp only [Peg.run, Run.option]
    rcases hrun : p.run rules c f with ⟨_ | ⟨a, d⟩, f'⟩ <;> rw [hrun] at h
    · exact h.giveUp
    · exact h
  | map g p ih =>
    intro f hf
    have h := (ih hs (hr.imp id (Nat.le_refl _)) hc f hf).congr
      fun t d => (⟨Tries.lastTry, .map⟩ : Tries grammar (p.map g) c t d ↔ Tries grammar p c t d)
    simp only [Peg.run, Run.map]
    rcases hrun : p.run rules c f with ⟨_ | ⟨a, d⟩, f'⟩ <;> rw [hrun] at h <;> exact h

theorem Tracks.of_ruleRun (hg : Progressive grammar) {depth : Nat} {α : Type} (r : R α)
    (hdepth : c.rest.length < depth) (hc : c.Within origin text) :
    Tracks grammar origin text (.rule r) c (ruleRun grammar depth α r) := by
  induction depth generalizing α r c with
  | zero => omega
  | succ depth ih =>
    have hroom : Room (grammar α r) c depth := .inr ⟨hg.guarded r, by omega⟩
    have h :=
      Tracks.of_rules hg (fun r _ hc f => .of_ruleRun hg r hc f) (fun r _ hd hc => ih r hd hc)
      (hg.steady r) hroom hc
    intro f hf
    exact (h f hf).congr fun t d => ⟨Tries.lastTry, .rule⟩

end Record

/-! ## The place of an error -/

section Errors

variable {origin : String} {text : List Char}

theorem Furthest.sound_start : (Furthest.start (Cursor.start origin text)).Sound origin text where
  within := (skipLayout_skipWith _ _).1.within Cursor.within_start
  settled := .inr rfl
  nonempty := by simp [Furthest.start]
  nodup := by simp [Furthest.start]
  missing t ht := by cases List.mem_singleton.mp ht

theorem records_runProgram (origin : String) (text : List Char) :
    Records origin text (Tries Grammar.grammar program (Cursor.start origin text))
      (Cursor.start origin text)
      (Furthest.start (Cursor.start origin text)) ((runProgram origin text).1.map Prod.snd)
      (runProgram origin text).2 := by
  have htracks : Tracks Grammar.grammar origin text program (Cursor.start origin text)
      (program.run (ruleRun Grammar.grammar (text.length + 1))) :=
    .of_rules grammar_progressive (fun r _ hc f => .of_ruleRun grammar_progressive r hc f)
      (fun r _ hd hc => .of_ruleRun grammar_progressive r hd hc) rfl (.inl (Nat.lt_succ_self _))
      Cursor.within_start
  exact htracks _ Furthest.sound_start

/-- The first token that is tried is the word that starts a loop. -/
theorem tries_wordFor (c : Cursor) : Tries Grammar.grammar program c .wordFor (skipLayout c) :=
  .map (.seqFirst (.map (.seqFirst (.rule (.choiceFirst (.map (.seqFirst .token)))))))

/-- A run that fails leaves its record at a place where a token could start: the first token was
tried after all comments. -/
theorem settled_runProgram {f : Furthest} (h : runProgram origin text = (none, f)) :
    Settled f.place.rest := by
  have hrecords := records_runProgram origin text
  rw [h] at hrecords
  obtain hs | hplace := hrecords.sound.settled
  · exact hs
  obtain ⟨hahead, hskip⟩ := skipLayout_skipWith text.length (Cursor.start origin text)
  have hfirst : (skipLayout (Cursor.start origin text)).offset ≤ f.place.offset := by
    cases hn : Token.wordFor.length? (skipLayout (Cursor.start origin text)).rest with
    | none => exact (hrecords.missed _ _ (tries_wordFor _) hn).1
    | some n =>
      obtain hle | ⟨e, he, _⟩ := hrecords.taken _ _ n (tries_wordFor _) hn
      · exact (Nat.le_add_right ..).trans hle
      · cases he
  have hlast : f.place.offset ≤ (skipLayout (Cursor.start origin text)).offset := by
    rw [hplace]
    exact hskip ▸ (ahead_skipLayout _).offset_le
  have hsame : f.place = skipLayout (Cursor.start origin text) :=
    hrecords.sound.within.eq ((ahead_skipLayout _).within Cursor.within_start)
      (hlast.antisymm hfirst)
  rw [hsame]
  exact settled_skipLayout _

theorem Expectation.label_injective : Function.Injective Expectation.label := by
  intro x y h
  revert h
  rcases x with _ | t <;> rcases y with _ | u
  · decide
  · cases u <;> decide
  · cases t <;> decide
  · cases t <;> cases u <;> decide

/-- A text is refused if its run fails, with the error of the run's record. -/
theorem parse_eq_error {origin text : String} {e : ParseError} : parse origin text = .error e ↔
    (runProgram origin text.toList).1 = none ∧
    e = (runProgram origin text.toList).2.toError text.toList := by
  unfold parse
  rcases runProgram origin text.toList with ⟨_ | ⟨ss, d⟩, f⟩
  · constructor
    · intro h
      cases h
      exact ⟨rfl, rfl⟩
    · rintro ⟨-, rfl⟩
      rfl
  · constructor
    · intro h
      cases h
    · rintro ⟨h, -⟩
      cases h

/-- What is expected takes `w` of `w ++ rest`. -/
def Expectation.Takes : Expectation → List Char → List Char → Prop
  | .lineComment, w, rest => Comment w rest ∧ ['/', '/'] <+: w
  | .token t, w, rest => t.Longest w rest

/-- An error is about an offset of the text: no token that was tried while the text was parsed went
past it, and nothing that was tried there matches. -/
structure ParseError.PointsAt (e : ParseError) (origin : String) (text : List Char) (p : Nat) :
    Prop where
  within : p ≤ text.length
  place : (e.line, e.column) = lineColumn text p
  message : e.message = "Expected " ++ " or ".intercalate (e.expected.map Expectation.label) ++
    " at position (" ++ toString (lineColumn text p).1 ++ ", " ++ toString (lineColumn text p).2 ++
    ") => '" ++
    String.ofList (flatten ((text.take p).drop (p - 10) ++ '*' :: (text.drop p).take 10)) ++ "'."
  /-- The offset is not within what stands between tokens. -/
  layout : ∀ ch ∈ (text.drop p).head?, isLayout ch = false
  comment : ∀ w rest, text.drop p = w ++ rest → ¬ Comment w rest
  taken : ∀ t c w rest, Tries Grammar.grammar program (Cursor.start origin text) t c →
    c.rest = w ++ rest → t.Longest w rest → c.offset + w.length ≤ p
  nonempty : e.expected ≠ []
  nodup : (e.expected.map Expectation.label).Nodup
  missing : ∀ x ∈ e.expected, ∀ w rest, text.drop p = w ++ rest → ¬ x.Takes w rest
  eof : .token .eof ∈ e.expected → p < text.length
  /-- The tokens that are named are all that were tried there. -/
  listed : ∀ t, .token t ∈ e.expected ↔
    Tries Grammar.grammar program (Cursor.start origin text) t (cursorAt origin text p) ∧
      ∀ w rest, text.drop p = w ++ rest → ¬ t.Longest w rest

/-- A text is refused at the furthest place that its parse came to, through all alternatives. -/
theorem parse_error_furthest {origin text : String} {e : ParseError}
    (h : parse origin text = .error e) : ∃ p, e.PointsAt origin text.toList p := by
  obtain ⟨hnone, rfl⟩ := parse_eq_error.mp h
  have hrecords := records_runProgram origin text.toList
  have hsettled := settled_runProgram (f := (runProgram origin text.toList).2) (Prod.ext hnone rfl)
  rw [hnone] at hrecords
  generalize (runProgram origin text.toList).2 = f at hrecords hsettled
  have hwithin := hrecords.sound.within
  obtain ⟨hline, hcolumn⟩ := cursorAt_line_column origin text.toList f.place.offset
  rw [← hwithin.2] at hline hcolumn
  rw [hwithin.rest_eq] at hsettled
  have hmissing : ∀ t, .token t ∈ f.expected →
      ∀ w rest, text.toList.drop f.place.offset = w ++ rest → ¬ t.Longest w rest := by
    intro t ht
    have := hrecords.sound.missing t ht
    rwa [hwithin.rest_eq, Token.length?_eq_none_iff] at this
  refine ⟨f.place.offset, hwithin.1, Prod.ext hline hcolumn, ?_, (settled_iff.mp hsettled).1,
    (settled_iff.mp hsettled).2, ?_, hrecords.sound.nonempty,
    hrecords.sound.nodup.map Expectation.label_injective, ?_, ?_, ?_⟩
  · rw [← hline, ← hcolumn, ← hwithin.rest_eq]
    rfl
  · intro t c w rest htries hc hw
    obtain hle | ⟨d, hd, _⟩ := hrecords.taken t c w.length htries (hc ▸ Token.longest_iff.mp hw)
    · exact hle
    · cases hd
  · intro x hx w rest hrest htakes
    cases x with
    | lineComment => exact (settled_iff.mp hsettled).2 w rest hrest htakes.1
    | token t => exact hmissing t hx w rest hrest htakes
  · intro heof
    refine hwithin.1.lt_of_ne fun he => hmissing _ heof [] [] ?_ (Token.longest_eof.mpr ⟨rfl, rfl⟩)
    rw [he, List.drop_length]
    rfl
  · intro t
    constructor
    · intro ht
      refine ⟨?_, hmissing t ht⟩
      obtain ⟨_, hstart⟩ | htries := hrecords.listed t ht
      · cases List.mem_singleton.mp hstart
      · rwa [← hwithin.2]
    · rintro ⟨htries, hnot⟩
      rw [← hwithin.2] at htries
      refine (hrecords.missed t _ htries ?_).2 rfl
      rw [hwithin.rest_eq]
      exact Token.length?_eq_none_iff.mpr hnot

/-- The text is first read as an assignment, up to the parenthesis, and then as a call. -/
theorem parse_error_furthest_call : ∃ e, parse "" "/* f */ f(1, 2 // f\n g" = .error e ∧
    e.expected.map Expectation.label =
      ["TOK_MULTIPLY", "TOK_DIVIDE", "TOK_ADD", "TOK_SUBTRACT", "TOK_COMMA", "TOK_ENDPAREN"] ∧
    ∃ p, e.PointsAt "" "/* f */ f(1, 2 // f\n g".toList p := by
  have hrun : (runProgram "" "/* f */ f(1, 2 // f\n g".toList).1.isNone := by decide +kernel
  have h := parse_eq_error.mpr ⟨Option.isNone_iff_eq_none.mp hrun, rfl⟩
  exact ⟨_, h, by decide +kernel, parse_error_furthest h⟩

end Errors

end PolarPlot.Grammar

import PolarPlot.Grammar.Token

/-!
# What stands between tokens

`Filler` is the text that may separate tokens: blanks, block comments, and line comments with the
line feed that ends them. Skipping goes over any filler (`Filler.skipLayout`), stops at a text that
is settled (`skipLayout_of_settled`), and what it goes over is a filler again, except that a line
comment may be left open at the end of the text (`exists_skips`).
-/

namespace PolarPlot.Grammar

/-! ## Cursors -/

namespace Cursor

variable (c : Cursor)

@[simp] theorem advance_zero : advance 0 c = c := by
  simp [advance]

theorem advance_nil (h : c.rest = []) (n : Nat) : advance n c = c := by
  cases n <;> simp [advance, h]

theorem advance_add (m n : Nat) : advance (m + n) c = advance n (advance m c) := by
  induction m generalizing c with
  | zero => simp
  | succ m ih =>
    cases h : c.rest with
    | nil => rw [advance_nil c h, advance_nil c h, advance_nil c h]
    | cons ch rest =>
      rw [Nat.add_right_comm]
      simp only [advance, h]
      split <;> exact ih _

@[simp] theorem advance_rest (n : Nat) : (advance n c).rest = c.rest.drop n := by
  induction n generalizing c with
  | zero => simp
  | succ n ih =>
    cases h : c.rest with
    | nil => simp [advance, h]
    | cons ch rest =>
      simp only [advance, h, List.drop_succ_cons]
      split <;> rw [ih]

@[simp] theorem advance_origin (n : Nat) : (advance n c).origin = c.origin := by
  induction n generalizing c with
  | zero => simp
  | succ n ih =>
    cases h : c.rest with
    | nil => simp [advance, h]
    | cons ch rest =>
      simp only [advance, h]
      split <;> rw [ih]

theorem advance_offset {n : Nat} (h : n ≤ c.rest.length) :
    (advance n c).offset = c.offset + n := by
  induction n generalizing c with
  | zero => simp
  | succ n ih =>
    cases hr : c.rest with
    | nil => simp [hr] at h
    | cons ch rest =>
      have hn : n ≤ rest.length := by simpa [hr] using h
      simp only [advance, hr]
      split <;> rw [ih _ hn] <;> simp <;> omega

end Cursor

/-! ## Comments -/

/-- A text at which skipping stops: neither a blank nor a comment is at its start. -/
def Settled (cs : List Char) : Prop :=
  (∀ ch ∈ cs.head?, isLayout ch = false) ∧ commentLength? cs = none

/-- A text without `*/`, also where the `*` of a following `*/` begins one. -/
def Unclosed (body : List Char) : Prop := ¬ ['*', '/'] <:+: body ++ ['*']

theorem blockEnd?_append {body : List Char} (h : Unclosed body) (rest : List Char) :
    blockEnd? (body ++ '*' :: '/' :: rest) = some (body.length + 2) := by
  induction body with
  | nil => rfl
  | cons c body ih =>
    simp only [Unclosed, List.cons_append, List.infix_cons_iff, not_or] at h
    -- the pattern `*/` cannot be at the start: its slash would have to be in the body
    have hne : ∀ r, c :: (body ++ '*' :: '/' :: rest) = '*' :: '/' :: r → False := by
      intro r he
      obtain ⟨rfl, htail⟩ := List.cons.inj he
      cases body with
      | nil => simp at htail
      | cons d body =>
        obtain ⟨rfl, _⟩ := List.cons.inj htail
        exact h.1 ⟨body ++ ['*'], rfl⟩
    rw [List.cons_append, blockEnd?.eq_2 _ _ (fun r hc hr => hne r (by rw [hc, hr])), ih h.2]
    simp

theorem blockEnd?_eq_some {cs : List Char} {n : Nat} (h : blockEnd? cs = some n) :
    ∃ body rest, cs = body ++ '*' :: '/' :: rest ∧ n = body.length + 2 ∧ Unclosed body := by
  fun_induction blockEnd? cs generalizing n with
  | case1 rest =>
    cases h
    exact ⟨[], rest, rfl, rfl, by unfold Unclosed; decide⟩
  | case2 c cs hn ih =>
    obtain ⟨k, hk, rfl⟩ := Option.map_eq_some_iff.mp h
    obtain ⟨body, rest, rfl, rfl, hb⟩ := ih hk
    refine ⟨c :: body, rest, rfl, by simp, ?_⟩
    simp only [Unclosed, List.cons_append, List.infix_cons_iff, not_or]
    refine ⟨?_, hb⟩
    rintro ⟨r, hr⟩
    obtain ⟨rfl, htail⟩ := List.cons.inj hr
    cases body with
    | nil => simp at htail
    | cons d body =>
      obtain ⟨rfl, _⟩ := List.cons.inj htail
      exact hn _ rfl rfl
  | case3 => cases h

theorem commentLength?_block {body : List Char} (h : Unclosed body) (rest : List Char) :
    commentLength? ('/' :: '*' :: (body ++ '*' :: '/' :: rest)) = some (body.length + 4) := by
  simp [commentLength?, blockEnd?_append h]

theorem takeWhile_append_of_stop {p : Char → Bool} {xs ys : List Char} (hx : ∀ x ∈ xs, p x)
    (hy : ∀ y ∈ ys.head?, p y = false) : (xs ++ ys).takeWhile p = xs := by
  rw [List.takeWhile_append_of_pos hx]
  cases ys with
  | nil => simp
  | cons y ys => simp [hy y rfl]

theorem commentLength?_line {body : List Char} (rest : List Char) (hb : '\n' ∉ body)
    (hr : ∀ ch ∈ rest.head?, ch = '\n') :
    commentLength? ('/' :: '/' :: (body ++ rest)) = some (body.length + 2) := by
  have hbody : (body ++ rest).takeWhile (· ≠ '\n') = body := by
    refine takeWhile_append_of_stop (fun c hc => ?_) (fun c hc => ?_)
    · have : c ≠ '\n' := fun he => hb (he ▸ hc)
      simpa using this
    · simp [hr c hc]
  change some (((body ++ rest).takeWhile (· ≠ '\n')).length + 2) = _
  rw [hbody]

/-- The two forms of comments. A line comment ends before a line feed or at the end of the text. -/
theorem commentLength?_cases {cs : List Char} {n : Nat} (h : commentLength? cs = some n) :
    (∃ body rest, cs = '/' :: '*' :: (body ++ '*' :: '/' :: rest) ∧ n = body.length + 4 ∧
      Unclosed body) ∨
    ∃ body rest, cs = '/' :: '/' :: (body ++ rest) ∧ n = body.length + 2 ∧ '\n' ∉ body ∧
      ∀ ch ∈ rest.head?, ch = '\n' := by
  unfold commentLength? at h
  split at h
  · obtain ⟨k, hk, rfl⟩ := Option.map_eq_some_iff.mp h
    obtain ⟨body, rest, rfl, rfl, hb⟩ := blockEnd?_eq_some hk
    exact .inl ⟨body, rest, rfl, rfl, hb⟩
  · unfold lineCommentLength? at h
    split at h
    · rename_i cs _
      cases h
      refine .inr ⟨cs.takeWhile (· ≠ '\n'), cs.dropWhile (· ≠ '\n'), ?_, rfl, ?_, ?_⟩
      · rw [List.takeWhile_append_dropWhile]
      · intro hmem
        simpa using List.all_eq_true.mp List.all_takeWhile _ hmem
      · intro ch hch
        have := List.head?_dropWhile_not (· ≠ '\n') cs
        simp_all
    · cases h

theorem commentLength?_pos {cs : List Char} {n : Nat} (h : commentLength? cs = some n) :
    0 < n ∧ n ≤ cs.length := by
  obtain ⟨body, rest, rfl, rfl, _⟩ | ⟨body, rest, rfl, rfl, _⟩ := commentLength?_cases h <;>
    simp only [List.length_cons, List.length_append] <;> omega

/-! ## Skipping -/

theorem skipBlanks_blank {c : Cursor} {ch : Char} {cs : List Char} (hc : c.rest = ch :: cs)
    (hch : isLayout ch) : skipBlanks c = skipBlanks (c.advance 1) := by
  simp only [skipBlanks, Cursor.advance_rest, hc, List.takeWhile_cons, hch, if_true,
    List.length_cons, List.drop_succ_cons, List.drop_zero]
  rw [Nat.add_comm, Cursor.advance_add]

theorem skipBlanks_of_settled {c : Cursor} (h : ∀ ch ∈ c.rest.head?, isLayout ch = false) :
    skipBlanks c = c := by
  unfold skipBlanks
  cases hc : c.rest with
  | nil => simp
  | cons ch cs => simp [h ch (by simp [hc])]

theorem skipBlanks_rest (c : Cursor) : (skipBlanks c).rest = c.rest.dropWhile isLayout := by
  rw [skipBlanks, Cursor.advance_rest]
  induction c.rest with
  | nil => rfl
  | cons ch cs ih =>
    by_cases h : isLayout ch <;> simp [h, ih]

/-- Once there is a try for each character, more tries change nothing. -/
theorem skipWith_fuel {c : Cursor} {n : Nat} (hn : c.rest.length ≤ n) :
    skipWith commentLength? n c = skipLayout c := by
  suffices ∀ k m, k ≤ m → ∀ c : Cursor, c.rest.length ≤ k →
      skipWith commentLength? m c = skipWith commentLength? k c from
    this _ n hn c (Nat.le_refl _)
  intro k
  induction k with
  | zero =>
    intro m _ c hc
    have hnil : c.rest = [] := List.eq_nil_of_length_eq_zero (by omega)
    have hb : skipBlanks c = c := skipBlanks_of_settled (by simp [hnil])
    cases m <;> simp [skipWith, hb, hnil, commentLength?, lineCommentLength?]
  | succ k ih =>
    intro m hm c hc
    obtain ⟨m, rfl⟩ : ∃ j, m = j + 1 := ⟨m - 1, by omega⟩
    simp only [skipWith]
    cases hl : commentLength? (skipBlanks c).rest with
    | none => rfl
    | some j =>
      have hpos := commentLength?_pos hl
      have hlen : (skipBlanks c).rest.length ≤ c.rest.length := by
        rw [skipBlanks_rest]
        exact (List.dropWhile_sublist _).length_le
      refine ih m (by omega) _ ?_
      simp only [Cursor.advance_rest, List.length_drop]
      omega

theorem skipLayout_blank {c : Cursor} {ch : Char} {cs : List Char} (hc : c.rest = ch :: cs)
    (hch : isLayout ch) : skipLayout c = skipLayout (c.advance 1) := by
  have hlen : (c.advance 1).rest.length ≤ c.rest.length := by simp [hc]
  rw [← skipWith_fuel hlen, skipLayout]
  cases h : c.rest.length <;> simp [skipWith, skipBlanks_blank hc hch]

theorem skipLayout_of_settled {c : Cursor} (h : Settled c.rest) : skipLayout c = c := by
  unfold skipLayout
  cases c.rest.length <;> simp [skipWith, skipBlanks_of_settled h.1, h.2]

theorem skipLayout_comment {c : Cursor} {n : Nat} (h : commentLength? c.rest = some n) :
    skipLayout c = skipLayout (c.advance n) := by
  have hpos := commentLength?_pos h
  have hb : skipBlanks c = c := by
    apply skipBlanks_of_settled
    obtain ⟨body, rest, he, _⟩ | ⟨body, rest, he, _⟩ := commentLength?_cases h <;>
      simp [he, isLayout]
  obtain ⟨k, hk⟩ : ∃ k, c.rest.length = k + 1 := ⟨c.rest.length - 1, by omega⟩
  have hlen : (c.advance n).rest.length ≤ k := by
    simp only [Cursor.advance_rest, List.length_drop]
    omega
  rw [← skipWith_fuel hlen, skipLayout, hk, skipWith]
  simp only [hb, h]

/-! ## Fillers -/

/-- Text that may separate tokens: any mix of blanks, line comments with their line feed, and block
comments. -/
inductive Filler : List Char → Prop where
  | nil : Filler []
  | blank {ch : Char} {cs : List Char} : isLayout ch → Filler cs → Filler (ch :: cs)
  | line {body cs : List Char} : '\n' ∉ body → Filler cs →
      Filler ('/' :: '/' :: (body ++ '\n' :: cs))
  | block {body cs : List Char} : Unclosed body → Filler cs →
      Filler ('/' :: '*' :: (body ++ '*' :: '/' :: cs))

theorem Filler.append {xs ys : List Char} (hx : Filler xs) (hy : Filler ys) :
    Filler (xs ++ ys) := by
  induction hx with
  | nil => exact hy
  | blank h _ ih => exact .blank h ih
  | line h _ ih => simpa using Filler.line h ih
  | block h _ ih => simpa using Filler.block h ih

theorem Filler.tail {ch : Char} {cs : List Char} (hch : isLayout ch) (h : Filler (ch :: cs)) :
    Filler cs := by
  cases h with
  | blank _ h => exact h
  | line => simp [isLayout] at hch
  | block => simp [isLayout] at hch

/-- Skipping goes over a filler. -/
theorem Filler.skipLayout {xs : List Char} (h : Filler xs) {c : Cursor} {rest : List Char}
    (hc : c.rest = xs ++ rest) : skipLayout c = Grammar.skipLayout (c.advance xs.length) := by
  induction h generalizing c with
  | nil => simp
  | blank hch _ ih =>
    rw [skipLayout_blank hc hch, ih (by simp [hc]), ← Cursor.advance_add, Nat.add_comm,
      List.length_cons]
  | @line body cs hb _ ih =>
    have hl : commentLength? c.rest = some (body.length + 2) := by
      rw [hc]
      simpa using commentLength?_line ('\n' :: (cs ++ rest)) hb (by simp)
    have hd : (c.advance (body.length + 2)).rest = '\n' :: (cs ++ rest) := by simp [hc]
    rw [skipLayout_comment hl, skipLayout_blank hd rfl, ← Cursor.advance_add,
      ih (by simp [hc, Nat.add_assoc]), ← Cursor.advance_add]
    congr 2
    simp
    omega
  | @block body cs hb _ ih =>
    have hl : commentLength? c.rest = some (body.length + 4) := by
      rw [hc]
      simpa using commentLength?_block hb (cs ++ rest)
    rw [skipLayout_comment hl, ih (by simp [hc]), ← Cursor.advance_add]
    congr 2
    simp
    omega

/-- Skipping from a cursor goes over `xs`. Only at the end of a text may a line comment lack its
line feed. -/
structure Skips (c : Cursor) (xs : List Char) : Prop where
  split : c.rest = xs ++ (skipLayout c).rest
  place : skipLayout c = c.advance xs.length
  settled : Settled (skipLayout c).rest
  closed : Filler (xs ++ ['\n'])
  filler : (skipLayout c).rest ≠ [] → Filler xs

theorem Skips.of_settled {c : Cursor} (h : Settled c.rest) : Skips c [] where
  split := by simp [skipLayout_of_settled h]
  place := by simp [skipLayout_of_settled h]
  settled := by rwa [skipLayout_of_settled h]
  closed := .blank rfl .nil
  filler _ := .nil

/-- Skipping over `ys` and then on. What has to be shown is that fillers stay fillers with `ys`
before them. -/
theorem Skips.step {c : Cursor} {ys zs : List Char} (rest : List Char) (hc : c.rest = ys ++ rest)
    (hskip : skipLayout c = skipLayout (c.advance ys.length)) (h : Skips (c.advance ys.length) zs)
    (hclosed : Filler (ys ++ (zs ++ ['\n'])))
    (hfiller : (skipLayout c).rest ≠ [] → Filler (ys ++ zs)) : Skips c (ys ++ zs) where
  split := by
    have := h.split
    simp only [Cursor.advance_rest, hc, List.drop_left] at this
    rw [hc, hskip, List.append_assoc, ← this]
  place := by rw [hskip, h.place, ← Cursor.advance_add, List.length_append]
  settled := by rw [hskip]; exact h.settled
  closed := by simpa using hclosed
  filler := hfiller

theorem exists_skips (c : Cursor) : ∃ xs, Skips c xs := by
  generalize hn : c.rest.length = n
  induction n using Nat.strongRecOn generalizing c with
  | ind n ih =>
    subst hn
    cases hl : commentLength? c.rest with
    | some k =>
      have hskip := skipLayout_comment hl
      have hpos := commentLength?_pos hl
      obtain ⟨zs, hzs⟩ := ih (c.advance k).rest.length
        (by simp only [Cursor.advance_rest, List.length_drop]; omega) _ rfl
      obtain ⟨body, rest, he, rfl, hb⟩ | ⟨body, rest, he, rfl, hb, hr⟩ := commentLength?_cases hl
      · refine ⟨'/' :: '*' :: (body ++ ['*', '/']) ++ zs, .step rest ?_ ?_ ?_ ?_ ?_⟩
        · simp [he]
        · simpa using hskip
        · simpa using hzs
        · simpa using Filler.block hb hzs.closed
        · intro hne
          simpa using Filler.block hb (hzs.filler (hskip ▸ hne))
      · have hrest : rest = zs ++ (skipLayout c).rest := by
          rw [hskip, ← hzs.split]
          simp [he]
        -- the line feed that ends the comment is the first blank that is skipped after it
        have hz : ∀ z ∈ zs.head?, z = '\n' := by
          intro z hz
          apply hr z
          rw [hrest, List.head?_append, hz]
          rfl
        refine ⟨'/' :: '/' :: body ++ zs, .step rest ?_ ?_ ?_ ?_ ?_⟩
        · simp [he]
        · simpa using hskip
        · simpa using hzs
        · cases zs with
          | nil => simpa using Filler.line hb .nil
          | cons z zs =>
            obtain rfl := hz z rfl
            simpa using Filler.line hb (Filler.tail rfl hzs.closed)
        · intro hne
          cases zs with
          | nil =>
            obtain ⟨ch, cs, hcs⟩ := List.exists_cons_of_ne_nil hne
            obtain rfl := hr ch (by simp [hrest, hcs])
            have hnot := hzs.settled.1 '\n' (by simp [← hskip, hcs])
            simp [isLayout] at hnot
          | cons z zs =>
            obtain rfl := hz z rfl
            simpa using Filler.line hb (Filler.tail rfl (hzs.filler (hskip ▸ hne)))
    | none =>
      cases hc : c.rest with
      | nil => exact ⟨[], .of_settled ⟨by simp [hc], hl⟩⟩
      | cons ch cs =>
        by_cases hch : isLayout ch
        · obtain ⟨zs, hzs⟩ := ih (c.advance 1).rest.length (by simp [hc]) _ rfl
          refine ⟨[ch] ++ zs, .step cs hc (skipLayout_blank hc hch) hzs ?_ ?_⟩
          · exact .blank hch hzs.closed
          · intro hne
            rw [skipLayout_blank hc hch] at hne
            exact .blank hch (hzs.filler hne)
        · exact ⟨[], .of_settled ⟨by simpa [hc] using hch, hl⟩⟩

end PolarPlot.Grammar

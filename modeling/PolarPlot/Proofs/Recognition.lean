import Mathlib.Logic.ExistsUnique
import PolarPlot.Proofs.Lookahead
import PolarPlot.Text.Lines

/-!
# What the parser decides

The grammar once more, as a relation on offsets of a fixed text. It does not use anything that reads
a text: `Skipped` is what may stand before a token, `Token.Longest` is the word that a token takes,
and a place is the line and column of an offset. `Parses` is the meaning of parsing expressions over
these, where failure is derived like success. The parser decides this relation (`parse_iff_parses`).
-/

namespace PolarPlot.Grammar

open Text

/-! ## The relation -/

/-- A comment at the start of a text, and what comes after it. A line comment ends before a line
feed or at the end of the text, a block comment with the first `*/`. -/
inductive Comment : List Char → List Char → Prop where
  | line {body rest : List Char} : '\n' ∉ body → (∀ ch ∈ rest.head?, ch = '\n') →
      Comment ('/' :: '/' :: body) rest
  | block {body rest : List Char} : Unclosed body →
      Comment ('/' :: '*' :: (body ++ ['*', '/'])) rest

/-- Before a token, all blanks and comments are skipped: of `xs ++ rest` just `xs`. -/
inductive Skipped : List Char → List Char → Prop where
  | stop {rest : List Char} : (∀ ch ∈ rest.head?, isLayout ch = false) →
      (∀ w rest', rest = w ++ rest' → ¬ Comment w rest') → Skipped [] rest
  | blank {ch : Char} {xs rest : List Char} : isLayout ch → Skipped xs rest →
      Skipped (ch :: xs) rest
  | comment {w xs rest : List Char} : Comment w (xs ++ rest) → Skipped xs rest →
      Skipped (w ++ xs) rest

/-- Of `w ++ rest` a token takes `w`: it is the longest of its texts there. The end is at the end
only. -/
structure Token.Longest (t : Token) (w rest : List Char) : Prop where
  text : t.IsText w
  longest : ∀ w', w' <+: w ++ rest → t.IsText w' → w'.length ≤ w.length
  last : t = .eof → rest = []

/-- The place of an offset. -/
def placeAt (origin : String) (text : List Char) (i : Nat) : Position where
  origin := origin
  line := (lineColumn text i).1
  column := (lineColumn text i).2

/-- A token from an offset on: what it takes and the offset after it, or nothing. -/
inductive Scans (origin : String) (text : List Char) (t : Token) (i : Nat) :
    Option (Lexeme × Nat) → Prop where
  | found {gap w rest : List Char} : text.drop i = gap ++ (w ++ rest) → Skipped gap (w ++ rest) →
      t.Longest w rest → Scans origin text t i
        (some (⟨String.ofList w, placeAt origin text (i + gap.length)⟩, i + gap.length + w.length))
  | missing {gap rest : List Char} : text.drop i = gap ++ rest → Skipped gap rest →
      (∀ w rest', rest = w ++ rest' → ¬ t.Longest w rest') → Scans origin text t i none

/-- A parsing expression from an offset on: what it builds and the offset after it, or nothing. -/
inductive Parses {R : Type → Type} (grammar : (α : Type) → R α → Peg R α) (origin : String)
    (text : List Char) : {α : Type} → Peg R α → Nat → Option (α × Nat) → Prop where
  | token {t : Token} {i : Nat} {o : Option (Lexeme × Nat)} :
      Scans origin text t i o → Parses grammar origin text (.token t) i o
  | rule {α : Type} {r : R α} {i : Nat} {o : Option (α × Nat)} :
      Parses grammar origin text (grammar α r) i o → Parses grammar origin text (.rule r) i o
  | seq {α β : Type} {p : Peg R α} {q : Peg R β} {i j k : Nat} {a : α} {b : β} :
      Parses grammar origin text p i (some (a, j)) → Parses grammar origin text q j (some (b, k)) →
      Parses grammar origin text (.seq p q) i (some ((a, b), k))
  | seqFirst {α β : Type} {p : Peg R α} {q : Peg R β} {i : Nat} :
      Parses grammar origin text p i none → Parses grammar origin text (.seq p q) i none
  | seqSecond {α β : Type} {p : Peg R α} {q : Peg R β} {i j : Nat} {a : α} :
      Parses grammar origin text p i (some (a, j)) → Parses grammar origin text q j none →
      Parses grammar origin text (.seq p q) i none
  | choiceFirst {α : Type} {p q : Peg R α} {i j : Nat} {a : α} :
      Parses grammar origin text p i (some (a, j)) →
      Parses grammar origin text (.choice p q) i (some (a, j))
  | choiceSecond {α : Type} {p q : Peg R α} {i : Nat} {o : Option (α × Nat)} :
      Parses grammar origin text p i none → Parses grammar origin text q i o →
      Parses grammar origin text (.choice p q) i o
  | manyEnd {α : Type} {p : Peg R α} {i : Nat} :
      Parses grammar origin text p i none → Parses grammar origin text (.many p) i (some ([], i))
  | manyNext {α : Type} {p : Peg R α} {i j k : Nat} {a : α} {as : List α} :
      Parses grammar origin text p i (some (a, j)) →
      Parses grammar origin text (.many p) j (some (as, k)) →
      Parses grammar origin text (.many p) i (some (a :: as, k))
  | optionOne {α : Type} {p : Peg R α} {i j : Nat} {a : α} :
      Parses grammar origin text p i (some (a, j)) →
      Parses grammar origin text (.option p) i (some (some a, j))
  | optionNone {α : Type} {p : Peg R α} {i : Nat} :
      Parses grammar origin text p i none →
      Parses grammar origin text (.option p) i (some (none, i))
  | map {α β : Type} {f : α → β} {p : Peg R α} {i j : Nat} {a : α} :
      Parses grammar origin text p i (some (a, j)) →
      Parses grammar origin text (.map f p) i (some (f a, j))
  | mapNone {α β : Type} {f : α → β} {p : Peg R α} {i : Nat} :
      Parses grammar origin text p i none → Parses grammar origin text (.map f p) i none

/-! ## Blanks and comments -/

theorem comment_iff {w rest : List Char} :
    Comment w rest ↔ commentLength? (w ++ rest) = some w.length := by
  constructor
  · intro h
    cases h with
    | line hb hr => simpa using commentLength?_line rest hb hr
    | block hb => simpa using commentLength?_block hb rest
  · intro h
    obtain ⟨body, rest', he, hn, hb⟩ | ⟨body, rest', he, hn, hb, hr⟩ := commentLength?_cases h
    · have he' : w ++ rest = ('/' :: '*' :: (body ++ ['*', '/'])) ++ rest' := by simpa using he
      obtain ⟨rfl, rfl⟩ := List.append_inj he' (by simpa using hn)
      exact .block hb
    · have he' : w ++ rest = ('/' :: '/' :: body) ++ rest' := by simpa using he
      obtain ⟨rfl, rfl⟩ := List.append_inj he' (by simpa using hn)
      exact .line hb hr

theorem settled_iff {cs : List Char} : Settled cs ↔
    (∀ ch ∈ cs.head?, isLayout ch = false) ∧ ∀ w rest, cs = w ++ rest → ¬ Comment w rest := by
  refine and_congr_right fun _ => ⟨?_, ?_⟩
  · rintro h w rest rfl hc
    rw [comment_iff.mp hc] at h
    cases h
  · intro h
    cases hl : commentLength? cs with
    | none => rfl
    | some n =>
      have hle := (commentLength?_pos hl).2
      refine absurd (comment_iff.mpr ?_)
        (h (cs.take n) (cs.drop n) (List.take_append_drop n cs).symm)
      rw [List.take_append_drop, hl, List.length_take, Nat.min_eq_left hle]

theorem Skipped.place {xs rest : List Char} (h : Skipped xs rest) {c : Cursor}
    (hc : c.rest = xs ++ rest) : skipLayout c = c.advance xs.length := by
  induction h generalizing c with
  | stop hb hn =>
    rw [skipLayout_of_settled (by rw [hc]; exact settled_iff.mpr ⟨hb, hn⟩)]
    simp
  | blank hch _ ih =>
    rw [skipLayout_blank hc hch, ih (by simp [hc]), ← Cursor.advance_add, Nat.add_comm,
      List.length_cons]
  | comment hw _ ih =>
    rw [List.append_assoc] at hc
    have hl := comment_iff.mp hw
    rw [← hc] at hl
    rw [skipLayout_comment hl, ih (by simp [hc]), ← Cursor.advance_add, List.length_append]

theorem exists_skipped (cs : List Char) : ∃ xs rest, cs = xs ++ rest ∧ Skipped xs rest := by
  -- on the length of the text, as a comment is skipped in one go
  generalize hn : cs.length = n
  induction n using Nat.strongRecOn generalizing cs with
  | ind n ih =>
    subst hn
    by_cases hs : Settled cs
    · exact ⟨[], cs, rfl, .stop (settled_iff.mp hs).1 (settled_iff.mp hs).2⟩
    cases hl : commentLength? cs with
    | some k =>
      obtain ⟨hpos, hle⟩ := commentLength?_pos hl
      obtain ⟨xs, rest, he, h⟩ := ih (cs.drop k).length (by rw [List.length_drop]; omega) _ rfl
      refine ⟨cs.take k ++ xs, rest, ?_, .comment (comment_iff.mpr ?_) h⟩
      · rw [List.append_assoc, ← he, List.take_append_drop]
      · rw [← he, List.take_append_drop, hl, List.length_take, Nat.min_eq_left hle]
    | none =>
      cases cs with
      | nil => exact absurd ⟨by simp, hl⟩ hs
      | cons ch cs =>
        have hch : isLayout ch := by
          cases hch : isLayout ch with
          | true => rfl
          | false => exact absurd ⟨by simpa using hch, hl⟩ hs
        obtain ⟨xs, rest, rfl, h⟩ := ih cs.length (by simp) _ rfl
        exact ⟨ch :: xs, rest, rfl, .blank hch h⟩

/-! ## Tokens -/

theorem length_le_takeWhile_append {p : Char → Bool} {xs : List Char} (h : ∀ x ∈ xs, p x)
    (ys : List Char) : xs.length ≤ ((xs ++ ys).takeWhile p).length := by
  rw [List.takeWhile_append_of_pos h, List.length_append]
  exact Nat.le_add_right ..

theorem IsNumber.numberLength?_append {w : List Char} (h : IsNumber w) (ys : List Char) :
    ∃ n, Grammar.numberLength? (w ++ ys) = some n ∧ w.length ≤ n := by
  obtain ⟨sign, digits, hs, hd, ⟨hne, rfl⟩ | ⟨fraction, hne, hf, rfl⟩⟩ := h
  · -- more digits may follow, and then a fraction
    have hmore : ∀ d ∈ digits ++ ys.takeWhile isDigit, isDigit d := by
      intro d hd'
      rcases List.mem_append.mp hd' with h | h
      · exact hd d h
      · exact List.all_eq_true.mp List.all_takeWhile d h
    have hstop : ∀ y ∈ (ys.dropWhile isDigit).head?, isDigit y = false := by
      intro y hy
      have := List.head?_dropWhile_not isDigit ys
      simp_all
    have hparts := numberLength?_parts (isSign_of_parts hs hmore (.inl (by simp [hne]))) hmore hstop
    have hpos := List.length_pos_iff.mpr hne
    rw [List.append_assoc digits, List.takeWhile_append_dropWhile, ← List.append_assoc] at hparts
    rw [hparts]
    simp only [List.length_append]
    split
    · exact ⟨_, rfl, by omega⟩
    · rw [if_pos (by omega)]
      exact ⟨_, rfl, by omega⟩
  · have hpoint : ∀ y ∈ ('.' :: (fraction ++ ys)).head?, isDigit y = false := by
      rintro y ⟨⟩
      decide
    have hparts := numberLength?_parts (isSign_of_parts hs hd (.inr rfl)) hd hpoint
    have hlong : fraction.length ≤ fractionLength ('.' :: (fraction ++ ys)) :=
      length_le_takeWhile_append hf ys
    have hpos := List.length_pos_iff.mpr hne
    simp only [List.append_assoc, List.cons_append]
    rw [hparts, if_pos (by omega)]
    exact ⟨_, rfl, by simp only [List.length_append, List.length_cons]; omega⟩

namespace Token

variable {t : Token} {w rest cs : List Char}

theorem IsText.length?_append (h : t.IsText w) (ht : t ≠ .eof) (ys : List Char) :
    ∃ n, t.length? (w ++ ys) = some n ∧ w.length ≤ n := by
  cases t with
  | number => exact IsNumber.numberLength?_append h ys
  | name | function =>
    obtain ⟨c, ds, rfl, hc, hds⟩ := h
    simp only [Token.length?, wordLength?, List.cons_append, hc, if_true]
    exact ⟨_, rfl, Nat.succ_le_succ (length_le_takeWhile_append hds ys)⟩
  | rangeEnd => obtain rfl | rfl := h <;> exact ⟨1, rfl, Nat.le_refl _⟩
  | eof => exact absurd rfl ht
  | _ =>
    rw [length?_of_fixed? h]
    exact ⟨_, fixedLength?_eq_some.mpr ⟨rfl, List.prefix_append ..⟩, Nat.le_refl _⟩

theorem longest_eof : Token.eof.Longest w rest ↔ w = [] ∧ rest = [] := by
  constructor
  · intro h
    exact ⟨h.text, h.last rfl⟩
  · rintro ⟨rfl, rfl⟩
    exact ⟨rfl, fun w' hw' _ => hw'.length_le, fun _ => rfl⟩

theorem longest_iff : t.Longest w rest ↔ t.length? (w ++ rest) = some w.length := by
  by_cases ht : t = .eof
  · subst ht
    rw [longest_eof]
    cases w <;> cases rest <;> simp [Token.length?]
  constructor
  · intro h
    obtain ⟨n, hn, hle⟩ := h.text.length?_append ht rest
    obtain ⟨w', rest', he, rfl, hw', _⟩ := isText_of_length? hn ht
    have := h.longest w' ⟨rest', he.symm⟩ hw'
    rw [hn]
    congr 1
    omega
  · intro h
    obtain ⟨w', rest', he, hlen, hw', _⟩ := isText_of_length? h ht
    obtain ⟨rfl, rfl⟩ := List.append_inj he hlen
    refine ⟨hw', ?_, fun he => absurd he ht⟩
    rintro v ⟨us, hv⟩ htext
    obtain ⟨m, hm, hle⟩ := htext.length?_append ht us
    rw [hv, h] at hm
    cases hm
    exact hle

theorem length?_eq_none_iff :
    t.length? cs = none ↔ ∀ w rest, cs = w ++ rest → ¬ t.Longest w rest := by
  constructor
  · rintro h w rest rfl hl
    rw [longest_iff.mp hl] at h
    cases h
  · intro h
    cases hl : t.length? cs with
    | none => rfl
    | some n =>
      have hle := (length?_bounds hl).1
      refine absurd (longest_iff.mpr ?_)
        (h (cs.take n) (cs.drop n) (List.take_append_drop n cs).symm)
      rw [List.take_append_drop, hl, List.length_take, Nat.min_eq_left hle]

end Token

/-! ## Places -/

/-- The cursor at an offset. -/
def cursorAt (origin : String) (text : List Char) (i : Nat) : Cursor :=
  (Cursor.start origin text).advance i

section Places

variable (origin : String) (text : List Char)

@[simp] theorem cursorAt_rest (i : Nat) : (cursorAt origin text i).rest = text.drop i := by
  simp [cursorAt, Cursor.start]

theorem cursorAt_add (i n : Nat) :
    cursorAt origin text (i + n) = (cursorAt origin text i).advance n := Cursor.advance_add ..

theorem lastLineLength_concat (xs : List Char) (ch : Char) :
    lastLineLength (xs ++ [ch]) = if ch = '\n' then 0 else lastLineLength xs + 1 := by
  by_cases h : ch = '\n' <;> simp [lastLineLength, h]

theorem cursorAt_line_column (i : Nat) :
    (cursorAt origin text i).line = (lineColumn text i).1 ∧
      (cursorAt origin text i).column = (lineColumn text i).2 := by
  induction i with
  | zero => exact ⟨rfl, rfl⟩
  | succ i ih =>
    obtain ⟨hline, hcolumn⟩ := ih
    have hrest := cursorAt_rest origin text i
    simp only [lineColumn, Int.toNat_natCast] at hline hcolumn ⊢
    rw [cursorAt_add, List.take_add_one]
    cases hd : text.drop i with
    | nil =>
      have hnone : text[i]? = none := by
        rw [← List.head?_drop, hd]
        rfl
      rw [Cursor.advance_nil _ (hrest.trans hd), hnone]
      simpa using ⟨hline, hcolumn⟩
    | cons ch cs =>
      have hsome : text[i]? = some ch := by
        rw [← List.head?_drop, hd]
        rfl
      simp only [Cursor.advance, hrest.trans hd, hsome, Option.toList_some, List.count_append,
        lastLineLength_concat]
      by_cases hch : ch = '\n' <;> simp [hch, hline, hcolumn]

theorem cursorAt_position (i : Nat) :
    (cursorAt origin text i).position = placeAt origin text i := by
  obtain ⟨hline, hcolumn⟩ := cursorAt_line_column origin text i
  have horigin : (cursorAt origin text i).origin = origin := by simp [cursorAt, Cursor.start]
  simp [Cursor.position, placeAt, hline, hcolumn, horigin]

end Places

/-! ## Both relations -/

section Both

variable {R : Type → Type} {grammar : (α : Type) → R α → Peg R α} {origin : String}
  {text : List Char}

/-- A result with the cursor in the place of its offset. -/
def located (origin : String) (text : List Char) {α : Type} :
    Option (α × Nat) → Option (α × Cursor) :=
  Option.map fun (a, j) => (a, cursorAt origin text j)

theorem Scans.reads {t : Token} {i : Nat} {o : Option (Lexeme × Nat)}
    (h : Scans origin text t i o) : Reads t (cursorAt origin text i) (located origin text o) := by
  cases h with
  | @found gap w rest htext hgap hw =>
    have hskip := hgap.place ((cursorAt_rest origin text i).trans htext)
    have hrest : (skipLayout (cursorAt origin text i)).rest = w ++ rest := by simp [hskip, htext]
    have h := Reads.found (c := cursorAt origin text i) (hrest ▸ Token.longest_iff.mp hw)
    rw [hrest, List.take_left, hskip, ← cursorAt_add, cursorAt_position, ← cursorAt_add] at h
    exact h
  | missing htext hgap hw =>
    have hskip := hgap.place ((cursorAt_rest origin text i).trans htext)
    refine .missing (Token.length?_eq_none_iff.mpr ?_)
    simpa [hskip, htext] using hw

theorem exists_scans (origin : String) (text : List Char) (t : Token) (i : Nat) :
    ∃ o, Scans origin text t i o := by
  obtain ⟨gap, rest, htext, hgap⟩ := exists_skipped (text.drop i)
  by_cases h : ∃ w rest', rest = w ++ rest' ∧ t.Longest w rest'
  · obtain ⟨w, rest', rfl, hw⟩ := h
    exact ⟨_, .found htext hgap hw⟩
  · exact ⟨none, .missing htext hgap fun w rest' he hw => h ⟨w, rest', he, hw⟩⟩

theorem Parses.derives {α : Type} {p : Peg R α} {i : Nat} {o : Option (α × Nat)}
    (h : Parses grammar origin text p i o) :
    Derives grammar p (cursorAt origin text i) (located origin text o) := by
  induction h with
  | token h => exact .token h.reads
  | rule _ ih => exact .rule ih
  | seq _ _ ih ih' => exact .seq ih ih'
  | seqFirst _ ih => exact .seqFirst ih
  | seqSecond _ _ ih ih' => exact .seqSecond ih ih'
  | choiceFirst _ ih => exact .choiceFirst ih
  | choiceSecond _ _ ih ih' => exact .choiceSecond ih ih'
  | manyEnd _ ih => exact .manyEnd ih
  | manyNext _ _ ih ih' => exact .manyNext ih ih'
  | optionOne _ ih => exact .optionOne ih
  | optionNone _ ih => exact .optionNone ih
  | map _ ih => exact .map ih
  | mapNone _ ih => exact .mapNone ih

theorem eq_some_of_located {α : Type} {a : α} {c : Cursor} {o : Option (α × Nat)}
    (h : some (a, c) = located origin text o) :
    ∃ j, o = some (a, j) ∧ c = cursorAt origin text j := by
  cases o with
  | none => cases h
  | some x =>
    cases h
    exact ⟨x.2, rfl, rfl⟩

theorem eq_none_of_located {α : Type} {o : Option (α × Nat)} (h : none = located origin text o) :
    o = none := by
  cases o with
  | none => rfl
  | some x => cases h

theorem Derives.exists_parses {α : Type} {p : Peg R α} {c : Cursor} {o : Option (α × Cursor)}
    (h : Derives grammar p c o) (origin : String) (text : List Char) :
    ∀ i, c = cursorAt origin text i →
      ∃ o', o = located origin text o' ∧ Parses grammar origin text p i o' := by
  induction h with
  | @token t c o h =>
    -- some reading exists there, and it can only be this one
    rintro i rfl
    obtain ⟨o', ho⟩ := exists_scans origin text t i
    exact ⟨o', h.unique ho.reads, .token ho⟩
  | rule _ ih =>
    intro i hc
    obtain ⟨o', rfl, h⟩ := ih i hc
    exact ⟨o', rfl, .rule h⟩
  | seq _ _ ih ih' =>
    intro i hc
    obtain ⟨_, ho, h⟩ := ih i hc
    obtain ⟨j, rfl, rfl⟩ := eq_some_of_located ho
    obtain ⟨_, ho', h'⟩ := ih' j rfl
    obtain ⟨k, rfl, rfl⟩ := eq_some_of_located ho'
    exact ⟨_, rfl, .seq h h'⟩
  | seqFirst _ ih =>
    intro i hc
    obtain ⟨_, ho, h⟩ := ih i hc
    obtain rfl := eq_none_of_located ho
    exact ⟨none, rfl, .seqFirst h⟩
  | seqSecond _ _ ih ih' =>
    intro i hc
    obtain ⟨_, ho, h⟩ := ih i hc
    obtain ⟨j, rfl, rfl⟩ := eq_some_of_located ho
    obtain ⟨_, ho', h'⟩ := ih' j rfl
    obtain rfl := eq_none_of_located ho'
    exact ⟨none, rfl, .seqSecond h h'⟩
  | choiceFirst _ ih =>
    intro i hc
    obtain ⟨_, ho, h⟩ := ih i hc
    obtain ⟨j, rfl, rfl⟩ := eq_some_of_located ho
    exact ⟨_, rfl, .choiceFirst h⟩
  | choiceSecond _ _ ih ih' =>
    intro i hc
    obtain ⟨_, ho, h⟩ := ih i hc
    obtain rfl := eq_none_of_located ho
    obtain ⟨o', rfl, h'⟩ := ih' i hc
    exact ⟨o', rfl, .choiceSecond h h'⟩
  | manyEnd _ ih =>
    rintro i rfl
    obtain ⟨_, ho, h⟩ := ih i rfl
    obtain rfl := eq_none_of_located ho
    exact ⟨some ([], i), rfl, .manyEnd h⟩
  | manyNext _ _ ih ih' =>
    intro i hc
    obtain ⟨_, ho, h⟩ := ih i hc
    obtain ⟨j, rfl, rfl⟩ := eq_some_of_located ho
    obtain ⟨_, ho', h'⟩ := ih' j rfl
    obtain ⟨k, rfl, rfl⟩ := eq_some_of_located ho'
    exact ⟨_, rfl, .manyNext h h'⟩
  | optionOne _ ih =>
    intro i hc
    obtain ⟨_, ho, h⟩ := ih i hc
    obtain ⟨j, rfl, rfl⟩ := eq_some_of_located ho
    exact ⟨some (_, j), rfl, .optionOne h⟩
  | optionNone _ ih =>
    rintro i rfl
    obtain ⟨_, ho, h⟩ := ih i rfl
    obtain rfl := eq_none_of_located ho
    exact ⟨some (none, i), rfl, .optionNone h⟩
  | map _ ih =>
    intro i hc
    obtain ⟨_, ho, h⟩ := ih i hc
    obtain ⟨j, rfl, rfl⟩ := eq_some_of_located ho
    exact ⟨some (_, j), rfl, .map h⟩
  | mapNone _ ih =>
    intro i hc
    obtain ⟨_, ho, h⟩ := ih i hc
    obtain rfl := eq_none_of_located ho
    exact ⟨none, rfl, .mapNone h⟩

/-- No parsing expression goes past the end of the text. -/
theorem Parses.le_length {α : Type} {p : Peg R α} {i : Nat} {o : Option (α × Nat)}
    (h : Parses grammar origin text p i o) (hi : i ≤ text.length) :
    ∀ a j, o = some (a, j) → j ≤ text.length := by
  induction h with
  | token h =>
    rintro l j rfl
    cases h with
    | found htext _ _ =>
      have := congrArg List.length htext
      simp only [List.length_drop, List.length_append] at this
      omega
  | rule _ ih => exact ih hi
  | seq _ _ ih ih' =>
    rintro _ _ ⟨⟩
    exact ih' (ih hi _ _ rfl) _ _ rfl
  | seqFirst | seqSecond | mapNone =>
    intro a j ho
    cases ho
  | choiceFirst _ ih => exact ih hi
  | choiceSecond _ _ _ ih' => exact ih' hi
  | manyEnd | optionNone =>
    rintro _ _ ⟨⟩
    exact hi
  | manyNext _ _ ih ih' =>
    rintro _ _ ⟨⟩
    exact ih' (ih hi _ _ rfl) _ _ rfl
  | optionOne _ ih | map _ ih =>
    rintro _ _ ⟨⟩
    exact ih hi _ _ rfl

end Both

/-! ## Programs -/

theorem Reads.rest_after_eof {c d : Cursor} {l : Lexeme} (h : Reads .eof c (some (l, d))) :
    d.rest = [] := by
  have hend := h.rest_eof
  cases h with
  | found _ => rw [Cursor.advance_rest, hend, List.drop_nil]

section Programs

variable {origin : String} {text : List Char} {ss : List Stmt}

/-- What is parsed as a program ends where the text ends. -/
theorem Parses.eq_length {j : Nat} (h : Parses grammar origin text program 0 (some (ss, j))) :
    j = text.length := by
  have hle := h.le_length (Nat.zero_le _) _ _ rfl
  -- a program is a sequence that ends with the token for the end
  obtain ⟨_, hn⟩ | ⟨⟨_, l⟩, d, hseq, hd⟩ := h.derives.lastStep
  · cases hn
  obtain ⟨_, hn⟩ | ⟨_, c, _, ⟨_, hn⟩ | ⟨_, _, heof, he⟩⟩ := hseq.lastStep
  · cases hn
  · cases hn
  cases he
  have hrest : d.rest = [] := Reads.rest_after_eof heof.lastStep
  cases hd
  rw [cursorAt_rest, List.drop_eq_nil_iff] at hrest
  omega

theorem isProgram_iff_parses :
    IsProgram origin text ss ↔ Parses grammar origin text program 0 (some (ss, text.length)) := by
  constructor
  · rintro ⟨d, h⟩
    obtain ⟨o, ho, h⟩ := h.exists_parses origin text 0 rfl
    obtain ⟨j, rfl, _⟩ := eq_some_of_located ho
    obtain rfl := h.eq_length
    exact h
  · intro h
    exact ⟨_, h.derives⟩

theorem isNoProgram_iff_parses :
    IsNoProgram origin text ↔ Parses grammar origin text program 0 none := by
  constructor
  · intro h
    obtain ⟨o, ho, h⟩ := h.exists_parses origin text 0 rfl
    obtain rfl := eq_none_of_located ho
    exact h
  · exact Parses.derives

theorem parse_eq_error_iff {text : String} :
    (∃ e, parse origin text = .error e) ↔ IsNoProgram origin text.toList := by
  have hrun := derives_runProgram origin text.toList
  unfold parse IsNoProgram
  rcases h : runProgram origin text.toList with ⟨_ | x, f⟩ <;> rw [h] at hrun
  · exact ⟨fun _ => hrun, fun _ => ⟨_, rfl⟩⟩
  · constructor
    · rintro ⟨e, he⟩
      cases he
    · intro hn
      cases hrun.unique hn

/-- The parser decides the grammar: it builds a program from a text just when the grammar derives
that program over the whole text, and fails just when the grammar derives a failure. One of the two
is the case, never both, and a text has no more than one program. -/
theorem parse_iff_parses (origin text : String) :
    (∀ ss, parse origin text = .ok ss ↔
      Parses grammar origin text.toList program 0 (some (ss, text.length))) ∧
    ((∃ e, parse origin text = .error e) ↔ Parses grammar origin text.toList program 0 none) ∧
    Xor (∃! ss, Parses grammar origin text.toList program 0 (some (ss, text.length)))
      (Parses grammar origin text.toList program 0 none) := by
  have hok : ∀ ss, parse origin text = .ok ss ↔
      Parses grammar origin text.toList program 0 (some (ss, text.length)) := by
    intro ss
    rw [parse_eq_ok, isProgram_iff_parses, String.length_toList]
  have herror : (∃ e, parse origin text = .error e) ↔
      Parses grammar origin text.toList program 0 none :=
    parse_eq_error_iff.trans isNoProgram_iff_parses
  refine ⟨hok, herror, ?_⟩
  simp only [← hok, ← herror]
  cases parse origin text with
  | ok ss => exact .inl ⟨⟨ss, rfl, fun ss' h => by cases h; rfl⟩, by rintro ⟨e, he⟩; cases he⟩
  | error e => exact .inr ⟨⟨e, rfl⟩, by rintro ⟨ss, hs, _⟩; cases hs⟩

end Programs

end PolarPlot.Grammar

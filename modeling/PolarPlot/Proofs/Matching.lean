import PolarPlot.Proofs.Filler

/-!
# How tokens match

A token is known by its first character (`Token.opens`), and it ends where the next character cannot
lengthen it (`Token.lengthens`). So whether a token takes exactly a word depends on the word and on
the one character after it (`Token.IsText.length?`, `Token.isText_of_length?`). The only token that
looks at two characters is a number, and only at a point.
-/

namespace PolarPlot.Grammar

open Text

/-! ## Words and fixed texts -/

theorem wordLength?_eq_some {first next : Char → Bool} {cs : List Char} {n : Nat} :
    wordLength? first next cs = some n ↔ ∃ c ds rest, cs = c :: (ds ++ rest) ∧ n = ds.length + 1 ∧
      first c ∧ (∀ d ∈ ds, next d) ∧ ∀ y ∈ rest.head?, next y = false := by
  constructor
  · intro h
    cases cs with
    | nil => cases h
    | cons c cs =>
      by_cases hc : first c
      · simp only [wordLength?, hc, if_true, Option.some.injEq] at h
        refine ⟨c, cs.takeWhile next, cs.dropWhile next, ?_, h.symm, hc, ?_, ?_⟩
        · rw [List.takeWhile_append_dropWhile]
        · exact List.all_eq_true.mp List.all_takeWhile
        · intro y hy
          have := List.head?_dropWhile_not next cs
          simp_all
      · simp [wordLength?, hc] at h
  · rintro ⟨c, ds, rest, rfl, rfl, hc, hds, hrest⟩
    simp [wordLength?, hc, takeWhile_append_of_stop hds hrest]

theorem fixedLength?_eq_some {text cs : List Char} {n : Nat} :
    fixedLength? text cs = some n ↔ n = text.length ∧ text <+: cs := by
  unfold fixedLength?
  split <;> rename_i h
  · simp [List.isPrefixOf_iff_prefix.mp h, eq_comm]
  · have : ¬ text <+: cs := fun hp => h (List.isPrefixOf_iff_prefix.mpr hp)
    simp [this]

/-! ## Numbers -/

/-- The number of digits after the point that a text starts with, if it starts with one. -/
def fractionLength : List Char → Nat
  | '.' :: rest => (rest.takeWhile isDigit).length
  | _ => 0

/-- A sign, or none where none is read. -/
def IsSign (sign rest : List Char) : Prop :=
  sign = ['+'] ∨ sign = ['-'] ∨ sign = [] ∧ rest.head? ≠ some '+' ∧ rest.head? ≠ some '-'

/-- The length of a number whose parts are known. -/
theorem numberLength?_parts {sign digits rest : List Char} (hs : IsSign sign (digits ++ rest))
    (hd : ∀ d ∈ digits, isDigit d) (hr : ∀ y ∈ rest.head?, isDigit y = false) :
    numberLength? (sign ++ (digits ++ rest)) =
      if 0 < fractionLength rest then some (sign.length + digits.length + 1 + fractionLength rest)
      else if 0 < digits.length then some (sign.length + digits.length) else none := by
  have hw : (digits ++ rest).takeWhile isDigit = digits := takeWhile_append_of_stop hd hr
  have hsign : (if (sign ++ (digits ++ rest)).head? = some '+' ||
      (sign ++ (digits ++ rest)).head? = some '-' then 1 else 0) = sign.length := by
    obtain rfl | rfl | ⟨rfl, h, h'⟩ := hs
    · rfl
    · rfl
    · simp only [List.nil_append, h, h']
      rfl
  simp only [numberLength?, hsign, List.drop_left, hw]
  rfl

/-- Every text has its parts. -/
theorem exists_number_parts (cs : List Char) : ∃ sign digits rest, cs = sign ++ (digits ++ rest) ∧
    IsSign sign (digits ++ rest) ∧ (∀ d ∈ digits, isDigit d) ∧
    ∀ y ∈ rest.head?, isDigit y = false := by
  have hparts : ∀ body : List Char, ∃ digits rest, body = digits ++ rest ∧
      (∀ d ∈ digits, isDigit d) ∧ ∀ y ∈ rest.head?, isDigit y = false := by
    intro body
    refine ⟨body.takeWhile isDigit, body.dropWhile isDigit, ?_, ?_, ?_⟩
    · rw [List.takeWhile_append_dropWhile]
    · exact List.all_eq_true.mp List.all_takeWhile
    · intro y hy
      have := List.head?_dropWhile_not isDigit body
      simp_all
  cases cs with
  | nil => exact ⟨[], [], [], rfl, .inr (.inr (by simp)), by simp, by simp⟩
  | cons c cs =>
    by_cases hc : c = '+' ∨ c = '-'
    · obtain ⟨digits, rest, rfl, h⟩ := hparts cs
      refine ⟨[c], digits, rest, rfl, ?_, h⟩
      exact hc.elim (fun h => .inl (by rw [h])) fun h => .inr (.inl (by rw [h]))
    · obtain ⟨digits, rest, he, h⟩ := hparts (c :: cs)
      refine ⟨[], digits, rest, he, .inr (.inr ⟨rfl, ?_⟩), h⟩
      rw [← he]
      simpa [not_or] using hc

/-- The text of a number: a sign or none, then digits, with a point and digits after them or
without. -/
def IsNumber (w : List Char) : Prop :=
  ∃ sign digits, (sign = ['+'] ∨ sign = ['-'] ∨ sign = []) ∧ (∀ d ∈ digits, isDigit d) ∧
    (digits ≠ [] ∧ w = sign ++ digits ∨
      ∃ fraction, fraction ≠ [] ∧ (∀ d ∈ fraction, isDigit d) ∧
        w = sign ++ (digits ++ '.' :: fraction))

theorem isDigit_ne {d : Char} (hd : isDigit d) (ch : Char) (hch : isDigit ch = false) : d ≠ ch := by
  rintro rfl
  simp [hd] at hch

/-- A digit or a point is no sign, so a number without a sign is read without one. -/
theorem isSign_of_parts {sign digits rest : List Char}
    (hs : sign = ['+'] ∨ sign = ['-'] ∨ sign = []) (hd : ∀ d ∈ digits, isDigit d)
    (hr : digits ≠ [] ∨ rest.head? = some '.') : IsSign sign (digits ++ rest) := by
  obtain rfl | rfl | rfl := hs
  · exact .inl rfl
  · exact .inr (.inl rfl)
  · refine .inr (.inr ⟨rfl, ?_⟩)
    cases digits with
    | nil => simp_all
    | cons d digits =>
      have hdig := hd d (.head _)
      simp [isDigit_ne hdig '+' (by decide), isDigit_ne hdig '-' (by decide)]

theorem IsNumber.numberLength? {w : List Char} (h : IsNumber w) {rest : List Char}
    (hr : ∀ y ∈ rest.head?, isDigit y = false ∧ y ≠ '.') :
    numberLength? (w ++ rest) = some w.length := by
  obtain ⟨sign, digits, hs, hd, ⟨hne, rfl⟩ | ⟨fraction, hne, hf, rfl⟩⟩ := h
  · have hfrac : fractionLength rest = 0 := by
      cases rest with
      | nil => rfl
      | cons y rest =>
        unfold fractionLength
        split
        · rename_i he
          cases he
          simp at hr
        · rfl
    rw [List.append_assoc, numberLength?_parts (isSign_of_parts hs hd (.inl hne)) hd
      fun y hy => (hr y hy).1]
    simp [hfrac, List.length_pos_iff.mpr hne]
  · have hfrac : fractionLength ('.' :: (fraction ++ rest)) = fraction.length := by
      simp only [fractionLength, takeWhile_append_of_stop hf fun y hy => (hr y hy).1]
    have hpoint : ∀ y ∈ ('.' :: (fraction ++ rest)).head?, isDigit y = false := by
      rintro y ⟨⟩
      decide
    have hparts := numberLength?_parts (isSign_of_parts hs hd (.inr rfl)) hd hpoint
    simp only [List.append_assoc, List.cons_append, hparts, hfrac,
      List.length_pos_iff.mpr hne, if_true, List.length_append, List.length_cons]
    congr 1
    omega

theorem numberLength?_eq_some {cs : List Char} {n : Nat} (h : numberLength? cs = some n) :
    ∃ w rest, cs = w ++ rest ∧ n = w.length ∧ IsNumber w ∧ ∀ y ∈ rest.head?, isDigit y = false := by
  obtain ⟨sign, digits, rest, rfl, hs, hd, hr⟩ := exists_number_parts cs
  have hsign : sign = ['+'] ∨ sign = ['-'] ∨ sign = [] := hs.imp id (.imp id And.left)
  rw [numberLength?_parts hs hd hr] at h
  split at h
  · rename_i hpos
    cases h
    cases rest with
    | nil => simp [fractionLength] at hpos
    | cons y rest =>
      obtain rfl : y = '.' := by
        unfold fractionLength at hpos
        split at hpos
        · rename_i he
          cases he
          rfl
        · simp at hpos
      refine ⟨sign ++ (digits ++ '.' :: rest.takeWhile isDigit), rest.dropWhile isDigit, ?_,
        ?_, ?_, ?_⟩
      · simp [List.takeWhile_append_dropWhile]
      · simp [fractionLength]
        omega
      · refine ⟨sign, digits, hsign, hd, .inr ⟨_, List.length_pos_iff.mp hpos, ?_, rfl⟩⟩
        exact List.all_eq_true.mp List.all_takeWhile
      · intro y hy
        have := List.head?_dropWhile_not isDigit rest
        simp_all
  · split at h
    · rename_i hpos
      cases h
      refine ⟨sign ++ digits, rest, by simp, by simp, ?_, hr⟩
      exact ⟨sign, digits, hsign, hd, .inl ⟨List.length_pos_iff.mp hpos, rfl⟩⟩
    · cases h

/-! ## Tokens -/

namespace Token

/-- The characters that names, functions and numbers start with, and the first characters of the
fixed tokens. -/
def opens : Token → Char → Bool
  | .number, ch => isDigit ch || ch = '+' || ch = '-' || ch = '.'
  | .name, ch => isLatin ch || isGreek ch || ch = '_'
  | .function, ch => isLatin ch
  | .rangeEnd, ch => ch = ']' || ch = ')'
  | .comma, ch => ch = ','
  | .assign, ch => ch = '='
  | .paren, ch => ch = '('
  | .endParen, ch => ch = ')'
  | .brace, ch => ch = '{'
  | .endBrace, ch => ch = '}'
  | .bracket, ch => ch = '['
  | .add, ch => ch = '+'
  | .subtract, ch => ch = '-'
  | .multiply, ch => ch = '*'
  | .divide, ch => ch = '/'
  | .wordFor, ch => ch = 'f'
  | .wordOver, ch => ch = 'o'
  | .wordBy, ch => ch = 'b'
  | .eof, _ => false

/-- The characters that make a token longer when they come after it. -/
def lengthens : Token → Char → Bool
  | .number, ch => isDigit ch || ch = '.'
  | .name, ch => isLatin ch || isArabic ch || isGreek ch || ch = '_'
  | .function, ch => isLatin ch || isArabic ch || ch = '_'
  | _, _ => false

variable {t : Token} {cs w rest : List Char} {n : Nat}

/-- The fixed tokens. -/
def fixed? : Token → Option (List Char)
  | .comma => some [',']
  | .assign => some ['=']
  | .paren => some ['(']
  | .endParen => some [')']
  | .brace => some ['{']
  | .endBrace => some ['}']
  | .bracket => some ['[']
  | .add => some ['+']
  | .subtract => some ['-']
  | .multiply => some ['*']
  | .divide => some ['/']
  | .wordFor => some ['f', 'o', 'r']
  | .wordOver => some ['o', 'v', 'e', 'r']
  | .wordBy => some ['b', 'y']
  | _ => none

theorem length?_of_fixed? {text : List Char} (h : t.fixed? = some text) (cs : List Char) :
    t.length? cs = fixedLength? text cs := by
  cases t <;> cases h <;> rfl

/-- The texts of a token. -/
def IsText : Token → List Char → Prop
  | .number, w => IsNumber w
  | .name, w => ∃ c ds, w = c :: ds ∧ (isLatin c || isGreek c || c = '_') ∧
      ∀ d ∈ ds, isLatin d || isArabic d || isGreek d || d = '_'
  | .function, w => ∃ c ds, w = c :: ds ∧ isLatin c ∧ ∀ d ∈ ds, isLatin d || isArabic d || d = '_'
  | .rangeEnd, w => w = [']'] ∨ w = [')']
  | .eof, w => w = []
  | t, w => t.fixed? = some w

/-- A token takes a text of its own if nothing after it lengthens it. -/
theorem IsText.length? (h : t.IsText w) (ht : t ≠ .eof)
    (hr : ∀ y ∈ rest.head?, t.lengthens y = false) : t.length? (w ++ rest) = some w.length := by
  cases t with
  | number =>
    refine IsNumber.numberLength? h fun y hy => ?_
    simpa [lengthens] using hr y hy
  | name | function =>
    obtain ⟨c, ds, rfl, hc, hds⟩ := h
    simp only [Token.length?]
    exact wordLength?_eq_some.mpr ⟨c, ds, rest, rfl, rfl, hc, hds, hr⟩
  | rangeEnd => obtain rfl | rfl := h <;> rfl
  | eof => exact absurd rfl ht
  | _ =>
    rw [length?_of_fixed? h]
    exact fixedLength?_eq_some.mpr ⟨rfl, List.prefix_append ..⟩

/-- What a token takes is a text of its own, and nothing after it lengthens it. A point may come
after a number if no digit follows. -/
theorem isText_of_length? (h : t.length? cs = some n) (ht : t ≠ .eof) :
    ∃ w rest, cs = w ++ rest ∧ n = w.length ∧ t.IsText w ∧
      ∀ y ∈ rest.head?, y ≠ '.' → t.lengthens y = false := by
  cases t with
  | number =>
    obtain ⟨w, rest, rfl, rfl, hw, hr⟩ := numberLength?_eq_some h
    refine ⟨w, rest, rfl, rfl, hw, fun y hy hne => ?_⟩
    simp [lengthens, hr y hy, hne]
  | name | function =>
    obtain ⟨c, ds, rest, rfl, rfl, hc, hds, hr⟩ := wordLength?_eq_some.mp h
    exact ⟨c :: ds, rest, rfl, rfl, ⟨c, ds, rfl, hc, hds⟩, fun y hy _ => hr y hy⟩
  | rangeEnd =>
    cases cs with
    | nil => cases h
    | cons ch cs =>
      simp only [Token.length?] at h
      split at h
      · rename_i hch
        cases h
        exact ⟨[ch], cs, rfl, rfl, by simpa [IsText] using hch, fun _ _ _ => rfl⟩
      · cases h
  | eof => exact absurd rfl ht
  | _ =>
    rw [length?_of_fixed? rfl, fixedLength?_eq_some] at h
    obtain ⟨rfl, rest, rfl⟩ := h
    exact ⟨_, rest, rfl, rfl, rfl, fun _ _ _ => rfl⟩

theorem IsText.exists_cons (h : t.IsText w) (ht : t ≠ .eof) :
    ∃ ch ds, w = ch :: ds ∧ t.opens ch := by
  cases t with
  | number =>
    obtain ⟨sign, digits, rfl | rfl | rfl, hd, ⟨hne, rfl⟩ | ⟨fraction, _, _, rfl⟩⟩ := h
    · exact ⟨_, _, rfl, rfl⟩
    · exact ⟨_, _, rfl, rfl⟩
    · exact ⟨_, _, rfl, rfl⟩
    · exact ⟨_, _, rfl, rfl⟩
    · obtain ⟨d, ds, rfl⟩ := List.exists_cons_of_ne_nil hne
      exact ⟨d, ds, rfl, by simp [opens, hd d (.head _)]⟩
    · cases digits with
      | nil => exact ⟨_, _, rfl, rfl⟩
      | cons d ds => exact ⟨d, _, rfl, by simp [opens, hd d (.head _)]⟩
  | name | function =>
    obtain ⟨c, ds, rfl, hc, _⟩ := h
    exact ⟨c, ds, rfl, hc⟩
  | rangeEnd => obtain rfl | rfl := h <;> exact ⟨_, _, rfl, rfl⟩
  | eof => exact absurd rfl ht
  | _ =>
    cases h
    exact ⟨_, _, rfl, rfl⟩

/-- Every token but the end takes at least one character, and no more than there are. -/
theorem length?_bounds (h : t.length? cs = some n) : n ≤ cs.length ∧ (t ≠ .eof → 0 < n) := by
  by_cases ht : t = .eof
  · subst ht
    simp only [Token.length?] at h
    split at h
    · cases h
      simp
    · cases h
  · obtain ⟨w, rest, rfl, rfl, hw, _⟩ := isText_of_length? h ht
    obtain ⟨ch, ds, rfl, _⟩ := hw.exists_cons ht
    simp

/-- A token matches only at a character that opens it. -/
theorem opens_of_length? {ch : Char} (h : t.length? (ch :: cs) = some n) : t.opens ch := by
  have ht : t ≠ .eof := by
    rintro rfl
    cases h
  obtain ⟨w, rest, he, _, hw, _⟩ := isText_of_length? h ht
  obtain ⟨c, ds, rfl, hc⟩ := hw.exists_cons ht
  cases he
  exact hc

theorem length?_eq_none {ch : Char} (h : t.opens ch = false) : t.length? (ch :: cs) = none := by
  cases hl : t.length? (ch :: cs) with
  | none => rfl
  | some n => simp [opens_of_length? hl] at h

theorem isText_iff (ht : t ≠ .eof) : t.IsText w ↔ t.length? w = some w.length := by
  constructor
  · intro h
    have hw : t.length? (w ++ []) = some w.length := h.length? ht (by simp)
    simpa using hw
  · intro h
    obtain ⟨w', rest, rfl, hn, hw, _⟩ := isText_of_length? h ht
    obtain rfl : rest = [] := by simpa using hn
    simpa using hw

end Token

end PolarPlot.Grammar

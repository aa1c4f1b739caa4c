import PolarPlot.Document.Yaml.Printer
import PolarPlot.Proofs.JsonText

/-!
# YAML scalars tell their values

A scalar that is written without quotes is the only one with its text (`token_injective`), because
what a text is taken for tells what was written.
-/

namespace PolarPlot.Number

open Text

/-! ## Numerals with a point -/

namespace Numeral

/-- The numeral with a fraction, zero if it had none. -/
def pointed (n : Numeral) : Numeral := if n.fraction = [] then { n with fraction := ['0'] } else n

variable {n : Numeral}

theorem Sound.pointed (h : n.Sound) : n.pointed.Sound := by
  unfold Numeral.pointed
  split
  · exact { h with fraction := by simp }
  · exact h

theorem pointed_fraction_ne (n : Numeral) : n.pointed.fraction ≠ [] := by
  unfold Numeral.pointed
  split
  · simp
  · assumption

/-- A zero after the point changes nothing. -/
theorem toFloat_pointed (n : Numeral) : n.pointed.toDecimal.toFloat = n.toDecimal.toFloat := by
  unfold Numeral.pointed
  split
  · rename_i hn
    have hdigits : digitsValue (n.whole ++ ['0']) = digitsValue n.whole * 10 := by
      simpa using digitsValue_append_zeros n.whole 1
    have hvalue : (digitsValue (n.whole ++ ['0']) : ℚ) * 10 ^ (-1 + exponentValue n.exponent) =
        (digitsValue n.whole : ℚ) * 10 ^ (exponentValue n.exponent) := by
      rw [hdigits, zpow_add₀ (by norm_num)]
      push_cast
      ring
    simpa [toDecimal, hn, Decimal.toFloat] using
      congrArg (ofMagnitudeBits n.negative) (magnitudeBits_congr hvalue)
  · rfl

end Numeral

theorem Decimal.numeral_of_far {d : Decimal} (h : d.order < -4 ∨ 16 ≤ d.order) :
    d.numeral = ⟨d.negative, (Nat.toDigits 10 d.digits).take 1, (Nat.toDigits 10 d.digits).drop 1,
      some (decide (d.order < 0), exponentDigits d.order)⟩ := if_pos h

theorem Decimal.numeral_exponent {d : Decimal} (h : ¬ (d.order < -4 ∨ 16 ≤ d.order)) :
    d.numeral.exponent = none := by
  unfold Decimal.numeral
  dsimp only
  rw [if_neg h]
  split
  · rfl
  split <;> rfl

open Document.Yaml in
/-- In YAML a number is written as elsewhere, but always with a point. -/
theorem toList_yaml (d : Decimal) : (Layout.yaml.text d).toList = d.numeral.pointed.chars := by
  have horder : (if d.digits = 0 then 0 else d.exponent + ((toString d.digits).length : Int) - 1) =
      d.order := by
    rw [length_toString]
    rfl
  by_cases hfar : d.order < -4 ∨ 16 ≤ d.order
  · have hsign : (if d.negative then "-" else "" : String).toList =
        Numeral.signChars d.negative := by
      cases d.negative <;> rfl
    simp only [Layout.text, Layout.yaml, Layout.plain, horder, if_pos hfar,
      String.toList_append, hsign,
      toList_toString, String.toList_ofList, toList_exponentText, Decimal.numeral_of_far hfar,
      Numeral.pointed]
    cases (Nat.toDigits 10 d.digits).drop 1 <;>
      simp [Numeral.chars, Numeral.fractionChars, Numeral.exponentChars]
  · have hfraction : d.numeral.fraction ≠ [] := fun h =>
      d.numeral_fraction ⟨h, Decimal.numeral_exponent hfar⟩
    have hplain : Layout.yaml.text d = Layout.plain.text d := by
      simp only [Layout.text, Layout.yaml, Layout.plain, horder, if_neg hfar]
    rw [hplain, toList_plain, Numeral.pointed, if_neg hfraction]

end PolarPlot.Number

namespace PolarPlot.Document.Yaml

open Number Numeral Text

/-! ## What a scalar is taken for -/

/-- Text that starts as a number does. -/
def opensNumber (c : Char) : Bool := c.isDigit || c = '-' || c = '.'

theorem not_word_of_opensNumber {s : String} (h : s.toList.head?.any opensNumber) :
    (yesWords.contains s || noWords.contains s) = false := by
  have hwords : ∀ w ∈ yesWords ++ noWords, w.toList.head?.any opensNumber = false := by decide
  rw [Bool.eq_false_iff]
  intro hs
  rw [Bool.or_eq_true, List.contains_iff_mem, List.contains_iff_mem, ← List.mem_append] at hs
  rw [hwords s hs] at h
  cases h

theorem isSpaced_of_isDigit {c : Char} (h : c.isDigit) : isSpaced c := by
  have hc : isDecimal c = true := h
  rw [isSpaced, hc, Bool.true_or]

theorem isSpacedNumber_digits {cs : List Char} (h : ∀ c ∈ cs, c.isDigit) (hne : cs ≠ []) :
    isSpacedNumber cs := by
  cases cs with
  | nil => exact absurd rfl hne
  | cons c cs =>
    have hc : isDecimal c = true := h c (.head _)
    rw [isSpacedNumber, hc, Bool.true_and, List.all_eq_true]
    exact fun d hd => isSpaced_of_isDigit (h d (.tail _ hd))

section Numerals

variable {n : Numeral}

theorem opensNumber_chars (h : n.Sound) (rest : List Char) :
    (n.chars ++ rest).head?.any opensNumber := by
  obtain ⟨c, cs, hwhole, hc⟩ := h.head?_body
  rw [chars_eq, body, hwhole]
  cases n.negative with
  | true => rfl
  | false => simp [signChars, opensNumber, hc]

theorem splitDecimal_body (h : n.Sound) (hf : n.fraction ≠ []) :
    splitDecimal n.body = (n.whole, '.' :: n.fraction, exponentChars n.exponent) := by
  have hwhole : n.body.takeWhile isSpaced = n.whole := by
    rw [body, fractionChars_of_ne hf, List.append_assoc]
    exact Grammar.takeWhile_append_of_stop (fun c hc => isSpaced_of_isDigit (h.whole c hc))
      (by rintro c ⟨⟩; rfl)
  have hfraction : (n.fraction ++ exponentChars n.exponent).takeWhile isSpaced = n.fraction := by
    refine Grammar.takeWhile_append_of_stop (fun c hc => isSpaced_of_isDigit (h.fraction c hc)) ?_
    cases n.exponent with
    | none => simp [exponentChars]
    | some e =>
      rintro c ⟨⟩
      rfl
  have hrest : n.body.drop n.whole.length = '.' :: (n.fraction ++ exponentChars n.exponent) := by
    simp [body, fractionChars_of_ne hf]
  simp only [splitDecimal, hwhole, hrest, hfraction, List.drop_left]

theorem isExponent_exponentChars (h : n.Sound) : isExponent (exponentChars n.exponent) := by
  have hexponent := h.exponent
  cases he : n.exponent with
  | none => rfl
  | some e =>
    obtain ⟨negative, cs⟩ := e
    obtain ⟨hdigits, hne⟩ := hexponent _ he
    have hall : cs.all isDecimal := List.all_eq_true.mpr hdigits
    cases negative <;> simp [exponentChars, isExponent, hall, hne]

theorem isFloat_chars (h : n.Sound) (hf : n.fraction ≠ []) : isFloat n.chars := by
  have hwhole := isSpacedNumber_digits h.whole h.whole_ne
  simp [isFloat, h.splitSign_chars, splitDecimal_body h hf, hwhole, isExponent_exponentChars h]

end Numerals

theorem splitColons_digits {cs : List Char} (h : ∀ c ∈ cs, c.isDigit) : splitColons cs = [cs] := by
  induction cs with
  | nil => rfl
  | cons c cs ih =>
    have hc : c ≠ ':' := by
      rintro rfl
      cases h _ (.head _)
    have hsplit := ih fun d hd => h d (.tail _ hd)
    unfold splitColons at hsplit ⊢
    rw [List.foldr_cons, hsplit]
    exact if_neg hc

theorem splitDecimal_digits {cs : List Char} (h : ∀ c ∈ cs, c.isDigit) :
    splitDecimal cs = (cs, [], []) := by
  have hall : cs.takeWhile isSpaced = cs :=
    List.takeWhile_eq_self_iff.mpr fun c hc => isSpaced_of_isDigit (h c hc)
  simp [splitDecimal, hall]

theorem contains_eq_false {ws : List String} (hws : ∀ w ∈ ws, '.' ∈ w.toList) {cs : List Char}
    (hcs : '.' ∉ cs) : ws.contains (String.ofList cs) = false := by
  rw [Bool.eq_false_iff, ne_eq, List.contains_iff_mem]
  intro hmem
  have hpoint := hws _ hmem
  rw [String.toList_ofList] at hpoint
  exact hcs hpoint

section Integers

variable {n : Numeral} (h : n.Sound) (hf : n.fraction = []) (he : n.exponent = none)
include h hf he

theorem splitSign_integer : splitSign n.chars = (n.negative, n.whole) := by
  rw [h.splitSign_chars, body, hf, he]
  simp [fractionChars, exponentChars]

theorem point_notMem_integer : '.' ∉ n.chars := by
  have hwhole : '.' ∉ n.whole := fun hmem => (isDigit_ne (h.whole _ hmem)).1 rfl
  cases hn : n.negative <;> simp [chars, hn, signChars, hf, he, fractionChars,
    exponentChars, hwhole]

theorem not_isFloat_integer : isFloat n.chars = false := by
  have hwhole : '.' ∉ n.whole := fun hmem => (isDigit_ne (h.whole _ hmem)).1 rfl
  have hsixty : n.whole.takeWhile (· ≠ '.') = n.whole :=
    List.takeWhile_eq_self_iff.mpr fun c hc => by simpa using (isDigit_ne (h.whole c hc)).1
  have hcolons : isSexagesimal isSpacedNumber n.whole = false := by
    simp [isSexagesimal, splitColons_digits h.whole]
  have hempty : n.whole.isEmpty = false := by simp [h.whole_ne]
  have hinf : [".inf", ".Inf", ".INF"].contains (String.ofList n.whole) = false :=
    contains_eq_false (by decide) hwhole
  have hnan : [".nan", ".NaN", ".NAN"].contains (String.ofList n.chars) = false :=
    contains_eq_false (by decide) (point_notMem_integer h hf he)
  simp only [isFloat, splitSign_integer h hf he, splitDecimal_digits h.whole, hsixty, hcolons,
    hempty, hinf, hnan]
  simp

theorem isInt_integer : isInt n.chars := by
  obtain ⟨c, cs, hwhole, hc⟩ := h.head?_body
  simp only [isInt, splitSign_integer h hf he]
  by_cases hzero : c = '0'
  · rw [h.leading (by rw [hwhole, hzero]; rfl)]
    rfl
  · have hcounting : isCounting n.whole := by
      have hdecimal : isDecimal c = true := hc
      rw [hwhole, isCounting, hdecimal, Bool.true_and, Bool.and_eq_true, List.all_eq_true]
      exact ⟨by simpa using hzero,
        fun d hd => isSpaced_of_isDigit (h.whole d (hwhole ▸ .tail _ hd))⟩
    rw [hwhole] at hcounting ⊢
    rw [Bool.or_eq_true]
    left
    split
    case h_5 => exact hcounting
    all_goals
      rename_i heq
      cases heq
      exact absurd rfl hzero

end Integers

/-! ## Scalars without quotes -/

/-- The numbers that are not finite, with their texts. -/
def specials : List (Float × String) := [(nan, ".nan"), (infinity, ".inf"), (-infinity, "-.inf")]

theorem numberText_special {x : Float} (h : x.isNaN ∨ x.isInf) : (x, numberText x) ∈ specials := by
  have hnan : numberText nan = ".nan" := by decide +kernel
  have hpositive : numberText infinity = ".inf" := by decide +kernel
  have hnegative : numberText (-infinity) = "-.inf" := by decide +kernel
  obtain h | h := h
  · rw [eq_nan h, hnan]
    exact .head _
  · obtain rfl | rfl := eq_infinity h
    · rw [hpositive]
      exact .tail _ (.head _)
    · rw [hnegative]
      exact .tail _ (.tail _ (.head _))

/-- The text of a number is a special one, or a numeral with a point that stands for the number. -/
theorem numberText_cases (x : Float) : (x, numberText x) ∈ specials ∨
    ∃ n : Numeral, n.Sound ∧ n.fraction ≠ [] ∧ n.toDecimal.toFloat = x ∧
      (numberText x).toList = n.chars := by
  by_cases hspecial : x.isNaN ∨ x.isInf
  · exact .inl (numberText_special hspecial)
  · obtain ⟨hnan, hinf⟩ := not_or.mp hspecial
    rw [Bool.not_eq_true] at hnan hinf
    refine .inr ⟨_, (Decimal.sound_numeral (shortest x)).pointed, pointed_fraction_ne _, ?_, ?_⟩
    · rw [toFloat_pointed, Decimal.toFloat_numeral, toFloat_shortest (isFinite_of hnan hinf)]
    · rw [numberText, hnan, hinf, if_neg Bool.false_ne_true, if_neg Bool.false_ne_true, toList_yaml]

theorem numberText_injective {x y : Float} (h : numberText x = numberText y) : x = y := by
  have hnone : ∀ p ∈ specials, Decimal.read? p.2.toList = none := by decide
  rcases numberText_cases x with hx | ⟨n, hn, -, hnx, hntext⟩
  · rcases numberText_cases y with hy | ⟨m, hm, -, -, hmtext⟩
    · have hspecials : ∀ p ∈ specials, ∀ q ∈ specials, p.2 = q.2 → p.1 = q.1 := by decide +kernel
      exact hspecials _ hx _ hy h
    · have hread := hnone _ hx
      rw [h, hmtext, hm.read?_chars] at hread
      cases hread
  · have hread := hn.read?_chars
    rw [← hntext, h] at hread
    rcases numberText_cases y with hy | ⟨m, hm, -, hmy, hmtext⟩
    · rw [hnone _ hy] at hread
      cases hread
    · rw [hmtext, hm.read?_chars, Option.some.injEq] at hread
      rw [← hnx, ← hmy, hread]

theorem resolve_of_isFloat {s : String} (hs : s.toList.head?.any opensNumber)
    (h : isFloat s.toList) : resolve s = .float := by
  simp only [resolve, not_word_of_opensNumber hs, h]
  rfl

theorem resolve_numberText (x : Float) : resolve (numberText x) = .float := by
  rcases numberText_cases x with hx | ⟨n, hn, hfraction, -, htext⟩
  · have hfloat : ∀ p ∈ specials, resolve p.2 = .float := by decide
    exact hfloat _ hx
  · apply resolve_of_isFloat <;> rw [htext]
    · simpa using opensNumber_chars hn []
    · exact isFloat_chars hn hfraction

theorem resolve_integer (n : Int) : resolve (toString n) = .int := by
  have hsound := Json.sound_integerNumeral n
  have hs : (toString n).toList.head?.any opensNumber := by
    rw [Json.toList_integer]
    simpa using opensNumber_chars hsound []
  simp only [resolve, not_word_of_opensNumber hs, Json.toList_integer,
    not_isFloat_integer hsound rfl rfl, isInt_integer hsound rfl rfl]
  rfl

/-- A scalar that is written without quotes. -/
def Unquoted : Scalar → Prop
  | .str s => styleOf s = .plain
  | .rough _ | .date _ => False
  | _ => True

/-- The text of a scalar without quotes. -/
def token : Scalar → List Char
  | .null => "null".toList
  | .bool b => (if b then "true" else "false").toList
  | .int n => (toString n).toList
  | .num x => (numberText x).toList
  | s => s.display.toList

/-- What the text of a scalar has to be taken for. -/
def tagOf : Scalar → Tag
  | .null => .null
  | .bool _ => .bool
  | .int _ => .int
  | .num _ => .float
  | _ => .str

/-- What is not in a text that is plain. -/
theorem styleOf_plain {s : String} (h : styleOf s = .plain) :
    (s.toList.any isSpecial = false ∧ s.toList.any isBreak = false) ∧
      (s.toList.head?.any (· = ' ') = false ∧ s.toList.getLast?.any (· = ' ') = false) ∧
      hasSign s.toList = false ∧ resolve s = .str := by
  unfold styleOf at h
  dsimp only at h
  split at h
  · cases h
  split at h
  · cases h
  · rename_i hdouble hsingle
    simp only [Bool.or_eq_true, not_or, Bool.not_eq_true, decide_eq_true_eq, ne_eq,
      not_not] at hdouble hsingle
    exact ⟨⟨hdouble.2, hsingle.1.1.2⟩, hsingle.1.1.1, hsingle.1.2, hsingle.2⟩

theorem resolve_token {s : Scalar} (h : Unquoted s) :
    resolve (String.ofList (token s)) = tagOf s := by
  cases s with
  | null => decide
  | bool b => cases b <;> decide
  | int n => rw [token, String.ofList_toList, resolve_integer, tagOf]
  | num x => rw [token, String.ofList_toList, resolve_numberText, tagOf]
  | str s =>
    change resolve (String.ofList s.toList) = .str
    rw [String.ofList_toList, (styleOf_plain h).2.2.2]
  | rough | date => cases h

/-- A text is that of one scalar only: what it is taken for tells the sort, and then it is read. -/
theorem token_injective {s t : Scalar} (hs : Unquoted s) (ht : Unquoted t) (h : token s = token t) :
    s = t := by
  have htag : tagOf s = tagOf t := by rw [← resolve_token hs, h, resolve_token ht]
  cases s with
  | null =>
    cases t with
    | null => rfl
    | bool | int | num | str | rough | date => cases htag
  | bool b =>
    cases t with
    | bool c =>
      cases b <;> cases c
      · rfl
      · exact absurd h (by decide)
      · exact absurd h (by decide)
      · rfl
    | null | int | num | str | rough | date => cases htag
  | int n =>
    cases t with
    | int m =>
      have hread := Json.readInteger?_integer n
      simp only [token, Json.toList_integer] at h
      rw [h, Json.readInteger?_integer] at hread
      cases hread
      rfl
    | null | bool | num | str | rough | date => cases htag
  | num x =>
    cases t with
    | num y => rw [numberText_injective (String.toList_injective h)]
    | null | bool | int | str | rough | date => cases htag
  | str s =>
    cases t with
    | str t =>
      have htext : s.toList = t.toList := h
      rw [String.toList_injective htext]
    | null | bool | int | num => cases htag
    | rough | date => cases ht
  | rough | date => cases hs

end PolarPlot.Document.Yaml

import Mathlib.Data.List.Basic
import PolarPlot.Proofs.YamlScalars

/-!
# YAML texts tell their data

Lists stand at the column of their key and objects two columns further on, so the columns and the
dashes tell how data is nested. A scalar without quotes ends where a line starts further to the
left, and a key ends at its colon. So what stands under a key tells the data and where it ends
(`Legible.told`), and a text tells the list that it is of (`text_injective`), as long as the data is
`Legible`: no text in it needs a backslash or has quotes or breaks of its own, and its lists are of
objects.
-/

namespace PolarPlot.Document.Yaml

open Number Text

/-! ## Lines -/

theorem blanks_append_inj {j k : Nat} {s t : List Char} (hs : s.head? ≠ some ' ')
    (ht : t.head? ≠ some ' ') (h : blanks j ++ s = blanks k ++ t) : j = k ∧ s = t := by
  induction j generalizing k with
  | zero =>
    cases k with
    | zero => exact ⟨rfl, h⟩
    | succ k =>
      change s = ' ' :: (blanks k ++ t) at h
      rw [h] at hs
      exact absurd rfl hs
  | succ j ih =>
    cases k with
    | zero =>
      change ' ' :: (blanks j ++ s) = t at h
      rw [← h] at ht
      exact absurd rfl ht
    | succ k =>
      obtain ⟨rfl, rfl⟩ := ih (List.cons.inj h).2
      exact ⟨rfl, rfl⟩

theorem newLine_append_inj {j k : Nat} {s t : List Char} (hs : s.head? ≠ some ' ')
    (ht : t.head? ≠ some ' ') (h : newLine j ++ s = newLine k ++ t) : j = k ∧ s = t :=
  blanks_append_inj hs ht (List.cons.inj h).2

/-- Text that starts with a new line, before a column. -/
def Ends (column : Nat) (r : List Char) : Prop :=
  ∃ k t, r = newLine k ++ t ∧ k < column ∧ t.head? ≠ some ' '

/-! ## Words -/

/-- Words with spaces before them. -/
inductive Words : List Char → Prop where
  | nil : Words []
  | word {n : Nat} {c : Char} {cs : List Char} : c ≠ ' ' → c ≠ '\n' → Words cs →
      Words (blanks n ++ c :: cs)

theorem words_of {cs : List Char} (hbreak : '\n' ∉ cs) (hlast : cs.getLast? ≠ some ' ') :
    Words cs := by
  induction cs with
  | nil => exact .nil
  | cons c cs ih =>
    rw [List.mem_cons, not_or] at hbreak
    by_cases hc : c = ' '
    · subst hc
      cases cs with
      | nil => exact absurd rfl hlast
      | cons d ds =>
        have hwords := ih hbreak.2 hlast
        generalize hds : d :: ds = es at hwords ⊢
        cases hwords with
        | nil => cases hds
        | @word n c cs hc hn hcs => exact .word (n := n + 1) hc hn hcs
    · refine .word (n := 0) hc (Ne.symm hbreak.1) (ih hbreak.2 ?_)
      cases cs with
      | nil => simp
      | cons d ds => exact hlast

/-- What stands before a word after `n` spaces: a line break if the line is past its width. -/
def gap (indent column n : Nat) : List Char :=
  if n = 1 ∧ width < column then newLine indent else blanks n

/-- The column after the first character of a word. -/
def columnAfter (indent column n : Nat) : Nat :=
  if n = 1 ∧ width < column then indent + 1 else column + n + 1

theorem foldPlain_word {c : Char} (hc : c ≠ ' ') (indent column n : Nat) (cs : List Char) :
    foldPlain indent column 0 (blanks n ++ c :: cs) =
      gap indent column n ++ c :: foldPlain indent (columnAfter indent column n) 0 cs := by
  have hblanks : ∀ run, foldPlain indent column run (blanks n ++ c :: cs) =
      foldPlain indent column (run + n) (c :: cs) := by
    induction n with
    | zero => exact fun _ => rfl
    | succ n ih =>
      intro run
      change foldPlain indent column run (' ' :: (blanks n ++ c :: cs)) = _
      rw [foldPlain, if_pos rfl, ih, Nat.add_right_comm]
      rfl
  rw [hblanks, Nat.zero_add, foldPlain, if_neg hc, gap, columnAfter]
  split <;> rfl

theorem foldPlain_nil (indent column : Nat) : foldPlain indent column 0 [] = [] := rfl

section Gaps

variable {indent column m n : Nat} {c d : Char} {xs ys r s : List Char}

theorem newLine_ne_blanks (hc : c ≠ '\n') (k : Nat) : newLine k ++ r ≠ blanks n ++ c :: xs := by
  cases n with
  | zero =>
    intro h
    exact hc (List.cons.inj h).1.symm
  | succ n =>
    intro h
    exact absurd (List.cons.inj h).1 (by decide)

theorem Ends.ne_gap (h : Ends indent r) (hc : c ≠ ' ') (hn : c ≠ '\n') :
    r ≠ gap indent column n ++ c :: xs := by
  obtain ⟨k, t, rfl, hk, ht⟩ := h
  intro he
  unfold gap at he
  split at he
  · obtain ⟨rfl, -⟩ := newLine_append_inj ht (by simpa using hc) he
    exact lt_irrefl _ hk
  · exact newLine_ne_blanks hn k he

theorem gap_cancel (hc : c ≠ ' ') (hcn : c ≠ '\n') (hd : d ≠ ' ') (hdn : d ≠ '\n')
    (h : gap indent column m ++ c :: xs = gap indent column n ++ d :: ys) :
    m = n ∧ c = d ∧ xs = ys := by
  have hchead : (c :: xs).head? ≠ some ' ' := by simpa using hc
  have hdhead : (d :: ys).head? ≠ some ' ' := by simpa using hd
  unfold gap at h
  split at h <;> rename_i hm <;> split at h <;> rename_i hn
  · obtain ⟨-, h⟩ := newLine_append_inj hchead hdhead h
    exact ⟨hm.1.trans hn.1.symm, List.cons.inj h⟩
  · exact absurd h (newLine_ne_blanks hdn indent)
  · exact absurd h.symm (newLine_ne_blanks hcn indent)
  · obtain ⟨hmn, h⟩ := blanks_append_inj hchead hdhead h
    exact ⟨hmn, List.cons.inj h⟩

/-- A folded text ends where the next line does not go on with it. -/
theorem foldPlain_cancel (hx : Words xs) (hy : Words ys) (hr : Ends indent r) (hs : Ends indent s)
    (h : foldPlain indent column 0 xs ++ r = foldPlain indent column 0 ys ++ s) :
    xs = ys ∧ r = s := by
  induction hx generalizing column ys with
  | nil =>
    cases hy with
    | nil => exact ⟨rfl, h⟩
    | word hd hdn hy =>
      rw [foldPlain_word hd, foldPlain_nil, List.nil_append, List.append_assoc] at h
      exact absurd h (hr.ne_gap hd hdn)
  | word hc hcn hx ih =>
    rw [foldPlain_word hc, List.append_assoc] at h
    cases hy with
    | nil =>
      rw [foldPlain_nil, List.nil_append] at h
      exact absurd h.symm (hs.ne_gap hc hcn)
    | word hd hdn hy =>
      rw [foldPlain_word hd, List.append_assoc] at h
      obtain ⟨rfl, rfl, htail⟩ := gap_cancel hc hcn hd hdn h
      obtain ⟨rfl, hrs⟩ := ih hy htail
      exact ⟨rfl, hrs⟩

end Gaps

/-! ## Scalars -/

/-- A character that stands for itself between single quotes, and ends no word. -/
def isTame (c : Char) : Bool := c ≠ ' ' && c ≠ '\'' && !isBreak c && !isSpecial c

theorem foldPlain_of_notMem {cs : List Char} (h : ' ' ∉ cs) (indent column : Nat) :
    foldPlain indent column 0 cs = cs := by
  induction cs generalizing column with
  | nil => rfl
  | cons c cs ih =>
    rw [List.mem_cons, not_or] at h
    rw [foldPlain, if_neg (Ne.symm h.1), if_neg (by simp), ih h.2]
    rfl

theorem foldSingle_tame {cs : List Char} (h : ∀ c ∈ cs, isTame c) (indent column : Nat)
    (first : Bool) : foldSingle indent column first 0 [] cs = cs := by
  induction cs generalizing column first with
  | nil => rfl
  | cons c cs ih =>
    have hc := h c (.head _)
    simp only [isTame, Bool.and_eq_true, decide_eq_true_eq, Bool.not_eq_true'] at hc
    obtain ⟨⟨⟨hspace, hquote⟩, hbreak⟩, -⟩ := hc
    rw [foldSingle, if_neg hspace, hbreak, if_neg Bool.false_ne_true]
    simp [hquote, blanks, ih fun d hd => h d (.tail _ hd)]

theorem textScalar_plain {s : String} (h : styleOf s = .plain) (indent column : Nat) :
    textScalar indent column s = foldPlain indent column 0 s.toList := by
  rw [textScalar, h]

theorem textScalar_quoted {s : String} (h : styleOf s = .single) (hs : ∀ c ∈ s.toList, isTame c)
    (indent column : Nat) : textScalar indent column s = '\'' :: (s.toList ++ ['\'']) := by
  rw [textScalar, h]
  simp only [foldSingle_tame hs, List.cons_append]

/-- A character that neither separates words nor opens a quote or a bracket. -/
def isClear (c : Char) : Bool := !(c == ' ' || c == '\n' || c == '\'' || c == '[' || c == '{')

theorem isClear_of_isDigit {c : Char} (h : c.isDigit) : isClear c := by
  by_contra hclear
  simp only [isClear, Bool.not_eq_true', Bool.not_eq_false, Bool.or_eq_true, beq_iff_eq] at hclear
  rcases hclear with (((rfl | rfl) | rfl) | rfl) | rfl <;> cases h

theorem isClear_chars {n : Numeral} (h : n.Sound) {c : Char} (hc : c ∈ n.chars) : isClear c := by
  rw [Numeral.chars, List.mem_append, List.mem_append, List.mem_append] at hc
  obtain ((hc | hc) | hc) | hc := hc
  · cases hn : n.negative <;> rw [hn] at hc
    · cases hc
    · obtain rfl := List.mem_singleton.mp hc
      rfl
  · exact isClear_of_isDigit (h.whole c hc)
  · by_cases hf : n.fraction = []
    · rw [hf] at hc
      cases hc
    · rw [Numeral.fractionChars_of_ne hf] at hc
      obtain rfl | hc := List.mem_cons.mp hc
      · rfl
      · exact isClear_of_isDigit (h.fraction c hc)
  · have hexponent := h.exponent
    cases he : n.exponent with
    | none =>
      rw [he] at hc
      cases hc
    | some e =>
      rw [he, Numeral.exponentChars] at hc
      obtain rfl | hc := List.mem_cons.mp hc
      · rfl
      obtain rfl | hc := List.mem_cons.mp hc
      · cases e.1 <;> rfl
      · exact isClear_of_isDigit ((hexponent e he).1 c hc)

theorem isClear_numberText (x : Float) : ∀ c ∈ (numberText x).toList, isClear c := by
  rcases numberText_cases x with hx | ⟨n, hn, -, -, htext⟩
  · have hclear : (specials.all fun p => p.2.toList.all isClear) = true := by decide
    have htext := List.all_eq_true.mp hclear _ hx
    exact List.all_eq_true.mp htext
  · rw [htext]
    exact fun c hc => isClear_chars hn hc

/-- A scalar without quotes is a text, or else its text is all clear. -/
theorem token_cases {s : Scalar} (h : Unquoted s) :
    (∃ t, s = .str t ∧ styleOf t = .plain) ∨
      (∀ c ∈ token s, isClear c) ∧ ∀ indent column, scalarChars indent column s = token s := by
  cases s with
  | null => exact .inr ⟨List.all_eq_true.mp (by decide), fun _ _ => rfl⟩
  | bool b => exact .inr ⟨List.all_eq_true.mp (by cases b <;> decide), fun _ _ => rfl⟩
  | int n =>
    refine .inr ⟨?_, fun _ _ => rfl⟩
    rw [token, Json.toList_integer]
    exact fun c hc => isClear_chars (Json.sound_integerNumeral n) hc
  | num x => exact .inr ⟨isClear_numberText x, fun _ _ => rfl⟩
  | str t => exact .inl ⟨t, rfl, h⟩
  | rough | date => cases h

theorem notMem_of_isClear {cs : List Char} (h : ∀ c ∈ cs, isClear c) {c : Char}
    (hc : isClear c = false) : c ∉ cs := by
  intro hmem
  rw [h c hmem] at hc
  cases hc

theorem token_words {s : Scalar} (h : Unquoted s) : Words (token s) := by
  obtain ⟨t, rfl, ht⟩ | ⟨hclear, -⟩ := token_cases h
  · obtain ⟨⟨-, hbreak⟩, ⟨-, hlast⟩, -⟩ := styleOf_plain ht
    change Words t.toList
    refine words_of ?_ ?_
    · intro hmem
      rw [List.any_eq_false] at hbreak
      exact hbreak _ hmem rfl
    · intro hspace
      rw [hspace] at hlast
      cases hlast
  · refine words_of (notMem_of_isClear hclear rfl) fun hlast => ?_
    exact notMem_of_isClear hclear (c := ' ') rfl (List.mem_of_getLast? hlast)

theorem scalarChars_unquoted {s : Scalar} (h : Unquoted s) (indent column : Nat) :
    scalarChars indent column s = foldPlain indent column 0 (token s) := by
  obtain ⟨t, rfl, ht⟩ | ⟨hclear, hchars⟩ := token_cases h
  · exact textScalar_plain ht indent column
  · rw [hchars, foldPlain_of_notMem (notMem_of_isClear hclear rfl)]

theorem token_ne_nil {s : Scalar} (h : Unquoted s) : token s ≠ [] := by
  intro hnil
  have hnull : resolve (String.ofList []) = .null := by decide
  have htag := resolve_token h
  rw [hnil, hnull] at htag
  cases s with
  | null => cases hnil
  | bool | int | num | str => cases htag
  | rough | date => cases h

/-- No scalar without quotes starts like a quote or a bracket. -/
theorem token_head {s : Scalar} (h : Unquoted s) : ∃ c cs, token s = c :: cs ∧ isClear c := by
  obtain ⟨c, cs, htoken⟩ := List.exists_cons_of_ne_nil (token_ne_nil h)
  refine ⟨c, cs, htoken, ?_⟩
  obtain ⟨t, rfl, ht⟩ | ⟨hclear, -⟩ := token_cases h
  · obtain ⟨⟨-, hbreak⟩, ⟨hspace, -⟩, hsign, -⟩ := styleOf_plain ht
    change t.toList = c :: cs at htoken
    rw [htoken] at hbreak hspace hsign
    by_contra hclear
    simp only [isClear, Bool.not_eq_true', Bool.not_eq_false, Bool.or_eq_true, beq_iff_eq] at hclear
    rcases hclear with (((rfl | rfl) | rfl) | rfl) | rfl
    · cases hspace
    · cases hbreak
    all_goals
      simp [hasSign, isOpeningSign] at hsign
  · exact hclear c (htoken ▸ .head _)

theorem scalarChars_clear {s : Scalar} (h : Unquoted s) (indent column : Nat) :
    ∃ c cs, scalarChars indent column s = c :: cs ∧ isClear c := by
  obtain ⟨c, cs, htoken, hc⟩ := token_head h
  have hspace : c ≠ ' ' := by
    rintro rfl
    cases hc
  rw [scalarChars_unquoted h, htoken]
  exact ⟨c, _, foldPlain_word hspace indent column 0 cs, hc⟩

/-- A scalar that is written in one way only, without a backslash or a break. -/
def LegibleScalar (s : Scalar) : Prop :=
  Unquoted s ∨ ∃ t, s = .str t ∧ styleOf t = .single ∧ ∀ c ∈ t.toList, isTame c

theorem scalarChars_head {s : Scalar} (h : LegibleScalar s) (indent column : Nat) :
    ∃ c cs, scalarChars indent column s = c :: cs ∧ c ≠ '[' ∧ c ≠ '{' := by
  obtain h | ⟨t, rfl, hstyle, ht⟩ := h
  · obtain ⟨c, cs, hchars, hc⟩ := scalarChars_clear h indent column
    simp only [isClear, Bool.not_eq_true', Bool.or_eq_false_iff, beq_eq_false_iff_ne] at hc
    exact ⟨c, cs, hchars, hc.1.2, hc.2⟩
  · exact ⟨_, _, textScalar_quoted hstyle ht indent column, by decide, by decide⟩

theorem append_cons_cancel {a : Char} {xs ys r s : List Char} (hx : a ∉ xs) (hy : a ∉ ys)
    (h : xs ++ a :: r = ys ++ a :: s) : xs = ys ∧ r = s := by
  induction xs generalizing ys with
  | nil =>
    cases ys with
    | nil => exact ⟨rfl, (List.cons.inj h).2⟩
    | cons y ys => exact absurd ((List.cons.inj h).1 ▸ .head _) hy
  | cons x xs ih =>
    cases ys with
    | nil => exact absurd ((List.cons.inj h).1 ▸ .head _) hx
    | cons y ys =>
      obtain ⟨rfl, htail⟩ := List.cons.inj h
      obtain ⟨rfl, hrs⟩ := ih (fun hmem => hx (.tail _ hmem)) (fun hmem => hy (.tail _ hmem)) htail
      exact ⟨rfl, hrs⟩

theorem quote_notMem {cs : List Char} (h : ∀ c ∈ cs, isTame c) : '\'' ∉ cs :=
  fun hmem => absurd (h _ hmem) (by decide)

/-- A quote opens a text in quotes and no other scalar. -/
theorem scalarChars_ne_quoted {s : Scalar} (hs : Unquoted s) {t : String}
    (hstyle : styleOf t = .single) (ht : ∀ c ∈ t.toList, isTame c) (indent column : Nat)
    (r r' : List Char) : scalarChars indent column s ++ r ≠ textScalar indent column t ++ r' := by
  intro h
  obtain ⟨c, cs, hchars, hc⟩ := scalarChars_clear hs indent column
  rw [hchars, textScalar_quoted hstyle ht] at h
  obtain ⟨rfl, -⟩ := List.cons.inj h
  cases hc

theorem scalarChars_cancel {s t : Scalar} (hs : LegibleScalar s) (ht : LegibleScalar t)
    {indent column : Nat} {r r' : List Char} (hr : Ends indent r) (hr' : Ends indent r')
    (h : scalarChars indent column s ++ r = scalarChars indent column t ++ r') :
    s = t ∧ r = r' := by
  obtain hs | ⟨v, rfl, hvstyle, hv⟩ := hs
  · obtain ht | ⟨w, rfl, hwstyle, hw⟩ := ht
    · rw [scalarChars_unquoted hs, scalarChars_unquoted ht] at h
      obtain ⟨htoken, hrest⟩ := foldPlain_cancel (token_words hs) (token_words ht) hr hr' h
      exact ⟨token_injective hs ht htoken, hrest⟩
    · exact absurd h (scalarChars_ne_quoted hs hwstyle hw indent column r r')
  · obtain ht | ⟨w, rfl, hwstyle, hw⟩ := ht
    · exact absurd h.symm (scalarChars_ne_quoted ht hvstyle hv indent column r' r)
    · change textScalar indent column v ++ r = textScalar indent column w ++ r' at h
      simp only [textScalar_quoted hvstyle hv, textScalar_quoted hwstyle hw, List.cons_append,
        List.append_assoc, List.nil_append] at h
      obtain ⟨hvw, hrest⟩ :=
        append_cons_cancel (quote_notMem hv) (quote_notMem hw) (List.cons.inj h).2
      exact ⟨congrArg Scalar.str (String.toList_injective hvw), hrest⟩

/-! ## Blocks -/

/-- A name that is written as it is before the colon of a field. -/
def isKey (name : String) : Bool :=
  styleOf name = .plain && (name.toList.all fun c => isTame c && c ≠ ':') &&
    name.toList.head? ≠ some '-'

/-- Data that is written in one way only: its lists are of objects that have fields. -/
inductive Legible : Datum → Prop where
  | scalar {s : Scalar} : LegibleScalar s → Legible (.scalar s)
  | list {items : List Datum} :
    (∀ d ∈ items, Legible d) → (∀ d ∈ items, ∃ f fs, d = .obj (f :: fs)) → Legible (.list items)
  | obj {fields : List (String × Datum)} :
    (∀ f ∈ fields, isKey f.1) → (∀ f ∈ fields, Legible f.2) → Legible (.obj fields)

section Keys

variable {name : String}

theorem isKey_iff : isKey name ↔
    styleOf name = .plain ∧ (∀ c ∈ name.toList, isTame c ∧ c ≠ ':') ∧
    name.toList.head? ≠ some '-' := by
  simp [isKey, and_assoc]

theorem textScalar_key (h : isKey name) (indent column : Nat) :
    textScalar indent column name = name.toList := by
  obtain ⟨hplain, htame, -⟩ := isKey_iff.mp h
  refine (textScalar_plain hplain indent column).trans (foldPlain_of_notMem ?_ indent column)
  exact fun hmem => absurd (htame _ hmem).1 (by decide)

theorem head_key (h : isKey name) : ∃ c cs, name.toList = c :: cs ∧ c ≠ ' ' ∧ c ≠ '-' := by
  obtain ⟨hplain, -, hdash⟩ := isKey_iff.mp h
  have hunquoted : Unquoted (.str name) := hplain
  obtain ⟨c, cs, hname, hc⟩ := token_head hunquoted
  change name.toList = c :: cs at hname
  refine ⟨c, cs, hname, ?_, ?_⟩
  · rintro rfl
    cases hc
  · rintro rfl
    rw [hname] at hdash
    exact hdash rfl

theorem colon_notMem_key (h : isKey name) : ':' ∉ name.toList :=
  fun hmem => ((isKey_iff.mp h).2.1 _ hmem).2 rfl

end Keys

/-- The line of an item, with the break before it. -/
def itemBlock (column : Nat) (d : Datum) : List Char := newLine column ++ '-' :: afterDash column d

/-- The lines of a field, with the break before them. -/
def fieldBlock (column : Nat) (f : String × Datum) : List Char :=
  newLine column ++
    (textScalar column column f.1 ++ ':' :: underKey column (textScalar column column f.1) f.2)

theorem newLine_stack (column : Nat) {lines : List (List Char)} (h : lines ≠ []) :
    newLine column ++ stack column lines = lines.flatMap (newLine column ++ ·) := by
  induction lines with
  | nil => exact absurd rfl h
  | cons line lines ih =>
    cases lines with
    | nil => simp [stack]
    | cons line' lines =>
      rw [stack, List.flatMap_cons, ← ih (by simp)]
      · simp only [List.append_assoc]
      · simp

theorem itemLines_eq (column : Nat) (items : List Datum) :
    itemLines column items = items.map fun d => '-' :: afterDash column d := by
  induction items with
  | nil => rfl
  | cons d ds ih => rw [itemLines, ih, List.map_cons]

theorem fieldLines_eq (column : Nat) (fields : List (String × Datum)) :
    fieldLines column fields = fields.map fun f =>
      textScalar column column f.1 ++
        ':' :: underKey column (textScalar column column f.1) f.2 := by
  induction fields with
  | nil => rfl
  | cons f fields ih =>
    obtain ⟨name, d⟩ := f
    rw [fieldLines, ih, List.map_cons]

theorem underKey_items {items : List Datum} (h : items ≠ []) (column : Nat) (key : List Char) :
    underKey column key (.list items) = items.flatMap (itemBlock column) := by
  rw [underKey, itemLines_eq, newLine_stack _ (by simpa using h), List.flatMap_map]
  · rfl
  · exact h

theorem underKey_fields {fields : List (String × Datum)} (h : fields ≠ []) (column : Nat)
    (key : List Char) :
    underKey column key (.obj fields) = fields.flatMap (fieldBlock (column + 2)) := by
  rw [underKey, fieldLines_eq, newLine_stack _ (by simpa using h), List.flatMap_map]
  · rfl
  · exact h

/-! ## Shapes -/

inductive Shape where
  | scalar
  | noItems
  | items
  | noFields
  | fields

def shapeOf : Datum → Shape
  | .scalar _ => .scalar
  | .list [] => .noItems
  | .list (_ :: _) => .items
  | .obj [] => .noFields
  | .obj (_ :: _) => .fields

/-- The shape of what stands after a key at a column, by its first characters. -/
def readShape (column : Nat) (cs : List Char) : Shape :=
  if cs.head? = some ' ' then
    if cs[1]? = some '[' then .noItems else if cs[1]? = some '{' then .noFields else .scalar
  else if cs[column + 1]? = some '-' then .items else .fields

theorem readShape_underKey {d : Datum} (hd : Legible d) (column : Nat) (key r : List Char) :
    readShape column (underKey column key d ++ r) = shapeOf d := by
  cases hd with
  | @scalar s hs =>
    obtain ⟨c, cs, hchars, hlist, hobj⟩ :=
      scalarChars_head hs (column + 2) (column + key.length + 2)
    rw [underKey, hchars]
    simp [readShape, shapeOf, hlist, hobj]
  | @list items _ _ =>
    cases items with
    | nil => rfl
    | cons d ds =>
      rw [underKey_items (by simp), List.flatMap_cons, itemBlock]
      simp [readShape, newLine, blanks, shapeOf]
  | @obj fields _ _ =>
    cases fields with
    | nil => rfl
    | cons f fs =>
      rw [underKey_fields (by simp), List.flatMap_cons, fieldBlock]
      simp [readShape, newLine, blanks, shapeOf, List.getElem?_append]

/-! ## Reading blocks back -/

/-- Text that does not go on with the items of a list at a column. -/
def NoDash (column : Nat) (r : List Char) : Prop := ∀ t, r ≠ newLine column ++ '-' :: t

/-- Text that may stand after data under a key at a column. -/
structure Follows (column : Nat) (d : Datum) (r : List Char) : Prop where
  ends : Ends (column + 2) r
  noDash : ∀ items, d = .list items → NoDash column r

/-- Blocks one after the other are told apart, if each can be told from what may stand after it.
`Open` is what may stand after a block, and `Next` is where another one starts. -/
theorem flatMap_cancel {α : Type} {P : α → Prop} {block : α → List Char}
    (Open Next : List Char → Prop)
    (hnext : ∀ x, P x → ∀ r, Open (block x ++ r) ∧ Next (block x ++ r)) {xs ys : List α}
    (hx : ∀ x ∈ xs, P x) (hy : ∀ y ∈ ys, P y)
    (hstep : ∀ x ∈ xs, ∀ y, P y → ∀ r s, Open r → Open s → block x ++ r = block y ++ s →
      x = y ∧ r = s) {r s : List Char} (hr : Open r ∧ ¬Next r) (hs : Open s ∧ ¬Next s)
    (h : xs.flatMap block ++ r = ys.flatMap block ++ s) : xs = ys ∧ r = s := by
  have hopen : ∀ zs : List α, (∀ z ∈ zs, P z) → ∀ t, Open t → Open (zs.flatMap block ++ t) := by
    intro zs hz t ht
    cases zs with
    | nil => exact ht
    | cons z zs =>
      rw [List.flatMap_cons, List.append_assoc]
      exact (hnext z (hz z (.head _)) _).1
  induction xs generalizing ys with
  | nil =>
    cases ys with
    | nil => exact ⟨rfl, h⟩
    | cons y ys =>
      rw [List.flatMap_nil, List.nil_append, List.flatMap_cons, List.append_assoc] at h
      exact absurd (h ▸ (hnext y (hy y (.head _)) _).2) hr.2
  | cons x xs ih =>
    cases ys with
    | nil =>
      rw [List.flatMap_nil, List.nil_append, List.flatMap_cons, List.append_assoc] at h
      exact absurd (h ▸ (hnext x (hx x (.head _)) _).2) hs.2
    | cons y ys =>
      rw [List.flatMap_cons, List.flatMap_cons, List.append_assoc, List.append_assoc] at h
      have hxs : ∀ x ∈ xs, P x := fun z hz => hx z (.tail _ hz)
      have hys : ∀ y ∈ ys, P y := fun z hz => hy z (.tail _ hz)
      obtain ⟨rfl, htail⟩ := hstep x (.head _) y (hy y (.head _)) _ _ (hopen xs hxs r hr.1)
        (hopen ys hys s hs.1) h
      obtain ⟨rfl, hrs⟩ := ih hxs hys (fun z hz => hstep z (.tail _ hz)) htail
      exact ⟨rfl, hrs⟩

theorem Ends.mono {column column' : Nat} (hle : column ≤ column') {r : List Char}
    (h : Ends column r) : Ends column' r := by
  obtain ⟨k, t, hr, hk, ht⟩ := h
  exact ⟨k, t, hr, lt_of_lt_of_le hk hle, ht⟩

theorem ends_newLine {column : Nat} {c : Char} (hc : c ≠ ' ') (r : List Char) :
    Ends (column + 2) (newLine column ++ c :: r) :=
  ⟨column, c :: r, rfl, by omega, by simpa using hc⟩

/-- Text that ends before a column does not start a line there. -/
theorem Ends.ne_newLine {column : Nat} {r : List Char} (h : Ends column r) {c : Char} (hc : c ≠ ' ')
    (t : List Char) : r ≠ newLine column ++ c :: t := by
  obtain ⟨k, u, rfl, hk, hu⟩ := h
  intro he
  obtain ⟨rfl, -⟩ := newLine_append_inj hu (by simpa using hc) he
  exact lt_irrefl _ hk

theorem fieldBlock_append {column : Nat} {f : String × Datum} (h : isKey f.1) (r : List Char) :
    fieldBlock column f ++ r =
      newLine column ++ (f.1.toList ++ ':' :: (underKey column f.1.toList f.2 ++ r)) := by
  rw [fieldBlock, textScalar_key h]
  simp only [List.append_assoc, List.cons_append]

/-- What stands after the dash of an object is what stands under a key, but for the break. -/
theorem itemBlock_append (column : Nat) (f : String × Datum) (fs : List (String × Datum))
    (r : List Char) :
    ∃ t, itemBlock column (.obj (f :: fs)) ++ r = newLine column ++ '-' :: ' ' :: t ∧
      underKey column [] (.obj (f :: fs)) ++ r = newLine (column + 2) ++ t := by
  refine ⟨stack (column + 2) (fieldLines (column + 2) (f :: fs)) ++ r, ?_, ?_⟩
  · rw [itemBlock, afterDash, List.append_assoc]
    · rfl
    · simp
  · rw [underKey, List.append_assoc]
    simp

/-- Data that the text under a key tells, together with where that text ends. -/
def Told (d : Datum) : Prop :=
  ∀ {e : Datum} {column : Nat} {key r s : List Char}, Legible e → Follows column d r →
    Follows column e s → underKey column key d ++ r = underKey column key e ++ s → d = e ∧ r = s

theorem fields_cancel {column : Nat} {fs gs : List (String × Datum)}
    (hf : ∀ f ∈ fs, isKey f.1 ∧ Legible f.2) (hg : ∀ g ∈ gs, isKey g.1 ∧ Legible g.2)
    (htold : ∀ f ∈ fs, Told f.2) {r s : List Char} (hr : Ends column r) (hs : Ends column s)
    (h : fs.flatMap (fieldBlock column) ++ r = gs.flatMap (fieldBlock column) ++ s) :
    fs = gs ∧ r = s := by
  let Open (t : List Char) : Prop := Ends (column + 2) t ∧ NoDash column t
  let Next (t : List Char) : Prop := ∃ c u, t = newLine column ++ c :: u ∧ c ≠ ' '
  have hstop : ∀ t, Ends column t → Open t ∧ ¬Next t := by
    intro t ht
    refine ⟨⟨ht.mono (by omega), ht.ne_newLine (by decide)⟩, ?_⟩
    rintro ⟨c, u, rfl, hc⟩
    exact ht.ne_newLine hc u rfl
  refine flatMap_cancel Open Next ?_ hf hg ?_ (hstop r hr) (hstop s hs) h
  · rintro f ⟨hkey, -⟩ t
    obtain ⟨c, cs, hname, hspace, hdash⟩ := head_key hkey
    rw [fieldBlock_append hkey, hname]
    refine ⟨⟨ends_newLine hspace _, fun u he => ?_⟩, c, _, rfl, hspace⟩
    exact hdash (List.cons.inj (List.append_cancel_left he)).1
  · rintro f hmem g ⟨hkey, hlegible⟩ t u ht hu he
    rw [fieldBlock_append (hf f hmem).1, fieldBlock_append hkey] at he
    obtain ⟨hname, hdata⟩ := append_cons_cancel (colon_notMem_key (hf f hmem).1)
      (colon_notMem_key hkey) (List.append_cancel_left he)
    rw [hname] at hdata
    obtain ⟨hfg, htu⟩ := htold f hmem hlegible ⟨ht.1, fun _ _ => ht.2⟩ ⟨hu.1, fun _ _ => hu.2⟩ hdata
    exact ⟨Prod.ext (String.toList_injective hname) hfg, htu⟩

theorem items_cancel {column : Nat} {ds es : List Datum}
    (hd : ∀ d ∈ ds, Legible d ∧ ∃ f fs, d = .obj (f :: fs))
    (he : ∀ e ∈ es, Legible e ∧ ∃ f fs, e = .obj (f :: fs)) (htold : ∀ d ∈ ds, Told d)
    {r s : List Char} (hr : Ends (column + 2) r ∧ NoDash column r)
    (hs : Ends (column + 2) s ∧ NoDash column s)
    (h : ds.flatMap (itemBlock column) ++ r = es.flatMap (itemBlock column) ++ s) :
    ds = es ∧ r = s := by
  let Next (t : List Char) : Prop := ∃ u, t = newLine column ++ '-' :: u
  have hstop : ∀ t, Ends (column + 2) t ∧ NoDash column t → Ends (column + 2) t ∧ ¬Next t :=
    fun t ht => ⟨ht.1, fun hnext => hnext.elim ht.2⟩
  refine flatMap_cancel (Ends (column + 2)) Next ?_ hd he ?_ (hstop r hr) (hstop s hs) h
  · rintro d ⟨-, f, fs, rfl⟩ t
    obtain ⟨u, hitem, -⟩ := itemBlock_append column f fs t
    rw [hitem]
    exact ⟨ends_newLine (by decide) _, _, rfl⟩
  · rintro d hmem e ⟨hlegible, g, gs, rfl⟩ t u ht hu heq
    obtain ⟨-, f, fs, rfl⟩ := hd d hmem
    obtain ⟨v, hitem, hunder⟩ := itemBlock_append column f fs t
    obtain ⟨w, hitem', hunder'⟩ := itemBlock_append column g gs u
    rw [hitem, hitem'] at heq
    rw [(List.cons.inj (List.cons.inj (List.append_cancel_left heq)).2).2, ← hunder'] at hunder
    refine htold _ hmem hlegible ⟨ht, fun _ h => ?_⟩ ⟨hu, fun _ h => ?_⟩ hunder
    · cases h
    · cases h

theorem shapeOf_eq {d e : Datum} (hd : Legible d) (he : Legible e) {column : Nat}
    {key r s : List Char} (h : underKey column key d ++ r = underKey column key e ++ s) :
    shapeOf d = shapeOf e := by
  rw [← readShape_underKey hd column key r, h, readShape_underKey he]

theorem Legible.told {d : Datum} (hd : Legible d) : Told d := by
  induction hd with
  | @scalar s hs =>
    intro e column key r r' he hr hr' h
    have hshape := shapeOf_eq (.scalar hs) he h
    cases he with
    | @scalar t ht =>
      rw [underKey, underKey] at h
      obtain ⟨rfl, hrest⟩ := scalarChars_cancel hs ht hr.ends hr'.ends (List.cons.inj h).2
      exact ⟨rfl, hrest⟩
    | @list items _ _ => cases items <;> cases hshape
    | @obj fields _ _ => cases fields <;> cases hshape
  | @list items hitems hrecords ih =>
    intro e column key r r' he hr hr' h
    have hshape := shapeOf_eq (.list hitems hrecords) he h
    cases he with
    | scalar => cases items <;> cases hshape
    | @list items' hitems' hrecords' =>
      cases items with
      | nil =>
        cases items' with
        | nil => exact ⟨rfl, List.append_cancel_left h⟩
        | cons => cases hshape
      | cons d ds =>
        cases items' with
        | nil => cases hshape
        | cons d' ds' =>
          rw [underKey_items (by simp), underKey_items (by simp)] at h
          obtain ⟨hds, hrest⟩ := items_cancel (fun d hd => ⟨hitems d hd, hrecords d hd⟩)
            (fun d hd => ⟨hitems' d hd, hrecords' d hd⟩) ih ⟨hr.ends, hr.noDash _ rfl⟩
            ⟨hr'.ends, hr'.noDash _ rfl⟩ h
          exact ⟨congrArg Datum.list hds, hrest⟩
    | @obj fields _ _ => cases items <;> cases fields <;> cases hshape
  | @obj fields hkeys hfields ih =>
    intro e column key r r' he hr hr' h
    have hshape := shapeOf_eq (.obj hkeys hfields) he h
    cases he with
    | scalar => cases fields <;> cases hshape
    | @list items _ _ => cases items <;> cases fields <;> cases hshape
    | @obj fields' hkeys' hfields' =>
      cases fields with
      | nil =>
        cases fields' with
        | nil => exact ⟨rfl, List.append_cancel_left h⟩
        | cons => cases hshape
      | cons f fs =>
        cases fields' with
        | nil => cases hshape
        | cons f' fs' =>
          rw [underKey_fields (by simp), underKey_fields (by simp)] at h
          obtain ⟨hfs, hrest⟩ := fields_cancel (fun f hf => ⟨hkeys f hf, hfields f hf⟩)
            (fun f hf => ⟨hkeys' f hf, hfields' f hf⟩) ih hr.ends hr'.ends h
          exact ⟨congrArg Datum.obj hfs, hrest⟩

theorem follows_last (items : List Datum) : Follows 0 (.list items) ['\n'] where
  ends := ⟨0, [], rfl, by omega, by simp⟩
  noDash := by
    intro _ _ t h
    cases (List.cons.inj h).2

theorem text_items (d : Datum) (ds : List Datum) :
    '\n' :: (text (.list (d :: ds))).toList = underKey 0 [] (.list (d :: ds)) ++ ['\n'] := by
  rw [underKey, text, String.toList_ofList]
  · rfl
  · simp
  · simp

theorem text_items_ne (d : Datum) (ds : List Datum) : text (.list (d :: ds)) ≠ text (.list []) := by
  intro h
  have htext := text_items d ds
  rw [h, underKey_items (by simp)] at htext
  exact absurd (List.cons.inj (List.cons.inj htext).2).1 (by decide)

/-- The text of a legible list is that of no other. -/
theorem text_injective {items items' : List Datum} (h : Legible (.list items))
    (h' : Legible (.list items')) (htext : text (.list items) = text (.list items')) :
    items = items' := by
  cases items with
  | nil =>
    cases items' with
    | nil => rfl
    | cons d' ds' => exact absurd htext.symm (text_items_ne d' ds')
  | cons d ds =>
    cases items' with
    | nil => exact absurd htext (text_items_ne d ds)
    | cons d' ds' =>
      have hunder := text_items d ds
      rw [htext, text_items] at hunder
      exact Datum.list.inj (h.told h' (follows_last _) (follows_last _) hunder.symm).1

end PolarPlot.Document.Yaml

import Mathlib.Data.Prod.Lex
import PolarPlot.Proofs.Anchors

/-!
# Lines and columns as coordinates

A line and a column say as much as an offset: the offset is what the lines before take, with their
line feeds, and what stands before the column (`lineBreaks_locate`). So places come in the order of
their offsets, and a text that stands behind whole lines keeps its columns
(`lineColumn_coordinates`).
-/

namespace PolarPlot.Text

/-! ## The last line -/

theorem lastLineLength_of_not_mem {xs : List Char} (h : '\n' ∉ xs) :
    lastLineLength xs = xs.length := by
  have hne : ∀ ch ∈ xs.reverse, decide (ch ≠ '\n') = true := by
    intro ch hch
    exact decide_eq_true fun he => h (he ▸ List.mem_reverse.mp hch)
  have hall : (xs.reverse ++ []).takeWhile (· ≠ '\n') = xs.reverse :=
    Grammar.takeWhile_append_of_stop hne (by simp)
  rw [List.append_nil] at hall
  rw [lastLineLength, hall, List.length_reverse]

/-- What stands before a line feed does not count. -/
theorem lastLineLength_append_newline (xs ys : List Char) :
    lastLineLength (xs ++ '\n' :: ys) = lastLineLength ys := by
  have hreverse : (xs ++ '\n' :: ys).reverse = ys.reverse ++ '\n' :: xs.reverse := by simp
  rw [lastLineLength, lastLineLength, hreverse, List.takeWhile_append]
  split
  · rename_i hall
    rw [List.takeWhile_cons_of_neg (by simp), List.append_nil, hall]
  · rfl

/-- A character in front lengthens the last line only if it is the first one too. -/
theorem lastLineLength_cons_of_mem (ch : Char) {xs : List Char} (h : '\n' ∈ xs) :
    lastLineLength (ch :: xs) = lastLineLength xs := by
  obtain ⟨ys, zs, rfl⟩ := List.append_of_mem h
  rw [← List.cons_append, lastLineLength_append_newline, lastLineLength_append_newline]

/-! ## Lines -/

theorem splitOn_newline (cs : List Char) : ('\n' :: cs).splitOn '\n' = [] :: cs.splitOn '\n' := by
  rw [List.splitOn_eq_splitOnP, List.splitOnP_cons_eq_if_modifyHead, if_pos (by decide),
    List.splitOn_eq_splitOnP]

theorem splitOn_cons {ch : Char} (hch : ch ≠ '\n') (cs : List Char) :
    (ch :: cs).splitOn '\n' = (cs.splitOn '\n').modifyHead (ch :: ·) := by
  have hne : ¬ (ch == '\n') = true := by simpa using hch
  rw [List.splitOn_eq_splitOnP, List.splitOnP_cons_eq_if_modifyHead, if_neg hne,
    List.splitOn_eq_splitOnP]

/-- How many characters some lines take, with the line feed that ends each of them. -/
def extent (lines : List (List Char)) : Nat := lines.foldr (fun line n => line.length + 1 + n) 0

theorem extent_cons (line : List Char) (lines : List (List Char)) :
    extent (line :: lines) = line.length + 1 + extent lines := rfl

/-- Where an offset is: in a line of the text, after all lines before that one. -/
theorem lineBreaks_locate {text : List Char} {p : Nat} (hp : p ≤ text.length) :
    (∃ line, (text.splitOn '\n')[(text.take p).count '\n']? = some line ∧
      lastLineLength (text.take p) ≤ line.length) ∧
    extent ((text.splitOn '\n').take ((text.take p).count '\n')) + lastLineLength
      (text.take p) = p := by
  induction text generalizing p with
  | nil =>
    obtain rfl := Nat.le_zero.mp hp
    exact ⟨⟨[], rfl, Nat.le_refl _⟩, rfl⟩
  | cons ch text ih =>
    obtain ⟨first, lines, hlines⟩ := List.exists_cons_of_ne_nil (List.splitOn_ne_nil '\n' text)
    cases p with
    | zero =>
      have hfirst : ∃ line rest, (ch :: text).splitOn '\n' = line :: rest :=
        List.exists_cons_of_ne_nil (List.splitOn_ne_nil '\n' _)
      obtain ⟨line, rest, hsplit⟩ := hfirst
      rw [hsplit]
      exact ⟨⟨line, rfl, Nat.zero_le _⟩, rfl⟩
    | succ p =>
      obtain ⟨⟨line, hline, hwithin⟩, hoffset⟩ := ih (Nat.le_of_succ_le_succ hp)
      rw [List.take_succ_cons]
      by_cases hch : ch = '\n'
      · -- a line feed is an empty line in front of all others
        subst hch
        rw [splitOn_newline, List.count_cons_self, List.getElem?_cons_succ, List.take_succ_cons,
          extent_cons]
        have hlast : lastLineLength ('\n' :: text.take p) = lastLineLength (text.take p) :=
          lastLineLength_append_newline [] _
        rw [hlast, List.length_nil]
        exact ⟨⟨line, hline, hwithin⟩, by omega⟩
      · -- any other character makes the first line longer, and the offset is in that line or behind
        -- it
        rw [splitOn_cons hch, List.count_cons_of_ne hch, hlines, List.modifyHead_cons]
        rw [hlines] at hline hoffset
        by_cases hmem : '\n' ∈ text.take p
        · obtain ⟨k, hk⟩ := Nat.exists_eq_succ_of_ne_zero (List.count_pos_iff.mpr hmem).ne'
          rw [hk, List.getElem?_cons_succ] at hline
          rw [hk, List.take_succ_cons, extent_cons] at hoffset
          rw [lastLineLength_cons_of_mem ch hmem, hk, List.getElem?_cons_succ, List.take_succ_cons,
            extent_cons, List.length_cons]
          exact ⟨⟨line, hline, hwithin⟩, by omega⟩
        · have hcount : (text.take p).count '\n' = 0 := List.count_eq_zero.mpr hmem
          have hlast : lastLineLength (ch :: text.take p) = lastLineLength (text.take p) + 1 := by
            rw [lastLineLength_of_not_mem hmem,
              lastLineLength_of_not_mem (by simp [hmem, Ne.symm hch]), List.length_cons]
          rw [hcount] at hline hoffset ⊢
          cases hline
          rw [hlast]
          exact ⟨⟨ch :: first, rfl, Nat.succ_le_succ hwithin⟩, congrArg Nat.succ hoffset⟩

/-! ## Coordinates -/

/-- A line and a column, both from 1, are those of an offset: the line is one of the text, the
column is within it or just behind it, and both add up to the offset. -/
structure Locates (text : List Char) (place : Nat × Nat) (p : Int) : Prop where
  line_pos : 0 < place.1
  column_pos : 0 < place.2
  within : ∃ line, (text.splitOn '\n')[place.1 - 1]? = some line ∧ place.2 - 1 ≤ line.length
  offset : (extent ((text.splitOn '\n').take (place.1 - 1)) + (place.2 - 1) : Nat) = p

theorem lineColumn_locates {text : List Char} {p : Int} (hp : 0 ≤ p) (hle : p ≤ text.length) :
    Locates text (lineColumn text p) p := by
  obtain ⟨n, rfl⟩ := Int.eq_ofNat_of_zero_le hp
  obtain ⟨hwithin, hoffset⟩ := lineBreaks_locate (Int.ofNat_le.mp hle)
  exact ⟨Nat.succ_pos _, Nat.succ_pos _, hwithin, congrArg Int.ofNat hoffset⟩

theorem lineColumn_lt {text : List Char} {p q : Int} (hp : 0 ≤ p) (hlt : p < q)
    (hle : q ≤ text.length) : toLex (lineColumn text p) < toLex (lineColumn text q) := by
  obtain ⟨i, rfl⟩ := Int.eq_ofNat_of_zero_le hp
  obtain ⟨j, rfl⟩ := Int.eq_ofNat_of_zero_le (hp.trans hlt.le)
  have hbefore : (Grammar.placeAt "" text i).Before (Grammar.placeAt "" text j) :=
    Grammar.placeAt_before (Int.ofNat_lt.mp hlt) (Int.ofNat_le.mp hle)
  simp only [Position.Before, Grammar.placeAt] at hbefore
  rw [Prod.Lex.toLex_lt_toLex]
  omega

theorem lineColumn_append_newline (before text : List Char) {p : Int} (hp : 0 ≤ p) :
    lineColumn (before ++ '\n' :: text) (before.length + 1 + p) =
      ((lineColumn text p).1 + (before.count '\n' + 1), (lineColumn text p).2) := by
  obtain ⟨n, rfl⟩ := Int.eq_ofNat_of_zero_le hp
  have hoffset : ((before.length : Int) + 1 + (n : Int)).toNat = before.length + (n + 1) := by omega
  have htake : (before ++ '\n' :: text).take (before.length + (n + 1)) =
      before ++ '\n' :: text.take n := by
    rw [List.take_length_add_append, List.take_succ_cons]
  simp only [lineColumn, hoffset, htake, Int.toNat_natCast, List.count_append, List.count_cons_self,
    lastLineLength_append_newline]
  congr 1
  omega

/-- Lines and columns are in the order of offsets, and give the offset back. A text behind a line
feed keeps its columns, and its lines come after those before it. Offsets outside the text are those
of the nearer end. -/
theorem lineColumn_coordinates (text : List Char) :
    (∀ p q : Int, 0 ≤ p → p < q → q ≤ text.length →
      toLex (lineColumn text p) < toLex (lineColumn text q)) ∧
    (∀ p : Int, 0 ≤ p → p ≤ text.length → Locates text (lineColumn text p) p) ∧
    (∀ (before : List Char) (p : Int), 0 ≤ p → p ≤ text.length →
      lineColumn (before ++ '\n' :: text) (before.length + 1 + p) =
        ((lineColumn text p).1 + (before.count '\n' + 1), (lineColumn text p).2)) ∧
    (∀ p : Int, p < 0 → lineColumn text p = lineColumn text 0) ∧
    ∀ p : Int, text.length < p → lineColumn text p = lineColumn text text.length := by
  refine ⟨?_, ?_, ?_, ?_, ?_⟩
  · exact fun p q hp hlt hle => lineColumn_lt hp hlt hle
  · exact fun p hp hle => lineColumn_locates hp hle
  · exact fun before p hp _ => lineColumn_append_newline before text hp
  · intro p hp
    have hzero : p.toNat = 0 := Int.toNat_of_nonpos hp.le
    rw [lineColumn, lineColumn, hzero, Int.toNat_zero]
  · intro p hp
    have hmore : text.length ≤ p.toNat := by omega
    rw [lineColumn, lineColumn, Int.toNat_natCast, List.take_of_length_le hmore, List.take_length]

/-- An empty line between two others. -/
def gappedText : List Char := ['a', '\n', '\n', 'b']

theorem lineColumn_gappedText :
    toLex (lineColumn gappedText 1) < toLex (lineColumn gappedText 2) ∧
    Locates gappedText (lineColumn gappedText 2) 2 ∧
      lineColumn (['c', '\n', 'd'] ++ '\n' :: gappedText) 6 = ((lineColumn gappedText 2).1 + 2, 1) ∧
      lineColumn gappedText (-3) = (1, 1) ∧ lineColumn gappedText 9 = (3, 2) := by
  obtain ⟨horder, hlocates, hbehind, hlow, hhigh⟩ := lineColumn_coordinates gappedText
  refine ⟨horder 1 2 ?_ ?_ ?_, hlocates 2 ?_ ?_, hbehind ['c', '\n', 'd'] 2 ?_ ?_, hlow (-3) ?_,
    hhigh 9 ?_⟩
  all_goals decide

end PolarPlot.Text

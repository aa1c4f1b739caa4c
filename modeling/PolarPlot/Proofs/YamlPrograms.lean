import PolarPlot.Proofs.Documents
import PolarPlot.Proofs.YamlText

/-!
# Programs through YAML

The names of a program that was parsed are tokens, so the data of the program is legible
(`Document.Tree.legible_ofProgram`), and its YAML text tells it
(`Document.Tree.dump_eq_of_text_eq`).
-/

namespace PolarPlot

open Document Grammar Number Text

namespace Document.Yaml

/-! ## Characters of tokens -/

/-- Ranges of characters that are tame, each with the code after its last. -/
def tameRanges : List (Nat × Nat) :=
  [(0x28, 0x7f), (0x100, 0x2028), (0x202a, 0xfeff), (0xff00, 0xfffd), (0x10000, 0x10ffff)]

theorem isTame_of_range {c : Char} {range : Nat × Nat} (hrange : range ∈ tameRanges)
    (h : range.1 ≤ c.toNat ∧ c.toNat < range.2) : isTame c := by
  have hcode : ∀ d : Char, c = d ↔ c.toNat = d.toNat := fun d => Char.toNat_inj.symm
  have hshown : 0x20 < c.toNat ∧ c.toNat ≠ 0x27 ∧ (c.toNat ≤ 0x7e ∨
      (0xa0 ≤ c.toNat ∧ c.toNat ≤ 0xfffd ∨ 0x10000 ≤ c.toNat ∧ c.toNat < 0x10ffff) ∧
        c.toNat ≠ 0x2028 ∧ c.toNat ≠ 0x2029 ∧ c.toNat ≠ 0xfeff) := by
    simp only [tameRanges, List.mem_cons, List.not_mem_nil, or_false] at hrange
    rcases hrange with rfl | rfl | rfl | rfl | rfl <;> omega
  simp only [isTame, isBreak, isSpecial, hcode, Char.reduceToNat, ne_eq, Bool.and_eq_true,
    Bool.or_eq_true, Bool.not_eq_true', Bool.or_eq_false_iff, Bool.not_not, decide_eq_true_eq,
    decide_eq_false_iff_not, decide_not]
  omega

theorem isTame_of_isLatin {c : Char} (h : isLatin c) : isTame c := by
  simp only [isLatin, Bool.and_eq_true, decide_eq_true_eq, char_le_iff, Char.reduceToNat] at h
  exact isTame_of_range (.head _) (by omega)

theorem isTame_of_isGreek {c : Char} (h : isGreek c) : isTame c := by
  simp only [isGreek, Bool.and_eq_true, decide_eq_true_eq, char_le_iff, Char.reduceToNat] at h
  exact isTame_of_range (.tail _ (.head _)) (by omega)

theorem isTame_of_isArabic {c : Char} (h : isArabic c) : isTame c := by
  simp only [isArabic, Bool.and_eq_true, decide_eq_true_eq, char_le_iff, Char.reduceToNat] at h
  exact isTame_of_range (.head _) (by omega)

/-- The digits of every script are tame. -/
theorem isTame_of_isDigit {c : Char} (h : Text.isDigit c) : isTame c := by
  have hzeros : (zeros.all fun z => tameRanges.any fun range => range.1 ≤ z ∧ z + 10 ≤ range.2) =
      true := by
    decide
  unfold Text.isDigit digit? at h
  split at h
  · rename_i hc
    exact isTame_of_isArabic (by simpa [isArabic] using hc)
  · split at h
    · cases h
    · rw [Option.isSome_map] at h
      obtain ⟨z, hz⟩ := Option.isSome_iff_exists.mp h
      have hc := List.find?_some hz
      obtain ⟨range, hrange, hle⟩ :=
        List.any_eq_true.mp (List.all_eq_true.mp hzeros z (List.mem_of_find?_eq_some hz))
      rw [decide_eq_true_eq] at hle hc
      exact isTame_of_range hrange (by omega)

theorem isTame_of_isNumber {w : List Char} (h : IsNumber w) : ∀ c ∈ w, isTame c := by
  obtain ⟨sign, digits, hsign, hdigits, h⟩ := h
  have hsign : ∀ c ∈ sign, isTame c := by
    rcases hsign with rfl | rfl | rfl <;> exact List.all_eq_true.mp (by decide)
  have hdigits : ∀ c ∈ digits, isTame c := fun c hc => isTame_of_isDigit (hdigits c hc)
  rcases h with ⟨-, rfl⟩ | ⟨fraction, -, hfraction, rfl⟩
  · exact List.forall_mem_append.mpr ⟨hsign, hdigits⟩
  · have hpoint : ∀ c ∈ '.' :: fraction, isTame c :=
      List.forall_mem_cons.mpr ⟨by decide, fun c hc => isTame_of_isDigit (hfraction c hc)⟩
    exact List.forall_mem_append.mpr ⟨hsign, List.forall_mem_append.mpr ⟨hdigits, hpoint⟩⟩

theorem isTame_of_isText {t : Grammar.Token} {w : List Char} (h : t.IsText w) :
    ∀ c ∈ w, isTame c := by
  cases t with
  | number => exact isTame_of_isNumber h
  | name =>
    obtain ⟨c, cs, rfl, hc, hcs⟩ := h
    have htame : ∀ d, isLatin d || isArabic d || isGreek d || d = '_' → isTame d := by
      intro d hd
      simp only [Bool.or_eq_true, decide_eq_true_eq] at hd
      rcases hd with ((hd | hd) | hd) | rfl
      · exact isTame_of_isLatin hd
      · exact isTame_of_isArabic hd
      · exact isTame_of_isGreek hd
      · decide
    refine List.forall_mem_cons.mpr ⟨htame c ?_, fun d hd => htame d (hcs d hd)⟩
    rw [Bool.or_right_comm (isLatin c), Bool.or_right_comm (isLatin c || isGreek c), hc,
      Bool.true_or]
  | function =>
    obtain ⟨c, cs, rfl, hc, hcs⟩ := h
    refine List.forall_mem_cons.mpr ⟨isTame_of_isLatin hc, fun d hd => ?_⟩
    have hd := hcs d hd
    simp only [Bool.or_eq_true, decide_eq_true_eq] at hd
    rcases hd with (hd | hd) | rfl
    · exact isTame_of_isLatin hd
    · exact isTame_of_isArabic hd
    · decide
  | rangeEnd => obtain rfl | rfl := h <;> exact List.all_eq_true.mp (by decide)
  | _ =>
    cases h
    exact List.all_eq_true.mp (by decide)

/-! ## Legible data -/

theorem hasPair_eq_false {p : Char → Bool} {cs : List Char} (h : ∀ c ∈ cs, p c = false)
    (q : Char → Bool) : hasPair p q cs = false := by
  induction cs with
  | nil => rfl
  | cons a cs ih =>
    cases cs with
    | nil => rfl
    | cons b cs =>
      rw [hasPair, h a (.head _), ih fun c hc => h c (.tail _ hc)]
      rfl

/-- A text of tame characters is written without double quotes. -/
theorem legible_str {s : String} (h : ∀ c ∈ s.toList, isTame c) : LegibleScalar (.str s) := by
  have hparts : ∀ c ∈ s.toList, (c = ' ' : Bool) = false ∧ isBreak c = false ∧
      isSpecial c = false := by
    intro c hc
    have htame := h c hc
    simp only [isTame, Bool.and_eq_true, decide_eq_true_eq, Bool.not_eq_true'] at htame
    exact ⟨decide_eq_false htame.1.1.1, htame.1.2, htame.2⟩
  have hspecial : s.toList.any isSpecial = false := by
    rw [List.any_eq_false]
    exact fun c hc => Bool.not_eq_true _ ▸ (hparts c hc).2.2
  have hstyle : styleOf s = .plain ∨ styleOf s = .single := by
    unfold styleOf
    dsimp only
    rw [hasPair_eq_false fun c hc => (hparts c hc).2.1,
      hasPair_eq_false fun c hc => (hparts c hc).1, hspecial, if_neg (by simp)]
    split
    · exact .inr rfl
    · exact .inl rfl
  rcases hstyle with hplain | hsingle
  · exact .inl hplain
  · exact .inr ⟨s, rfl, hsingle, h⟩

end Document.Yaml

/-! ## Programs as data -/

/-- A lexeme of a text from no file, all of tame characters. -/
structure Grammar.Lexeme.Tame (l : Lexeme) : Prop where
  text : ∀ c ∈ l.text.toList, Yaml.isTame c
  origin : l.pos.origin = defaultOrigin

theorem Grammar.Scans.tame {text : List Char} {t : Grammar.Token} {i j : Nat} {l : Lexeme}
    (h : Scans defaultOrigin text t i (some (l, j))) : l.Tame := by
  cases h with
  | found _ _ hlongest =>
    refine ⟨?_, rfl⟩
    rw [String.toList_ofList]
    exact Yaml.isTame_of_isText hlongest.text

namespace Document

open Yaml

theorem Kind.isKey_fieldNames (kind : Kind) : ∀ name ∈ kind.fieldNames, isKey name := by
  apply List.all_eq_true.mp
  cases kind with
  | binary op => cases op <;> decide
  | _ => decide

theorem Kind.legible_typeName (kind : Kind) : LegibleScalar (.str kind.typeName) := by
  apply legible_str
  apply List.all_eq_true.mp
  cases kind with
  | binary op => cases op <;> decide
  | _ => decide

namespace Tree

variable {positions : Bool}

theorem legible_location {pos : Position} (h : pos.origin = defaultOrigin) :
    Legible (dumpLocation (.ofPosition pos)) := by
  have hkeys : ∀ name ∈ ["origin", "line", "column"], isKey name := List.all_eq_true.mp (by decide)
  have horigin : LegibleScalar (.str pos.origin) := by
    rw [h]
    exact legible_str (List.all_eq_true.mp (by decide))
  have hint : ∀ n : Int, LegibleScalar (.int n) := fun n => .inl trivial
  refine .obj (fun f hf => hkeys f.1 (List.mem_map_of_mem (f := Prod.fst) hf)) ?_
  simp only [Location.ofPosition, List.forall_mem_cons]
  exact ⟨.scalar horigin, .scalar (hint _), .scalar (hint _), by simp⟩

theorem isKey_marks (kind : Kind) (loc : Location) : ∀ f ∈ marks positions kind loc, isKey f.1 := by
  have hkeys : ∀ name ∈ ["_type", "_position"], isKey name := List.all_eq_true.mp (by decide)
  intro f hf
  apply hkeys
  cases positions with
  | true => exact List.mem_map_of_mem (f := Prod.fst) hf
  | false =>
    obtain rfl := List.mem_singleton.mp hf
    exact .head _

theorem legible_marks (kind : Kind) {pos : Position} (hpos : pos.origin = defaultOrigin) :
    ∀ f ∈ marks positions kind (.ofPosition pos), Legible f.2 := by
  have htype : Legible (.scalar (.str kind.typeName)) := .scalar kind.legible_typeName
  cases positions with
  | true =>
    simp only [marks, if_true, List.forall_mem_cons]
    exact ⟨htype, legible_location hpos, by simp⟩
  | false =>
    intro f hf
    obtain rfl := List.mem_singleton.mp hf
    exact htype

theorem legible_node (kind : Kind) {pos : Position} (hpos : pos.origin = defaultOrigin)
    {ts : List Tree} (hts : ∀ t ∈ ts, Legible (t.dump positions)) :
    Legible ((Tree.node kind (.ofPosition pos) ts).dump positions) := by
  rw [dump_node]
  refine .obj (List.forall_mem_append.mpr ⟨isKey_marks kind _, fun f hf => ?_⟩)
    (List.forall_mem_append.mpr ⟨legible_marks kind hpos, fun f hf => ?_⟩)
  · exact kind.isKey_fieldNames f.1 (List.of_mem_zip hf).1
  · obtain ⟨t, ht, htree⟩ := List.mem_map.mp (List.of_mem_zip hf).2
    rw [← htree]
    exact hts t ht

theorem legible_leaf {s : Scalar} (h : LegibleScalar s) :
    Legible ((Tree.leaf s).dump positions) := by
  rw [dump]
  exact .scalar h

theorem isNode_dump (kind : Kind) (loc : Location) (ts : List Tree) :
    ∃ f fs, (Tree.node kind loc ts).dump positions = .obj (f :: fs) := by
  rw [dump_node]
  exact ⟨_, _, rfl⟩

theorem legible_tuple {ts : List Tree} (h : ∀ t ∈ ts, Legible (t.dump positions))
    (hnodes : ∀ t ∈ ts, ∃ kind loc fields, t = .node kind loc fields) :
    Legible ((Tree.tuple ts).dump positions) := by
  rw [dump, dumpItems_eq]
  refine .list (List.forall_mem_map.mpr h) (List.forall_mem_map.mpr fun t ht => ?_)
  obtain ⟨kind, loc, fields, rfl⟩ := hnodes t ht
  exact isNode_dump kind loc fields

end Tree

end Document

section Programs

open Yaml

variable {positions : Bool}

theorem Grammar.Lexeme.Tame.legible {l : Lexeme} (h : l.Tame) :
    Legible (((Label.word l.text).toTree).dump positions) :=
  Tree.legible_leaf (legible_str h.text)

theorem Expr.Built.isNode {lexemes : Lexeme → Prop} {e : Expr} (h : e.Built lexemes) :
    ∃ kind loc fields, e.toTree = .node kind loc fields := by
  cases h <;> exact ⟨_, _, _, rfl⟩

theorem Stmt.Built.isNode {lexemes : Lexeme → Prop} {s : Stmt} (h : s.Built lexemes) :
    ∃ kind loc fields, s.toTree = .node kind loc fields := by
  cases h <;> exact ⟨_, _, _, rfl⟩

theorem Expr.Built.legible {e : Expr} (h : e.Built Lexeme.Tame) :
    Legible (e.toTree.dump positions) := by
  induction h with
  | var hl => exact Tree.legible_node _ hl.origin (by simpa using hl.legible)
  | const value hl =>
    have hvalue : Legible ((Tree.leaf (.num value)).dump positions) :=
      Tree.legible_leaf (.inl trivial)
    exact Tree.legible_node _ hl.origin (by simpa using hvalue)
  | binary op hl _ _ ihl ihr => exact Tree.legible_node _ hl.origin (by simp [ihl, ihr])
  | @call l args hl hargs ih =>
    have htrees : Legible ((Tree.tuple (args.map Expr.toTree)).dump positions) :=
      Tree.legible_tuple (List.forall_mem_map.mpr ih)
        (List.forall_mem_map.mpr fun e he => (hargs e he).isNode)
    exact Tree.legible_node _ hl.origin (by simpa using ⟨hl.legible, htrees⟩)

/-- A message has spaces, but the only ones there are read as texts. -/
theorem legible_reserved {name : String} {value : Float} (h : reserved? name = some value) :
    LegibleScalar (.str (generalText value ++ " is not a variable")) := by
  have hpi : styleOf (generalText 3.141592653589793 ++ " is not a variable") = .plain := by
    decide +kernel
  have he : styleOf (generalText 2.718281828459045 ++ " is not a variable") = .plain := by
    decide +kernel
  unfold reserved? at h
  split at h
  · cases h
    exact .inl hpi
  · split at h
    · cases h
      exact .inl he
    · cases h

theorem legible_phase {phase : String} (h : phase = Phase.assignment ∨ phase = Phase.loop) :
    LegibleScalar (.str phase) := by
  have hassignment : styleOf Phase.assignment = .plain := by decide +kernel
  have hloop : styleOf Phase.loop = .plain := by decide +kernel
  rcases h with rfl | rfl
  · exact .inl hassignment
  · exact .inl hloop

theorem Stmt.Built.legible {s : Stmt} (h : s.Built Lexeme.Tame) :
    Legible (s.toTree.dump positions) := by
  induction h with
  | assign hl hvalue =>
    exact Tree.legible_node _ hl.origin (by simpa using ⟨hl.legible, hvalue.legible⟩)
  | call hl he => exact Tree.legible_node _ hl.origin (by simpa using he.legible)
  | @loop l name start stop step inclusive body hl hname hstart hstop hstep hbody ih =>
    have hstride : Legible (((step.map Expr.toTree).getD (.leaf .null)).dump positions) := by
      cases step with
      | none => exact Tree.legible_leaf (.inl trivial)
      | some e => exact (hstep e rfl).legible
    have hinclusive : Legible ((Tree.leaf (.bool inclusive)).dump positions) :=
      Tree.legible_leaf (.inl trivial)
    have htrees : Legible ((Tree.tuple (body.map Stmt.toTree)).dump positions) :=
      Tree.legible_tuple (List.forall_mem_map.mpr ih)
        (List.forall_mem_map.mpr fun s hs => (hbody s hs).isNode)
    refine Tree.legible_node _ hl.origin ?_
    simpa using ⟨hname.legible, hstart.legible, hstop.legible, hstride, hinclusive, htrees⟩
  | @invalid l name value phase hl hreserved hphase =>
    have hmessage :
        Legible ((Tree.leaf (.str (generalText value ++ " is not a variable"))).dump positions) :=
      Tree.legible_leaf (legible_reserved hreserved)
    have hlabel : Legible (((Label.word phase).toTree).dump positions) :=
      Tree.legible_leaf (legible_phase hphase)
    exact Tree.legible_node _ hl.origin (by simpa using ⟨hmessage, hlabel⟩)

end Programs

namespace Document.Tree

theorem legible_ofProgram {text : String} {program : List Stmt}
    (h : parse defaultOrigin text = .ok program) (positions : Bool) :
    Yaml.Legible ((ofProgram program).dump positions) := by
  have hbuilt := parse_built h Scans.tame
  rw [ofProgram, Stmt.toTrees_eq, dump_list]
  exact legible_tuple (List.forall_mem_map.mpr fun s hs => (hbuilt s hs).legible)
    (List.forall_mem_map.mpr fun s hs => (hbuilt s hs).isNode)

/-- Programs with the same YAML text have the same data, whatever their names, and with their places
or without. -/
theorem dump_eq_of_text_eq {s t : String} {p q : List Stmt} (hs : parse defaultOrigin s = .ok p)
    (ht : parse defaultOrigin t = .ok q) {positions : Bool}
    (h : Yaml.text ((ofProgram p).dump positions) = Yaml.text ((ofProgram q).dump positions)) :
    (ofProgram p).dump positions = (ofProgram q).dump positions := by
  have hp := legible_ofProgram hs positions
  have hq := legible_ofProgram ht positions
  rw [ofProgram, dump] at hp h ⊢
  rw [ofProgram, dump] at hq h ⊢
  exact congrArg Datum.list (Yaml.text_injective hp hq h)

/-- The names are ones that YAML takes for no text, so they are written in quotes. -/
theorem dump_eq_of_text_eq_null : ∃ p q,
    parse defaultOrigin "true(null)" = .ok p ∧ parse defaultOrigin "true // off\n( null )" = .ok q ∧
    Yaml.text ((ofProgram p).dump false) = Yaml.text ((ofProgram q).dump false) ∧
    (ofProgram p).dump false = (ofProgram q).dump false := by
  have htexts : (parse defaultOrigin "true(null)").map
      (fun p => Yaml.text ((ofProgram p).dump false)) =
      (parse defaultOrigin "true // off\n( null )").map fun q =>
      Yaml.text ((ofProgram q).dump false) := by
    decide +kernel
  obtain ⟨p, hp⟩ := exists_eq_ok (x := parse defaultOrigin "true(null)") (by decide +kernel)
  obtain ⟨q, hq⟩ :=
    exists_eq_ok (x := parse defaultOrigin "true // off\n( null )") (by decide +kernel)
  rw [hp, hq] at htexts
  have htext := Except.ok.inj htexts
  exact ⟨p, q, hp, hq, htext, dump_eq_of_text_eq hp hq htext⟩

end Document.Tree

end PolarPlot

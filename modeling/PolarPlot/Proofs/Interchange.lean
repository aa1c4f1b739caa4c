import PolarPlot.Proofs.JsonText

/-!
# Programs through JSON

A program that was parsed comes back from the JSON text of its document, at all its places or, if
they were left out, at unknown ones (`Tree.load_read_text`).
-/

namespace PolarPlot

open Document Grammar Number Text

namespace Document.Tree

variable {positions : Bool}

theorem lossless_leaf {s : Scalar} (h : s.Lossless) : ((Tree.leaf s).dump positions).Lossless := by
  rw [dump, Datum.Lossless]
  exact h

theorem lossless_tuple {ts : List Tree} (h : ∀ t ∈ ts, (t.dump positions).Lossless) :
    ((Tree.tuple ts).dump positions).Lossless := by
  rw [dump, dumpItems_eq, Datum.Lossless, Datum.allLossless_iff, List.forall_mem_map]
  exact h

theorem nodup_marks (kind : Kind) (loc : Location) :
    ((marks positions kind loc).map (·.1)).Nodup := by
  cases positions <;> simp [marks]

theorem nodup_dump (kind : Kind) (loc : Location) (ds : List Datum) :
    ((marks positions kind loc ++ kind.fieldNames.zip ds).map (·.1)).Nodup := by
  have hnames : ((kind.fieldNames.zip ds).map (·.1)).Sublist kind.fieldNames := by
    rw [List.zip_eq_zip_take_min, List.map_fst_zip (by simp)]
    exact List.take_sublist _ _
  rw [List.map_append, List.nodup_append']
  refine ⟨nodup_marks kind loc, (Kind.nodup_fieldNames kind).sublist hnames, ?_⟩
  intro name hmark hname
  obtain ⟨f, hf, rfl⟩ := List.mem_map.mp hmark
  exact marks_spec f hf (hnames.subset hname)

theorem lossless_node (kind : Kind) {loc : Location} {ts : List Tree}
    (hloc : positions → (dumpLocation loc).Lossless) (hts : ∀ t ∈ ts, (t.dump positions).Lossless) :
    ((Tree.node kind loc ts).dump positions).Lossless := by
  rw [dump_node, Datum.Lossless, Datum.fieldsLossless_iff]
  refine ⟨nodup_dump kind loc _, ?_⟩
  intro f hf
  obtain hf | hf := List.mem_append.mp hf
  · have htype : (Datum.scalar (.str kind.typeName)).Lossless := by
      rw [Datum.Lossless]
      trivial
    cases positions with
    | true =>
      obtain rfl | rfl : f = _ ∨ f = _ := by simpa [marks] using hf
      · exact htype
      · exact hloc rfl
    | false =>
      obtain rfl : f = _ := by simpa [marks] using hf
      exact htype
  · obtain ⟨t, ht, htree⟩ := List.mem_map.mp (List.of_mem_zip hf).2
    rw [← htree]
    exact hts t ht

end Document.Tree

/-! ## Programs as data -/

section Programs

variable {good : Position → Prop} {positions : Bool}

theorem Label.lossless {name : Label} (h : name.isWord) :
    (name.toTree.dump positions).Lossless := by
  obtain ⟨text, rfl⟩ := Label.eq_word h
  exact Tree.lossless_leaf trivial

theorem Expr.Plain.lossless {e : Expr} (h : e.Plain good)
    (hgood : positions → ∀ p, good p → (Tree.dumpLocation (.ofPosition p)).Lossless) :
    (e.toTree.dump positions).Lossless := by
  induction e with
  | var pos name =>
    exact Tree.lossless_node _ (fun hp => hgood hp pos h.1) (by simp [Label.lossless h.2])
  | const pos value =>
    have hvalue : ((Tree.leaf (.num value)).dump positions).Lossless := Tree.lossless_leaf trivial
    exact Tree.lossless_node _ (fun hp => hgood hp pos h) (by simp [hvalue])
  | binary pos op left right hl hr =>
    exact Tree.lossless_node _ (fun hp => hgood hp pos h.1) (by simp [hl h.2.1, hr h.2.2])
  | call pos name args ih =>
    obtain ⟨hpos, hname, hargs⟩ := h
    have htrees : ((Tree.tuple (args.map Expr.toTree)).dump positions).Lossless := by
      apply Tree.lossless_tuple
      rintro _ ht
      obtain ⟨e, he, rfl⟩ := List.mem_map.mp ht
      exact ih e he (Expr.allPlain_iff.mp hargs e he)
    exact Tree.lossless_node _ (fun hp => hgood hp pos hpos)
      (by simp [Label.lossless hname, htrees])
  | misfit what => cases h

theorem Stmt.Plain.lossless {s : Stmt} (h : s.Plain good)
    (hgood : positions → ∀ p, good p → (Tree.dumpLocation (.ofPosition p)).Lossless) :
    (s.toTree.dump positions).Lossless := by
  induction s with
  | assign pos name value =>
    refine Tree.lossless_node _ (fun hp => hgood hp pos h.1) ?_
    simp [Label.lossless h.2.1, h.2.2.lossless hgood]
  | call pos e =>
    exact Tree.lossless_node _ (fun hp => hgood hp pos h.1) (by simp [h.2.lossless hgood])
  | loop pos name start stop step inclusive body ih =>
    obtain ⟨hpos, hname, hstart, hstop, hstep, hbody⟩ := h
    have hstride : (((step.map Expr.toTree).getD (.leaf .null)).dump positions).Lossless := by
      cases step with
      | none => exact Tree.lossless_leaf trivial
      | some e => exact (hstep e rfl).lossless hgood
    have htrees : ((Tree.tuple (body.map Stmt.toTree)).dump positions).Lossless := by
      apply Tree.lossless_tuple
      rintro _ ht
      obtain ⟨s, hs, rfl⟩ := List.mem_map.mp ht
      exact ih s hs (Stmt.allPlain_iff.mp hbody s hs)
    have hinclusive : ((Tree.leaf (.bool inclusive)).dump positions).Lossless :=
      Tree.lossless_leaf trivial
    refine Tree.lossless_node _ (fun hp => hgood hp pos hpos) ?_
    simp [Label.lossless hname, hstart.lossless hgood, hstop.lossless hgood, hstride,
      hinclusive, htrees]
  | invalid pos message phase =>
    have hmessage : ((Tree.leaf (.str message)).dump positions).Lossless :=
      Tree.lossless_leaf trivial
    exact Tree.lossless_node _ (fun hp => hgood hp pos h.1) (by simp [hmessage, Label.lossless h.2])
  | misfit what => cases h

end Programs

/-! ## Places -/

/-- No line and no column is past the end of the text. -/
theorem lineColumn_le (text : List Char) (i : Int) :
    (lineColumn text i).1 ≤ text.length + 1 ∧ (lineColumn text i).2 ≤ text.length + 1 := by
  have htake : (text.take i.toNat).length ≤ text.length := by simp
  have hcount : (text.take i.toNat).count '\n' ≤ text.length := List.count_le_length.trans htake
  have hlast : lastLineLength (text.take i.toNat) ≤ text.length := by
    refine ((List.takeWhile_prefix _).length_le).trans ?_
    rw [List.length_reverse]
    exact htake
  exact ⟨Nat.succ_le_succ hcount, Nat.succ_le_succ hlast⟩

theorem length_toDigits_mono {m n limit : Nat} (h : m ≤ n)
    (hn : (Nat.toDigits 10 n).length ≤ limit) : (Nat.toDigits 10 m).length ≤ limit := by
  have hpos : 0 < limit := (List.length_pos_of_ne_nil Nat.toDigits_ne_nil).trans_le hn
  rw [Nat.length_toDigits_le_iff (by decide) hpos] at hn ⊢
  exact h.trans_lt hn

namespace Document.Tree

theorem lossless_placeAt {text : String}
    (h : (Nat.toDigits 10 (text.length + 1)).length ≤ integerDigitLimit) (origin : String)
    (i : Nat) : (dumpLocation (.ofPosition (placeAt origin text.toList i))).Lossless := by
  obtain ⟨hline, hcolumn⟩ := lineColumn_le text.toList i
  rw [String.length_toList] at hline hcolumn
  rw [dumpLocation, Datum.Lossless, Datum.fieldsLossless_iff]
  refine ⟨by simp, ?_⟩
  simp only [Location.ofPosition, placeAt, List.forall_mem_cons, Datum.Lossless, Scalar.Lossless,
    Int.natAbs_natCast]
  exact ⟨trivial, length_toDigits_mono hline h, length_toDigits_mono hcolumn h, by simp⟩

theorem lossless_ofProgram {origin text : String} {program : List Stmt}
    (h : parse origin text = .ok program) (positions : Bool)
    (hlength : positions → (Nat.toDigits 10 (text.length + 1)).length ≤ integerDigitLimit) :
    ((ofProgram program).dump positions).Lossless := by
  rw [ofProgram, Stmt.toTrees_eq, dump_list]
  apply lossless_tuple
  intro t ht
  obtain ⟨s, hs, rfl⟩ := List.mem_map.mp ht
  refine (parse_plain h s hs).lossless ?_
  rintro hpositions _ ⟨i, rfl⟩
  exact lossless_placeAt (hlength hpositions) origin i

/-- A program that was parsed comes back from its JSON text, on one line or with any indent. Its
places come back too, as long as the length of its text does not have more digits than an integer
that is read. -/
theorem load_read_text {origin text : String} {program : List Stmt}
    (h : parse origin text = .ok program) (indent : Option Nat) :
    ((Nat.toDigits 10 (text.length + 1)).length ≤ integerDigitLimit →
      ∃ d, Json.read (Json.text indent ((ofProgram program).dump true)).toList = .ok d ∧
        load d = .ok (ofProgram program) ∧ (ofProgram program).toProgram = program) ∧
    ∃ d, Json.read (Json.text indent ((ofProgram program).dump false)).toList = .ok d ∧
      load d = .ok (ofProgram program).unplaced ∧
      (ofProgram program).unplaced.toProgram = program.map Stmt.bare := by
  obtain ⟨hload, hunplaced⟩ := (restores_ofProgram h).load
  constructor
  · intro hlength
    have htext := Json.read_text (lossless_ofProgram h true fun _ => hlength) indent
    exact ⟨_, htext, hload, toProgram_ofProgram h⟩
  · have htext := Json.read_text (lossless_ofProgram h false (by rintro ⟨⟩)) indent
    exact ⟨_, htext, hunplaced, toProgram_unplaced h⟩

/-- The origin needs escapes, and no binary number is the number in the text. -/
theorem load_read_text_tenth : ∃ program,
    parse "\"φ\\\t\x07" "f(-.1)" = .ok program ∧
    (∃ d, Json.read (Json.text (some 3) ((ofProgram program).dump true)).toList = .ok d ∧
      load d = .ok (ofProgram program) ∧ (ofProgram program).toProgram = program) ∧
    ∃ d, Json.read (Json.text none ((ofProgram program).dump false)).toList = .ok d ∧
      load d = .ok (ofProgram program).unplaced ∧
      (ofProgram program).unplaced.toProgram = program.map Stmt.bare := by
  obtain ⟨program, h⟩ := exists_eq_ok (x := parse "\"φ\\\t\x07" "f(-.1)") (by decide +kernel)
  exact ⟨program, h, (load_read_text h (some 3)).1 (by decide +kernel), (load_read_text h none).2⟩

end Document.Tree

end PolarPlot

import PolarPlot.Proofs.Rounding
import PolarPlot.Proofs.Splicing
import PolarPlot.Proofs.SyntaxTrees

/-!
# What parsed programs look like

The words of a program are texts of their tokens, so the names in a parsed program are names that
may stand there, and no constant in it is `nan` (`Stmt.Regular`). Together with the row of tokens
that writes a program (`Stmt.Row`) and its syntax tree this says all that a later stage may rely on.
-/

namespace PolarPlot

open Grammar Number

/-- An expression with the names of variables and functions where they belong, calls that have
arguments, and constants that are numbers. -/
inductive Expr.Regular : Expr → Prop where
  | var {pos : Position} {name : String} : IsVariable name → Regular (.var pos name)
  | const {pos : Position} {value : Float} : value.isNaN = false → Regular (.const pos value)
  | binary {pos : Position} {op : Operator} {left right : Expr} : Regular left → Regular right →
      Regular (.binary pos op left right)
  | call {pos : Position} {name : String} {args : List Expr} : Token.function.Matches name →
      args ≠ [] → (∀ e ∈ args, Regular e) → Regular (.call pos name args)

/-- A statement of this kind. What sets a reserved name is an error, and the bodies of loops have
statements. -/
inductive Stmt.Regular : Stmt → Prop where
  | assign {pos : Position} {name : String} {value : Expr} : IsVariable name → value.Regular →
      Regular (.assign pos name value)
  | call {pos pos' : Position} {name : Label} {args : List Expr} :
      (Expr.call pos' name args).Regular → Regular (.call pos (.call pos' name args))
  | loop {pos : Position} {name : String} {start stop : Expr} {step : Option Expr}
      {inclusive : Bool}
      {body : List Stmt} : IsVariable name → start.Regular → stop.Regular →
      (∀ e ∈ step, e.Regular) →
      body ≠ [] → (∀ s ∈ body, Regular s) → Regular (.loop pos name start stop step inclusive body)
  | invalid {pos : Position} {name : String} {value : Float} {phase : String} :
      reserved? name = some value → phase = Phase.assignment ∨ phase = Phase.loop →
      Regular (reservedTarget pos value phase)

theorem isNaN_of_reserved {name : String} {value : Float} (h : reserved? name = some value) :
    value.isNaN = false := by
  unfold reserved? at h
  split at h
  · cases h
    rfl
  · split at h
    · cases h
      rfl
    · cases h

section Rows

variable {es : List Expr} {ss : List Stmt} {ts : List Taken}

theorem matches_of_isText {t : Taken} (h : t.token.IsText t.lexeme.text.toList) {u : Token}
    (ht : t.token = u) (hu : u ≠ .eof) : u.Matches t.lexeme.text := by
  subst ht
  exact (Token.isText_iff hu).mp h

theorem Expr.Row.regular (h : Expr.Row es ts)
    (hts : ∀ t ∈ ts, t.token.IsText t.lexeme.text.toList) : ∀ e ∈ es, e.Regular := by
  induction h with
  | number => exact List.forall_mem_singleton.mpr (.const (Decimal.isNaN_toFloat _))
  | constant _ hvalue => exact List.forall_mem_singleton.mpr (.const (isNaN_of_reserved hvalue))
  | var ht hfree =>
    have hname := matches_of_isText (hts _ (.head _)) ht (by decide)
    exact List.forall_mem_singleton.mpr (.var ⟨hname, hfree⟩)
  | call ht _ hargs _ ih =>
    obtain ⟨hname, hrest⟩ := List.forall_mem_cons.mp hts
    obtain ⟨_, hrest⟩ := List.forall_mem_cons.mp hrest
    have hregular := ih (List.forall_mem_append.mp hrest).1
    exact List.forall_mem_singleton.mpr
      (.call (matches_of_isText hname ht (by decide)) hargs.ne_nil hregular)
  | parens _ _ _ ih => exact ih (List.forall_mem_append.mp (List.forall_mem_cons.mp hts).2).1
  | binary _ _ _ ihl ihr =>
    rw [← List.cons_append] at hts
    obtain ⟨hleft, hright⟩ := List.forall_mem_append.mp hts
    exact List.forall_mem_singleton.mpr
      (.binary (ihl hleft _ (.head _)) (ihr (List.forall_mem_cons.mp hright).2 _ (.head _)))
  | comma _ _ _ ih ih' =>
    obtain ⟨hfirst, hrest⟩ := List.forall_mem_append.mp hts
    exact List.forall_mem_cons.mpr ⟨ih hfirst _ (.head _), ih' (List.forall_mem_cons.mp hrest).2⟩

theorem StepRow.regular {step : Option Expr} (h : StepRow step ts)
    (hts : ∀ t ∈ ts, t.token.IsText t.lexeme.text.toList) : ∀ e ∈ step, e.Regular := by
  rintro e ⟨⟩
  cases h with
  | given _ h => exact h.regular (List.forall_mem_cons.mp hts).2 e (.head _)

/-- A statement that sets a name is regular if it would be for a variable of this name. -/
theorem Stmt.Sets.regular {name : Taken} {pos : Position} {phase : String} {s s' : Stmt}
    (h : s.Sets name.lexeme pos phase s') (hname : name.token.IsText name.lexeme.text.toList)
    (ht : name.token = .name) (hphase : phase = Phase.assignment ∨ phase = Phase.loop)
    (hs : IsVariable name.lexeme.text → s.Regular) : s'.Regular := by
  cases h with
  | free hfree => exact hs ⟨matches_of_isText hname ht (by decide), hfree⟩
  | reserved hvalue => exact .invalid hvalue hphase

theorem Stmt.Row.regular (h : Stmt.Row ss ts)
    (hts : ∀ t ∈ ts, t.token.IsText t.lexeme.text.toList) : ∀ s ∈ ss, s.Regular := by
  induction h with
  | assign ht _ hvalue hs =>
    obtain ⟨hname, hrest⟩ := List.forall_mem_cons.mp hts
    have hregular := hvalue.regular (List.forall_mem_cons.mp hrest).2 _ (.head _)
    exact List.forall_mem_singleton.mpr (hs.regular hname ht (.inl rfl) fun h => .assign h hregular)
  | call ht hopening hargs hclosing =>
    have hcall := (Expr.Row.call ht hopening hargs hclosing).regular hts _ (.head _)
    exact List.forall_mem_singleton.mpr (.call hcall)
  | loop htokens hstart hstop _ hstep hbody hs ih =>
    simp only [List.forall_mem_cons, List.forall_mem_append] at hts
    obtain ⟨_, hname, _, _, hus, _, hvs, _, hws, _, hxs, _⟩ := hts
    simp only [List.map_cons, List.cons.injEq] at htokens
    refine List.forall_mem_singleton.mpr (hs.regular hname htokens.2.1 (.inr rfl) fun h => ?_)
    exact .loop h (hstart.regular hus _ (.head _)) (hstop.regular hvs _ (.head _))
      (hstep.regular hws) hbody.ne_nil (ih hxs)
  | next _ _ ih ih' =>
    obtain ⟨hfirst, hrest⟩ := List.forall_mem_append.mp hts
    exact List.forall_mem_cons.mpr ⟨ih hfirst _ (.head _), ih' hrest⟩

end Rows

theorem Grammar.Laid.isText {ps : List Piece} {rest : List Char} (h : Laid ps rest) {c : Cursor} :
    ∀ t ∈ taken c ps, t.token.IsText t.lexeme.text.toList := by
  induction ps generalizing c with
  | nil => simp [taken]
  | cons p ps ih =>
    refine List.forall_mem_cons.mpr ⟨?_, ih h.2⟩
    rw [String.toList_ofList]
    exact h.1.word

/-- A parsed program has statements, all of them regular. It is written by the tokens that were
read, which say where a loop has a step and whether its range takes in its end, and what sets a
reserved name. Its text has one syntax tree, and the tree is turned into the program without a
fault. -/
theorem parse_regular {origin text : String} {ss : List Stmt} (h : parse origin text = .ok ss) :
    ss ≠ [] ∧ (∀ s ∈ ss, s.Regular) ∧
    (∃ ps rest z d, text.toList = joined ps ++ rest ∧ Laid ps rest ∧
      Takes grammar program (Cursor.start origin text.toList) ss d
        (taken (Cursor.start origin text.toList) ps ++ [z]) ∧
      Stmt.Row ss (taken (Cursor.start origin text.toList) ps)) ∧
    ∃ tree d, (∀ o, Derives trees (.rule (.part .program)) (Cursor.start origin text.toList) o ↔
        o = some (tree, d)) ∧ tree.visit = .ok (ss.map .stmt) := by
  obtain ⟨ts, d, htakes⟩ := parse_eq_ok_iff_takes.mp h
  obtain ⟨tree, htree, hvisit⟩ := htakes.derives.exists_tree
  obtain ⟨ps, rest, z, rfl, _, htext, hps, hrest, hspells⟩ := htakes.exists_pieces
  have hrow := hspells.row_stmts
  refine ⟨hrow.ne_nil, hrow.regular hps.isText, ⟨ps, rest, z, d, htext, hps, htakes, hrow⟩,
    tree, d, fun o => ?_, hvisit⟩
  exact ⟨fun ho => ho.unique htree, fun ho => ho ▸ htree⟩

/-- A loop with a step, and in it a statement that sets a reserved name. -/
def steppedLoop : String := "for i over [-1, 2] by .5 \x7b e = f(π, i) \x7d"

theorem exists_parse_steppedLoop : ∃ ss, parse "" steppedLoop = .ok ss ∧
    ss ≠ [] ∧ (∀ s ∈ ss, s.Regular) ∧
    (∃ ps rest z d, steppedLoop.toList = joined ps ++ rest ∧ Laid ps rest ∧
      Takes grammar program (Cursor.start "" steppedLoop.toList) ss d
        (taken (Cursor.start "" steppedLoop.toList) ps ++ [z]) ∧
      Stmt.Row ss (taken (Cursor.start "" steppedLoop.toList) ps)) ∧
    ∃ tree d, (∀ o, Derives trees (.rule (.part .program)) (Cursor.start "" steppedLoop.toList) o ↔
        o = some (tree, d)) ∧ tree.visit = .ok (ss.map .stmt) := by
  obtain ⟨ss, hss⟩ := exists_eq_ok (x := parse "" steppedLoop) (by decide +kernel)
  exact ⟨ss, hss, parse_regular hss⟩

end PolarPlot

import PolarPlot.Proofs.Printing
import PolarPlot.Proofs.Wording

/-!
# Precedence

A flat expression is a row of factors with an operator between each two of them. It is read as a sum
of products: factors with `*` and `/` between them are joined from the left, and then these runs are
joined from the left by the `+` and `-` between them. A sign that stands after a factor is always
the operator, since the factor is over there.
-/

namespace PolarPlot

open Grammar Number

/-! ## The ends of expressions -/

namespace Grammar

/-- An expression can end where such a text starts: its last token does not grow into the text. -/
def Closes (rest : List Char) : Prop := ∀ t ∈ Rule.expr.outline.last, t.Stops rest

theorem closes_nil : Closes [] := by
  intro t _ y hy
  cases hy

theorem closes_mark (ch : Char) (h : ch ∈ [')', ',', '+', '-', '*', '/']) (cs : List Char) :
    Closes (ch :: cs) := by
  intro t ht y hy
  obtain rfl := Option.some.inj hy
  simp only [Rule.outline, List.mem_cons, List.not_mem_nil, or_false] at ht h
  rcases ht with rfl | rfl | rfl <;>
    rcases h with rfl | rfl | rfl | rfl | rfl | rfl <;> exact ⟨rfl, nofun⟩

/-- Filler ends every token but a slash, which may become part of a comment. -/
theorem Filler.stops {xs rest : List Char} (h : Filler xs) {t : Token} (ht : t ≠ .divide)
    (hrest : t.Stops rest) : t.Stops (xs ++ rest) := by
  have hslash : ∀ cs, t.Stops ('/' :: cs) := by
    intro cs y hy
    obtain rfl := Option.some.inj hy
    exact ⟨by cases t <;> rfl, fun hdivide => absurd hdivide ht⟩
  cases h with
  | nil => exact hrest
  | blank hch _ => exact ends_layout hch _ t
  | line => exact hslash _
  | block => exact hslash _

theorem Filler.layout_or_nil {xs : List Char} (h : Filler xs) (hxs : xs.head? ≠ some '/') :
    xs = [] ∨ ∃ ch cs, isLayout ch ∧ xs = ch :: cs := by
  cases h with
  | nil => exact .inl rfl
  | blank hch _ => exact .inr ⟨_, _, hch, rfl⟩
  | line => exact absurd rfl hxs
  | block => exact absurd rfl hxs

theorem Filler.closes {xs rest : List Char} (h : Filler xs) (hrest : Closes rest) :
    Closes (xs ++ rest) := by
  intro t ht
  refine h.stops ?_ (hrest t ht)
  rintro rfl
  simp [Rule.outline] at ht

theorem Trailing.closes {rest : List Char} (h : Trailing rest) : Closes rest := by
  cases rest with
  | nil => exact closes_nil
  | cons ch cs =>
    have hfiller : Closes ((ch :: cs) ++ ['\n'] ++ []) := h.filler.closes closes_nil
    exact hfiller

/-- Pieces whose last token ends where a text starts are laid out before it. -/
theorem Laid.of_last {ps : List Piece} {rest : List Char} (h : Laid ps [])
    (hlast : ∀ p ∈ ps.getLast?, p.token.Stops rest) : Laid ps rest := by
  induction ps with
  | nil => trivial
  | cons p ps ih =>
    obtain ⟨hp, hps⟩ := h
    cases ps with
    | nil => exact ⟨{ hp with stops := hlast p rfl }, trivial⟩
    | cons q ps =>
      refine ⟨{ hp with stops := ?_ }, ih hps hlast⟩
      obtain ⟨ch, cs, hq⟩ := List.exists_cons_of_ne_nil hps.1.text_ne_nil
      intro y hy
      refine hp.stops y ?_
      simpa [joined_cons, hq] using hy

theorem Reading.stop_unique {c d d' : Cursor} {ts : List Taken} (h : Reading c ts d)
    (h' : Reading c ts d') : d = d' := by
  induction h with
  | nil =>
    cases h'
    rfl
  | cons _ _ ih =>
    cases h' with
    | cons _ h' => exact ih h'

end Grammar

/-! ## Factors -/

/-- A text that is an expression all by itself, and the node that it is read as. -/
def IsExpr (text : List Char) (e : Expr) : Prop :=
  ∃ e' d, Derives grammar (.rule Rule.expr) (Cursor.start "" text) (some (e', d)) ∧ d.rest = [] ∧
    e'.bare = e

/-- The arguments of a call after its first one, up to the parenthesis that closes it. -/
inductive IsTail : List Char → List Expr → Prop where
  | close {ys : List Char} : Filler ys → IsTail (ys ++ [')']) []
  | comma {ys xs text rest : List Char} {e : Expr} {es : List Expr} : Filler ys → Filler xs →
      IsExpr text e → IsTail rest es → IsTail (ys ++ ',' :: (xs ++ (text ++ rest))) (e :: es)

/-- A factor and its node: a number with or without a sign, a reserved name, the name of a variable,
a call, or an expression in parentheses. -/
inductive IsFactor : List Char → Expr → Prop where
  | number {text : List Char} : Token.number.IsText text →
      IsFactor text (.const .unknown (Decimal.ofNumeral text).toFloat)
  | constant {text : List Char} {value : Float} : Token.name.IsText text →
      reserved? (String.ofList text) = some value → IsFactor text (.const .unknown value)
  | var {text : List Char} : Token.name.IsText text → reserved? (String.ofList text) = none →
      IsFactor text (.var .unknown (String.ofList text))
  | call {name gap xs text rest : List Char} {e : Expr} {es : List Expr} :
      Token.function.IsText name → Filler gap → Filler xs → IsExpr text e → IsTail rest es →
      IsFactor (name ++ (gap ++ '(' :: (xs ++ (text ++ rest))))
        (.call .unknown (String.ofList name) (e :: es))
  | parens {xs text ys : List Char} {e : Expr} : Filler xs → IsExpr text e → Filler ys →
      IsFactor ('(' :: (xs ++ (text ++ (ys ++ [')'])))) e

namespace Grammar

theorem taken_alike_bare (c : Cursor) (ps : List Piece) :
    List.Forall₂ (Taken.Alike (fun _ => .unknown) id) (taken c ps) (ps.map Piece.bare) := by
  refine (bare_alike_taken ps c).flip.imp fun t u h => ?_
  exact ⟨h.1.symm, h.2.1.symm, h.2.2.symm⟩

/-- An expression that goes to the end of a text, in pieces. -/
theorem Takes.exists_pieces_of_rest_nil {c d : Cursor} {e : Expr} {ts : List Taken}
    (h : Takes grammar (.rule Rule.expr) c e d ts) (hd : d.rest = []) :
    ∃ ps, c.rest = joined ps ∧ Laid ps [] ∧ ts = taken c ps := by
  -- Only a token before another one is known to stop there, so the end of the text is read as well.
  obtain ⟨l, d', heof⟩ : ∃ l d', Reads .eof d (some (l, d')) := by
    refine ⟨_, _, .found (n := 0) ?_⟩
    rw [trailing_nil d hd]
    rfl
  have hwhole : Spells grammar ((Peg.rule Rule.expr).seq (.token .eof)) (e, l)
      (ts ++ [⟨.eof, l, d'⟩]) :=
    .seq h.spells .token
  obtain ⟨ps, rest, hc, hps, rfl, _⟩ := (h.reading.append (.cons heof .nil)).exists_pieces
    (hwhole.isChain grammar_outline grammar_joins (by decide))
  obtain rfl := h.reading.stop_unique (hps.reading hc)
  obtain rfl : rest = [] := by simpa [hc] using hd
  exact ⟨ps, by rw [hc, List.append_nil], hps, rfl⟩

/-- Up to a closing parenthesis. -/
theorem writes_closed {α : Type} {p : Pattern α} {a : α} {x ys : List Char}
    (h : Writes Closes p a x) (hys : Filler ys) :
    Writes Closes (p.before (.token .endParen)) a (x ++ (ys ++ [')'])) := by
  have hclose : Writes Closes (.token .endParen) _ [')'] := .fixed .endParen rfl (by simp)
  refine .map (h.seq (hclose.filler rfl hys) fun rest _ => ?_)
  rw [List.append_assoc]
  exact hys.closes (closes_mark ')' (by simp) _)

theorem writes_name {name : List Char} (h : Token.name.IsText name) :
    Writes Closes factor (.unknown, nameNode ⟨String.ofList name, .unknown⟩) name := by
  have htoken := (Writes.token (by simp) h).mono fun rest (hr : Closes rest) => hr .name (by decide)
  exact .choiceSecond (.choiceSecond (.choiceFirst (.map htoken)))

end Grammar

theorem IsExpr.writes {text : List Char} {e : Expr} (h : IsExpr text e) :
    Writes Closes (.rule Rule.expr) e text := by
  obtain ⟨e', d, hd, hrest, rfl⟩ := h
  obtain ⟨ts, htakes⟩ := hd.exists_takes _ _ rfl
  obtain ⟨ps, htext, hps, rfl⟩ := htakes.exists_pieces_of_rest_nil hrest
  obtain ⟨e'', hs, he⟩ := htakes.spells.exists_alike grammar_alike (taken_alike_bare _ ps)
  have hbare : e'.bare = e'' := by
    have he : e'.relocate (fun _ => .unknown) = e''.relocate id := he
    rwa [Expr.relocate_id] at he
  rw [hbare]
  refine ⟨ps, htext.symm, fun rest hr => hps.of_last fun p hp => ?_, hs⟩
  have hfits := hs.fits grammar_outline
  exact hr p.token (hfits.last p.token (by simp_all [Piece.bare]))

/-- The arguments after the first one, and the filler before the closing parenthesis. -/
theorem IsTail.exists_writes {text : List Char} {es : List Expr} (h : IsTail text es) :
    ∃ args ys, text = args ++ (ys ++ [')']) ∧ Filler ys ∧
    (∀ rest, Closes rest → Closes (args ++ rest)) ∧
      Writes Closes ((Peg.token .comma).andThen (.rule Rule.expr)).many es args := by
  induction h with
  | close hys => exact ⟨[], _, rfl, hys, fun _ hr => hr, .manyEnd⟩
  | @comma ys xs text rest e es hys hxs he hrest ih =>
    obtain ⟨args, zs, rfl, hzs, hclose, hargs⟩ := ih
    have hcomma : Writes Closes ((Peg.token .comma).andThen (.rule Rule.expr)) e
        (ys ++ ([','] ++ (xs ++ text))) :=
      (Writes.fixedThen .comma rfl (by simp) (he.writes.filler rfl hxs)).filler rfl hys
    refine ⟨_, zs, by simp, hzs, fun rest hr => ?_, hcomma.manyNext hargs hclose⟩
    rw [List.append_assoc, List.append_assoc]
    exact hys.closes (closes_mark ',' (by simp) _)

theorem IsFactor.writes {text : List Char} {e : Expr} (h : IsFactor text e) :
    Writes Closes factor (.unknown, e) text := by
  cases h with
  | number h =>
    have htoken :=
      (Writes.token (by simp) h).mono fun rest (hr : Closes rest) => hr .number (by decide)
    have hfactor : Writes Closes factor _ text := .choiceFirst (.map htoken)
    simpa [numberNode] using hfactor
  | constant h hvalue => simpa [nameNode, hvalue] using writes_name h
  | var h hfree => simpa [nameNode, hfree] using writes_name h
  | @call name gap xs text rest e es hname hgap hxs he hrest =>
    obtain ⟨args, ys, rfl, hys, hargs, hmany⟩ := hrest.exists_writes
    have harguments : Writes Closes arguments (e :: es) (xs ++ text ++ args) :=
      .map ((he.writes.filler rfl hxs).seq hmany hargs)
    have hopen := Writes.fixedThen .paren rfl (by simp) (writes_closed harguments hys)
    have hcall : Writes Closes Grammar.call _ _ :=
      (Writes.token (by simp) hname).seq (hopen.filler rfl hgap) fun rest _ => by
        rw [List.append_assoc]
        exact hgap.stops (by simp) (ends_mark '(' (by simp) _ _)
    have hfactor : Writes Closes factor _ _ := .choiceSecond (.choiceFirst (.map hcall))
    simpa [callNode] using hfactor
  | @parens xs text ys e hxs he hys =>
    have hparen : Writes (fun _ => True) (.token .paren) _ ['('] := .fixed .paren rfl (by simp)
    have hrest := writes_closed (he.writes.filler rfl hxs) hys
    have hfactor : Writes Closes factor _ _ :=
      .choiceSecond (.choiceSecond (.choiceSecond (.map (hparen.seq hrest fun _ _ => trivial))))
    simpa using hfactor

/-- A factor starts with its first token, which is not an operator of products. -/
theorem IsFactor.exists_cons {text : List Char} {e : Expr} (h : IsFactor text e) :
    ∃ ch cs, text = ch :: cs ∧ ch ≠ '/' ∧ ch ≠ '*' := by
  have hword : ∀ {t : Token} {w : List Char}, t.IsText w → t ≠ .eof → t ≠ .divide → t ≠ .multiply →
      ∃ ch cs, w = ch :: cs ∧ ch ≠ '/' ∧ ch ≠ '*' := by
    intro t w hw heof hdivide hmultiply
    obtain ⟨ch, cs, rfl, hch⟩ := hw.exists_cons heof
    refine ⟨ch, cs, rfl, ?_, ?_⟩
    · rintro rfl
      exact hdivide (Token.eq_divide_of_opens hch)
    · rintro rfl
      exact hmultiply (Token.eq_multiply_of_opens hch)
  cases h with
  | number h => exact hword h (by simp) (by simp) (by simp)
  | constant h _ => exact hword h (by simp) (by simp) (by simp)
  | var h _ => exact hword h (by simp) (by simp) (by simp)
  | call h =>
    obtain ⟨ch, cs, rfl, hch⟩ := hword h (by simp) (by simp) (by simp)
    exact ⟨ch, _, rfl, hch⟩
  | parens => exact ⟨'(', _, rfl, by simp, by simp⟩

/-! ## Flat expressions -/

structure Factor where
  text : List Char
  node : Expr
  isFactor : IsFactor text node

/-- An operator and the factor after it, with filler before and after the operator. A comment right
after a slash would take the slash with it, so there is none. -/
structure Joint where
  before : List Char
  op : Operator
  after : List Char
  factor : Factor
  filler_before : Filler before
  filler_after : Filler after
  apart : op = .divide → after.head? ≠ some '/'

/-- The text from the end of the factor before to the start of the factor after the operator. -/
def Joint.sign (j : Joint) : List Char := j.before ++ (j.op.symbol.toList ++ j.after)

def Joint.text (j : Joint) : List Char := j.sign ++ j.factor.text

def flatText (first : Factor) (rest : List Joint) : List Char :=
  first.text ++ rest.flatMap Joint.text

def Operator.isProduct (op : Operator) : Bool := op = .multiply || op = .divide

/-- The first run of factors with `*` and `/` between them goes on as long as these operators come.
Each `+` or `-` starts another run with its factor. -/
def runs : List Joint → List Joint × List (Joint × List Joint)
  | [] => ([], [])
  | j :: js =>
    if j.op.isProduct then (j :: (runs js).1, (runs js).2)
      else ([], (j, (runs js).1) :: (runs js).2)

/-- A run of factors, joined from the left. -/
def runNode (first : Factor) (run : List Joint) : Expr :=
  run.foldl (fun left j => .binary .unknown j.op left j.factor.node) first.node

/-- The runs of a flat expression, joined from the left. -/
def flatNode (first : Factor) (rest : List Joint) : Expr :=
  (runs rest).2.foldl (fun left run => .binary .unknown run.1.op left (runNode run.1.factor run.2))
    (runNode first (runs rest).1)

theorem runs_append (js : List Joint) :
    (runs js).1 ++ (runs js).2.flatMap (fun run => run.1 :: run.2) = js := by
  induction js with
  | nil => rfl
  | cons j js ih =>
    rw [runs]
    split
    · rw [List.cons_append, ih]
    · rw [List.nil_append, List.flatMap_cons, List.cons_append, ih]

/-- The runs are as long as can be: within them are products only, and between them none. -/
theorem runs_maximal (js : List Joint) : (∀ j ∈ (runs js).1, j.op.isProduct) ∧
    ∀ run ∈ (runs js).2, run.1.op.isProduct = false ∧ ∀ j ∈ run.2, j.op.isProduct := by
  induction js with
  | nil => simp [runs]
  | cons j js ih =>
    obtain ⟨hrun, hothers⟩ := ih
    rw [runs]
    split
    case isTrue hj => exact ⟨List.forall_mem_cons.mpr ⟨hj, hrun⟩, hothers⟩
    case isFalse hj =>
      refine ⟨by simp, List.forall_mem_cons.mpr ⟨⟨?_, hrun⟩, hothers⟩⟩
      exact Bool.eq_false_iff.mpr hj

/-! ## Reading flat expressions -/

theorem Operator.fixed?_token (op : Operator) : op.token.fixed? = some op.symbol.toList := by
  cases op <;> rfl

/-- An operator ends before its factor. -/
theorem Joint.stops (j : Joint) (rest : List Char) :
    j.op.token.Stops (j.after ++ (j.factor.text ++ rest)) := by
  by_cases hop : j.op = .divide
  · rcases j.filler_after.layout_or_nil (j.apart hop) with hnil | ⟨ch, cs, hch, hafter⟩
    · obtain ⟨ch, cs, hfactor, hch⟩ := j.factor.isFactor.exists_cons
      rw [hop, hnil, hfactor]
      intro y hy
      obtain rfl := Option.some.inj hy
      exact ⟨rfl, fun _ => hch⟩
    · rw [hafter]
      exact ends_layout hch _ _
  · refine Token.stops_of_fixed? j.op.fixed?_token (fun hdivide => hop ?_) _
    cases hj : j.op with
    | divide => rfl
    | _ => simp [hj, Operator.token] at hdivide

theorem Joint.closes (j : Joint) (rest : List Char) : Closes (j.text ++ rest) := by
  have hsymbol : ∀ cs, Closes (j.op.symbol.toList ++ cs) := by
    intro cs
    cases j.op with
    | add => exact closes_mark '+' (by simp) cs
    | subtract => exact closes_mark '-' (by simp) cs
    | multiply => exact closes_mark '*' (by simp) cs
    | divide => exact closes_mark '/' (by simp) cs
  simpa [Joint.text, Joint.sign] using j.filler_before.closes (hsymbol _)

theorem Operator.writes (op : Operator) :
    Writes op.token.Stops (operator op.token op) op op.symbol.toList :=
  have htext := Token.isText_of_fixed? op.fixed?_token
  .map (f := fun _ => op) (Writes.token htext.1 htext.2)

theorem Operator.writes_product {op : Operator} (h : op.isProduct) : Writes op.token.Stops
    ((operator .multiply .multiply).choice (operator .divide .divide)) op op.symbol.toList := by
  cases op with
  | multiply => exact .choiceFirst (Operator.writes .multiply)
  | divide => exact .choiceSecond (Operator.writes .divide)
  | _ => cases h

theorem Operator.writes_sum {op : Operator} (h : op.isProduct = false) : Writes op.token.Stops
    ((operator .add .add).choice (operator .subtract .subtract)) op op.symbol.toList := by
  cases op with
  | add => exact .choiceFirst (Operator.writes .add)
  | subtract => exact .choiceSecond (Operator.writes .subtract)
  | _ => cases h

/-- An operator, and an operand that starts with the factor after it. -/
theorem Joint.writes (j : Joint) {ops : Pattern Operator} {p : Pattern Operand} {e : Expr}
    {x : List Char} (hop : Writes j.op.token.Stops ops j.op j.op.symbol.toList)
    (hops : (ops.outline Rule.outline).empty = false) (hp : (p.outline Rule.outline).empty = false)
    (h : Writes Closes p (.unknown, e) (j.factor.text ++ x)) :
    Writes Closes (ops.seq p) (j.op, (.unknown, e)) (j.text ++ x) := by
  have hpair := (hop.filler hops j.filler_before).seq (h.filler hp j.filler_after) fun rest _ => by
    simpa using j.stops (x ++ rest)
  simpa [Joint.text, Joint.sign] using hpair

theorem writes_run (first : Factor) {run : List Joint} (hrun : ∀ j ∈ run, j.op.isProduct) :
    Writes Closes term (.unknown, runNode first run) (flatText first run) := by
  have hmany : Writes Closes (Peg.seq _ factor).many
      (run.map fun j => (j.op, ((.unknown, j.factor.node) : Operand))) (run.flatMap Joint.text) :=
    .manyOf (fun j hj => by
      simpa using j.writes (x := []) (Operator.writes_product (hrun j hj)) rfl rfl
        (by simpa using j.factor.isFactor.writes)) Joint.closes
  have hterm : Writes Closes term _ (flatText first run) :=
    .map (first.isFactor.writes.seq hmany fun rest hr => ok_flatMap Joint.closes hr)
  simpa [joinOperands, List.foldl_map, runNode] using hterm

theorem writes_flat (first : Factor) (rest : List Joint) :
    Writes Closes (.rule Rule.expr) (flatNode first rest) (flatText first rest) := by
  obtain ⟨hrun, hothers⟩ := runs_maximal rest
  have hcloses : ∀ (run : Joint × List Joint) cs,
      Closes (run.1.text ++ run.2.flatMap Joint.text ++ cs) := by
    intro run cs
    rw [List.append_assoc]
    exact run.1.closes _
  have hmany : Writes Closes (Peg.seq _ term).many
      ((runs rest).2.map fun run => (run.1.op, ((.unknown, runNode run.1.factor run.2) : Operand)))
      ((runs rest).2.flatMap fun run => run.1.text ++ run.2.flatMap Joint.text) :=
    .manyOf (fun run hmem => run.1.writes (Operator.writes_sum (hothers run hmem).1) rfl rfl
      (writes_run run.1.factor (hothers run hmem).2)) hcloses
  have hexpr : Writes Closes expr _ _ :=
    .map ((writes_run first hrun).seq hmany fun rest hr => ok_flatMap hcloses hr)
  have htext : flatText first rest = flatText first (runs rest).1 ++
      (runs rest).2.flatMap fun run => run.1.text ++ run.2.flatMap Joint.text := by
    conv_lhs => rw [flatText, ← runs_append rest]
    simp [flatText, List.flatMap_assoc]
  have hrule : Writes Closes (.rule Rule.expr) _ _ := .rule hexpr
  rw [htext]
  simpa [joinOperands, List.foldl_map, flatNode] using hrule

/-- Where a written expression can end, it is read as a whole. -/
theorem Grammar.Writes.exists_derives {ok : List Char → Prop} {e : Expr} {text rest : List Char}
    {c : Cursor} (h : Writes ok (.rule Rule.expr) e text) (hc : c.rest = text ++ rest)
    (hrest : ok rest) (hclear : Clear afterExpr (c.advance text.length)) :
    ∃ e', Derives grammar (.rule Rule.expr) c (some (e', c.advance text.length)) ∧ e'.bare = e := by
  obtain ⟨ps, rfl, hps, hs⟩ := h
  obtain ⟨e', hs', he⟩ := hs.exists_alike grammar_alike (bare_alike_taken ps c)
  have htakes := (complete_expr_all _).takes le_rfl hs' ((hps rest hrest).reading hc) hclear
  refine ⟨e', htakes.derives, ?_⟩
  have he : e.relocate id = e'.bare := he
  rw [← he, Expr.relocate_id, id]

theorem Grammar.Writes.exists_parse {ok : List Char → Prop} {ss : List Stmt} {text rest : List Char}
    (h : Writes ok (Peg.rule Rule.stmt).some ss text) (hrest : Trailing rest) (hok : ok rest)
    (origin : String) :
    ∃ ss', parse origin (String.ofList (text ++ rest)) = .ok ss' ∧ ss'.map Stmt.bare = ss := by
  obtain ⟨ps, rfl, hps, hs⟩ := h
  obtain ⟨ss', hs', he⟩ := hs.exists_stmts_alike (bare_alike_taken ps _)
  refine ⟨ss', parse_eq_ok_iff_laid.mpr ⟨ps, rest, by simp, hps rest hok, hrest, hs'⟩, ?_⟩
  rw [Stmt.relocate_id, List.map_id] at he
  exact he.symm

theorem Grammar.clear_of_rest_nil {c : Cursor} (h : c.rest = []) : Clear afterExpr c := by
  intro t ht
  rw [Lacks, trailing_nil c h, Token.length?_nil]
  rintro rfl
  simp [afterExpr] at ht

/-- A flat expression is an expression by itself, and so it can be put in parentheses. -/
theorem isExpr_flat (first : Factor) (rest : List Joint) :
    IsExpr (flatText first rest) (flatNode first rest) := by
  have hstart : (Cursor.start "" (flatText first rest)).rest = flatText first rest ++ [] :=
    (List.append_nil _).symm
  have hend : ((Cursor.start "" (flatText first rest)).advance (flatText first rest).length).rest =
      [] := by
    simp [hstart]
  obtain ⟨e, hd, he⟩ :=
    (writes_flat first rest).exists_derives hstart closes_nil (clear_of_rest_nil hend)
  exact ⟨e, _, hd, hend, he⟩

theorem writes_assign {name : String} (hname : IsVariable name) {gap gap' text : List Char}
    {e : Expr} (hgap : Filler gap) (hgap' : Filler gap')
    (h : Writes Closes (.rule Rule.expr) e text) :
    Writes Closes (.rule Rule.stmt) (.assign .unknown name e)
      (name.toList ++ (gap ++ '=' :: (gap' ++ text))) := by
  have hvalue : Writes Closes ((Peg.token .assign).andThen (.rule Rule.expr)) e _ :=
    .fixedThen .assign rfl (by simp) (h.filler rfl hgap')
  have hsign : ∀ cs, Token.name.Stops ('=' :: cs) := by
    intro cs y hy
    obtain rfl := Option.some.inj hy
    exact ⟨rfl, nofun⟩
  have hword := Writes.token (by simp) (hname.whole.isText (by simp))
  have hassign : Writes Closes assignment _ _ :=
    .map (hword.seq (hvalue.filler rfl hgap) fun rest _ => by
      rw [List.append_assoc]
      exact hgap.stops (by simp) (hsign _))
  have hrule : Writes Closes (.rule Rule.stmt) _ _ := .rule (.choiceSecond (.choiceFirst hassign))
  simpa [hname.free] using hrule

theorem Stmt.eq_assign_of_bare {s : Stmt} {name : Label} {e : Expr}
    (h : s.bare = .assign .unknown name e) : ∃ pos e', s = .assign pos name e' ∧ e'.bare = e := by
  cases s with
  | assign pos name' e' =>
    rw [Stmt.bare_assign, Stmt.assign.injEq] at h
    obtain ⟨_, rfl, he⟩ := h
    exact ⟨pos, e', rfl, he⟩
  | _ => simp [Stmt.bare, Stmt.relocate] at h

/-- A flat expression is read as its runs, joined from the left, wherever it stands in a program:
the rule for expressions has no other outcome there. In particular this is the value of an
assignment. -/
theorem parse_flat (first : Factor) (rest : List Joint) :
    (∀ {c : Cursor} {after : List Char}, c.rest = flatText first rest ++ after → Closes after →
      Clear afterExpr (c.advance (flatText first rest).length) →
      ∃ e, (∀ o, Derives grammar (.rule Rule.expr) c o ↔
        o = some (e, c.advance (flatText first rest).length)) ∧ e.bare = flatNode first rest) ∧
    ∀ (origin : String) {name : String} {gap gap' after : List Char}, IsVariable name → Filler gap →
      Filler gap' → Trailing after → ∃ pos e, parse origin (String.ofList (name.toList ++
        (gap ++ '=' :: (gap' ++ flatText first rest)) ++ after)) = .ok [.assign pos name e] ∧
        e.bare = flatNode first rest := by
  refine ⟨fun hc hafter hclear => ?_, fun origin _ _ _ _ hname hgap hgap' hafter => ?_⟩
  · obtain ⟨e, hd, he⟩ := (writes_flat first rest).exists_derives hc hafter hclear
    exact ⟨e, fun o => ⟨fun ho => ho.unique hd, fun ho => ho ▸ hd⟩, he⟩
  · have hstmt := writes_assign hname hgap hgap' (writes_flat first rest)
    have hsome : Writes Closes (Peg.rule Rule.stmt).some _ _ := .map hstmt.seqNil
    obtain ⟨ss, hparse, hbare⟩ := hsome.exists_parse hafter hafter.closes origin
    obtain ⟨s, rfl, hs⟩ := List.map_eq_singleton_iff.mp hbare
    obtain ⟨pos, e, rfl, he⟩ := Stmt.eq_assign_of_bare hs
    exact ⟨pos, e, hparse, he⟩

theorem isFactor_of_numeral {numeral : String} {value : Float} (h : Token.number.Matches numeral)
    (hvalue : (Decimal.ofNumeral numeral.toList).toFloat = value) :
    IsFactor numeral.toList (.const .unknown value) :=
  hvalue ▸ .number (h.isText (by simp))

/-- Signs that are operators and a sign that is not, a quotient of a product, and a call with a sum
in it. -/
theorem exists_parse_signedTerms :
    ∃ pos e, parse "" "r =1 -2*x/ /*-*/f(\tpi-1 )+-2//" = .ok [.assign pos "r" e] ∧
      e.bare = .binary .unknown .add
        (.binary .unknown .subtract (.const .unknown 1)
          (.binary .unknown .divide
            (.binary .unknown .multiply (.const .unknown 2) (.var .unknown "x"))
            (.call .unknown "f"
              [.binary .unknown .subtract (.const .unknown 3.141592653589793)
                (.const .unknown 1)])))
        (.const .unknown (-2)) := by
  have hone : IsFactor "1".toList (.const .unknown 1) :=
    isFactor_of_numeral (by unfold Token.Matches; decide +kernel) (by decide +kernel)
  have htwo : IsFactor "2".toList (.const .unknown 2) :=
    isFactor_of_numeral (by unfold Token.Matches; decide +kernel) (by decide +kernel)
  have hsigned : IsFactor "-2".toList (.const .unknown (-2)) :=
    isFactor_of_numeral (by unfold Token.Matches; decide +kernel) (by decide +kernel)
  have hx : IsFactor ['x'] (.var .unknown "x") := .var ((Token.isText_iff (by simp)).mpr rfl) rfl
  have hpi : IsFactor ['p', 'i'] (.const .unknown 3.141592653589793) :=
    .constant ((Token.isText_iff (by simp)).mpr rfl) rfl
  have hsum := isExpr_flat ⟨_, _, hpi⟩ [⟨[], .subtract, [], ⟨_, _, hone⟩, .nil, .nil, nofun⟩]
  have hblank : Filler [' '] := .blank rfl .nil
  have htab : Filler ['\t'] := .blank rfl .nil
  have hf : Token.function.IsText ['f'] := (Token.isText_iff (by simp)).mpr rfl
  have hcall := IsFactor.call hf .nil htab hsum (.close hblank)
  have hbody : Unclosed ['-'] := by
    unfold Unclosed
    decide
  have hcomment : Filler [' ', '/', '*', '-', '*', '/'] := .blank rfl (.block hbody .nil)
  have htrailing : Trailing ['/', '/'] :=
    trailing_of_skipLayout (c := Cursor.start "" ['/', '/']) (by decide +kernel)
  have hname : IsVariable "r" := ⟨rfl, rfl⟩
  obtain ⟨pos, e, hparse, he⟩ := (parse_flat ⟨_, _, hone⟩ [
    ⟨[' '], .subtract, [], ⟨_, _, htwo⟩, hblank, .nil, nofun⟩,
    ⟨[], .multiply, [], ⟨_, _, hx⟩, .nil, .nil, nofun⟩,
    ⟨[], .divide, _, ⟨_, _, hcall⟩, .nil, hcomment, nofun⟩,
    ⟨[], .add, [], ⟨_, _, hsigned⟩, .nil, .nil, nofun⟩]).2
    "" hname hblank .nil htrailing
  refine ⟨pos, e, Eq.trans (congrArg (parse "") ?_) hparse, he.trans ?_⟩
  · simp [flatText, Joint.text, Joint.sign, Operator.symbol]
  · simp [flatNode, runs, runNode, Operator.isProduct]

end PolarPlot

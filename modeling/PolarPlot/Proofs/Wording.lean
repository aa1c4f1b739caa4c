import PolarPlot.Proofs.Phrases

/-!
# The words of a program

`Expr.Row` and `Stmt.Row` say which rows of tokens write a list of expressions or of statements, by
the form of the program and without the grammar: which word names what, where an operation starts,
which bracket closes a range, and what stands in place of a statement that sets a reserved name.
What the grammar spells is written so (`grammar_row`), and every fact on the words of a program
follows from it.
-/

namespace PolarPlot

open Grammar Number

/-! ## Rows of tokens that write programs -/

def Operator.token : Operator → Token
  | .add => .add
  | .subtract => .subtract
  | .multiply => .multiply
  | .divide => .divide

theorem Grammar.Token.IsText.eq_of_fixed? {t : Token} {w v : String} (h : t.IsText w.toList)
    (ht : t.fixed? = some v.toList) : w = v := by
  cases t with
  | number | name | function | rangeEnd | eof => cases ht
  | _ => exact String.toList_inj.mp (Option.some.inj (Eq.trans (Eq.symm h) ht))

/-- A row of tokens writes expressions, with commas between them. There may be parentheses around an
expression, and the place of an operation is that of its first token, which may be one. -/
inductive Expr.Row : List Expr → List Taken → Prop where
  | number {t : Taken} : t.token = .number →
      Row [.const t.lexeme.pos (Decimal.ofNumeral t.lexeme.text.toList).toFloat] [t]
  | constant {t : Taken} {value : Float} : t.token = .name → reserved? t.lexeme.text = some value →
      Row [.const t.lexeme.pos value] [t]
  | var {t : Taken} : t.token = .name → reserved? t.lexeme.text = none →
      Row [.var t.lexeme.pos t.lexeme.text] [t]
  | call {name opening closing : Taken} {args : List Expr} {ts : List Taken} :
      name.token = .function → opening.token = .paren → Row args ts → closing.token = .endParen →
      Row [.call name.lexeme.pos name.lexeme.text args] (name :: opening :: (ts ++ [closing]))
  | parens {opening closing : Taken} {e : Expr} {ts : List Taken} :
      opening.token = .paren → Row [e] ts → closing.token = .endParen →
      Row [e] (opening :: (ts ++ [closing]))
  | binary {first sign : Taken} {op : Operator} {left right : Expr} {us vs : List Taken} :
      Row [left] (first :: us) → sign.token = op.token → Row [right] vs →
      Row [.binary first.lexeme.pos op left right] (first :: (us ++ sign :: vs))
  | comma {e : Expr} {es : List Expr} {separator : Taken} {us vs : List Taken} : Row [e] us →
      separator.token = .comma → Row es vs → Row (e :: es) (us ++ separator :: vs)

/-- A row of tokens writes the step of a range, or there is none. -/
inductive StepRow : Option Expr → List Taken → Prop where
  | missing : StepRow none []
  | given {word : Taken} {e : Expr} {ts : List Taken} : word.token = .wordBy → Expr.Row [e] ts →
      StepRow (some e) (word :: ts)

/-- What becomes of a statement that sets a name: an error, if the name is reserved. -/
inductive Stmt.Sets (name : Lexeme) (pos : Position) (phase : String) (s : Stmt) : Stmt → Prop where
  | free : reserved? name.text = none → Sets name pos phase s s
  | reserved {value : Float} : reserved? name.text = some value →
      Sets name pos phase s (reservedTarget pos value phase)

/-- A row of tokens writes statements, one after the other. -/
inductive Stmt.Row : List Stmt → List Taken → Prop where
  | assign {name sign : Taken} {value : Expr} {s : Stmt} {ts : List Taken} : name.token = .name →
      sign.token = .assign → Expr.Row [value] ts →
      (Stmt.assign name.lexeme.pos name.lexeme.text value).Sets name.lexeme name.lexeme.pos
        Phase.assignment s →
      Row [s] (name :: sign :: ts)
  | call {name opening closing : Taken} {args : List Expr} {ts : List Taken} :
      name.token = .function → opening.token = .paren → Expr.Row args ts →
      closing.token = .endParen →
      Row [.call name.lexeme.pos (.call name.lexeme.pos name.lexeme.text args)]
        (name :: opening :: (ts ++ [closing]))
  | loop {first name overWord bracket comma close brace last : Taken} {start stop : Expr}
      {step : Option Expr} {inclusive : Bool} {body : List Stmt} {s : Stmt}
      {us vs ws xs : List Taken} :
      [first, name, overWord, bracket, comma, close, brace, last].map Taken.token =
        [.wordFor, .name, .wordOver, .bracket, .comma, .rangeEnd, .brace, .endBrace] →
      Expr.Row [start] us → Expr.Row [stop] vs → (inclusive ↔ close.lexeme.text = "]") →
      StepRow step ws → Row body xs →
      (Stmt.loop first.lexeme.pos name.lexeme.text start stop step inclusive body).Sets name.lexeme
        first.lexeme.pos Phase.loop s →
      Row [s] (first :: name :: overWord :: bracket ::
        (us ++ comma :: (vs ++ close :: (ws ++ brace :: (xs ++ [last])))))
  | next {s : Stmt} {ss : List Stmt} {us vs : List Taken} : Row [s] us → Row ss vs →
      Row (s :: ss) (us ++ vs)

theorem Expr.Row.ne_nil {es : List Expr} {ts : List Taken} (h : Expr.Row es ts) : es ≠ [] := by
  cases h <;> simp

theorem Stmt.Row.ne_nil {ss : List Stmt} {ts : List Taken} (h : Stmt.Row ss ts) : ss ≠ [] := by
  cases h <;> simp

namespace Grammar

/-! ## Rows that a grammar spells -/

section Rows

variable {R : Type → Type} {grammar : (α : Type) → R α → Peg R α} {α β : Type}

/-- Rows one after the other, one for each value. -/
inductive Rows (row : α → List Taken → Prop) : List α → List Taken → Prop where
  | nil : Rows row [] []
  | cons {a : α} {as : List α} {us vs : List Taken} : row a us → Rows row as vs →
      Rows row (a :: as) (us ++ vs)

/-- Which rows write a value of a parsing expression, from the rows of its rules. -/
def Peg.Row (rules : {α : Type} → R α → α → List Taken → Prop) :
    {α : Type} → Peg R α → α → List Taken → Prop
  | _, .token t, l, ts => ∃ d, ts = [⟨t, l, d⟩]
  | _, .rule r, a, ts => rules r a ts
  | _, .seq p q, ab, ts => ∃ us vs, ts = us ++ vs ∧ p.Row rules ab.1 us ∧ q.Row rules ab.2 vs
  | _, .choice p q, a, ts => p.Row rules a ts ∨ q.Row rules a ts
  | _, .many p, as, ts => Rows (p.Row rules) as ts
  | _, .option p, o, ts => o = none ∧ ts = [] ∨ ∃ a, o = .some a ∧ p.Row rules a ts
  | _, .map f p, b, ts => ∃ a, b = f a ∧ p.Row rules a ts

variable {rules : {α : Type} → R α → α → List Taken → Prop}

/-- What every rule passes on holds of all that is spelled. -/
theorem Spells.row (hrules : ∀ {α} (r : R α) {a : α} {ts}, (grammar α r).Row rules a ts →
    rules r a ts)
    {p : Peg R α} {a : α} {ts : List Taken} (h : Spells grammar p a ts) : p.Row rules a ts := by
  induction h with
  | token => exact ⟨_, rfl⟩
  | rule _ ih => exact hrules _ ih
  | seq _ _ ih ih' => exact ⟨_, _, rfl, ih, ih'⟩
  | choiceFirst _ ih => exact .inl ih
  | choiceSecond _ ih => exact .inr ih
  | manyEnd => exact .nil
  | manyNext _ _ ih ih' => exact .cons ih ih'
  | optionOne _ ih => exact .inr ⟨_, rfl, ih⟩
  | optionNone => exact .inl ⟨rfl, rfl⟩
  | map _ ih => exact ⟨_, rfl, ih⟩

variable {p : Peg R α} {q : Peg R β} {ts : List Taken}

theorem row_andThen_token {t : Token} {b : β} (h : ((Peg.token t).andThen q).Row rules b ts) :
    ∃ x us, x.token = t ∧ ts = x :: us ∧ q.Row rules b us := by
  obtain ⟨_, rfl, _, us, rfl, ⟨d, rfl⟩, hq⟩ := h
  exact ⟨_, us, rfl, rfl, hq⟩

theorem row_before_token {t : Token} {a : α} (h : (p.before (Peg.token t)).Row rules a ts) :
    ∃ x us, x.token = t ∧ ts = us ++ [x] ∧ p.Row rules a us := by
  obtain ⟨_, rfl, us, _, rfl, hp, d, rfl⟩ := h
  exact ⟨_, us, rfl, rfl, hp⟩

theorem row_some {as : List α} (h : p.some.Row rules as ts) :
    ∃ a as' us vs, as = a :: as' ∧ ts = us ++ vs ∧ p.Row rules a us ∧
    Rows (p.Row rules) as' vs := by
  obtain ⟨⟨a, as'⟩, rfl, us, vs, rfl, ha, has⟩ := h
  exact ⟨a, as', us, vs, rfl, rfl, ha, has⟩

end Rows

/-! ## Rows of the grammar -/

def Rule.Row : {α : Type} → Rule α → α → List Taken → Prop
  | _, .expr, e, ts => Expr.Row [e] ts
  | _, .stmt, s, ts => Stmt.Row [s] ts

/-- A row of tokens writes an operand, which starts at the first of them. -/
def Operand.Row (x : Operand) (ts : List Taken) : Prop :=
  Expr.Row [x.2] ts ∧ ∃ first us, ts = first :: us ∧ x.1 = first.lexeme.pos

section Expressions

variable {ts : List Taken}

theorem row_nameNode {t : Taken} (h : t.token = .name) : Expr.Row [nameNode t.lexeme] [t] := by
  unfold nameNode
  cases hr : reserved? t.lexeme.text with
  | none => exact .var h hr
  | some value => exact .constant h hr

theorem row_exprs {e : Expr} {es : List Expr} {us vs : List Taken} (he : Expr.Row [e] us)
    (hes : Rows (((Peg.token .comma).andThen (.rule Rule.expr)).Row Rule.Row) es vs) :
    Expr.Row (e :: es) (us ++ vs) := by
  induction hes generalizing e us with
  | nil => rwa [List.append_nil]
  | cons h _ ih =>
    obtain ⟨x, us', hx, rfl, hnext⟩ := row_andThen_token h
    exact .comma he hx (ih hnext)

/-- A call is a name and a list of arguments in parentheses. -/
theorem row_call {x : Lexeme × List Expr} (h : call.Row Rule.Row x ts) :
    ∃ name opening closing us, name.token = .function ∧ name.lexeme = x.1 ∧ opening.token = .paren ∧
      Expr.Row x.2 us ∧ closing.token = .endParen ∧ ts = name :: opening :: (us ++ [closing]) := by
  obtain ⟨_, _, rfl, ⟨d, rfl⟩, hlist⟩ := h
  obtain ⟨opening, _, hopening, rfl, hinner⟩ := row_andThen_token hlist
  obtain ⟨closing, _, hclosing, rfl, hargs⟩ := row_before_token hinner
  obtain ⟨⟨e, es⟩, hes, us, vs, rfl, he, hrest⟩ := hargs
  exact ⟨_, opening, closing, _, rfl, rfl, hopening, hes ▸ row_exprs he hrest, hclosing, rfl⟩

theorem row_factor {x : Operand} (h : factor.Row Rule.Row x ts) : x.Row ts := by
  obtain ⟨l, rfl, d, rfl⟩ | ⟨y, rfl, h⟩ | ⟨l, rfl, d, rfl⟩ | ⟨y, rfl, h⟩ := h
  · exact ⟨Expr.Row.number (t := ⟨.number, l, d⟩) rfl, _, _, rfl, rfl⟩
  · obtain ⟨name, opening, closing, us, hname, hl, hopening, hargs, hclosing, rfl⟩ := row_call h
    refine ⟨?_, _, _, rfl, congrArg Lexeme.pos hl.symm⟩
    have hcall := Expr.Row.call hname hopening hargs hclosing
    rwa [hl] at hcall
  · exact ⟨row_nameNode (t := ⟨.name, l, d⟩) rfl, _, _, rfl, rfl⟩
  · obtain ⟨_, _, rfl, ⟨d, rfl⟩, hinner⟩ := h
    obtain ⟨closing, us, hclosing, rfl, he⟩ := row_before_token hinner
    exact ⟨.parens rfl he hclosing, _, _, rfl, rfl⟩

theorem row_operators {op op' o : Operator}
    (h : ((operator op.token op).choice (operator op'.token op')).Row Rule.Row o ts) :
    ∃ sign, sign.token = o.token ∧ ts = [sign] := by
  obtain ⟨_, rfl, d, rfl⟩ | ⟨_, rfl, d, rfl⟩ := h <;> exact ⟨_, rfl, rfl⟩

/-- Operands with operators between them are written as what they are joined to. -/
theorem row_joinOperands (op op' : Operator) {p : Pattern Operand}
    (hp : ∀ {x ts}, p.Row Rule.Row x ts → Operand.Row x ts) {first : Operand}
    {rest : List (Operator × Operand)} {us vs : List Taken} (hfirst : first.Row us)
    (hrest : Rows ((((operator op.token op).choice (operator op'.token op')).seq p).Row Rule.Row)
      rest vs) :
    (joinOperands first rest).Row (us ++ vs) := by
  obtain ⟨pos, left⟩ := first
  unfold joinOperands
  -- the operand so far takes in one operator and one operand at a time
  induction hrest generalizing left us with
  | nil => rwa [List.append_nil]
  | @cons x rest _ vs hx _ ih =>
    obtain ⟨o, right⟩ := x
    obtain ⟨_, ws, rfl, ho, hright⟩ := hx
    obtain ⟨sign, hsign, rfl⟩ := row_operators ho
    obtain ⟨hleft, t, us, rfl, rfl⟩ := hfirst
    have hbinary : Operand.Row (t.lexeme.pos, .binary t.lexeme.pos o left right.2)
        (t :: (us ++ sign :: ws)) := ⟨.binary hleft hsign (hp hright).1, _, _, rfl, rfl⟩
    simpa using ih _ hbinary

theorem row_term {x : Operand} (h : term.Row Rule.Row x ts) : x.Row ts := by
  obtain ⟨⟨first, rest⟩, rfl, us, vs, rfl, hfirst, hrest⟩ := h
  exact row_joinOperands .multiply .divide row_factor (row_factor hfirst) hrest

theorem row_expr {e : Expr} (h : expr.Row Rule.Row e ts) : Expr.Row [e] ts := by
  obtain ⟨⟨first, rest⟩, rfl, us, vs, rfl, hfirst, hrest⟩ := h
  exact (row_joinOperands .add .subtract row_term (row_term hfirst) hrest).1

end Expressions

section Statements

variable {ts : List Taken}

theorem row_stmts {ss : List Stmt} (h : (Peg.rule Rule.stmt).some.Row Rule.Row ss ts) :
    Stmt.Row ss ts := by
  obtain ⟨s, ss, us, vs, rfl, rfl, hs, hss⟩ := row_some h
  clear h
  induction hss generalizing s us with
  | nil => rwa [List.append_nil]
  | cons h _ ih => exact .next hs (ih _ _ h)

theorem row_assignment {s : Stmt} (h : assignment.Row Rule.Row s ts) : Stmt.Row [s] ts := by
  obtain ⟨⟨name, value⟩, rfl, _, us, rfl, ⟨d, rfl⟩, hrest⟩ := h
  obtain ⟨sign, us, hsign, rfl, hvalue⟩ := row_andThen_token hrest
  refine .assign rfl hsign hvalue ?_
  dsimp only
  split
  · exact .reserved ‹_›
  · exact .free ‹_›

theorem row_step {o : Option Expr} (h : step.option.Row Rule.Row o ts) : StepRow o ts := by
  obtain ⟨rfl, rfl⟩ | ⟨e, rfl, h⟩ := h
  · exact .missing
  · obtain ⟨word, us, hword, rfl, he⟩ := row_andThen_token h
    exact .given hword he

theorem row_block {ss : List Stmt} (h : block.Row Rule.Row ss ts) :
    ∃ brace last us, brace.token = .brace ∧ last.token = .endBrace ∧ Stmt.Row ss us ∧
      ts = brace :: (us ++ [last]) := by
  obtain ⟨brace, _, hbrace, rfl, hinner⟩ := row_andThen_token h
  obtain ⟨last, us, hlast, rfl, hbody⟩ := row_before_token hinner
  exact ⟨brace, last, us, hbrace, hlast, row_stmts hbody, rfl⟩

theorem row_loop {s : Stmt} (h : loop.Row Rule.Row s ts) : Stmt.Row [s] ts := by
  obtain ⟨⟨first, name, start, stop, close, step, body⟩, rfl, _, _, rfl, ⟨d, rfl⟩, _, _, rfl,
    ⟨d', rfl⟩, hrange⟩ := h
  obtain ⟨overWord, _, hover, rfl, hbounds⟩ := row_andThen_token hrange
  obtain ⟨bracket, _, hbracket, rfl, us, _, rfl, hstart, hrest⟩ := row_andThen_token hbounds
  obtain ⟨comma, _, hcomma, rfl, vs, _, rfl, hstop, _, _, rfl, ⟨d'', rfl⟩, ws, _, rfl, hstep,
    hblock⟩ :=
    row_andThen_token hrest
  obtain ⟨brace, last, xs, hbrace, hlast, hbody, rfl⟩ := row_block hblock
  have hclose : (close.text == "]") ↔ close.text = "]" := beq_iff_eq
  refine .loop (by simp [hover, hbracket, hcomma, hbrace, hlast]) hstart hstop hclose
    (row_step hstep) hbody ?_
  dsimp only
  split
  · exact .reserved ‹_›
  · exact .free ‹_›

theorem row_stmt {s : Stmt} (h : stmt.Row Rule.Row s ts) : Stmt.Row [s] ts := by
  obtain h | h | ⟨y, rfl, h⟩ := h
  · exact row_loop h
  · exact row_assignment h
  · obtain ⟨name, opening, closing, us, hname, hl, hopening, hargs, hclosing, rfl⟩ := row_call h
    have hcall := Stmt.Row.call hname hopening hargs hclosing
    rwa [hl] at hcall

end Statements

theorem grammar_row {α : Type} (r : Rule α) {a : α} {ts : List Taken}
    (h : (grammar α r).Row Rule.Row a ts) : r.Row a ts := by
  cases r with
  | expr => exact row_expr h
  | stmt => exact row_stmt h

/-- The tokens that spell statements write them. -/
theorem Spells.row_stmts {ss : List Stmt} {ts : List Taken}
    (h : Spells grammar (Peg.rule Rule.stmt).some ss ts) : Stmt.Row ss ts :=
  Grammar.row_stmts (h.row grammar_row)

end Grammar

end PolarPlot

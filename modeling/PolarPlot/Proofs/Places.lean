import Mathlib.Data.List.Forall2
import PolarPlot.Proofs.Induction
import PolarPlot.Proofs.Phrases

/-!
# Programs at other places

Where the tokens of a text stand decides about the places in the program, and about nothing else.
`relocate` moves the places of a program and `bare` drops them. Rows of tokens that are alike spell
programs that are alike, and if one row spells a program then so does the other
(`Spells.exists_alike`). Likeness is always up to a map of the places on either side.
-/

namespace PolarPlot

/-! ## Moving places -/

mutual

def Expr.relocate (f : Position → Position) : Expr → Expr
  | .var pos name => .var (f pos) name
  | .const pos value => .const (f pos) value
  | .binary pos op left right => .binary (f pos) op (left.relocate f) (right.relocate f)
  | .call pos name args => .call (f pos) name (Expr.relocateAll f args)
  | .misfit what => .misfit what

def Expr.relocateAll (f : Position → Position) : List Expr → List Expr
  | [] => []
  | e :: es => e.relocate f :: Expr.relocateAll f es

end

mutual

def Stmt.relocate (f : Position → Position) : Stmt → Stmt
  | .assign pos name value => .assign (f pos) name (value.relocate f)
  | .call pos e => .call (f pos) (e.relocate f)
  | .loop pos name start stop step inclusive body =>
    .loop (f pos) name (start.relocate f) (stop.relocate f) (step.map (Expr.relocate f)) inclusive
      (Stmt.relocateAll f body)
  | .invalid pos message phase => .invalid (f pos) message phase
  | .misfit what => .misfit what

def Stmt.relocateAll (f : Position → Position) : List Stmt → List Stmt
  | [] => []
  | s :: ss => s.relocate f :: Stmt.relocateAll f ss

end

/-- An expression without its places. -/
def Expr.bare (e : Expr) : Expr := e.relocate fun _ => .unknown

/-- A statement without its places. -/
def Stmt.bare (s : Stmt) : Stmt := s.relocate fun _ => .unknown

@[simp] theorem Expr.relocateAll_eq (f : Position → Position) (es : List Expr) :
    Expr.relocateAll f es = es.map (Expr.relocate f) := by
  induction es with
  | nil => rfl
  | cons e es ih => rw [relocateAll, ih, List.map_cons]

@[simp] theorem Stmt.relocateAll_eq (f : Position → Position) (ss : List Stmt) :
    Stmt.relocateAll f ss = ss.map (Stmt.relocate f) := by
  induction ss with
  | nil => rfl
  | cons s ss ih => rw [relocateAll, ih, List.map_cons]

@[simp] theorem Expr.bare_call (pos : Position) (name : Label) (args : List Expr) :
    (Expr.call pos name args).bare = .call .unknown name (args.map Expr.bare) := by
  simp only [bare, relocate, relocateAll_eq]
  rfl

@[simp] theorem Stmt.bare_assign (pos : Position) (name : Label) (value : Expr) :
    (Stmt.assign pos name value).bare = .assign .unknown name value.bare := rfl

@[simp] theorem Stmt.bare_call (pos : Position) (e : Expr) :
    (Stmt.call pos e).bare = .call .unknown e.bare := rfl

@[simp] theorem Stmt.bare_loop (pos : Position) (name : Label) (start stop : Expr)
    (step : Option Expr) (inclusive : Bool) (body : List Stmt) :
    (Stmt.loop pos name start stop step inclusive body).bare =
      .loop .unknown name start.bare stop.bare
      (step.map Expr.bare) inclusive (body.map Stmt.bare) := by
  simp only [bare, relocate, relocateAll_eq]
  rfl

theorem Expr.relocate_id : Expr.relocate id = id := by
  funext e
  induction e with
  | var | const | misfit => rfl
  | binary _ _ _ _ hl hr => simp [relocate, hl, hr]
  | call _ _ args ih => simpa [relocate] using (List.map_congr_left ih).trans (List.map_id args)

theorem Stmt.relocate_id : Stmt.relocate id = id := by
  funext s
  induction s with
  | assign | call => simp [relocate, Expr.relocate_id]
  | loop _ _ _ _ _ _ body ih =>
    simpa [relocate, Expr.relocate_id] using (List.map_congr_left ih).trans (List.map_id body)
  | invalid | misfit => rfl

namespace Grammar

/-! ## Tokens that are alike -/

variable {R : Type → Type} {grammar : (α : Type) → R α → Peg R α}

/-- The same text, at places that two maps take to one. -/
def Lexeme.Alike (f g : Position → Position) (l l' : Lexeme) : Prop :=
  l.text = l'.text ∧ f l.pos = g l'.pos

def Taken.Alike (f g : Position → Position) (t t' : Taken) : Prop :=
  t.token = t'.token ∧ t.lexeme.Alike f g t'.lexeme

/-- When two values of a parsing expression are alike, from likeness of lexemes and of the values of
rules. -/
def Peg.Alike (lexemes : Lexeme → Lexeme → Prop) (rules : {α : Type} → R α → α → α → Prop) :
    {α : Type} → Peg R α → α → α → Prop
  | _, .token _, l, l' => lexemes l l'
  | _, .rule r, a, a' => rules r a a'
  | _, .seq p q, ab, ab' => p.Alike lexemes rules ab.1 ab'.1 ∧ q.Alike lexemes rules ab.2 ab'.2
  | _, .choice p q, a, a' => p.Alike lexemes rules a a' ∨ q.Alike lexemes rules a a'
  | _, .many p, as, as' => List.Forall₂ (p.Alike lexemes rules) as as'
  | _, .option p, o, o' => Option.Rel (p.Alike lexemes rules) o o'
  | _, .map h p, b, b' => ∃ a a', b = h a ∧ b' = h a' ∧ p.Alike lexemes rules a a'

section

variable {lexemes : Lexeme → Lexeme → Prop} {rules : {α : Type} → R α → α → α → Prop} {α β : Type}
  {p : Peg R α} {q : Peg R β}

theorem alike_of_andThen {b b' : β} (h : (p.andThen q).Alike lexemes rules b b') :
    q.Alike lexemes rules b b' := by
  obtain ⟨_, _, rfl, rfl, _, h⟩ := h
  exact h

theorem alike_of_before {a a' : α} (h : (p.before q).Alike lexemes rules a a') :
    p.Alike lexemes rules a a' := by
  obtain ⟨_, _, rfl, rfl, h, _⟩ := h
  exact h

end

theorem forall₂_append {α β : Type} {r : α → β → Prop} {as as' : List α} {bs : List β}
    (h : List.Forall₂ r (as ++ as') bs) :
    ∃ cs cs', bs = cs ++ cs' ∧ List.Forall₂ r as cs ∧ List.Forall₂ r as' cs' := by
  induction as generalizing bs with
  | nil => exact ⟨[], bs, rfl, .nil, h⟩
  | cons a as ih =>
    cases h with
    | cons hab h =>
      obtain ⟨cs, cs', rfl, hcs, hcs'⟩ := ih h
      exact ⟨_ :: cs, cs', rfl, .cons hab hcs, hcs'⟩

/-- Tokens that are alike spell values that are alike. -/
theorem Spells.exists_alike {f g : Position → Position} {rules : {α : Type} → R α → α → α → Prop}
    (hrules : ∀ {α} (r : R α) {a a' : α},
      (grammar α r).Alike (Lexeme.Alike f g) rules a a' → rules r a a')
    {α : Type} {p : Peg R α} {a : α} {ts ts' : List Taken} (h : Spells grammar p a ts)
    (hts : List.Forall₂ (Taken.Alike f g) ts ts') :
    ∃ a', Spells grammar p a' ts' ∧ p.Alike (Lexeme.Alike f g) rules a a' := by
  induction h generalizing ts' with
  | token =>
    obtain ⟨⟨t', l', d'⟩, _, ⟨rfl, hl⟩, hnil, rfl⟩ := List.forall₂_cons_left_iff.mp hts
    cases hnil
    exact ⟨l', .token, hl⟩
  | rule _ ih =>
    obtain ⟨a', h, ha⟩ := ih hts
    exact ⟨a', .rule h, hrules _ ha⟩
  | seq _ _ ih ih' =>
    obtain ⟨us, vs, rfl, hus, hvs⟩ := forall₂_append hts
    obtain ⟨a', h, ha⟩ := ih hus
    obtain ⟨b', h', hb⟩ := ih' hvs
    exact ⟨(a', b'), .seq h h', ha, hb⟩
  | choiceFirst _ ih =>
    obtain ⟨a', h, ha⟩ := ih hts
    exact ⟨a', .choiceFirst h, .inl ha⟩
  | choiceSecond _ ih =>
    obtain ⟨a', h, ha⟩ := ih hts
    exact ⟨a', .choiceSecond h, .inr ha⟩
  | manyEnd =>
    cases hts
    exact ⟨[], .manyEnd, .nil⟩
  | manyNext _ _ ih ih' =>
    obtain ⟨us, vs, rfl, hus, hvs⟩ := forall₂_append hts
    obtain ⟨a', h, ha⟩ := ih hus
    obtain ⟨as', h', has⟩ := ih' hvs
    exact ⟨a' :: as', .manyNext h h', .cons ha has⟩
  | optionOne _ ih =>
    obtain ⟨a', h, ha⟩ := ih hts
    exact ⟨some a', .optionOne h, .some ha⟩
  | optionNone =>
    cases hts
    exact ⟨none, .optionNone, .none⟩
  | map _ ih =>
    obtain ⟨a', h, ha⟩ := ih hts
    exact ⟨_, .map h, _, a', rfl, rfl, ha⟩

/-! ## Programs that are alike -/

section Programs

variable {f g : Position → Position}

/-- Nodes that two maps of places take to one. -/
def Rule.Alike (f g : Position → Position) : {α : Type} → Rule α → α → α → Prop
  | _, .expr, e, e' => e.relocate f = e'.relocate g
  | _, .stmt, s, s' => s.relocate f = s'.relocate g

def Operand.Alike (f g : Position → Position) (x x' : Operand) : Prop :=
  f x.1 = g x'.1 ∧ x.2.relocate f = x'.2.relocate g

theorem forall₂_map_eq {α β γ : Type} {h : α → γ} {k : β → γ} {as : List α} {bs : List β} :
    List.Forall₂ (fun a b => h a = k b) as bs ↔ as.map h = bs.map k := by
  rw [← List.forall₂_eq_eq_eq, List.forall₂_map_left_iff, List.forall₂_map_right_iff]

theorem joinOperands_alike {first first' : Operand} {rest rest' : List (Operator × Operand)}
    (hfirst : Operand.Alike f g first first')
    (hrest : List.Forall₂ (fun x x' => x.1 = x'.1 ∧ Operand.Alike f g x.2 x'.2) rest rest') :
    Operand.Alike f g (joinOperands first rest) (joinOperands first' rest') := by
  obtain ⟨pos, left⟩ := first
  obtain ⟨pos', left'⟩ := first'
  obtain ⟨hpos, hleft⟩ := hfirst
  refine ⟨hpos, ?_⟩
  unfold joinOperands
  -- the operands so far grow on both sides alike
  generalize hl : (pos, left).2 = l, hl' : (pos', left').2 = l' at hleft
  clear hl hl'
  induction hrest generalizing l l' with
  | nil => exact hleft
  | cons hx _ ih =>
    obtain ⟨hop, _, hright⟩ := hx
    refine ih _ _ ?_
    simp [Expr.relocate, hpos, hop, hleft, hright]

theorem operators_alike {t u : Token} {op op' o o' : Operator}
    (h : ((operator t op).choice (operator u op')).Alike (Lexeme.Alike f g) (Rule.Alike f g) o o') :
    o = o' := by
  obtain ⟨_, _, rfl, rfl, _⟩ | ⟨_, _, rfl, rfl, _⟩ := h <;> rfl

theorem numberNode_alike {l l' : Lexeme} (h : l.Alike f g l') :
    (numberNode l).relocate f = (numberNode l').relocate g := by
  simp [numberNode, Expr.relocate, h.1, h.2]

theorem nameNode_alike {l l' : Lexeme} (h : l.Alike f g l') :
    (nameNode l).relocate f = (nameNode l').relocate g := by
  unfold nameNode
  rw [h.1]
  cases reserved? l'.text <;> simp [Expr.relocate, h.2]

theorem arguments_alike {es es' : List Expr}
    (h : arguments.Alike (Lexeme.Alike f g) (Rule.Alike f g) es es') :
    es.map (Expr.relocate f) = es'.map (Expr.relocate g) := by
  obtain ⟨_, _, rfl, rfl, he, hes⟩ := h
  exact forall₂_map_eq.mp (.cons he (hes.imp fun _ _ h => alike_of_andThen h))

theorem call_alike {x x' : Lexeme × List Expr}
    (h : call.Alike (Lexeme.Alike f g) (Rule.Alike f g) x x') :
    x.1.Alike f g x'.1 ∧ (callNode x.1 x.2).relocate f = (callNode x'.1 x'.2).relocate g := by
  have hname : x.1.Alike f g x'.1 := h.1
  have hargs := arguments_alike (alike_of_before (alike_of_andThen h.2))
  exact ⟨hname, by simp [callNode, Expr.relocate, hname.1, hname.2, hargs]⟩

theorem factor_alike {x x' : Operand} (h : factor.Alike (Lexeme.Alike f g) (Rule.Alike f g) x x') :
    Operand.Alike f g x x' := by
  obtain ⟨l, l', rfl, rfl, hl⟩ | ⟨y, y', rfl, rfl, hy⟩ | ⟨l, l', rfl, rfl, hl⟩ | h := h
  · exact ⟨hl.2, numberNode_alike hl⟩
  · exact ⟨(call_alike hy).1.2, (call_alike hy).2⟩
  · exact ⟨hl.2, nameNode_alike hl⟩
  · obtain ⟨_, _, rfl, rfl, hl, he⟩ := h
    exact ⟨hl.2, alike_of_before he⟩

/-- Operands with operators between them. -/
theorem operands_alike {t u : Token} {op op' : Operator} {p : Pattern Operand}
    (hp : ∀ {x x'}, p.Alike (Lexeme.Alike f g) (Rule.Alike f g) x x' → Operand.Alike f g x x')
    {y y' : Operand × List (Operator × Operand)}
    (h : (p.seq (((operator t op).choice (operator u op')).seq p).many).Alike (Lexeme.Alike f g)
      (Rule.Alike f g) y y') :
    Operand.Alike f g (joinOperands y.1 y.2) (joinOperands y'.1 y'.2) :=
  joinOperands_alike (hp h.1) (h.2.imp fun _ _ hx => ⟨operators_alike hx.1, hp hx.2⟩)

theorem expr_alike {e e' : Expr} (h : expr.Alike (Lexeme.Alike f g) (Rule.Alike f g) e e') :
    e.relocate f = e'.relocate g := by
  have hterm : ∀ {x x'}, term.Alike (Lexeme.Alike f g) (Rule.Alike f g) x x' →
      Operand.Alike f g x x' := by
    rintro _ _ ⟨_, _, rfl, rfl, h⟩
    exact operands_alike factor_alike h
  obtain ⟨_, _, rfl, rfl, h⟩ := h
  exact (operands_alike hterm h).2

theorem stmts_alike {ss ss' : List Stmt}
    (h : (Peg.rule Rule.stmt).some.Alike (Lexeme.Alike f g) (Rule.Alike f g) ss ss') :
    ss.map (Stmt.relocate f) = ss'.map (Stmt.relocate g) := by
  obtain ⟨_, _, rfl, rfl, hs, hss⟩ := h
  exact forall₂_map_eq.mp (.cons hs hss)

theorem assignment_alike {s s' : Stmt}
    (h : assignment.Alike (Lexeme.Alike f g) (Rule.Alike f g) s s') :
    s.relocate f = s'.relocate g := by
  obtain ⟨⟨name, value⟩, ⟨name', value'⟩, rfl, rfl, h⟩ := h
  have hname : name.Alike f g name' := h.1
  have hvalue : value.relocate f = value'.relocate g := alike_of_andThen h.2
  simp only [hname.1]
  cases reserved? name'.text <;> simp [reservedTarget, Stmt.relocate, hname.2, hvalue]

theorem step_alike {o o' : Option Expr}
    (h : step.option.Alike (Lexeme.Alike f g) (Rule.Alike f g) o o') :
    o.map (Expr.relocate f) = o'.map (Expr.relocate g) := by
  cases h with
  | none => rfl
  | some h => exact congrArg some (alike_of_andThen h)

theorem loop_alike {s s' : Stmt} (h : loop.Alike (Lexeme.Alike f g) (Rule.Alike f g) s s') :
    s.relocate f = s'.relocate g := by
  obtain ⟨⟨first, name, start, stop, close, step, body⟩,
    ⟨first', name', start', stop', close', step', body'⟩, rfl, rfl, h⟩ := h
  have hfirst : f first.pos = g first'.pos := h.1.2
  have hname : name.text = name'.text := h.2.1.1
  have hrange := alike_of_andThen (alike_of_andThen h.2.2)
  have hstart : start.relocate f = start'.relocate g := hrange.1
  have hrest := alike_of_andThen hrange.2
  have hstop : stop.relocate f = stop'.relocate g := hrest.1
  have hclose : close.text = close'.text := hrest.2.1.1
  have hstep := step_alike hrest.2.2.1
  have hbody := stmts_alike (alike_of_before (alike_of_andThen hrest.2.2.2))
  simp only [hname, hclose] at hstep hbody ⊢
  cases reserved? name'.text <;>
    simp [reservedTarget, Stmt.relocate, hfirst, hstart, hstop, hstep, hbody]

theorem stmt_alike {s s' : Stmt} (h : stmt.Alike (Lexeme.Alike f g) (Rule.Alike f g) s s') :
    s.relocate f = s'.relocate g := by
  obtain h | h | ⟨_, _, rfl, rfl, h⟩ := h
  · exact loop_alike h
  · exact assignment_alike h
  · obtain ⟨hname, hcall⟩ := call_alike h
    simp [Stmt.relocate, hname.2, hcall]

theorem grammar_alike {α : Type} (r : Rule α) {a a' : α}
    (h : (Grammar.grammar α r).Alike (Lexeme.Alike f g) (Rule.Alike f g) a a') :
    r.Alike f g a a' := by
  cases r with
  | expr => exact expr_alike h
  | stmt => exact stmt_alike h

/-- If a row of tokens spells statements, then one that is alike spells statements that are
alike. -/
theorem Spells.exists_stmts_alike {ss : List Stmt} {ts ts' : List Taken}
    (h : Spells Grammar.grammar (Peg.rule Rule.stmt).some ss ts)
    (hts : List.Forall₂ (Taken.Alike f g) ts ts') :
    ∃ ss', Spells Grammar.grammar (Peg.rule Rule.stmt).some ss' ts' ∧
      ss.map (Stmt.relocate f) = ss'.map (Stmt.relocate g) := by
  obtain ⟨ss', hss', h⟩ := h.exists_alike grammar_alike hts
  exact ⟨ss', hss', stmts_alike h⟩

end Programs

end Grammar

end PolarPlot

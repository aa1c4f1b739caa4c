import PolarPlot.Proofs.Pieces
import PolarPlot.Proofs.Places
import PolarPlot.Syntax.Printer

/-!
# Printing and parsing

The text of a program is parsed to the program again, if its names are names, its functions have
arguments, its loops have bodies and its numbers can be written with six digits (`Stmt.Readable`,
`parse_texts`). The text of each node is laid out in pieces that spell the node without its places
(`Writes`); the pieces of a node are put together from those of its parts.
-/

namespace PolarPlot

open Number Grammar

theorem Expr.texts_eq (es : List Expr) : Expr.texts es = es.map Expr.text := by
  induction es with
  | nil => rfl
  | cons e es ih => rw [Expr.texts, ih, List.map_cons]

theorem Stmt.texts_eq (ss : List Stmt) : Stmt.texts ss = ss.map Stmt.text := by
  induction ss with
  | nil => rfl
  | cons s ss ih => rw [Stmt.texts, ih, List.map_cons]

theorem Stmt.text_assign (pos : Position) (name : Label) (value : Expr) :
    (Stmt.assign pos name value).text = name.text ++ " = " ++ value.text := rfl

theorem Stmt.text_call (pos : Position) (e : Expr) : (Stmt.call pos e).text = e.text := rfl

theorem Stmt.text_loop (pos : Position) (name : Label) (start stop : Expr) (step : Option Expr)
    (inclusive : Bool) (body : List Stmt) :
    (Stmt.loop pos name start stop step inclusive body).text =
      "for " ++ name.text ++ " over [" ++ start.text ++ ", " ++ stop.text ++ rangeEnd inclusive ++
        (step.elim "" fun e => " by " ++ e.text) ++ " \x7b " ++ " ".intercalate (Stmt.texts body) ++
        " \x7d" := by
  cases step <;> rfl

namespace Grammar

/-! ## Writing -/

/-- The token of a piece without a place. -/
def Piece.bare (p : Piece) : Taken :=
  ⟨p.token, ⟨String.ofList p.word, .unknown⟩, Cursor.start "" []⟩

/-- A text is laid out in pieces that spell a value, where what comes after it is `ok`. -/
def Writes (ok : List Char → Prop) {α : Type} (p : Pattern α) (a : α) (text : List Char) : Prop :=
  ∃ ps, joined ps = text ∧ (∀ rest, ok rest → Laid ps rest) ∧ Spells grammar p a (ps.map Piece.bare)

theorem ends_mark (ch : Char) (h : ch ∈ ['(', ')', ',', ']']) (cs : List Char) :
    Ends (ch :: cs) := by
  rintro t _ ⟨⟩
  simp only [List.mem_cons, List.not_mem_nil, or_false] at h
  obtain rfl | rfl | rfl | rfl := h <;> exact ⟨by cases t <;> rfl, fun _ => by decide⟩

theorem ok_flatMap {ok : List Char → Prop} {α : Type} {xs : List α} {text : α → List Char}
    {rest : List Char} (h : ∀ x cs, ok (text x ++ cs)) (hrest : ok rest) :
    ok (xs.flatMap text ++ rest) := by
  cases xs with
  | nil => exact hrest
  | cons x xs =>
    rw [List.flatMap_cons, List.append_assoc]
    exact h x _

/-- Only words, numbers and slashes mind what comes after them. -/
theorem Token.stops_of_fixed? {t : Token} {w : List Char} (h : t.fixed? = some w) (ht : t ≠ .divide)
    (rest : List Char) : t.Stops rest := by
  intro y _
  cases t with
  | divide => exact absurd rfl ht
  | number | name | function | rangeEnd | eof => cases h
  | _ => exact ⟨rfl, nofun⟩

theorem Token.isText_of_fixed? {t : Token} {w : List Char} (h : t.fixed? = some w) :
    t ≠ .eof ∧ t.IsText w := by
  cases t with
  | number | name | function | rangeEnd | eof => cases h
  | _ => exact ⟨nofun, h⟩

namespace Writes

variable {ok ok' : List Char → Prop} {α β : Type} {p : Pattern α} {q : Pattern β} {a : α} {b : β}
  {x y : List Char}

theorem token {t : Token} {w : List Char} (ht : t ≠ .eof) (hw : t.IsText w) :
    Writes t.Stops (.token t) ⟨String.ofList w, .unknown⟩ w :=
  ⟨[⟨t, [], w⟩], by simp [Piece.text], fun _ h => ⟨⟨ht, .nil, hw, h⟩, trivial⟩, .token⟩

theorem mono (h : Writes ok p a x) (hok : ∀ rest, ok' rest → ok rest) : Writes ok' p a x := by
  obtain ⟨ps, hx, hps, hs⟩ := h
  exact ⟨ps, hx, fun rest hr => hps rest (hok rest hr), hs⟩

theorem filler (h : Writes ok p a x) (hp : (p.outline Rule.outline).empty = false) {xs : List Char}
    (hxs : Filler xs) : Writes ok p a (xs ++ x) := by
  obtain ⟨ps, rfl, hps, hs⟩ := h
  cases ps with
  | nil =>
    have hempty := (hs.fits grammar_outline).empty rfl
    simp [hp] at hempty
  | cons q ps =>
    refine ⟨{ q with space := xs ++ q.space } :: ps, by simp [Piece.text], fun rest hr => ?_, hs⟩
    obtain ⟨hq, hps⟩ := hps rest hr
    exact ⟨{ hq with space := hxs.append hq.space }, hps⟩

theorem space (h : Writes ok p a x) (hp : (p.outline Rule.outline).empty = false) (ch : Char)
    (hch : isLayout ch) : Writes ok p a (ch :: x) :=
  h.filler hp (.blank hch .nil)

theorem rule {r : Rule α} (h : Writes ok (grammar α r) a x) : Writes ok (.rule r) a x := by
  obtain ⟨ps, hx, hps, hs⟩ := h
  exact ⟨ps, hx, hps, .rule hs⟩

theorem map {f : α → β} (h : Writes ok p a x) : Writes ok (p.map f) (f a) x := by
  obtain ⟨ps, hx, hps, hs⟩ := h
  exact ⟨ps, hx, hps, .map hs⟩

theorem choiceFirst {q : Pattern α} (h : Writes ok p a x) : Writes ok (p.choice q) a x := by
  obtain ⟨ps, hx, hps, hs⟩ := h
  exact ⟨ps, hx, hps, .choiceFirst hs⟩

theorem choiceSecond {q : Pattern α} (h : Writes ok q a x) : Writes ok (p.choice q) a x := by
  obtain ⟨ps, hx, hps, hs⟩ := h
  exact ⟨ps, hx, hps, .choiceSecond hs⟩

theorem seq (hp : Writes ok p a x) (hq : Writes ok' q b y) (h : ∀ rest, ok' rest → ok (y ++ rest)) :
    Writes ok' (p.seq q) (a, b) (x ++ y) := by
  obtain ⟨ps, rfl, hps, hs⟩ := hp
  obtain ⟨qs, rfl, hqs, hs'⟩ := hq
  refine ⟨ps ++ qs, joined_append .., fun rest hr => ?_, ?_⟩
  · exact laid_append.mpr ⟨hps _ (h rest hr), hqs rest hr⟩
  · rw [List.map_append]
    exact .seq hs hs'

theorem manyEnd : Writes ok p.many [] [] := ⟨[], rfl, fun _ _ => trivial, .manyEnd⟩

theorem manyNext {as : List α} (hp : Writes ok p a x) (hq : Writes ok' p.many as y)
    (h : ∀ rest, ok' rest → ok (y ++ rest)) : Writes ok' p.many (a :: as) (x ++ y) := by
  obtain ⟨ps, rfl, hps, hs⟩ := hp
  obtain ⟨qs, rfl, hqs, hs'⟩ := hq
  refine ⟨ps ++ qs, joined_append .., fun rest hr => ?_, ?_⟩
  · exact laid_append.mpr ⟨hps _ (h rest hr), hqs rest hr⟩
  · rw [List.map_append]
    exact .manyNext hs hs'

theorem seqNil (h : Writes ok p a x) : Writes ok (p.seq q.many) (a, []) x := by
  have hnil : Writes ok q.many [] [] := manyEnd
  simpa using h.seq hnil fun _ hr => hr

theorem optionNone : Writes ok p.option none [] := ⟨[], rfl, fun _ _ => trivial, .optionNone⟩

theorem optionOne (h : Writes ok p a x) : Writes ok p.option (some a) x := by
  obtain ⟨ps, hx, hps, hs⟩ := h
  exact ⟨ps, hx, hps, .optionOne hs⟩

/-- One after the other, each with something before it that ends the one before. -/
theorem manyOf {γ : Type} {xs : List γ} {g : γ → α} {text : γ → List Char}
    (h : ∀ c ∈ xs, Writes ok p (g c) (text c)) (hok : ∀ c cs, ok (text c ++ cs)) :
    Writes ok p.many (xs.map g) (xs.flatMap text) := by
  induction xs with
  | nil => exact manyEnd
  | cons c xs ih =>
    rw [List.map_cons, List.flatMap_cons]
    refine manyNext (h c (.head _)) (ih fun d hd => h d (.tail _ hd)) fun rest hr => ?_
    exact ok_flatMap hok hr

theorem fixed (t : Token) {w : List Char} (h : t.fixed? = some w) (ht : t ≠ .divide) :
    Writes ok (.token t) ⟨String.ofList w, .unknown⟩ w :=
  (token (Token.isText_of_fixed? h).1 (Token.isText_of_fixed? h).2).mono
    fun rest _ => Token.stops_of_fixed? h ht rest

/-- A fixed token, and then something else. -/
theorem fixedThen (t : Token) {w : List Char} (h : t.fixed? = some w) (ht : t ≠ .divide)
    (hq : Writes ok q b y) : Writes ok ((Peg.token t).andThen q) b (w ++ y) := by
  have htoken : Writes (fun _ => True) (.token t) _ w := fixed t h ht
  exact .map (.seq htoken hq fun _ _ => trivial)

theorem thenFixed (t : Token) {w : List Char} (h : t.fixed? = some w) (ht : t ≠ .divide)
    (hp : Writes Ends p a x) (hw : ∀ cs, Ends (w ++ cs)) :
    Writes ok (p.before (.token t)) a (x ++ w) :=
  .map (.seq hp (fixed t h ht) fun rest _ => hw rest)

end Writes

/-! ## Expressions -/

section Expressions

variable {ok : List Char → Prop} {e l r : Expr} {x y : List Char}

theorem writes_parenthesized (h : Writes Ends (.rule Rule.expr) e x) :
    Writes ok factor (.unknown, e) ('(' :: (x ++ [')'])) := by
  have hparen : Writes (fun _ => True) (.token .paren) _ ['('] := .fixed .paren rfl (by simp)
  have hrest : Writes ok ((Peg.rule Rule.expr).before (.token .endParen)) e (x ++ [')']) :=
    .thenFixed .endParen rfl (by simp) h fun cs => ends_mark ')' (by simp) cs
  exact .choiceSecond (.choiceSecond (.choiceSecond (.map (hparen.seq hrest fun _ _ => trivial))))

theorem writes_term (h : Writes ok factor (.unknown, e) x) : Writes ok term (.unknown, e) x := by
  have hterm : Writes ok term _ x := .map h.seqNil
  exact hterm

theorem writes_expr (h : Writes ok term (.unknown, e) x) : Writes ok (.rule Rule.expr) e x := by
  have hexpr : Writes ok expr _ x := .map h.seqNil
  exact .rule hexpr

theorem writes_operator (t : Token) (op : Operator) {w : List Char} (h : t.fixed? = some w) :
    Writes Ends (operator t op) op w :=
  .map (f := fun _ => op)
    ((Writes.token (Token.isText_of_fixed? h).1 (Token.isText_of_fixed? h).2).mono fun _ hr => hr t)

/-- Two operands in parentheses, and an operator between them. -/
theorem writes_operation {p : Pattern Operand} {t u : Token} {op op₁ op₂ : Operator} {ch : Char}
    (hop : Writes Ends ((operator t op₁).choice (operator u op₂)) op [ch])
    (hp : (p.outline Rule.outline).empty = false)
    (hl : Writes Ends p (.unknown, l) ('(' :: (x ++ [')'])))
    (hr : Writes Ends p (.unknown, r) ('(' :: (y ++ [')']))) :
    Writes Ends (p.seq (((operator t op₁).choice (operator u op₂)).seq p).many)
      ((.unknown, l), [(op, (.unknown, r))])
      ('(' :: (x ++ ')' :: ' ' :: ch :: ' ' :: '(' :: (y ++ [')']))) := by
  have hpair := (hop.space rfl ' ' rfl).seq (hr.space hp ' ' rfl) fun rest _ => ends_layout rfl _
  have hmany : Writes Ends (Peg.seq _ p).many [(op, (.unknown, r))] _ :=
    hpair.manyNext .manyEnd fun rest hr => by simpa using hr
  simpa using hl.seq hmany fun rest _ => ends_layout rfl _

theorem writes_binary (op : Operator) (hl : Writes Ends (.rule Rule.expr) l x)
    (hr : Writes Ends (.rule Rule.expr) r y) :
    Writes Ends (.rule Rule.expr) (.binary .unknown op l r)
      ('(' :: (x ++ ')' :: ' ' :: (op.symbol.toList ++ ' ' :: '(' :: (y ++ [')'])))) := by
  have hl : Writes Ends factor (.unknown, l) _ := writes_parenthesized hl
  have hr : Writes Ends factor (.unknown, r) _ := writes_parenthesized hr
  cases op with
  | add =>
    have hexpr : Writes Ends expr _ _ := .map (writes_operation
      (.choiceFirst (writes_operator .add .add rfl)) rfl (writes_term hl) (writes_term hr))
    exact .rule hexpr
  | subtract =>
    have hexpr : Writes Ends expr _ _ := .map (writes_operation
      (.choiceSecond (writes_operator .subtract .subtract rfl)) rfl (writes_term hl)
      (writes_term hr))
    exact .rule hexpr
  | multiply =>
    have hterm : Writes Ends term _ _ := .map (writes_operation
      (.choiceFirst (writes_operator .multiply .multiply rfl)) rfl hl hr)
    exact writes_expr hterm
  | divide =>
    have hterm : Writes Ends term _ _ := .map (writes_operation
      (.choiceSecond (writes_operator .divide .divide rfl)) rfl hl hr)
    exact writes_expr hterm

theorem toList_intercalate_cons (sep s : String) (ss : List String) :
    (sep.intercalate (s :: ss)).toList =
      s.toList ++ ss.flatMap fun t => sep.toList ++ t.toList := by
  induction ss generalizing s with
  | nil => simp
  | cons t ss ih => simp [String.intercalate_cons_cons, ih]

theorem writes_arguments {es : List Expr} (hes : es ≠ [])
    (h : ∀ e ∈ es, Writes Ends (.rule Rule.expr) e.bare e.text.toList) :
    Writes Ends arguments (es.map Expr.bare) (", ".intercalate (Expr.texts es)).toList := by
  obtain ⟨e, es, rfl⟩ := List.exists_cons_of_ne_nil hes
  have hends : ∀ (e : Expr) cs, Ends (',' :: ' ' :: e.text.toList ++ cs) :=
    fun e cs => ends_mark ',' (by simp) _
  have hmany : Writes Ends ((Peg.token .comma).andThen (.rule Rule.expr)).many (es.map Expr.bare)
      (es.flatMap fun e => ',' :: ' ' :: e.text.toList) :=
    .manyOf (fun e he => .fixedThen .comma rfl (by simp) ((h e (.tail _ he)).space rfl ' ' rfl))
      hends
  have hargs : Writes Ends arguments _ _ :=
    .map ((h e (.head _)).seq hmany fun rest hr => ok_flatMap hends hr)
  rw [Expr.texts, toList_intercalate_cons, Expr.texts_eq, List.flatMap_map]
  exact hargs

theorem writes_call {name : List Char} (hname : Token.function.IsText name) {args : List Expr}
    (hargs : Writes Ends arguments args x) :
    Writes ok call (⟨String.ofList name, .unknown⟩, args) (name ++ '(' :: (x ++ [')'])) := by
  have hrest : Writes ok ((Peg.token .paren).andThen (arguments.before (.token .endParen))) args
      ('(' :: (x ++ [')'])) :=
    .fixedThen .paren rfl (by simp)
      (.thenFixed .endParen rfl (by simp) hargs fun cs => ends_mark ')' (by simp) cs)
  exact (Writes.token (by simp) hname).seq hrest fun rest _ => ends_mark '(' (by simp) _ _

end Expressions

end Grammar

/-- A token takes a text as a whole. -/
def Grammar.Token.Matches (t : Token) (s : String) : Prop :=
  t.length? s.toList = some s.toList.length

theorem Grammar.Token.Matches.isText {t : Token} {s : String} (h : t.Matches s) (ht : t ≠ .eof) :
    t.IsText s.toList := (isText_iff ht).mpr h

theorem Grammar.Token.Matches.writes {t : Token} {s : String} (h : t.Matches s) (ht : t ≠ .eof) :
    Writes Ends (.token t) ⟨s, .unknown⟩ s.toList := by
  have htoken := Writes.token ht (h.isText ht)
  rw [String.ofList_toList] at htoken
  exact htoken.mono fun rest hr => hr t

/-- A name that a variable can have. -/
structure IsVariable (name : String) : Prop where
  whole : Token.name.Matches name
  free : reserved? name = none

/-- An expression whose text can be read: it has the names of variables and functions where they
belong, calls have arguments, and constants are what six digits of them read as. -/
inductive Expr.Readable : Expr → Prop where
  | var {pos : Position} {name : String} : IsVariable name → Readable (.var pos name)
  | const {pos : Position} {value : Float} : Token.number.Matches (generalText value) →
      (Decimal.ofNumeral (generalText value).toList).toFloat = value → Readable (.const pos value)
  | binary {pos : Position} {op : Operator} {left right : Expr} : Readable left → Readable right →
      Readable (.binary pos op left right)
  | call {pos : Position} {name : String} {args : List Expr} : Token.function.Matches name →
      args ≠ [] → (∀ e ∈ args, Readable e) → Readable (.call pos name args)

/-- A statement whose text can be read. The bodies of loops have statements. -/
inductive Stmt.Readable : Stmt → Prop where
  | assign {pos : Position} {name : String} {value : Expr} : IsVariable name → value.Readable →
      Readable (.assign pos name value)
  | call {pos pos' : Position} {name : Label} {args : List Expr} :
      (Expr.call pos' name args).Readable → Readable (.call pos (.call pos' name args))
  | loop {pos : Position} {name : String} {start stop : Expr} {step : Option Expr}
      {inclusive : Bool} {body : List Stmt} : IsVariable name → start.Readable → stop.Readable →
      (∀ e ∈ step, e.Readable) → body ≠ [] → (∀ s ∈ body, Readable s) →
      Readable (.loop pos name start stop step inclusive body)

theorem Expr.Readable.writes {e : Expr} (h : e.Readable) :
    Writes Ends (.rule Rule.expr) e.bare e.text.toList := by
  induction h with
  | @var _ name h =>
    have hfactor : Writes Ends factor _ _ :=
      .choiceSecond (.choiceSecond (.choiceFirst (.map (h.whole.writes (by simp)))))
    simp only [nameNode, h.free] at hfactor
    exact writes_expr (writes_term hfactor)
  | @const _ value h hvalue =>
    have hfactor : Writes Ends factor _ _ := .choiceFirst (.map (h.writes (by simp)))
    simp only [numberNode, hvalue] at hfactor
    exact writes_expr (writes_term hfactor)
  | @binary _ op left right _ _ hl hr =>
    have hbinary := writes_binary op hl hr
    simpa [Expr.bare, Expr.relocate, Expr.text] using hbinary
  | @call _ name args h hargs _ ih =>
    have hcall : Writes Ends Grammar.call _ _ :=
      writes_call (h.isText (by simp)) (writes_arguments hargs ih)
    have hfactor : Writes Ends factor _ _ := .choiceSecond (.choiceFirst (.map hcall))
    rw [String.ofList_toList] at hfactor
    simpa [callNode, Expr.text, Label.text] using writes_expr (writes_term hfactor)

/-! ## Statements -/

namespace Grammar

/-- Statements with a blank between them. -/
theorem writes_stmts {ss : List Stmt} (hss : ss ≠ []) (sep : Char) (hsep : isLayout sep)
    (h : ∀ s ∈ ss, Writes Ends (.rule Rule.stmt) s.bare s.text.toList) :
    Writes Ends (Peg.rule Rule.stmt).some (ss.map Stmt.bare)
      ((String.singleton sep).intercalate (Stmt.texts ss)).toList := by
  obtain ⟨s, ss, rfl⟩ := List.exists_cons_of_ne_nil hss
  have hends : ∀ (s : Stmt) cs, Ends (sep :: s.text.toList ++ cs) := fun s cs => ends_layout hsep _
  have hmany : Writes Ends (Peg.rule Rule.stmt).many (ss.map Stmt.bare)
      (ss.flatMap fun s => sep :: s.text.toList) :=
    .manyOf (fun s hs => (h s (.tail _ hs)).space rfl sep hsep) hends
  have hsome : Writes Ends (Peg.rule Rule.stmt).some _ _ :=
    .map ((h s (.head _)).seq hmany fun rest hr => ok_flatMap hends hr)
  rw [Stmt.texts, toList_intercalate_cons, Stmt.texts_eq, List.flatMap_map]
  simpa using hsome

theorem writes_step {step : Option Expr}
    (h : ∀ e ∈ step, Writes Ends (.rule Rule.expr) e.bare e.text.toList) :
    Writes Ends Grammar.step.option (step.map Expr.bare)
      (step.elim [] fun e => ' ' :: 'b' :: 'y' :: ' ' :: e.text.toList) := by
  cases step with
  | none => exact .optionNone
  | some e =>
    have hstep : Writes Ends Grammar.step e.bare ('b' :: 'y' :: ' ' :: e.text.toList) :=
      .fixedThen .wordBy rfl (by simp) ((h e rfl).space rfl ' ' rfl)
    exact (hstep.space rfl ' ' rfl).optionOne

theorem writes_block {ss : List Stmt} {x : List Char}
    (h : Writes Ends (Peg.rule Rule.stmt).some ss x) :
    Writes Ends block ss ('{' :: ' ' :: (x ++ [' ', '}'])) := by
  have hclose : Writes Ends (.token .endBrace) _ _ := .fixed .endBrace rfl (by simp)
  have hbody : Writes Ends ((Peg.rule Rule.stmt).some.before (.token .endBrace)) ss _ :=
    .map (h.seq (hclose.space rfl ' ' rfl) fun rest _ => ends_layout rfl _)
  exact .fixedThen .brace rfl (by simp) (hbody.space rfl ' ' rfl)

theorem writes_rangeEnd (inclusive : Bool) :
    Writes (fun _ => True) (.token .rangeEnd) ⟨rangeEnd inclusive, .unknown⟩
      (rangeEnd inclusive).toList := by
  have htext : Token.rangeEnd.IsText (rangeEnd inclusive).toList := by
    cases inclusive
    · exact .inr rfl
    · exact .inl rfl
  have htoken := Writes.token (by simp) htext
  rw [String.ofList_toList] at htoken
  exact htoken.mono fun rest _ y _ => ⟨rfl, nofun⟩

theorem ends_rangeEnd (inclusive : Bool) (cs : List Char) :
    Ends ((rangeEnd inclusive).toList ++ cs) := by
  cases inclusive with
  | false => exact ends_mark ')' (by simp) cs
  | true => exact ends_mark ']' (by simp) cs

end Grammar

theorem Stmt.Readable.writes {s : Stmt} (h : s.Readable) :
    Writes Ends (.rule Rule.stmt) s.bare s.text.toList := by
  induction h with
  | @assign _ name value h hvalue =>
    have hassign : Writes Ends ((Peg.token .assign).andThen (.rule Rule.expr)) value.bare _ :=
      .fixedThen .assign rfl (by simp) (hvalue.writes.space rfl ' ' rfl)
    have hstmt : Writes Ends assignment _ _ := .map ((h.whole.writes (by simp)).seq
      (hassign.space rfl ' ' rfl) fun rest _ => ends_layout rfl _)
    have hrule : Writes Ends (.rule Rule.stmt) _ _ := .rule (.choiceSecond (.choiceFirst hstmt))
    simpa [h.free, Stmt.text_assign, Label.text] using hrule
  | @call _ _ name args h =>
    cases h with
    | @call _ name _ hname hargs h =>
      have hcall : Writes Ends Grammar.call _ _ :=
        writes_call (hname.isText (by simp)) (writes_arguments hargs fun e he => (h e he).writes)
      have hstmt : Writes Ends callStatement _ _ := .map hcall
      have hrule : Writes Ends (.rule Rule.stmt) _ _ := .rule (.choiceSecond (.choiceSecond hstmt))
      rw [String.ofList_toList] at hrule
      simpa [callNode, Stmt.text_call, Expr.text, Label.text] using hrule
  | @loop _ name start stop step inclusive body h hstart hstop hstep hbody _ ih =>
    -- From the end of the loop to its start, as the sequence is nested to the right.
    have hblock := writes_block (writes_stmts hbody ' ' rfl ih)
    have htail := (writes_step fun e he => (hstep e he).writes).seq (hblock.space rfl ' ' rfl)
      fun rest _ => ends_layout rfl _
    have hclose := (writes_rangeEnd inclusive).seq htail fun _ _ => trivial
    have hstop := hstop.writes.seq hclose fun rest _ => by
      rw [List.append_assoc]
      exact ends_rangeEnd inclusive _
    have hcomma := Writes.fixedThen .comma rfl (by simp) (hstop.space rfl ' ' rfl)
    have hstart := hstart.writes.seq hcomma fun rest _ => ends_mark ',' (by simp) _
    have hbracket := Writes.fixedThen .bracket rfl (by simp) hstart
    have hover := Writes.fixedThen .wordOver rfl (by simp) (hbracket.space rfl ' ' rfl)
    have hname := (h.whole.writes (by simp)).seq (hover.space rfl ' ' rfl)
      fun rest _ => ends_layout rfl _
    have hfor : Writes (fun _ => True) (.token .wordFor) _ _ := .fixed .wordFor rfl (by simp)
    have hloop : Writes Ends Grammar.loop _ _ :=
      .map (hfor.seq (hname.space rfl ' ' rfl) fun _ _ => trivial)
    have hrule : Writes Ends (.rule Rule.stmt) _ _ := .rule (.choiceFirst hloop)
    have hinclusive : (rangeEnd inclusive == "]") = inclusive := by cases inclusive <;> decide
    have hstep : (step.elim "" fun e => " by " ++ e.text).toList =
        step.elim [] fun e => ' ' :: 'b' :: 'y' :: ' ' :: e.text.toList := by
      cases step <;> simp
    simpa [h.free, hinclusive, Stmt.text_loop, Label.text, hstep] using hrule

/-! ## Programs -/

theorem Grammar.bare_alike_taken (ps : List Piece) (c : Cursor) :
    List.Forall₂ (Taken.Alike id fun _ => .unknown) (ps.map Piece.bare) (taken c ps) := by
  induction ps generalizing c with
  | nil => exact .nil
  | cons p ps ih => exact .cons ⟨rfl, rfl, rfl⟩ (ih _)

/-- Parsing the texts of statements, with a blank between each two of them, gives the statements
back, at other places. -/
theorem parse_texts {origin : String} {ss : List Stmt} (hss : ss ≠ []) (h : ∀ s ∈ ss, s.Readable)
    {sep : Char} (hsep : isLayout sep) :
    ∃ ss', parse origin ((String.singleton sep).intercalate (ss.map Stmt.text)) = .ok ss' ∧
      ss'.map Stmt.bare = ss.map Stmt.bare := by
  obtain ⟨ps, hjoined, hps, hs⟩ := writes_stmts hss sep hsep fun s hs => (h s hs).writes
  rw [← Stmt.texts_eq]
  obtain ⟨ss', hs', he⟩ := hs.exists_stmts_alike (bare_alike_taken ps _)
  refine ⟨ss', parse_eq_ok_iff_laid.mpr ⟨ps, [], ?_, hps [] (nofun : Ends []), trailing_nil, hs'⟩,
    ?_⟩
  · rw [List.append_nil, hjoined]
  · rw [Stmt.relocate_id, List.map_id] at he
    exact he.symm

/-- A program whose names are the words of a loop or start like one, with signs before its
numbers. -/
def keywordProgram : List Stmt :=
  [.assign .unknown "for" (.var .unknown "forover"),
    .loop .unknown "over" (.const .unknown (-0.5))
      (.binary .unknown .divide (.var .unknown "by") (.const .unknown 2))
      (some (.call .unknown "for" [.var .unknown "pie", .const .unknown (-1)])) false
      [.call .unknown (.call .unknown "over" [.var .unknown "α"])]]

theorem exists_parse_keywordProgram : (∀ s ∈ keywordProgram, s.Readable) ∧
    ∃ ss, parse "" ((String.singleton '\t').intercalate (keywordProgram.map Stmt.text)) = .ok ss ∧
      ss.map Stmt.bare = keywordProgram.map Stmt.bare := by
  have hhalf : (Expr.const .unknown (-0.5)).Readable :=
    .const (by unfold Token.Matches; decide +kernel) (by decide +kernel)
  have htwo : (Expr.const .unknown 2).Readable :=
    .const (by unfold Token.Matches; decide +kernel) (by decide +kernel)
  have hone : (Expr.const .unknown (-1)).Readable :=
    .const (by unfold Token.Matches; decide +kernel) (by decide +kernel)
  have hstep : (Expr.call .unknown "for" [.var .unknown "pie", .const .unknown (-1)]).Readable := by
    refine .call rfl (by simp) fun e he => ?_
    simp only [List.mem_cons, List.not_mem_nil, or_false] at he
    obtain rfl | rfl := he
    · exact .var ⟨rfl, rfl⟩
    · exact hone
  have hbody : (Stmt.call .unknown (.call .unknown "over" [.var .unknown "α"])).Readable := by
    refine .call (.call rfl (by simp) fun e he => ?_)
    obtain rfl := List.mem_singleton.mp he
    exact .var ⟨rfl, rfl⟩
  have hall : ∀ s ∈ keywordProgram, s.Readable := by
    intro s hs
    simp only [keywordProgram, List.mem_cons, List.not_mem_nil, or_false] at hs
    obtain rfl | rfl := hs
    · exact .assign ⟨rfl, rfl⟩ (.var ⟨rfl, rfl⟩)
    · refine .loop ⟨rfl, rfl⟩ hhalf (.binary (.var ⟨rfl, rfl⟩) htwo) ?_ (by simp) fun s hs => ?_
      · rintro _ ⟨⟩
        exact hstep
      · obtain rfl := List.mem_singleton.mp hs
        exact hbody
  exact ⟨hall, parse_texts (by simp [keywordProgram]) hall rfl⟩

end PolarPlot

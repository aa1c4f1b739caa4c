import PolarPlot.Proofs.Printing
import PolarPlot.Proofs.Wording

/-!
# Reading through syntax trees

A program can be read in two passes. The first one only says which rule took which tokens: it gives
a `SyntaxTree`, by a grammar with a rule for each part of a program (`trees`). The second one
(`SyntaxTree.visit`) builds nodes from the leaves up; it knows what a child is by its sort alone,
and so it has to give up where it does not find what it looks for (`Fault`). On the trees of
programs it never gives up, and it builds what is read in one pass (`Derives.exists_tree`). Both
grammars are compared at every place of a text, for what they take and for where they fail
(`Mirrors`).
-/

namespace PolarPlot.Grammar

/-! ## Trees -/

/-- The parts of a program that have a node in its syntax tree. -/
inductive Part where
  | program
  | statement
  | assignment
  | callStatement
  | loop
  | step
  | block
  | expr
  | term
  | factor
  | parenthesized
  | call
  | arguments
  | name
  deriving DecidableEq, Repr

inductive SyntaxTree where
  | leaf (token : Token) (lexeme : Lexeme)
  | node (part : Part) (children : List SyntaxTree)

mutual

/-- The place of the first leaf. -/
def SyntaxTree.pos : SyntaxTree → Position
  | .leaf _ l => l.pos
  | .node _ children => SyntaxTree.posAll children

def SyntaxTree.posAll : List SyntaxTree → Position
  | [] => .unknown
  | t :: _ => t.pos

end

inductive TreeRule : Type → Type where
  | part (p : Part) : TreeRule SyntaxTree

/-- A parsing expression for some of the children of a node. -/
abbrev Branch : Type 1 := Peg TreeRule (List SyntaxTree)

namespace Branch

def leaf (t : Token) : Branch := (Peg.token t).map fun l => [.leaf t l]

def node (p : Part) : Branch := (Peg.rule (.part p)).map fun t => [t]

def andThen (p q : Branch) : Branch := (p.seq q).map fun r => r.1 ++ r.2

/-- The first, and then the second as many times as there are. -/
def andMany (p q : Branch) : Branch := (p.seq q.many).map fun r => r.1 ++ r.2.flatten

def sepBy (p separator : Branch) : Branch := p.andMany (separator.andThen p)

def optional (p : Branch) : Branch := (Peg.option p).map fun o => o.getD []

end Branch

open Branch in
def Part.children : Part → Branch
  | .program => (andMany (node .statement) (node .statement)).andThen (leaf .eof)
  | .statement => (node .loop).choice ((node .assignment).choice (node .callStatement))
  | .assignment => (node .name).andThen ((leaf .assign).andThen (node .expr))
  | .callStatement => node .call
  | .loop =>
    (leaf .wordFor).andThen <| (node .name).andThen <| (leaf .wordOver).andThen <|
    (leaf .bracket).andThen <| (node .expr).andThen <| (leaf .comma).andThen <|
    (node .expr).andThen <| (leaf .rangeEnd).andThen <|
    (optional (node .step)).andThen (node .block)
  | .step => (leaf .wordBy).andThen (node .expr)
  | .block =>
    (leaf .brace).andThen ((andMany (node .statement) (node .statement)).andThen (leaf .endBrace))
  | .expr => sepBy (node .term) ((leaf .add).choice (leaf .subtract))
  | .term => sepBy (node .factor) ((leaf .multiply).choice (leaf .divide))
  | .factor => (leaf .number).choice <| (node .call).choice <|
      (node .name).choice (node .parenthesized)
  | .parenthesized => (leaf .paren).andThen ((node .expr).andThen (leaf .endParen))
  | .call => (leaf .function).andThen <| (leaf .paren).andThen <|
    (node .arguments).andThen (leaf .endParen)
  | .arguments => sepBy (node .expr) (leaf .comma)
  | .name => leaf .name

def trees : (α : Type) → TreeRule α → Peg TreeRule α
  | _, .part p => p.children.map (.node p)

/-! ## Programs from trees -/

/-- What a tree is turned into. The arguments of a call and the body of a loop stay together. -/
inductive Item where
  | word (text : String)
  | expr (e : Expr)
  | args (es : List Expr)
  | stmt (s : Stmt)
  | body (ss : List Stmt)

namespace Item

@[simp] def expr? : Item → Option Expr
  | .expr e => some e
  | _ => none

@[simp] def args? : Item → Option (List Expr)
  | .args es => some es
  | _ => none

@[simp] def stmt? : Item → Option Stmt
  | .stmt s => some s
  | _ => none

@[simp] def body? : Item → Option (List Stmt)
  | .body ss => some ss
  | _ => none

@[simp] def isWord (text : String) : Item → Bool
  | .word w => w == text
  | _ => false

def operator? (i : Item) : Option Operator :=
  [Operator.add, .subtract, .multiply, .divide].find? fun op => i.isWord op.symbol

end Item

/-- Why a tree gives no program. -/
inductive Fault where
  | noOperand
  | noOperator
  | notOneExpression
  | noArguments
  | noTargetAndValue
  | noRange
  | missing
  deriving DecidableEq, Repr

/-- The next child of a sum or product: an operand, or the operator before one. -/
def joinItem (pos : Position) (left : Option Expr × Option Item) (i : Item) :
    Except Fault (Option Expr × Option Item) :=
  match left.1, i.expr? with
  | none, some e => .ok (some e, left.2)
  | some e, some right =>
    match left.2.bind Item.operator? with
    | some op => .ok (some (.binary pos op e right), left.2)
    | none => .error .noOperator
  | _, none => .ok (left.1, some i)

def joinItems (pos : Position) (items : List Item) : Except Fault Expr := do
  match (← items.foldlM (joinItem pos) (none, none)).1 with
  | some e => .ok e
  | none => .error .noOperand

/-- A statement that sets a variable, or an error if the target is none. -/
def setting (target : Expr) (pos : Position) (phase : String) (s : Label → Stmt) : Stmt :=
  match target with
  | .var _ name => s name
  | e => .invalid pos (e.text ++ " is not a variable") phase

/-- Builds the node of a part from what its children were turned into. -/
def buildNode (pos : Position) (items : List Item) : Part → Except Fault (List Item)
  | .program => .ok (items.filter fun i => i.expr?.isSome || i.stmt?.isSome)
  | .statement => .ok items
  | .assignment =>
    match items.filterMap Item.expr? with
    | [target, value] =>
      .ok [.stmt (setting target pos Phase.assignment fun name => .assign pos name value)]
    | _ => .error .noTargetAndValue
  | .callStatement =>
    match items with
    | .expr e :: _ => .ok [.stmt (.call pos e)]
    | _ => .error .missing
  | .loop =>
    let body := (items.findSome? Item.body?).getD []
    let inclusive := items.any (Item.isWord "]")
    match items.filterMap Item.expr? with
    | [target, start, stop] => .ok [.stmt <| setting target pos Phase.loop fun name =>
        .loop pos name start stop none inclusive body]
    | [target, start, stop, step] => .ok [.stmt <| setting target pos Phase.loop fun name =>
        .loop pos name start stop (some step) inclusive body]
    | _ => .error .noRange
  | .step =>
    match items.filterMap Item.expr? with
    | e :: _ => .ok [.expr e]
    | [] => .error .missing
  | .block => .ok [.body (items.filterMap Item.stmt?)]
  | .expr | .term => do return [.expr (← joinItems pos items)]
  | .factor | .parenthesized =>
    match items.filterMap Item.expr? with
    | [e] => .ok [.expr e]
    | _ => .error .notOneExpression
  | .call =>
    match items, items.findSome? Item.args? with
    | .word name :: _, some (e :: es) => .ok [.expr (.call pos name (e :: es))]
    | .word _ :: _, _ => .error .noArguments
    | _, _ => .error .missing
  | .arguments => .ok [.args (items.filterMap Item.expr?)]
  | .name =>
    match items.getLast? with
    | some (.word name) => .ok [.expr (nameNode ⟨name, pos⟩)]
    | _ => .error .missing

mutual

/-- Turns a tree into a node. The end of the text is turned into nothing. -/
def SyntaxTree.visit : SyntaxTree → Except Fault (List Item)
  | .leaf .number l => .ok [.expr (numberNode l)]
  | .leaf .eof _ => .ok []
  | .leaf _ l => .ok [.word l.text]
  | .node part children => do
    buildNode (SyntaxTree.posAll children) (← SyntaxTree.visitAll children) part

def SyntaxTree.visitAll : List SyntaxTree → Except Fault (List Item)
  | [] => .ok []
  | t :: ts => do return (← t.visit) ++ (← SyntaxTree.visitAll ts)

end

/-! ## Two grammars side by side -/

section Mirrors

variable {R R' : Type → Type} {grammar : (α : Type) → R α → Peg R α}
  {grammar' : (α : Type) → R' α → Peg R' α} {α β γ δ : Type}

/-- At every place with fewer than `n` characters after it, two parsing expressions take the same
text and build values that match, or fail both. -/
structure Mirrors (grammar : (α : Type) → R α → Peg R α) (grammar' : (α : Type) → R' α → Peg R' α)
    (n : Nat) (p : Peg R α) (q : Peg R' β) (rel : α → β → Prop) : Prop where
  takes : ∀ {c a d}, c.rest.length < n → Derives grammar p c (some (a, d)) →
    ∃ b, Derives grammar' q c (some (b, d)) ∧ rel a b
  fails : ∀ {c}, c.rest.length < n → Derives grammar p c none → Derives grammar' q c none

namespace Mirrors

variable {n : Nat} {p : Peg R α} {q : Peg R' β} {rel : α → β → Prop} {p' : Peg R γ} {q' : Peg R' δ}
  {rel' : γ → δ → Prop}

theorem imp (h : Mirrors grammar grammar' n p q rel) {rel' : α → β → Prop}
    (hrel : ∀ a b, rel a b → rel' a b) : Mirrors grammar grammar' n p q rel' where
  takes hn hd := by
    obtain ⟨b, hb, hab⟩ := h.takes hn hd
    exact ⟨b, hb, hrel _ _ hab⟩
  fails := h.fails

theorem zero : Mirrors grammar grammar' 0 p q rel :=
  ⟨fun hn => absurd hn (Nat.not_lt_zero _), fun hn => absurd hn (Nat.not_lt_zero _)⟩

theorem token (t : Token) : Mirrors grammar grammar' n (.token t) (.token t)
    fun l l' => l = l' ∧ (t ≠ .eof → t.IsText l.text.toList) where
  takes _ hd := by
    have hread : Reads t _ _ := hd.lastStep
    refine ⟨_, .token hread, rfl, fun ht => ?_⟩
    obtain ⟨w, _, _, hw, rfl, _⟩ := hread.text ht
    rwa [String.toList_ofList]
  fails _ hd := .token hd.lastStep

theorem rule {r : R α} (h : Mirrors grammar grammar' n (grammar α r) q rel) :
    Mirrors grammar grammar' n (.rule r) q rel :=
  ⟨fun hn hd => h.takes hn hd.lastStep, fun hn hd => h.fails hn hd.lastStep⟩

theorem ruleRight {r : R' β} (h : Mirrors grammar grammar' n p (grammar' β r) rel) :
    Mirrors grammar grammar' n p (.rule r) rel where
  takes hn hd := by
    obtain ⟨b, hb, hab⟩ := h.takes hn hd
    exact ⟨b, .rule hb, hab⟩
  fails hn hd := .rule (h.fails hn hd)

theorem map (h : Mirrors grammar grammar' n p q rel) {f : α → γ} {rel' : γ → β → Prop}
    (hf : ∀ a b, rel a b → rel' (f a) b) : Mirrors grammar grammar' n (p.map f) q rel' where
  takes hn hd := by
    obtain ⟨_, ho⟩ | ⟨a, d, ha, ho⟩ := hd.lastStep
    · cases ho
    · cases ho
      obtain ⟨b, hb, hab⟩ := h.takes hn ha
      exact ⟨b, hb, hf a b hab⟩
  fails hn hd := by
    obtain ⟨hp, _⟩ | ⟨a, d, _, ho⟩ := hd.lastStep
    · exact h.fails hn hp
    · cases ho

theorem mapRight (h : Mirrors grammar grammar' n p q rel) {f : β → γ} {rel' : α → γ → Prop}
    (hf : ∀ a b, rel a b → rel' a (f b)) : Mirrors grammar grammar' n p (q.map f) rel' where
  takes hn hd := by
    obtain ⟨b, hb, hab⟩ := h.takes hn hd
    exact ⟨f b, .map hb, hf _ b hab⟩
  fails hn hd := .mapNone (h.fails hn hd)

theorem choice {p' : Peg R α} {q' : Peg R' β} (h : Mirrors grammar grammar' n p q rel)
    (h' : Mirrors grammar grammar' n p' q' rel) :
    Mirrors grammar grammar' n (p.choice p') (q.choice q') rel where
  takes hn hd := by
    obtain ⟨a, d, hp, ho⟩ | ⟨hp, hp'⟩ := hd.lastStep
    · cases ho
      obtain ⟨b, hb, hab⟩ := h.takes hn hp
      exact ⟨b, .choiceFirst hb, hab⟩
    · obtain ⟨b, hb, hab⟩ := h'.takes hn hp'
      exact ⟨b, .choiceSecond (h.fails hn hp) hb, hab⟩
  fails hn hd := by
    obtain ⟨a, d, _, ho⟩ | ⟨hp, hp'⟩ := hd.lastStep
    · cases ho
    · exact .choiceSecond (h.fails hn hp) (h'.fails hn hp')

theorem option (h : Mirrors grammar grammar' n p q rel) :
    Mirrors grammar grammar' n p.option q.option (Option.Rel rel) where
  takes hn hd := by
    obtain ⟨hp, ho⟩ | ⟨a, d, hp, ho⟩ := hd.lastStep
    · cases ho
      exact ⟨none, .optionNone (h.fails hn hp), .none⟩
    · cases ho
      obtain ⟨b, hb, hab⟩ := h.takes hn hp
      exact ⟨some b, .optionOne hb, .some hab⟩
  fails hn hd := by
    obtain ⟨_, ho⟩ | ⟨a, d, _, ho⟩ := hd.lastStep <;> cases ho

/-- Where the first part always takes a character, the second may look at one less. -/
theorem seqOf {m : Nat} (h : Mirrors grammar grammar' n p q rel)
    (h' : Mirrors grammar grammar' m p' q' rel')
    (hlt : ∀ {c a d}, c.rest.length < n → Derives grammar p c (some (a, d)) → d.rest.length < m) :
    Mirrors grammar grammar' n (p.seq p') (q.seq q') fun x y => rel x.1 y.1 ∧ rel' x.2 y.2 where
  takes hn hd := by
    obtain ⟨_, ho⟩ | ⟨a, d, hp, ⟨_, ho⟩ | ⟨a', e, hp', ho⟩⟩ := hd.lastStep
    · cases ho
    · cases ho
    · cases ho
      obtain ⟨b, hb, hab⟩ := h.takes hn hp
      obtain ⟨b', hb', hab'⟩ := h'.takes (hlt hn hp) hp'
      exact ⟨(b, b'), .seq hb hb', hab, hab'⟩
  fails hn hd := by
    obtain ⟨hp, _⟩ | ⟨a, d, hp, ⟨hp', _⟩ | ⟨a', e, _, ho⟩⟩ := hd.lastStep
    · exact .seqFirst (h.fails hn hp)
    · obtain ⟨b, hb, _⟩ := h.takes hn hp
      exact .seqSecond hb (h'.fails (hlt hn hp) hp')
    · cases ho

/-- A token gives room for one more. -/
theorem guard {t : Token} (ht : t ≠ .eof) {rel' : Lexeme → δ → Prop}
    (h' : Mirrors grammar grammar' (n + 1) (.token t) q' rel')
    (h : Mirrors grammar grammar' n p q rel) :
    Mirrors grammar grammar' (n + 1) ((Peg.token t).seq p) (q'.seq q)
      fun x y => rel' x.1 y.1 ∧ rel x.2 y.2 := by
  refine h'.seqOf h fun hn hd => ?_
  have hread : Reads t _ _ := hd.lastStep
  have hahead := (hread.ahead.mono fun _ => by simpa using ht).length_lt
  omega

variable (hg : Progressive grammar)

include hg

theorem seq (h : Mirrors grammar grammar' n p q rel) (h' : Mirrors grammar grammar' n p' q' rel') :
    Mirrors grammar grammar' n (p.seq p') (q.seq q') fun x y => rel x.1 y.1 ∧ rel' x.2 y.2 :=
  h.seqOf h' fun hn hd => Nat.lt_of_le_of_lt (hd.ahead hg _ _ rfl).length_le hn

theorem many (h : Mirrors grammar grammar' n p q rel) :
    Mirrors grammar grammar' n p.many q.many (List.Forall₂ rel) where
  takes {c as e} hn hd := by
    induction as generalizing c with
    | nil =>
      obtain ⟨hp, ho⟩ | ⟨_, _, _, _, _, _, ho⟩ := hd.lastStep
      · cases ho
        exact ⟨[], .manyEnd (h.fails hn hp), .nil⟩
      · cases ho
    | cons a as ih =>
      obtain ⟨_, ho⟩ | ⟨_, d, _, _, hp, hd, ho⟩ := hd.lastStep
      · cases ho
      · cases ho
        obtain ⟨b, hb, hab⟩ := h.takes hn hp
        obtain ⟨bs, hbs, hrel⟩ := ih (Nat.lt_of_le_of_lt (hp.ahead hg _ _ rfl).length_le hn) hd
        exact ⟨b :: bs, .manyNext hb hbs, .cons hab hrel⟩
  fails hn hd := by
    obtain ⟨_, ho⟩ | ⟨_, _, _, _, _, _, ho⟩ := hd.lastStep <;> cases ho

end Mirrors

end Mirrors

/-! ## What trees are turned into -/

section Shows

variable {items items' : List Item} {pos : Position} {ts us : List SyntaxTree}

theorem SyntaxTree.visitAll_append (h : visitAll ts = .ok items) (h' : visitAll us = .ok items') :
    visitAll (ts ++ us) = .ok (items ++ items') := by
  induction ts generalizing items with
  | nil =>
    cases h
    exact h'
  | cons t ts ih =>
    rw [visitAll] at h
    rw [List.cons_append, visitAll]
    cases ht : t.visit with
    | error f =>
      rw [ht] at h
      cases h
    | ok found =>
      cases hts : visitAll ts with
      | error f =>
        rw [ht, hts] at h
        cases h
      | ok more =>
        rw [ht, hts] at h
        cases h
        rw [ih hts, List.append_assoc]
        rfl

theorem SyntaxTree.visitAll_singleton (t : SyntaxTree) : visitAll [t] = t.visit := by
  rw [visitAll, visitAll]
  cases t.visit with
  | error f => rfl
  | ok items => exact congrArg Except.ok (List.append_nil _)

theorem SyntaxTree.visitAll_flatten {α : Type} {f : α → List Item} {as : List α}
    {tss : List (List SyntaxTree)} (h : List.Forall₂ (fun a ts => visitAll ts = .ok (f a)) as tss) :
    visitAll tss.flatten = .ok (as.flatMap f) := by
  induction h with
  | nil => rfl
  | cons ha _ ih => exact visitAll_append ha ih

/-- Trees that are turned into items, the first of them at a place. -/
structure Shows (items : List Item) (pos : Position) (ts : List SyntaxTree) : Prop where
  visit : SyntaxTree.visitAll ts = .ok items
  pos : SyntaxTree.posAll ts = pos
  ne_nil : ts ≠ []

theorem Shows.append (h : Shows items pos ts) (h' : SyntaxTree.visitAll us = .ok items') :
    Shows (items ++ items') pos (ts ++ us) where
  visit := SyntaxTree.visitAll_append h.visit h'
  pos := by
    obtain ⟨t, ts, rfl⟩ := List.exists_cons_of_ne_nil h.ne_nil
    exact h.pos
  ne_nil := List.append_ne_nil_of_left_ne_nil h.ne_nil _

theorem Shows.node {part : Part} (h : Shows items pos ts)
    (hb : buildNode pos items part = .ok items') : Shows items' pos [.node part ts] where
  visit := by
    rw [SyntaxTree.visitAll_singleton, SyntaxTree.visit, h.visit, h.pos]
    exact hb
  pos := h.pos
  ne_nil := by simp

end Shows

/-- Trees that are turned into what a value says. -/
def Gives {α : Type} (items : α → List Item) (a : α) (ts : List SyntaxTree) : Prop :=
  SyntaxTree.visitAll ts = .ok (items a)

/-- The same for trees that start at a place which is one for the value. -/
def Shown {α : Type} (items : α → List Item) (place : α → Position → Prop) (a : α)
    (ts : List SyntaxTree) : Prop :=
  ∃ pos, place a pos ∧ Shows (items a) pos ts

/-- Any place. -/
def anywhere {α : Type} : α → Position → Prop := fun _ _ => True

/-! ## Trees and nodes -/

/-- A parsing expression of the grammar and one for trees that mirrors it. -/
abbrev Mirrored {α : Type} (n : Nat) (p : Pattern α) (b : Branch)
    (rel : α → List SyntaxTree → Prop) : Prop :=
  Mirrors grammar trees n p b rel

namespace Mirrored

variable {n : Nat} {α β : Type} {p : Pattern α} {q : Pattern β} {b b' : Branch}
  {items : α → List Item} {items' : β → List Item} {place : α → Position → Prop}

theorem gives (h : Mirrored n p b (Shown items place)) : Mirrored n p b (Gives items) :=
  h.imp fun _ _ ⟨_, _, hs⟩ => hs.visit

theorem anywhere (h : Mirrored n p b (Shown items place)) : Mirrored n p b (Shown items anywhere) :=
  h.imp fun _ _ ⟨pos, _, hs⟩ => ⟨pos, trivial, hs⟩

theorem mapTo {f : α → β} (h : Mirrored n p b (Shown items place))
    (hf : ∀ a, items a = items' (f a)) :
    Mirrored n (p.map f) b (Shown items' PolarPlot.Grammar.anywhere) :=
  h.map fun a _ ⟨pos, _, hs⟩ => ⟨pos, trivial, hf a ▸ hs⟩

theorem leaf (t : Token) (ht : t ≠ .number ∧ t ≠ .eof) :
    Mirrored n (.token t) (.leaf t) (Shown (fun l => [.word l.text]) fun l pos => pos = l.pos) := by
  refine (Mirrors.token t).mapRight ?_
  rintro l _ ⟨rfl, _⟩
  refine ⟨_, rfl, ?_, rfl, by simp⟩
  cases t with
  | number => exact absurd rfl ht.1
  | eof => exact absurd rfl ht.2
  | _ => rfl

/-- The leaf of a fixed word. -/
theorem fixed (t : Token) (w : String) (ht : t.fixed? = some w.toList) :
    Mirrored n (.token t) (.leaf t) (Shown (fun _ => [.word w]) fun l pos => pos = l.pos) := by
  obtain ⟨heof, _⟩ := Token.isText_of_fixed? ht
  refine (Mirrors.token t).mapRight ?_
  rintro l _ ⟨rfl, htext⟩
  obtain rfl := (htext heof).eq_of_fixed? ht
  refine ⟨_, rfl, ?_, rfl, by simp⟩
  cases t with
  | number | eof => cases ht
  | _ => rfl

theorem andThen (h : Mirrored n p b (Shown items place)) (h' : Mirrored n q b' (Gives items')) :
    Mirrored n (p.seq q) (b.andThen b')
      (Shown (fun x => items x.1 ++ items' x.2) fun x => place x.1) := by
  refine (h.seq grammar_progressive h').mapRight ?_
  rintro x y ⟨⟨pos, hpos, hs⟩, hs'⟩
  exact ⟨pos, hpos, hs.append hs'⟩

theorem guard {t : Token} {items : Lexeme → List Item} {place : Lexeme → Position → Prop}
    (ht : t ≠ .eof) (h : Mirrored (n + 1) (.token t) b (Shown items place))
    (h' : Mirrored n q b' (Gives items')) :
    Mirrored (n + 1) ((Peg.token t).seq q) (b.andThen b')
      (Shown (fun x => items x.1 ++ items' x.2) fun x => place x.1) := by
  refine (Mirrors.guard ht h h').mapRight ?_
  rintro x y ⟨⟨pos, hpos, hs⟩, hs'⟩
  exact ⟨pos, hpos, hs.append hs'⟩

theorem givesThen (h : Mirrored n p b (Gives items)) (h' : Mirrored n q b' (Gives items')) :
    Mirrored n (p.seq q) (b.andThen b') (Gives fun x => items x.1 ++ items' x.2) :=
  (h.seq grammar_progressive h').mapRight fun _ _ hx => SyntaxTree.visitAll_append hx.1 hx.2

theorem fixedThen (t : Token) (w : String) (ht : t.fixed? = some w.toList)
    (h : Mirrored n q b (Gives items')) :
    Mirrored n ((Peg.token t).andThen q) ((Branch.leaf t).andThen b)
      (Gives fun x => .word w :: items' x) :=
  ((fixed t w ht).gives.givesThen h).map fun _ _ hx => hx

theorem thenFixed (t : Token) (w : String) (ht : t.fixed? = some w.toList)
    (h : Mirrored n p b (Gives items)) :
    Mirrored n (p.before (Peg.token t)) (b.andThen (.leaf t))
      (Gives fun x => items x ++ [.word w]) :=
  (h.givesThen (fixed t w ht).gives).map fun _ _ hx => hx

theorem andMany (h : Mirrored n p b (Shown items place)) (h' : Mirrored n q b' (Gives items')) :
    Mirrored n (p.seq q.many) (b.andMany b')
      (Shown (fun x => items x.1 ++ x.2.flatMap items') fun x => place x.1) := by
  refine (h.seq grammar_progressive (h'.many grammar_progressive)).mapRight ?_
  rintro x y ⟨⟨pos, hpos, hs⟩, hs'⟩
  exact ⟨pos, hpos, hs.append (SyntaxTree.visitAll_flatten hs')⟩

theorem optional (h : Mirrored n p b (Gives items)) :
    Mirrored n p.option b.optional (Gives fun o => o.toList.flatMap items) := by
  refine (Mirrors.option h).mapRight ?_
  intro o o' ho
  cases ho with
  | none => rfl
  | some ha => exact ha.trans (by simp)

/-- What is taken is written by a row of tokens. -/
theorem row {rel : α → List SyntaxTree → Prop} (h : Mirrored n p b rel) :
    Mirrored n p b fun a ts => rel a ts ∧ ∃ us, p.Row Rule.Row a us where
  takes hn hd := by
    obtain ⟨ts, hts, hrel⟩ := h.takes hn hd
    obtain ⟨us, htakes⟩ := hd.exists_takes _ _ rfl
    exact ⟨ts, hts, hrel, us, htakes.spells.row grammar_row⟩
  fails := h.fails

/-- A node is built from its children. What they can be is known from the tokens. -/
theorem node (part : Part) (items' : α → List Item)
    (h : Mirrored n p part.children (Shown items place))
    (hb : ∀ a pos, place a pos → (∃ ts, p.Row Rule.Row a ts) →
      buildNode pos (items a) part = .ok (items' a)) :
    Mirrored n p (.node part) (Shown items' place) := by
  have hrule : Mirrors grammar trees n p (.rule (.part part)) fun a t =>
      Shown items' place a [t] := by
    refine .ruleRight (h.row.mapRight ?_)
    rintro a ts ⟨⟨pos, hpos, hs⟩, hrow⟩
    exact ⟨pos, hpos, hs.node (hb a pos hpos hrow)⟩
  exact hrule.mapRight fun _ _ h => h

end Mirrored

/-! ## Sums and products -/

theorem Item.operator?_symbol (op : Operator) : (Item.word op.symbol).operator? = some op := by
  cases op <;> rfl

/-- Operands with operators between them are joined from left to right. -/
theorem joinItems_operands (pos : Position) (first : Expr) (rest : List (Operator × Operand)) :
    joinItems pos (.expr first :: rest.flatMap fun y => [.word y.1.symbol, .expr y.2.2]) =
      .ok (rest.foldl (fun left y => .binary pos y.1 left y.2.2) first) := by
  have hrest : ∀ (o : Option Item), ∃ o',
      (rest.flatMap fun y => [Item.word y.1.symbol, .expr y.2.2]).foldlM (joinItem pos)
        (some first, o) =
        .ok (some (rest.foldl (fun left y => .binary pos y.1 left y.2.2) first), o') := by
    induction rest generalizing first with
    | nil => exact fun o => ⟨o, rfl⟩
    | cons y rest ih =>
      intro o
      have hjoin : joinItem pos (some first, some (.word y.1.symbol)) (.expr y.2.2) =
          .ok (some (.binary pos y.1 first y.2.2), some (.word y.1.symbol)) := by
        simp only [joinItem, Item.expr?, Option.bind_some, Item.operator?_symbol]
      obtain ⟨o', ho⟩ := ih (.binary pos y.1 first y.2.2) (some (.word y.1.symbol))
      refine ⟨o', Eq.trans ?_ ho⟩
      change (joinItem pos (some first, some (.word y.1.symbol)) (.expr y.2.2) >>= fun s => _) = _
      rw [hjoin]
      rfl
  obtain ⟨o, ho⟩ := hrest none
  change ((List.foldlM (joinItem pos) (some first, none) _) >>= fun s => _) = _
  rw [ho]
  rfl

/-! ## Trees of expressions -/

section Expressions

variable {n : Nat}

/-- What an operand is turned into: one expression, at the place where the operand starts. -/
abbrev ShownOperand : Operand → List SyntaxTree → Prop :=
  Shown (fun x => [.expr x.2]) fun x pos => pos = x.1

abbrev ShownExpr : Expr → List SyntaxTree → Prop := Shown (fun e => [.expr e]) anywhere

theorem mirrored_number : Mirrored n ((Peg.token .number).map fun l => (l.pos, numberNode l))
    (.leaf .number) ShownOperand := by
  have hleaf : Mirrored n (.token .number) (.leaf .number) fun l ts => ts = [.leaf .number l] :=
    (Mirrors.token .number).mapRight fun l l' h => by rw [h.1]
  refine hleaf.map ?_
  rintro l _ rfl
  exact ⟨_, rfl, rfl, rfl, by simp⟩

theorem mirrored_name : Mirrored n (.token .name) (.node .name)
    (Shown (fun l => [.expr (nameNode l)]) fun l pos => pos = l.pos) := by
  refine (Mirrored.leaf .name (by decide)).node .name _ ?_
  rintro l _ rfl _
  rfl

theorem mirrored_operator (op : Operator) : Mirrored n (operator op.token op) (.leaf op.token)
    (Gives fun o => [.word o.symbol]) :=
  (Mirrored.fixed op.token op.symbol (by cases op <;> rfl)).gives.map fun _ _ h => h

/-- A sum of products, or a product of factors. -/
theorem mirrored_operands (op op' : Operator) (part : Part) {p : Pattern Operand} {b : Branch}
    (hchildren : part.children = b.sepBy ((Branch.leaf op.token).choice (Branch.leaf op'.token)))
    (hbuild : ∀ pos items, buildNode pos items part = do return [.expr (← joinItems pos items)])
    (hp : Mirrored n p b ShownOperand) :
    Mirrored n (p.seq (((operator op.token op).choice (operator op'.token op')).seq p).many)
      (.node part)
      (Shown (fun x => [.expr (joinOperands x.1 x.2).2]) fun x pos => pos = x.1.1) := by
  have hsign : Mirrored n ((operator op.token op).choice (operator op'.token op'))
      ((Branch.leaf op.token).choice (Branch.leaf op'.token)) (Gives fun o => [.word o.symbol]) :=
    (mirrored_operator op).choice (mirrored_operator op')
  have hlist : Mirrored n (.seq _ _) (b.sepBy _) _ := hp.andMany (hsign.givesThen hp.gives)
  rw [← hchildren] at hlist
  refine hlist.node part _ ?_
  rintro ⟨first, rest⟩ _ rfl _
  rw [hbuild]
  exact congrArg (· >>= fun e => pure [Item.expr e]) (joinItems_operands first.1 first.2 rest)

variable (hexpr : Mirrored n (.rule Rule.expr) (.node .expr) ShownExpr)

include hexpr

theorem mirrored_arguments :
    Mirrored n arguments (.node .arguments) (Gives fun es => [.args es]) := by
  have hlist := hexpr.andMany (Mirrored.fixedThen .comma "," rfl hexpr.gives)
  have hnode := hlist.node .arguments (fun x => [.args (x.1 :: x.2)]) fun x _ _ _ => by
    have hexprs : (x.2.flatMap fun e => [.word ",", .expr e]).filterMap Item.expr? = x.2 :=
      List.filterMap_flatMap.trans (List.flatMap_singleton' _)
    simp [buildNode, hexprs]
  exact hnode.gives.map fun _ _ h => h

theorem mirrored_call : Mirrored (n + 1) call (.node .call)
    (Shown (fun x => [.expr (callNode x.1 x.2)]) fun x pos => pos = x.1.pos) := by
  have hinner := Mirrored.fixedThen .paren "(" rfl
    (Mirrored.thenFixed .endParen ")" rfl (mirrored_arguments hexpr))
  refine ((Mirrored.leaf .function (by decide)).guard (by decide) hinner).node .call _ ?_
  rintro ⟨name, args⟩ _ rfl ⟨ts, hrow⟩
  obtain ⟨_, _, _, us, _, _, _, hargs, _⟩ := row_call hrow
  obtain ⟨e, es, rfl⟩ := List.exists_cons_of_ne_nil hargs.ne_nil
  rfl

theorem mirrored_parenthesized :
    Mirrored (n + 1) parenthesized (.node .parenthesized) ShownOperand := by
  have hinner := (Mirrored.fixed .paren "(" rfl).guard (by decide)
    (Mirrored.thenFixed .endParen ")" rfl hexpr.gives)
  have hnode := hinner.node .parenthesized (fun x => [.expr x.2]) fun _ _ _ _ => rfl
  exact hnode.map fun _ _ h => h

theorem mirrored_factor : Mirrored (n + 1) factor (.node .factor) ShownOperand := by
  have hcall : Mirrored (n + 1) (call.map fun x => (x.1.pos, callNode x.1 x.2)) (.node .call)
      ShownOperand := (mirrored_call hexpr).map fun _ _ h => h
  have hname : Mirrored (n + 1) ((Peg.token .name).map fun l => (l.pos, nameNode l)) (.node .name)
      ShownOperand := mirrored_name.map fun _ _ h => h
  have hchoice : Mirrored (n + 1) factor Part.factor.children ShownOperand :=
    mirrored_number.choice (hcall.choice (hname.choice (mirrored_parenthesized hexpr)))
  exact hchoice.node .factor _ fun _ _ _ _ => rfl

theorem mirrored_expr : Mirrored (n + 1) (.rule Rule.expr) (.node .expr) ShownExpr := by
  have hterm : Mirrored (n + 1) term (.node .term) ShownOperand :=
    (mirrored_operands .multiply .divide .term rfl (fun _ _ => rfl) (mirrored_factor hexpr)).map
      fun _ _ h => h
  have hsum := mirrored_operands .add .subtract .expr rfl (fun _ _ => rfl) hterm
  exact .rule (hsum.anywhere.map fun _ _ h => h)

end Expressions

/-- The induction is on the number of characters that are left. -/
theorem mirrored_expr_all (n : Nat) : Mirrored n (.rule Rule.expr) (.node .expr) ShownExpr := by
  induction n with
  | zero => exact .zero
  | succ n ih => exact mirrored_expr ih

/-! ## Trees of programs -/

theorem setting_of_free {l : Lexeme} (h : reserved? l.text = none) (pos : Position) (phase : String)
    (s : Label → Stmt) : setting (nameNode l) pos phase s = s l.text := by
  simp only [nameNode, h, setting]

theorem setting_of_reserved {l : Lexeme} {value : Float} (h : reserved? l.text = some value)
    (pos : Position) (phase : String) (s : Label → Stmt) :
    setting (nameNode l) pos phase s = reservedTarget pos value phase := by
  simp only [nameNode, h, setting, Expr.text, reservedTarget]

section Statements

variable {n : Nat}

abbrev ShownStmt : Stmt → List SyntaxTree → Prop := Shown (fun s => [.stmt s]) anywhere

theorem mirrored_assignment : Mirrored n assignment (.node .assignment) ShownStmt := by
  have hlist :=
    mirrored_name.andThen (Mirrored.fixedThen .assign "=" rfl (mirrored_expr_all n).gives)
  have hnode :=
    hlist.node .assignment (fun x => [.stmt (setting (nameNode x.1) x.1.pos Phase.assignment
    fun name => .assign x.1.pos name x.2)]) (by rintro x _ rfl _; rfl)
  refine hnode.mapTo ?_
  rintro ⟨name, value⟩
  dsimp only
  split
  · rw [setting_of_reserved ‹_›]
  · rw [setting_of_free ‹_›]

theorem mirrored_callStatement :
    Mirrored (n + 1) callStatement (.node .callStatement) ShownStmt := by
  have hnode := (mirrored_call (mirrored_expr_all n)).node .callStatement
    (fun x => [.stmt (.call x.1.pos (callNode x.1 x.2))]) (by rintro x _ rfl _; rfl)
  exact hnode.mapTo fun _ => rfl

theorem mirrored_step : Mirrored n step (.node .step) (Gives fun e => [.expr e]) := by
  have hlist := (Mirrored.fixed .wordBy "by" rfl).andThen (mirrored_expr_all n).gives
  have hnode := hlist.node .step (fun x => [.expr x.2]) fun _ _ _ _ => rfl
  exact (hnode.mapTo fun _ => rfl).gives

variable (hstmt : Mirrored n (.rule Rule.stmt) (.node .statement) ShownStmt)

include hstmt

theorem mirrored_stmts : Mirrored n (Peg.rule Rule.stmt).some
    ((Branch.node .statement).andMany (Branch.node .statement))
      (Shown (fun ss => ss.map .stmt) anywhere) := by
  refine (hstmt.andMany hstmt.gives).mapTo ?_
  rintro ⟨s, ss⟩
  exact congrArg (Item.stmt s :: ·) List.map_eq_flatMap.symm

theorem mirrored_block : Mirrored n block (.node .block) (Gives fun ss => [.body ss]) := by
  have hlist := (Mirrored.fixed .brace "\x7b" rfl).andThen
    (Mirrored.thenFixed .endBrace "\x7d" rfl (mirrored_stmts hstmt).gives)
  have hnode := hlist.node .block (fun x => [.body x.2]) (by
    intro x _ _ _
    simp [buildNode, List.filterMap_cons, List.filterMap_map, Function.comp_def])
  exact (hnode.mapTo fun _ => rfl).gives

theorem mirrored_loop : Mirrored (n + 1) loop (.node .loop) ShownStmt := by
  have hexpr := mirrored_expr_all n
  have hbody := (Mirrored.optional mirrored_step).givesThen (mirrored_block hstmt)
  have hstop := hexpr.gives.givesThen ((Mirrored.leaf .rangeEnd (by decide)).gives.givesThen hbody)
  have hstart := hexpr.gives.givesThen (Mirrored.fixedThen .comma "," rfl hstop)
  have hrange :=
    Mirrored.fixedThen .wordOver "over" rfl (Mirrored.fixedThen .bracket "[" rfl hstart)
  have hlist :=
    (Mirrored.fixed .wordFor "for" rfl).guard (by decide) (mirrored_name.gives.givesThen hrange)
  -- The first word, the name, and in the rest the bounds, the closing bracket, the step and the
  -- body.
  have hnode := hlist.node .loop (fun x =>
    [.stmt (setting (nameNode x.2.1) x.1.pos Phase.loop fun label =>
      .loop x.1.pos label x.2.2.1 x.2.2.2.1 x.2.2.2.2.2.1 (x.2.2.2.2.1.text == "]")
        x.2.2.2.2.2.2)]) (by
    rintro ⟨first, name, start, stop, close, step, body⟩ _ rfl _
    cases step <;> simp [buildNode, List.filterMap_cons, List.findSome?_cons])
  refine hnode.mapTo ?_
  rintro ⟨first, name, start, stop, close, step, body⟩
  dsimp only
  split
  · rw [setting_of_reserved ‹_›]
  · rw [setting_of_free ‹_›]

theorem mirrored_stmt : Mirrored (n + 1) (.rule Rule.stmt) (.node .statement) ShownStmt := by
  have hchoice : Mirrored (n + 1) stmt Part.statement.children ShownStmt :=
    (mirrored_loop hstmt).choice (mirrored_assignment.choice mirrored_callStatement)
  exact .rule (hchoice.node .statement _ fun _ _ _ _ => rfl)

end Statements

theorem mirrored_stmt_all (n : Nat) :
    Mirrored n (.rule Rule.stmt) (.node .statement) ShownStmt := by
  induction n with
  | zero => exact .zero
  | succ n ih => exact mirrored_stmt ih

theorem mirrored_program (n : Nat) :
    Mirrored n program (.node .program) (Shown (fun ss => ss.map .stmt) anywhere) := by
  have heof : Mirrored n (.token .eof) (.leaf .eof) (Gives fun _ => []) := by
    refine (Mirrors.token .eof).mapRight ?_
    rintro l _ ⟨rfl, _⟩
    rfl
  have hnode := ((mirrored_stmts (mirrored_stmt_all n)).andThen heof).node .program
    (fun x => x.1.map .stmt) (by
      intro x _ _ _
      simp [buildNode])
  exact hnode.mapTo fun _ => rfl

/-- What is read in one pass has a syntax tree, and the tree is turned into the same statements. -/
theorem Derives.exists_tree {c d : Cursor} {ss : List Stmt}
    (h : Derives grammar program c (some (ss, d))) :
    ∃ tree, Derives trees (.rule (.part .program)) c (some (tree, d)) ∧
      tree.visit = .ok (ss.map .stmt) := by
  obtain ⟨ts, hts, pos, _, hshows⟩ :=
    (mirrored_program (c.rest.length + 1)).takes (Nat.lt_succ_self _) h
  obtain ⟨_, ho⟩ | ⟨tree, e, htree, ho⟩ := hts.lastStep
  · cases ho
  · cases ho
    refine ⟨tree, htree, ?_⟩
    rw [← hshows.visit, SyntaxTree.visitAll_singleton]

end PolarPlot.Grammar

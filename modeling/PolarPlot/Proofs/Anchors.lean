import PolarPlot.Proofs.Recognition
import PolarPlot.Proofs.Splicing
import PolarPlot.Proofs.Wording

/-!
# Places of nodes

A node of a parsed program has the place of its first word. The words of a text are those of its
pieces, so none of them is in a filler, and their places are in order because places grow with
offsets (`placeAt_before`). A node's place is that of a word (`Stmt.Anchored`), and the places of
the parts of a node come in the order of the text, because they are a sublist of the places of its
row of tokens (`Expr.Row.sublist`, `Stmt.Row.sublist`).
-/

namespace PolarPlot

open Grammar Number Text
open scoped List

/-! ## The order of places -/

/-- A place comes before another in a text. -/
def Position.Before (p q : Position) : Prop :=
  p.line < q.line ∨ p.line = q.line ∧ p.column < q.column

theorem Position.Before.trans {p q r : Position} (h : p.Before q) (h' : q.Before r) :
    p.Before r := by
  unfold Before at *
  omega

namespace Grammar

variable {origin : String} {text : List Char}

/-- A line feed goes to the next line, and every other character to the next column. -/
theorem placeAt_succ {i : Nat} (h : i < text.length) :
    (placeAt origin text i).Before (placeAt origin text (i + 1)) := by
  have htake : text.take (i + 1) = text.take i ++ [text[i]] := List.take_succ_eq_append_getElem h
  simp only [Position.Before, placeAt, lineColumn, Int.toNat_natCast, htake, List.count_append,
    lastLineLength_concat]
  by_cases hline : text[i] = '\n'
  · have hcount : List.count '\n' [text[i]] = 1 := by simp [hline]
    rw [hcount]
    omega
  · have hcount : List.count '\n' [text[i]] = 0 := by simp [hline]
    rw [hcount, if_neg hline]
    omega

theorem placeAt_before {i j : Nat} (h : i < j) (hj : j ≤ text.length) :
    (placeAt origin text i).Before (placeAt origin text j) := by
  induction j, h using Nat.le_induction with
  | base => exact placeAt_succ hj
  | succ j _ ih => exact (ih (by omega)).trans (placeAt_succ hj)

end Grammar

def Expr.pos : Expr → Position
  | .var pos _ => pos
  | .const pos _ => pos
  | .binary pos _ _ _ => pos
  | .call pos _ _ => pos
  | .misfit _ => .unknown

def Stmt.pos : Stmt → Position
  | .assign pos _ _ => pos
  | .call pos _ => pos
  | .loop pos _ _ _ _ _ _ => pos
  | .invalid pos _ _ => pos
  | .misfit _ => .unknown

/-! ## Nodes at words -/

/-- An expression whose nodes all have the places of their first words, in order. For an operation
this is the first word of its left operand or a parenthesis before it. -/
inductive Expr.Anchored (stands : Token → String → Position → Prop) : Expr → Prop where
  | number {pos : Position} {numeral : String} : stands .number numeral pos →
      Anchored stands (.const pos (Decimal.ofNumeral numeral.toList).toFloat)
  | constant {pos : Position} {name : String} {value : Float} : stands .name name pos →
      reserved? name = some value → Anchored stands (.const pos value)
  | var {pos : Position} {name : String} : stands .name name pos → Anchored stands (.var pos name)
  | call {pos : Position} {name : String} {args : List Expr} : stands .function name pos →
      (∀ e ∈ args, Anchored stands e) → (pos :: args.map Expr.pos).Pairwise Position.Before →
      Anchored stands (.call pos name args)
  | binary {pos : Position} {op : Operator} {left right : Expr} : Anchored stands left →
      Anchored stands right → pos = left.pos ∨ stands .paren "(" pos ∧ pos.Before left.pos →
      left.pos.Before right.pos → Anchored stands (.binary pos op left right)

/-- A statement whose nodes all have the places of their first words, in order. -/
inductive Stmt.Anchored (stands : Token → String → Position → Prop) : Stmt → Prop where
  | assign {pos : Position} {name : String} {value : Expr} : stands .name name pos →
      value.Anchored stands → pos.Before value.pos → Anchored stands (.assign pos name value)
  | call {pos : Position} {name : Label} {args : List Expr} :
      (Expr.call pos name args).Anchored stands → Anchored stands (.call pos (.call pos name args))
  | loop {pos : Position} {name : Label} {start stop : Expr} {step : Option Expr} {inclusive : Bool}
      {body : List Stmt} : stands .wordFor "for" pos → start.Anchored stands →
      stop.Anchored stands → (∀ e ∈ step, e.Anchored stands) → (∀ s ∈ body, Anchored stands s) →
      (pos :: start.pos :: stop.pos :: (step.toList.map Expr.pos ++ body.map Stmt.pos)).Pairwise
        Position.Before →
      Anchored stands (.loop pos name start stop step inclusive body)
  | invalidAssignment {pos : Position} {name : String} {value : Float} : stands .name name pos →
      reserved? name = some value → Anchored stands (reservedTarget pos value Phase.assignment)
  | invalidLoop {pos : Position} {name : String} {value : Float} : stands .wordFor "for" pos →
      reserved? name = some value → Anchored stands (reservedTarget pos value Phase.loop)

def Grammar.Taken.pos (t : Taken) : Position := t.lexeme.pos

/-- The words of a row of tokens stand somewhere, in order. -/
structure Standing (stands : Token → String → Position → Prop) (ts : List Taken) : Prop where
  stands : ∀ t ∈ ts, stands t.token t.lexeme.text t.pos
  ordered : (ts.map Taken.pos).Pairwise Position.Before

namespace Standing

variable {stands : Token → String → Position → Prop} {t : Taken} {ts us vs : List Taken}

theorem sublist (h : Standing stands ts) (hu : us <+ ts) : Standing stands us :=
  ⟨fun t ht => h.stands t (hu.subset ht), h.ordered.sublist (hu.map _)⟩

theorem left (h : Standing stands (us ++ vs)) : Standing stands us :=
  h.sublist (List.sublist_append_left ..)

theorem right (h : Standing stands (us ++ vs)) : Standing stands vs :=
  h.sublist (List.sublist_append_right ..)

theorem tail (h : Standing stands (t :: ts)) : Standing stands ts :=
  h.sublist (List.sublist_cons_self ..)

theorem head (h : Standing stands (t :: ts)) {u : Token} (ht : t.token = u) :
    stands u t.lexeme.text t.pos := by
  subst ht
  exact h.stands t (.head _)

end Standing

section Rows

variable {stands : Token → String → Position → Prop} {es : List Expr} {ss : List Stmt}
  {ts : List Taken}

/-! ## The places of a row -/

/-- The places of expressions are among those of the tokens that write them, in order. -/
theorem Expr.Row.sublist (h : Expr.Row es ts) : es.map Expr.pos <+ ts.map Taken.pos := by
  induction h with
  | number | constant | var => exact .refl _
  | call | binary => exact (List.nil_sublist _).cons_cons _
  | parens _ _ _ ih =>
    refine List.Sublist.cons _ ?_
    rw [List.map_append]
    exact ih.trans (List.sublist_append_left ..)
  | comma _ _ _ ih ih' =>
    rw [List.map_append]
    exact ih.append (ih'.cons _)

/-- The first token of an expression is its own, or a parenthesis. -/
theorem Expr.Row.first {e : Expr} {t : Taken} (h : Expr.Row [e] (t :: ts)) :
    t.pos = e.pos ∨ t.token = .paren ∧ e.pos ∈ ts.map Taken.pos := by
  generalize hes : [e] = es, hts : t :: ts = us at h
  cases h with
  | number | constant | var | call | binary =>
    cases hes
    cases hts
    exact .inl rfl
  | parens ht h _ =>
    cases hes
    cases hts
    have hmem := h.sublist.subset (List.mem_singleton_self e.pos)
    rw [List.map_append]
    exact .inr ⟨ht, List.mem_append_left _ hmem⟩
  | comma _ _ h =>
    cases hes
    exact absurd rfl h.ne_nil

theorem StepRow.sublist {step : Option Expr} (h : StepRow step ts) :
    step.toList.map Expr.pos <+ ts.map Taken.pos := by
  cases h with
  | missing => exact .refl _
  | given _ h => exact h.sublist.cons _

theorem Stmt.Sets.pos_eq {name : Lexeme} {pos : Position} {phase : String} {s s' : Stmt}
    (h : s.Sets name pos phase s') (hs : s.pos = pos) : s'.pos = pos := by
  cases h with
  | free => exact hs
  | reserved => rfl

/-- The places of statements are among those of the tokens that write them, in order. -/
theorem Stmt.Row.sublist (h : Stmt.Row ss ts) : ss.map Stmt.pos <+ ts.map Taken.pos := by
  induction h with
  | assign _ _ _ hs | loop _ _ _ _ _ _ hs =>
    rw [List.map_singleton, hs.pos_eq rfl]
    exact (List.nil_sublist _).cons_cons _
  | call => exact (List.nil_sublist _).cons_cons _
  | next _ _ ih ih' =>
    rw [List.map_append]
    exact ih.append ih'

/-! ## Rows whose words stand somewhere -/

variable (htext : ∀ {t w pos}, stands t w pos → t.IsText w.toList)

include htext

theorem Expr.Row.anchored (h : Expr.Row es ts) (hts : Standing stands ts) :
    ∀ e ∈ es, e.Anchored stands := by
  induction h with
  | number ht => exact List.forall_mem_singleton.mpr (.number (hts.head ht))
  | constant ht hvalue => exact List.forall_mem_singleton.mpr (.constant (hts.head ht) hvalue)
  | var ht => exact List.forall_mem_singleton.mpr (.var (hts.head ht))
  | @call name opening closing args ts ht _ hargs _ ih =>
    have horder : name.pos :: args.map Expr.pos <+
        (name :: opening :: (ts ++ [closing])).map Taken.pos := by
      refine List.Sublist.cons_cons _ (List.Sublist.cons _ ?_)
      rw [List.map_append]
      exact hargs.sublist.trans (List.sublist_append_left ..)
    exact List.forall_mem_singleton.mpr
      (.call (hts.head ht) (ih hts.tail.tail.left) (hts.ordered.sublist horder))
  | parens _ _ _ ih => exact ih hts.tail.left
  | @binary first sign op left right us vs hleft _ hright ihl ihr =>
    rw [← List.cons_append] at hts
    have horder : [left.pos, right.pos] <+ (first :: us ++ sign :: vs).map Taken.pos := by
      rw [List.map_append]
      exact hleft.sublist.append (hright.sublist.cons _)
    have hbefore : left.pos.Before right.pos := by simpa using hts.ordered.sublist horder
    have hpos : first.pos = left.pos ∨ stands .paren "(" first.pos ∧ first.pos.Before left.pos := by
      obtain h | ⟨hparen, hmem⟩ := hleft.first
      · exact .inl h
      · have hword := hts.left.head hparen
        rw [(htext hword).eq_of_fixed? (v := "(") rfl] at hword
        exact .inr ⟨hword, List.rel_of_pairwise_cons hts.left.ordered hmem⟩
    exact List.forall_mem_singleton.mpr (.binary (ihl hts.left _ (.head _))
      (ihr hts.right.tail _ (.head _)) hpos hbefore)
  | comma _ _ _ ih ih' =>
    exact List.forall_mem_cons.mpr ⟨ih hts.left _ (.head _), ih' hts.right.tail⟩

theorem StepRow.anchored {step : Option Expr} (h : StepRow step ts) (hts : Standing stands ts) :
    ∀ e ∈ step, e.Anchored stands := by
  rintro e ⟨⟩
  cases h with
  | given _ h => exact h.anchored htext hts.tail e (.head _)

theorem Stmt.Row.anchored (h : Stmt.Row ss ts) (hts : Standing stands ts) :
    ∀ s ∈ ss, s.Anchored stands := by
  induction h with
  | @assign name sign value s ts ht _ hvalue hs =>
    refine List.forall_mem_singleton.mpr ?_
    cases hs with
    | free _ =>
      have horder : [name.pos, value.pos] <+ (name :: sign :: ts).map Taken.pos :=
        (hvalue.sublist.cons _).cons_cons _
      have hbefore : name.pos.Before value.pos := by simpa using hts.ordered.sublist horder
      exact .assign (hts.head ht) (hvalue.anchored htext hts.tail.tail _ (.head _)) hbefore
    | reserved hvalue => exact .invalidAssignment (hts.head ht) hvalue
  | call ht hopening hargs hclosing =>
    have hcall := Expr.Row.call ht hopening hargs hclosing
    exact List.forall_mem_singleton.mpr (.call (hcall.anchored htext hts _ (.head _)))
  | @loop first name overWord bracket comma close brace last start stop step inclusive body s
      us vs ws xs htokens hstart hstop _ hstep hbody hs ih =>
    have hfirst := hts.head (u := .wordFor) (List.cons.inj htokens).1
    rw [(htext hfirst).eq_of_fixed? (v := "for") rfl] at hfirst
    refine List.forall_mem_singleton.mpr ?_
    cases hs with
    | free _ =>
      have hrest := hts.tail.tail.tail.tail
      have horder : first.pos :: start.pos :: stop.pos ::
          (step.toList.map Expr.pos ++ body.map Stmt.pos) <+
          (first :: name :: overWord :: bracket ::
            (us ++ comma :: (vs ++ close :: (ws ++ brace :: (xs ++ [last]))))).map Taken.pos := by
        refine List.Sublist.cons_cons _ (.cons _ (.cons _ (.cons _ ?_)))
        rw [List.map_append]
        refine hstart.sublist.append (.cons _ ?_)
        rw [List.map_append]
        refine hstop.sublist.append (.cons _ ?_)
        rw [List.map_append]
        refine hstep.sublist.append (.cons _ ?_)
        rw [List.map_append]
        exact hbody.sublist.trans (List.sublist_append_left ..)
      exact .loop hfirst (hstart.anchored htext hrest.left _ (.head _))
        (hstop.anchored htext hrest.right.tail.left _ (.head _))
        (hstep.anchored htext hrest.right.tail.right.tail.left)
        (ih hrest.right.tail.right.tail.right.tail.left) (hts.ordered.sublist horder)
    | reserved hvalue => exact .invalidLoop hfirst hvalue
  | next _ _ ih ih' =>
    exact List.forall_mem_cons.mpr ⟨ih hts.left _ (.head _), ih' hts.right⟩

end Rows

namespace Grammar

/-! ## Words of a text -/

/-- At an offset of a text in pieces stands a word of it, outside of the fillers. -/
def WordAt (ps : List Piece) (i : Nat) (t : Token) (w : List Char) : Prop :=
  ∃ us p vs, ps = us ++ p :: vs ∧ i = (joined us).length + p.space.length ∧ p.token = t ∧ p.word = w

/-- A word of a text in pieces, at its place in the text. -/
def Stands (origin : String) (text : List Char) (ps : List Piece) (t : Token) (w : String)
    (pos : Position) : Prop :=
  ∃ i < text.length, WordAt ps i t w.toList ∧ w.toList <+: text.drop i ∧ pos = placeAt origin text i

section Words

variable {origin : String} {text rest : List Char} {ps : List Piece}

/-- The tokens of pieces are their words, at the places of their offsets. -/
theorem exists_of_mem_taken {i : Nat} {x : Taken} (h : x ∈ taken (cursorAt origin text i) ps) :
    ∃ us p vs, ps = us ++ p :: vs ∧ x.token = p.token ∧ x.lexeme =
      ⟨String.ofList p.word, placeAt origin text (i + ((joined us).length + p.space.length))⟩ := by
  induction ps generalizing i with
  | nil => cases h
  | cons p ps ih =>
    cases h with
    | head =>
      refine ⟨[], p, ps, rfl, rfl, ?_⟩
      rw [← cursorAt_add, cursorAt_position]
      simp
    | tail _ h =>
      rw [← cursorAt_add] at h
      obtain ⟨us, q, vs, rfl, htoken, hlexeme⟩ := ih h
      refine ⟨p :: us, q, vs, rfl, htoken, hlexeme.trans ?_⟩
      rw [joined_cons, List.length_append]
      simp only [Nat.add_assoc]

/-- A word of pieces is a part of the text, and not an empty one. -/
theorem Laid.word_within {us vs : List Piece} {p : Piece} (h : Laid (us ++ p :: vs) rest)
    (htext : text = joined (us ++ p :: vs) ++ rest) :
    (joined us).length + p.space.length < text.length ∧
      p.word <+: text.drop ((joined us).length + p.space.length) := by
  obtain ⟨ch, cs, hword, _⟩ := (laid_append.mp h).2.1.word.exists_cons (laid_append.mp h).2.1.token
  have hsplit : text = (joined us ++ p.space) ++ (p.word ++ (joined vs ++ rest)) := by
    simp [htext, Piece.text]
  rw [← List.length_append]
  refine ⟨?_, ?_⟩
  · simp [hsplit, hword]
  · rw [hsplit, List.drop_left]
    exact List.prefix_append ..

/-- The words of pieces come one after the other. -/
theorem Laid.ordered {i : Nat} (h : Laid ps rest) (htext : text.drop i = joined ps ++ rest) :
    ((taken (cursorAt origin text i) ps).map Taken.pos).Pairwise Position.Before := by
  induction ps generalizing i with
  | nil => exact .nil
  | cons p ps ih =>
    have hrest : text.drop (i + p.text.length) = joined ps ++ rest := by
      rw [← List.drop_drop, htext, joined_cons, List.append_assoc, List.drop_left]
    have hword : p.space.length < p.text.length := by
      obtain ⟨ch, cs, hword, _⟩ := h.1.word.exists_cons h.1.token
      simp [Piece.text, hword]
    rw [taken, ← cursorAt_add, ← cursorAt_add, cursorAt_position]
    refine .cons ?_ (ih h.2 hrest)
    intro pos hpos
    obtain ⟨x, hx, rfl⟩ := List.mem_map.mp hpos
    obtain ⟨us, q, vs, rfl, _, hlexeme⟩ := exists_of_mem_taken hx
    have hlt := (h.2.word_within hrest).1
    rw [List.length_drop] at hlt
    rw [show x.pos = _ from congrArg Lexeme.pos hlexeme]
    exact placeAt_before (by omega) (by omega)

/-- The words of a text stand in it, in the order of the pieces. -/
theorem Laid.standing (h : Laid ps rest) (htext : text = joined ps ++ rest) :
    Standing (Stands origin text ps) (taken (Cursor.start origin text) ps) where
  stands x hx := by
    obtain ⟨us, p, vs, rfl, htoken, hlexeme⟩ := exists_of_mem_taken (i := 0) hx
    obtain ⟨hlt, hword⟩ := h.word_within htext
    refine ⟨_, hlt, ⟨us, p, vs, rfl, rfl, htoken.symm, ?_⟩, ?_, ?_⟩
    · simp [hlexeme]
    · simpa [hlexeme] using hword
    · simp [Taken.pos, hlexeme]
  ordered := h.ordered (i := 0) htext

theorem Stands.isText (h : Laid ps rest) {t : Token} {w : String} {pos : Position}
    (hw : Stands origin text ps t w pos) : t.IsText w.toList := by
  obtain ⟨i, _, ⟨us, p, vs, rfl, _, rfl, hword⟩, _⟩ := hw
  exact hword ▸ (laid_append.mp h).2.1.word

end Words

end Grammar

/-- Every node of a parsed program has the place of an offset in the text where the word stands that
the node starts with. These words are the tokens that were read, with only fillers between them, and
the places of statements, of the parts of a loop, of the arguments of a call and of the operands of
an operation are in the order of the text. -/
theorem parse_anchored {origin text : String} {ss : List Stmt} (h : parse origin text = .ok ss) :
    ∃ ps rest, text.toList = joined ps ++ rest ∧ Laid ps rest ∧ Trailing rest ∧
      (∃ z d, Takes grammar program (Cursor.start origin text.toList) ss d
        (taken (Cursor.start origin text.toList) ps ++ [z])) ∧
      (∀ s ∈ ss, s.Anchored (Stands origin text.toList ps)) ∧
      (ss.map Stmt.pos).Pairwise Position.Before := by
  obtain ⟨ts, d, htakes⟩ := parse_eq_ok_iff_takes.mp h
  obtain ⟨ps, rest, z, rfl, _, htext, hps, hrest, hspells⟩ := htakes.exists_pieces
  have hrow := hspells.row_stmts
  have hstanding : Standing (Stands origin text.toList ps) _ := hps.standing htext
  exact ⟨ps, rest, htext, hps, hrest, ⟨z, d, htakes⟩,
    hrow.anchored (fun h => h.isText hps) hstanding, hstanding.ordered.sublist hrow.sublist⟩

/-- A sum in the second line, after a comment that has a call in it. The sum starts with a
parenthesis. -/
def commentedSum : String := "f(// g(1)\n(x) + 2)"

theorem exists_parse_commentedSum : ∃ ss, parse "" commentedSum = .ok ss ∧
    ∃ ps rest, commentedSum.toList = joined ps ++ rest ∧ Laid ps rest ∧ Trailing rest ∧
      (∃ z d, Takes grammar program (Cursor.start "" commentedSum.toList) ss d
        (taken (Cursor.start "" commentedSum.toList) ps ++ [z])) ∧
      (∀ s ∈ ss, s.Anchored (Stands "" commentedSum.toList ps)) ∧
      (ss.map Stmt.pos).Pairwise Position.Before := by
  obtain ⟨ss, hss⟩ := exists_eq_ok (x := parse "" commentedSum) (by decide +kernel)
  exact ⟨ss, hss, parse_anchored hss⟩

end PolarPlot

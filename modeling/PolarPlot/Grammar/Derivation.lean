import PolarPlot.Grammar.Rules

/-!
# What a grammar derives

The meaning of parsing expressions as a relation, with no bound on nesting and no record of
failures. `Derives grammar p c (some (a, d))` says that `p` takes the text from `c` up to `d` and
builds `a`, and `Derives grammar p c none` that `p` does not match at `c`. Failure is derived like
success, because an ordered choice goes on, and a repetition ends, only after one.
-/

namespace PolarPlot.Grammar

variable {R : Type → Type} {α β : Type}

/-- A token at a place: blanks and comments go before it. -/
inductive Reads (t : Token) (c : Cursor) : Option (Lexeme × Cursor) → Prop where
  | found {n : Nat} : t.length? (skipLayout c).rest = some n →
      Reads t c (some (⟨String.ofList ((skipLayout c).rest.take n), (skipLayout c).position⟩,
        (skipLayout c).advance n))
  | missing : t.length? (skipLayout c).rest = none → Reads t c none

inductive Derives (grammar : (α : Type) → R α → Peg R α) :
    {α : Type} → Peg R α → Cursor → Option (α × Cursor) → Prop where
  | token {t : Token} {c : Cursor} {o : Option (Lexeme × Cursor)} :
      Reads t c o → Derives grammar (.token t) c o
  | rule {α : Type} {r : R α} {c : Cursor} {o : Option (α × Cursor)} :
      Derives grammar (grammar α r) c o → Derives grammar (.rule r) c o
  | seq {α β : Type} {p : Peg R α} {q : Peg R β} {c d e : Cursor} {a : α} {b : β} :
      Derives grammar p c (some (a, d)) → Derives grammar q d (some (b, e)) →
      Derives grammar (.seq p q) c (some ((a, b), e))
  | seqFirst {α β : Type} {p : Peg R α} {q : Peg R β} {c : Cursor} :
      Derives grammar p c none → Derives grammar (.seq p q) c none
  | seqSecond {α β : Type} {p : Peg R α} {q : Peg R β} {c d : Cursor} {a : α} :
      Derives grammar p c (some (a, d)) → Derives grammar q d none →
      Derives grammar (.seq p q) c none
  | choiceFirst {α : Type} {p q : Peg R α} {c d : Cursor} {a : α} :
      Derives grammar p c (some (a, d)) → Derives grammar (.choice p q) c (some (a, d))
  | choiceSecond {α : Type} {p q : Peg R α} {c : Cursor} {o : Option (α × Cursor)} :
      Derives grammar p c none → Derives grammar q c o → Derives grammar (.choice p q) c o
  | manyEnd {α : Type} {p : Peg R α} {c : Cursor} :
      Derives grammar p c none → Derives grammar (.many p) c (some ([], c))
  | manyNext {α : Type} {p : Peg R α} {c d e : Cursor} {a : α} {as : List α} :
      Derives grammar p c (some (a, d)) → Derives grammar (.many p) d (some (as, e)) →
      Derives grammar (.many p) c (some (a :: as, e))
  | optionOne {α : Type} {p : Peg R α} {c d : Cursor} {a : α} :
      Derives grammar p c (some (a, d)) → Derives grammar (.option p) c (some (some a, d))
  | optionNone {α : Type} {p : Peg R α} {c : Cursor} :
      Derives grammar p c none → Derives grammar (.option p) c (some (none, c))
  | map {α β : Type} {f : α → β} {p : Peg R α} {c d : Cursor} {a : α} :
      Derives grammar p c (some (a, d)) → Derives grammar (.map f p) c (some (f a, d))
  | mapNone {α β : Type} {f : α → β} {p : Peg R α} {c : Cursor} :
      Derives grammar p c none → Derives grammar (.map f p) c none

/-- A whole text is a program: the program rule takes it all, its end included. -/
def IsProgram (origin : String) (text : List Char) (statements : List Stmt) : Prop :=
  ∃ d, Derives grammar program (Cursor.start origin text) (some (statements, d))

/-- A text is no program. -/
def IsNoProgram (origin : String) (text : List Char) : Prop :=
  Derives grammar program (Cursor.start origin text) none

end PolarPlot.Grammar

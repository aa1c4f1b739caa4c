import PolarPlot.Proofs.Lookahead

/-!
# Programs are what their tokens spell

If a text reads as a row of tokens, and the tokens spell a program, then the grammar takes these
tokens and no others from the text (`takes_of_spells`). So the order of the alternatives, the greed
of repetitions and keywords that run on into words never lead to another reading: the first token
after a phrase always tells that the phrase is over, and a word that starts like a loop is followed
by something that no loop has there.
-/

namespace PolarPlot.Grammar

open Text

/-! ## Words -/

theorem char_le_iff {a b : Char} : a ≤ b ↔ a.toNat ≤ b.toNat := Iff.rfl

theorem isDigit_of_opens_name {ch : Char} (h : Token.name.opens ch) : isDigit ch = false := by
  have hch : ch.toNat < 0x660 ∧ ¬ (48 ≤ ch.toNat ∧ ch.toNat ≤ 57) := by
    simp only [Token.opens, isLatin, isGreek, Bool.or_eq_true, Bool.and_eq_true, decide_eq_true_eq,
      char_le_iff, Char.reduceToNat] at h
    obtain (h | h) | rfl := h
    · omega
    · omega
    · decide
  have hzero : ¬ ('0' ≤ ch ∧ ch ≤ '9') := hch.2
  simp [isDigit, digit?, hzero, hch.1]

theorem number_opens_of_name {ch : Char} (h : Token.name.opens ch) :
    Token.number.opens ch = false := by
  have hplus : ch ≠ '+' := by rintro rfl; cases h
  have hminus : ch ≠ '-' := by rintro rfl; cases h
  have hpoint : ch ≠ '.' := by rintro rfl; cases h
  simp [Token.opens, isDigit_of_opens_name h, hplus, hminus, hpoint]

/-- What a token reads. -/
theorem Reads.text {t : Token} {c d : Cursor} {l : Lexeme} (h : Reads t c (some (l, d)))
    (ht : t ≠ .eof) : ∃ w rest, (skipLayout c).rest = w ++ rest ∧ t.IsText w ∧
      l = ⟨String.ofList w, (skipLayout c).position⟩ ∧ d = (skipLayout c).advance w.length ∧
      ∀ y ∈ rest.head?, y ≠ '.' → t.lengthens y = false := by
  cases h with
  | found h =>
    obtain ⟨w, rest, he, rfl, hw, hr⟩ := Token.isText_of_length? h ht
    exact ⟨w, rest, he, hw, by simp [he], rfl, hr⟩

theorem reads_of_text {t : Token} {c : Cursor} {w rest : List Char}
    (hc : (skipLayout c).rest = w ++ rest) (h : t.length? (w ++ rest) = some w.length) :
    Reads t c
      (some (⟨String.ofList w, (skipLayout c).position⟩, (skipLayout c).advance w.length)) := by
  have hfound := Reads.found (t := t) (c := c) (n := w.length) (by rw [hc, h])
  simpa [hc] using hfound

/-- In the middle of a word there is neither a blank nor a comment. -/
theorem skipLayout_of_lengthens {c : Cursor} {ch : Char} {cs : List Char} (hc : c.rest = ch :: cs)
    (h : Token.name.lengthens ch) : skipLayout c = c := by
  have hslash : ch ≠ '/' := by rintro rfl; cases h
  apply skipLayout_of_settled
  rw [hc]
  refine ⟨?_, ?_⟩
  · rintro _ ⟨⟩
    rw [Bool.eq_false_iff]
    intro hl
    simp only [isLayout, Bool.or_eq_true, decide_eq_true_eq] at hl
    obtain ((rfl | rfl) | rfl) | rfl := hl <;> cases h
  · cases hl : commentLength? (ch :: cs) with
    | none => rfl
    | some n =>
      obtain ⟨_, _, he, _⟩ | ⟨_, _, he, _⟩ := commentLength?_cases hl <;>
        exact absurd (List.cons.inj he).1 hslash

/-- A token of word characters that is read where a name is takes a part of the name. -/
theorem name_split {w w' rest rest' : List Char} (hw : Token.name.IsText w)
    (hr : ∀ y ∈ rest.head?, Token.name.lengthens y = false)
    (hw' : ∀ ch ∈ w'.tail, Token.name.lengthens ch) (he : w ++ rest = w' ++ rest') :
    ∃ v, w = w' ++ v ∧ rest' = v ++ rest := by
  obtain ⟨a, rfl, rfl⟩ | h := List.append_eq_append_iff.mp he
  · obtain ⟨c, ds, rfl, _⟩ := hw
    cases a with
    | nil => exact ⟨[], by simp, rfl⟩
    | cons y a =>
      have hy : Token.name.lengthens y := hw' y (by simp)
      simp [hr y rfl] at hy
  · exact h

/-- Within a name, another token ends with it or before one of its characters. -/
theorem Reads.within_name {u : Token} {c d e : Cursor} {l l' : Lexeme}
    (h : Reads .name c (some (l, d))) (h' : Reads u c (some (l', e))) (hu : u ≠ .eof)
    (hword : ∀ w, u.IsText w → ∀ ch ∈ w.tail, Token.name.lengthens ch) :
    e = d ∨ ∃ ch cs rest, e.rest = ch :: cs ++ rest ∧ d = e.advance (ch :: cs).length ∧
      (∀ x ∈ ch :: cs, Token.name.lengthens x) ∧
      ∀ y ∈ rest.head?, Token.name.lengthens y = false := by
  obtain ⟨w, rest, hc, hw, rfl, rfl, hr⟩ := h.text (by simp)
  obtain ⟨w', rest', hc', hw', rfl, rfl, _⟩ := h'.text hu
  have hstop : ∀ y ∈ rest.head?, Token.name.lengthens y = false := by
    intro y hy
    by_cases hpoint : y = '.'
    · subst hpoint; decide
    · exact hr y hy hpoint
  -- The name is the other word and a rest `v` that only a name can take.
  obtain ⟨v, hv, rfl⟩ := name_split hw hstop (hword w' hw') (hc.symm.trans hc')
  cases v with
  | nil =>
    left
    rw [hv, List.append_nil]
  | cons ch cs =>
    refine .inr ⟨ch, cs, rest, by simp [hc'], ?_, ?_, hstop⟩
    · rw [hv, List.length_append, Cursor.advance_add]
    · obtain ⟨x, ds, rfl, _⟩ := hw'.exists_cons hu
      obtain ⟨y, es, hy, _, hes⟩ := hw
      rw [hv] at hy
      obtain ⟨rfl, rfl⟩ := List.cons.inj hy
      intro z hz
      exact hes z (List.mem_append_right _ hz)

/-- A call starts with a word and a parenthesis: it fails where a name is not followed by one. -/
theorem call_fails {c d : Cursor} {l : Lexeme} (h : Reads .name c (some (l, d)))
    (hd : Lacks .paren d) : Derives grammar call c none := by
  cases hf : Token.function.length? (skipLayout c).rest with
  | none => exact .seqFirst (.token (.missing hf))
  | some n =>
    refine .seqSecond (.token (.found hf)) (.mapNone (.seqFirst ?_))
    apply Lacks.derives
    obtain he | ⟨ch, cs, rest, he, _, hch, _⟩ := h.within_name (.found hf) (by simp) (by
      rintro _ ⟨x, ds, rfl, _, hds⟩ y hy
      have hy := hds y hy
      simp only [Bool.or_eq_true] at hy
      simp only [Token.lengthens, Bool.or_eq_true]
      tauto)
    · rwa [he]
    · have hch := hch ch (.head _)
      have hset := skipLayout_of_lengthens he hch
      refine lacks_of_opens (by rw [hset]; exact he) ?_
      rw [Bool.eq_false_iff]
      intro hopen
      obtain rfl : ch = '(' := by simpa [Token.opens] using hopen
      cases hch

/-- A loop starts with a keyword and two words. The keyword may run on into the name of its
variable, but where a name as a whole is followed by neither a name nor `over`, no loop starts. -/
theorem loop_fails {c d : Cursor} {l : Lexeme} (h : Reads .name c (some (l, d)))
    (hd : Lacks .name d) (hover : Lacks .wordOver d) : Derives grammar loop c none := by
  refine .mapNone ?_
  cases hf : Token.wordFor.length? (skipLayout c).rest with
  | none => exact .seqFirst (.token (.missing hf))
  | some n =>
    refine .seqSecond (.token (.found hf)) ?_
    obtain he | ⟨ch, cs, rest, he, rfl, hchs, hr⟩ := h.within_name (.found hf) (by simp) (by
      rintro _ ⟨⟩ x hx
      simp only [List.tail_cons, List.mem_cons, List.not_mem_nil, or_false] at hx
      obtain rfl | rfl := hx <;> rfl)
    · rw [he]
      exact .seqFirst hd.derives
    · generalize (skipLayout c).advance n = e at *
      have hset := skipLayout_of_lengthens he (hchs ch (.head _))
      by_cases hch : Token.name.opens ch
      · -- the rest of the word is a name as well, and it ends where the word does
        have hlen : Token.name.length? (ch :: cs ++ rest) = some (ch :: cs).length :=
          Token.IsText.length? ⟨ch, cs, rfl, hch, fun x hx => hchs x (.tail _ hx)⟩ (by simp) hr
        have hread := reads_of_text (by rw [hset, he]) hlen
        rw [hset] at hread
        exact .seqSecond (.token hread) (.mapNone (.seqFirst hover.derives))
      · refine .seqFirst (Lacks.derives (lacks_of_opens (by rw [hset]; exact he) ?_))
        simpa using hch

/-- Before a parenthesis a function is read as a name. -/
theorem Reads.name_of_function {c d e : Cursor} {l l' : Lexeme}
    (h : Reads .function c (some (l, d))) (h' : Reads .paren d (some (l', e))) :
    Reads .name c (some (l, d)) := by
  obtain ⟨w, rest, hc, hw, rfl, rfl, hr⟩ := h.text (by simp)
  refine reads_of_text hc (Token.IsText.length? ?_ (by simp) fun y hy => ?_)
  · obtain ⟨x, ds, rfl, hx, hds⟩ := hw
    refine ⟨x, ds, rfl, by simp [hx], fun y hy => ?_⟩
    have hy := hds y hy
    simp only [Bool.or_eq_true] at hy ⊢
    tauto
  · rw [Bool.eq_false_iff]
    intro hlen
    obtain ⟨ys, rfl⟩ : ∃ ys, rest = y :: ys := by
      cases rest with
      | nil => cases hy
      | cons z zs =>
        cases hy
        exact ⟨zs, rfl⟩
    have hrest : ((skipLayout c).advance w.length).rest = y :: ys := by simp [hc]
    have hset := skipLayout_of_lengthens hrest hlen
    obtain ⟨ch, cs, hcs, hch⟩ := h'.exists_cons (by simp)
    rw [hset, hrest] at hcs
    obtain rfl : ch = '(' := by simpa [Token.opens] using hch
    cases hcs
    cases hlen

/-! ## Outlines -/

/-- The outlines of the rules. -/
def Rule.outline : {α : Type} → Rule α → Outline
  | _, .expr => ⟨false, [.number, .function, .name, .paren], [.number, .endParen, .name]⟩
  | _, .stmt => ⟨false, [.wordFor, .name, .function], [.endBrace, .number, .endParen, .name]⟩

theorem grammar_outline {α : Type} (r : Rule α) :
    ((grammar α r).outline Rule.outline).Within r.outline := by
  cases r <;> constructor <;> decide

/-- A phrase that is not empty starts with one of its first tokens. -/
theorem Spells.exists_reads {α : Type} {p : Pattern α} {a : α} {ts : List Taken} {c d : Cursor}
    (h : Spells grammar p a ts) (hr : Reading c ts d)
    (hp : (p.outline Rule.outline).empty = false) :
    ∃ u ∈ (p.outline Rule.outline).first, ∃ l e, Reads u c (some (l, e)) := by
  have hfits := h.fits grammar_outline
  cases hr with
  | nil => simp [hfits.empty rfl] at hp
  | cons hread _ => exact ⟨_, hfits.first _ rfl, _, _, hread⟩

/-- The first two tokens of a phrase that starts with two. -/
theorem Spells.reads_two {α : Type} {t u : Token} {q : Pattern α} {a : Lexeme × α} {ts : List Taken}
    {c d : Cursor} (h : Spells grammar ((Peg.token t).seq ((Peg.token u).andThen q)) a ts)
    (hr : Reading c ts d) : ∃ l m l' e, Reads t c (some (l, m)) ∧ Reads u m (some (l', e)) := by
  obtain ⟨us, vs, rfl, hs, hs'⟩ := spells_seq.mp h
  obtain ⟨_, rfl⟩ := spells_token.mp hs
  obtain ⟨_, _, hs'⟩ := spells_map.mp hs'
  obtain ⟨us, ws, rfl, hs, _⟩ := spells_seq.mp hs'
  obtain ⟨_, rfl⟩ := spells_token.mp hs
  cases hr with
  | cons h hr =>
    cases hr with
    | cons h' _ => exact ⟨_, _, _, _, h, h'⟩

theorem lacks_number {u : Token} {c d : Cursor} {l : Lexeme} (h : Reads u c (some (l, d)))
    (hu : u ∈ [Token.function, .name, .paren]) : Lacks .number c := by
  have hname : ∀ {ch cs}, (skipLayout c).rest = ch :: cs → Token.name.opens ch → Lacks .number c :=
    fun hc hch => lacks_of_opens hc (number_opens_of_name hch)
  simp only [List.mem_cons, List.not_mem_nil, or_false] at hu
  obtain rfl | rfl | rfl := hu
  · obtain ⟨ch, cs, hc, hch⟩ := h.exists_cons (by simp)
    have hlatin : isLatin ch := hch
    exact hname hc (by simp [Token.opens, hlatin])
  · obtain ⟨ch, cs, hc, hch⟩ := h.exists_cons (by simp)
    exact hname hc hch
  · exact h.lacks rfl

/-! ## Expressions

After an expression no parenthesis and no operator may come: it would belong to the expression. -/

/-- What is not part of a factor, a term or an expression that is over. -/
def afterExpr : List Token := [.paren, .multiply, .divide, .add, .subtract]

section Complete

variable {n : Nat} {after : List Token}

theorem complete_operators (t u : Token) (hb : u.bars t) (op op' : Operator) :
    Complete grammar n [] ((operator t op).choice (operator u op')) := by
  refine .choice (.map (.token t)) (.map (.token u)) fun hs hr _ => ?_
  obtain ⟨_, _, hs⟩ := spells_map.mp hs
  obtain ⟨_, rfl⟩ := spells_token.mp hs
  cases hr with
  | cons h _ => exact .mapNone (h.lacks hb).derives

/-- Operands with two operators between them. The operators come to what may not follow. -/
theorem complete_operands {p : Pattern Operand} {barred : List Token} (t u : Token) (hb : u.bars t)
    (op op' : Operator) (hp : Complete grammar n barred p)
    (hnext : ((((operator t op).choice (operator u op')).seq p).many.outline Rule.outline).bars
      barred (barred ++ [t, u])) :
    Complete grammar n (barred ++ [t, u])
      (p.seq (((operator t op).choice (operator u op')).seq p).many) := by
  have hpair : Complete grammar n barred (((operator t op).choice (operator u op')).seq p) :=
    .seq grammar_outline (complete_operators t u hb op op') hp (by simp [Outline.bars])
  refine .seq grammar_outline hp (.many grammar_outline hpair hnext ?_) hnext
  intro c hc
  refine .seqFirst (.choiceSecond (.mapNone (Lacks.derives ?_)) (.mapNone (Lacks.derives ?_)))
  · exact hc t (by simp)
  · exact hc u (by simp)

variable (hexpr : Complete grammar n afterExpr (.rule Rule.expr))

include hexpr

theorem complete_arguments : Complete grammar n (.comma :: afterExpr) arguments := by
  have hnext : Complete grammar n afterExpr ((Peg.token .comma).andThen (.rule Rule.expr)) :=
    .map (.tokenSeq hexpr)
  refine .map (.seq grammar_outline hexpr (.many grammar_outline hnext rfl ?_) rfl)
  intro c hc
  exact .mapNone (.seqFirst (hc .comma (.head _)).derives)

theorem complete_call : Complete grammar (n + 1) after call := by
  refine .guard (.map (.tokenSeq (.map ?_)))
  exact .seq grammar_outline (complete_arguments hexpr) (.token _) rfl

theorem complete_factor : Complete grammar (n + 1) [.paren] factor := by
  have hparen : Complete grammar (n + 1) [.paren] parenthesized :=
    .map (.guard (.map (.seq grammar_outline hexpr (.token _) rfl)))
  refine .choice (.map (.token _)) (.choice (.map (complete_call hexpr)) (.choice (.map (.token _))
    hparen ?_) ?_) ?_
  -- Each alternative fails where a later one is read. Only a name could be taken for the start of a
  -- call, and there it is the token after the name that decides.
  · intro a ts c d hs hr _
    obtain ⟨u, hu, l, e, h⟩ := hs.exists_reads hr rfl
    obtain rfl : u = .paren := by simpa [parenthesized, Peg.outline] using hu
    exact .mapNone (h.lacks rfl).derives
  · intro a ts c d hs hr hd
    obtain hs | hs := spells_choice.mp hs
    · obtain ⟨_, _, hs⟩ := spells_map.mp hs
      obtain ⟨_, rfl⟩ := spells_token.mp hs
      cases hr with
      | cons h hr =>
        cases hr
        exact .mapNone (call_fails h (hd .paren (.head _)))
    · obtain ⟨u, hu, l, e, h⟩ := hs.exists_reads hr rfl
      obtain rfl : u = .paren := by simpa [parenthesized, Peg.outline] using hu
      have hlacks : Lacks .function c := h.lacks rfl
      exact .mapNone (.seqFirst hlacks.derives)
  · intro a ts c d hs hr _
    obtain ⟨u, hu, l, e, h⟩ := hs.exists_reads hr rfl
    exact .mapNone (lacks_number h hu).derives

theorem complete_expr : Complete grammar (n + 1) afterExpr (.rule Rule.expr) := by
  have hterm : Complete grammar (n + 1) [.paren, .multiply, .divide] term :=
    .map (complete_operands .multiply .divide rfl _ _ (complete_factor hexpr) rfl)
  exact .rule (.map (complete_operands .add .subtract rfl _ _ hterm rfl))

end Complete

theorem complete_zero {α : Type} {r : Rule α} {barred : List Token} (hr : r.outline.empty = false) :
    Complete grammar 0 barred (.rule r) := by
  refine ⟨fun hn hs _ _ => ?_⟩
  have hnil := List.eq_nil_of_length_eq_zero (Nat.le_zero.mp hn)
  have hempty : r.outline.empty := (hs.fits grammar_outline).empty (by simp [hnil])
  simp [hr] at hempty

/-- The induction is on the number of tokens. -/
theorem complete_expr_all (n : Nat) : Complete grammar n afterExpr (.rule Rule.expr) := by
  induction n with
  | zero => exact complete_zero rfl
  | succ n ih => exact complete_expr ih

/-! ## Statements -/

/-- What is not part of a list of statements that is over. -/
def afterStmts : List Token := [.wordFor, .name, .function] ++ afterExpr

section Complete

variable {n : Nat} (hstmt : Complete grammar n afterExpr (.rule Rule.stmt))

include hstmt

theorem complete_stmts : Complete grammar n afterStmts (Peg.rule Rule.stmt).some := by
  refine .map (.seq grammar_outline hstmt (.many grammar_outline hstmt rfl ?_) rfl)
  intro c hc
  have hlacks : ∀ t ∈ afterStmts, ∀ {β : Type} {q : Pattern β},
      Derives grammar ((Peg.token t).seq q) c none := fun t ht _ _ => .seqFirst (hc t ht).derives
  refine .rule (.choiceSecond (.mapNone ?_) (.choiceSecond (.mapNone ?_) (.mapNone ?_)))
  · exact hlacks .wordFor (by simp [afterStmts])
  · exact hlacks .name (by simp [afterStmts])
  · exact hlacks .function (by simp [afterStmts])

theorem complete_loop : Complete grammar (n + 1) afterExpr loop := by
  have hexpr := complete_expr_all n
  have hstep : Complete grammar n (.wordBy :: afterExpr) step.option := by
    refine .option (.map (.tokenSeq hexpr)) rfl ?_
    intro c hc
    exact .mapNone (.seqFirst (hc .wordBy (.head _)).derives)
  have hblock : Complete grammar n afterExpr block :=
    .map (.tokenSeq (.map (.seq grammar_outline (complete_stmts hstmt) (.token _) rfl)))
  refine .map (.guard <| .tokenSeq <| .map <| .tokenSeq <| .map <| .tokenSeq ?_)
  refine .seq grammar_outline hexpr (.map (.tokenSeq ?_)) rfl
  refine .seq grammar_outline hexpr (.tokenSeq ?_) rfl
  exact .seq grammar_outline hstep hblock rfl

theorem complete_stmt : Complete grammar (n + 1) afterExpr (.rule Rule.stmt) := by
  have hassign : Complete grammar (n + 1) afterExpr assignment :=
    .map (.tokenSeq (.map (.tokenSeq (complete_expr_all _))))
  have hcall : Complete grammar (n + 1) afterExpr callStatement :=
    .map (complete_call (complete_expr_all n))
  refine .rule (.choice (complete_loop hstmt) (.choice hassign hcall ?_) ?_)
  · intro s ts c d hs hr _
    obtain ⟨_, _, hs⟩ := spells_map.mp hs
    obtain ⟨l, m, l', e, h, h'⟩ := hs.reads_two hr
    have hlacks : Lacks .assign m := h'.lacks rfl
    exact .mapNone
      (.seqSecond (.token (h.name_of_function h')) (.mapNone (.seqFirst hlacks.derives)))
  · intro s ts c d hs hr _
    obtain hs | hs := spells_choice.mp hs
    · obtain ⟨_, _, hs⟩ := spells_map.mp hs
      obtain ⟨l, m, l', e, h, h'⟩ := hs.reads_two hr
      exact loop_fails h (h'.lacks rfl) (h'.lacks rfl)
    · obtain ⟨_, _, hs⟩ := spells_map.mp hs
      obtain ⟨l, m, l', e, h, h'⟩ := hs.reads_two hr
      exact loop_fails (h.name_of_function h') (h'.lacks rfl) (h'.lacks rfl)

end Complete

theorem complete_stmt_all (n : Nat) : Complete grammar n afterExpr (.rule Rule.stmt) := by
  induction n with
  | zero => exact complete_zero rfl
  | succ n ih => exact complete_stmt ih

/-- What the tokens of a text spell is what is taken from the text. -/
theorem takes_of_spells {ss : List Stmt} {ts : List Taken} {c d : Cursor}
    (hs : Spells grammar program ss ts) (hr : Reading c ts d) :
    Takes grammar program c ss d ts := by
  have hprogram : Complete grammar ts.length [] program :=
    .map (.seq grammar_outline (complete_stmts (complete_stmt_all _)) (.token _) rfl)
  exact hprogram.takes (Nat.le_refl _) hs hr (fun _ h => nomatch h)

end PolarPlot.Grammar

import PolarPlot.Proofs.ErrorChain
import PolarPlot.Proofs.Recognition

/-!
# Programs from text

A program that was parsed is plain (`parse_plain`): it has an expression wherever one belongs, a
statement wherever one belongs, words for names, and places in its text. So it is well formed. A
well formed program that fails does so for a cause that is reported, as long as its target does
(`Halts.isReported`). Errors of the output come from the target alone (`Stmt.execAll_blames`).
-/

namespace PolarPlot

mutual

/-- Whether all parts of a statement are what they should be. -/
def Stmt.wellFormed : Stmt → Bool
  | .assign _ _ value => value.hasText
  | .call _ e => e.hasText
  | .loop _ _ start stop step _ body =>
    start.hasText && stop.hasText && step.all Expr.hasText && Stmt.allWellFormed body
  | .invalid _ _ _ => true
  | .misfit _ => false

def Stmt.allWellFormed : List Stmt → Bool
  | [] => true
  | s :: ss => s.wellFormed && Stmt.allWellFormed ss

end

@[simp] theorem Expr.haveTexts_eq (es : List Expr) : Expr.haveTexts es = es.all Expr.hasText := by
  induction es with
  | nil => rfl
  | cons e es ih => rw [haveTexts, ih, List.all_cons]

@[simp] theorem Stmt.allWellFormed_eq (ss : List Stmt) :
    Stmt.allWellFormed ss = ss.all Stmt.wellFormed := by
  induction ss with
  | nil => rfl
  | cons s ss ih => rw [allWellFormed, ih, List.all_cons]

/-! ## Plain programs -/

mutual

/-- An expression that is all there, with words for names and with good places. -/
def Expr.Plain (good : Position → Prop) : Expr → Prop
  | .var pos name => good pos ∧ name.isWord
  | .const pos _ => good pos
  | .binary pos _ left right => good pos ∧ left.Plain good ∧ right.Plain good
  | .call pos name args => good pos ∧ name.isWord ∧ Expr.AllPlain good args
  | .misfit _ => False

def Expr.AllPlain (good : Position → Prop) : List Expr → Prop
  | [] => True
  | e :: es => e.Plain good ∧ Expr.AllPlain good es

end

mutual

/-- A statement that is all there, with words for names and with good places. -/
def Stmt.Plain (good : Position → Prop) : Stmt → Prop
  | .assign pos name value => good pos ∧ name.isWord ∧ value.Plain good
  | .call pos e => good pos ∧ e.Plain good
  | .loop pos name start stop step _ body =>
    good pos ∧ name.isWord ∧ start.Plain good ∧ stop.Plain good ∧ (∀ e ∈ step, e.Plain good) ∧
      Stmt.AllPlain good body
  | .invalid pos _ phase => good pos ∧ phase.isWord
  | .misfit _ => False

def Stmt.AllPlain (good : Position → Prop) : List Stmt → Prop
  | [] => True
  | s :: ss => s.Plain good ∧ Stmt.AllPlain good ss

end

section Plain

variable {good : Position → Prop}

@[simp] theorem Expr.allPlain_iff {es : List Expr} :
    Expr.AllPlain good es ↔ ∀ e ∈ es, e.Plain good := by
  induction es with
  | nil => simp [AllPlain]
  | cons e es ih => rw [AllPlain, ih, List.forall_mem_cons]

@[simp] theorem Stmt.allPlain_iff {ss : List Stmt} :
    Stmt.AllPlain good ss ↔ ∀ s ∈ ss, s.Plain good := by
  induction ss with
  | nil => simp [AllPlain]
  | cons s ss ih => rw [AllPlain, ih, List.forall_mem_cons]

theorem Expr.Plain.hasText {e : Expr} (h : e.Plain good) : e.hasText := by
  induction e with
  | var pos name => exact h.2
  | const pos value => rfl
  | binary pos op left right ihl ihr =>
    rw [Expr.hasText, ihl h.2.1, ihr h.2.2]
    rfl
  | call pos name args ih =>
    rw [Expr.hasText, haveTexts_eq, List.all_eq_true]
    exact fun e he => ih e he (allPlain_iff.mp h.2.2 e he)
  | misfit what => cases h

theorem Stmt.Plain.wellFormed {s : Stmt} (h : s.Plain good) : s.wellFormed := by
  induction s with
  | assign pos name value => exact h.2.2.hasText
  | call pos e => exact h.2.hasText
  | loop pos name start stop step inclusive body ih =>
    obtain ⟨-, -, hstart, hstop, hstep, hbody⟩ := h
    have hstep : step.all Expr.hasText := by
      cases step with
      | none => rfl
      | some e => exact (hstep e rfl).hasText
    have hbody : body.all Stmt.wellFormed :=
      List.all_eq_true.mpr fun s hs => ih s hs (allPlain_iff.mp hbody s hs)
    simp [Stmt.wellFormed, hstart.hasText, hstop.hasText, hstep, hbody]
  | invalid pos message phase => rfl
  | misfit what => cases h

end Plain

/-! ## Programs from lexemes -/

section Built

open Grammar

/-- An expression whose names and places are those of lexemes that have a property. -/
inductive Expr.Built (lexemes : Lexeme → Prop) : Expr → Prop where
  | var {l : Lexeme} : lexemes l → Built lexemes (.var l.pos l.text)
  | const {l : Lexeme} (value : Float) : lexemes l → Built lexemes (.const l.pos value)
  | binary {l : Lexeme} (op : Operator) {left right : Expr} : lexemes l → Built lexemes left →
    Built lexemes right → Built lexemes (.binary l.pos op left right)
  | call {l : Lexeme} {args : List Expr} : lexemes l → (∀ e ∈ args, Built lexemes e) →
    Built lexemes (.call l.pos l.text args)

/-- A statement whose names and places are those of lexemes that have a property. -/
inductive Stmt.Built (lexemes : Lexeme → Prop) : Stmt → Prop where
  | assign {l : Lexeme} {value : Expr} : lexemes l → value.Built lexemes →
    Built lexemes (.assign l.pos l.text value)
  | call {l : Lexeme} {e : Expr} : lexemes l → e.Built lexemes → Built lexemes (.call l.pos e)
  | loop {l name : Lexeme} {start stop : Expr} {step : Option Expr} (inclusive : Bool)
      {body : List Stmt} :
    lexemes l → lexemes name → start.Built lexemes → stop.Built lexemes →
    (∀ e ∈ step, e.Built lexemes) →
    (∀ s ∈ body, Built lexemes s) →
    Built lexemes (.loop l.pos name.text start stop step inclusive body)
  | invalid {l : Lexeme} {name : String} {value : Float} {phase : String} : lexemes l →
    reserved? name = some value → phase = Phase.assignment ∨ phase = Phase.loop →
    Built lexemes (reservedTarget l.pos value phase)

variable {lexemes : Lexeme → Prop} {good : Position → Prop}

theorem Expr.Built.plain {e : Expr} (h : e.Built lexemes) (hgood : ∀ l, lexemes l → good l.pos) :
    e.Plain good := by
  induction h with
  | var hl => exact ⟨hgood _ hl, rfl⟩
  | const _ hl => exact hgood _ hl
  | binary _ hl _ _ ihl ihr => exact ⟨hgood _ hl, ihl, ihr⟩
  | call hl _ ih => exact ⟨hgood _ hl, rfl, Expr.allPlain_iff.mpr ih⟩

theorem Stmt.Built.plain {s : Stmt} (h : s.Built lexemes) (hgood : ∀ l, lexemes l → good l.pos) :
    s.Plain good := by
  induction h with
  | assign hl hvalue => exact ⟨hgood _ hl, rfl, hvalue.plain hgood⟩
  | call hl he => exact ⟨hgood _ hl, he.plain hgood⟩
  | loop _ hl _ hstart hstop hstep _ ih =>
    exact ⟨hgood _ hl, rfl, hstart.plain hgood, hstop.plain hgood,
      fun e he => (hstep e he).plain hgood, Stmt.allPlain_iff.mpr ih⟩
  | invalid hl => exact ⟨hgood _ hl, rfl⟩

end Built

/-! ## What the grammar builds -/

namespace Grammar

section Builds

variable {R : Type → Type} {grammar : (α : Type) → R α → Peg R α} {lexemes : Lexeme → Prop}
  {rules : {α : Type} → R α → α → Prop}

/-- What a parsing expression builds from lexemes and values of its rules that have a property. -/
def Peg.Builds (lexemes : Lexeme → Prop) (rules : {α : Type} → R α → α → Prop) :
    {α : Type} → Peg R α → α → Prop
  | _, .token _, l => lexemes l
  | _, .rule r, a => rules r a
  | _, .seq p q, ab => p.Builds lexemes rules ab.1 ∧ q.Builds lexemes rules ab.2
  | _, .choice p q, a => p.Builds lexemes rules a ∨ q.Builds lexemes rules a
  | _, .many p, as => ∀ a ∈ as, p.Builds lexemes rules a
  | _, .option p, o => ∀ a ∈ o, p.Builds lexemes rules a
  | _, .map f p, b => ∃ a, b = f a ∧ p.Builds lexemes rules a

/-- A property that every rule passes on holds of all that is parsed. -/
theorem Parses.builds {origin : String} {text : List Char}
    (hlexemes : ∀ {t i l j}, Scans origin text t i (some (l, j)) → lexemes l)
    (hrules : ∀ {α} (r : R α) {a : α}, (grammar α r).Builds lexemes rules a → rules r a)
    {α : Type} {p : Peg R α} {i : Nat} {o : Option (α × Nat)}
    (h : Parses grammar origin text p i o) : ∀ a j, o = some (a, j) → p.Builds lexemes rules a := by
  induction h with
  | token h =>
    rintro l j rfl
    exact hlexemes h
  | rule _ ih => exact fun a j ho => hrules _ (ih a j ho)
  | seq _ _ ih ih' =>
    rintro _ _ ⟨⟩
    exact ⟨ih _ _ rfl, ih' _ _ rfl⟩
  | seqFirst | seqSecond | mapNone =>
    intro a j ho
    cases ho
  | choiceFirst _ ih => exact fun a j ho => .inl (ih a j ho)
  | choiceSecond _ _ _ ih' => exact fun a j ho => .inr (ih' a j ho)
  | manyEnd =>
    rintro _ _ ⟨⟩
    simp [Peg.Builds]
  | manyNext _ _ ih ih' =>
    rintro _ _ ⟨⟩
    intro x hx
    rcases List.mem_cons.mp hx with rfl | hx
    · exact ih _ _ rfl
    · exact ih' _ _ rfl x hx
  | optionOne _ ih =>
    rintro _ _ ⟨⟩
    simpa [Peg.Builds] using ih _ _ rfl
  | optionNone =>
    rintro _ _ ⟨⟩
    simp [Peg.Builds]
  | map _ ih =>
    rintro _ _ ⟨⟩
    exact ⟨_, rfl, ih _ _ rfl⟩

variable {α β : Type} {p : Peg R α} {q : Peg R β}

theorem builds_before {a : α} (h : (p.before q).Builds lexemes rules a) :
    p.Builds lexemes rules a := by
  obtain ⟨_, rfl, h, _⟩ := h
  exact h

theorem builds_andThen {b : β} (h : (p.andThen q).Builds lexemes rules b) :
    q.Builds lexemes rules b := by
  obtain ⟨_, rfl, _, h⟩ := h
  exact h

theorem builds_some {as : List α} (h : p.some.Builds lexemes rules as) :
    ∀ a ∈ as, p.Builds lexemes rules a := by
  obtain ⟨⟨a, as⟩, rfl, ha, has⟩ := h
  simpa using ⟨ha, has⟩

theorem builds_sepBy {as : List α} (h : (p.sepBy q).Builds lexemes rules as) :
    ∀ a ∈ as, p.Builds lexemes rules a := by
  obtain ⟨⟨a, as⟩, rfl, ha, has⟩ := h
  intro x hx
  rcases List.mem_cons.mp hx with rfl | hx
  · exact ha
  · exact builds_andThen (has x hx)

end Builds

/-! ## Parsed programs -/

section Parsed

variable {lexemes : Lexeme → Prop}

/-- What the rules build comes from lexemes that have a property. -/
def Rule.Built (lexemes : Lexeme → Prop) : {α : Type} → Rule α → α → Prop
  | _, .expr, e => e.Built lexemes
  | _, .stmt, s => s.Built lexemes

/-- An operand that starts at a lexeme with the property. -/
def Operand.Built (lexemes : Lexeme → Prop) (x : Operand) : Prop :=
  (∃ l, lexemes l ∧ x.1 = l.pos) ∧ x.2.Built lexemes

theorem built_joinOperands {first : Operand} {rest : List (Operator × Operand)}
    (hfirst : first.Built lexemes) (hrest : ∀ x ∈ rest, x.2.Built lexemes) :
    (joinOperands first rest).Built lexemes := by
  obtain ⟨pos, left⟩ := first
  obtain ⟨⟨l, hl, rfl⟩, hleft⟩ := hfirst
  refine ⟨⟨l, hl, rfl⟩, ?_⟩
  unfold joinOperands
  induction rest generalizing left with
  | nil => exact hleft
  | cons x rest ih =>
    exact ih (fun y hy => hrest y (.tail _ hy)) _ (.binary x.1 hl hleft (hrest x (.head _)).2)

theorem built_call {l : Lexeme} {args : List Expr}
    (h : call.Builds lexemes (Rule.Built lexemes) (l, args)) :
    lexemes l ∧ (callNode l args).Built lexemes := by
  have hargs : ∀ e ∈ args, e.Built lexemes := builds_sepBy (builds_before (builds_andThen h.2))
  exact ⟨h.1, .call h.1 hargs⟩

theorem built_nameNode {l : Lexeme} (h : lexemes l) : (nameNode l).Built lexemes := by
  unfold nameNode
  split
  · exact .const _ h
  · exact .var h

theorem built_factor {x : Operand} (h : factor.Builds lexemes (Rule.Built lexemes) x) :
    x.Built lexemes := by
  obtain ⟨l, rfl, hl⟩ | ⟨⟨l, args⟩, rfl, h⟩ | ⟨l, rfl, hl⟩ | ⟨⟨l, e⟩, rfl, hl, h⟩ := h
  · exact ⟨⟨l, hl, rfl⟩, .const _ hl⟩
  · obtain ⟨hl, hcall⟩ := built_call h
    exact ⟨⟨l, hl, rfl⟩, hcall⟩
  · exact ⟨⟨l, hl, rfl⟩, built_nameNode hl⟩
  · exact ⟨⟨l, hl, rfl⟩, builds_before h⟩

theorem built_term {x : Operand} (h : term.Builds lexemes (Rule.Built lexemes) x) :
    x.Built lexemes := by
  obtain ⟨⟨first, rest⟩, rfl, hfirst, hrest⟩ := h
  exact built_joinOperands (built_factor hfirst) fun x hx => built_factor (hrest x hx).2

theorem built_expr {e : Expr} (h : expr.Builds lexemes (Rule.Built lexemes) e) :
    e.Built lexemes := by
  obtain ⟨⟨first, rest⟩, rfl, hfirst, hrest⟩ := h
  exact (built_joinOperands (built_term hfirst) fun x hx => built_term (hrest x hx).2).2

theorem built_loop {s : Stmt} (h : loop.Builds lexemes (Rule.Built lexemes) s) :
    s.Built lexemes := by
  obtain ⟨⟨first, name, start, stop, close, step, body⟩, rfl, hfirst, hname, h⟩ := h
  obtain ⟨hstart, h⟩ := builds_andThen (builds_andThen h)
  obtain ⟨hstop, _, hstep, hbody⟩ := builds_andThen h
  have hstep : ∀ e ∈ step, e.Built lexemes := fun e he => builds_andThen (hstep e he)
  have hbody : ∀ s ∈ body, s.Built lexemes := builds_some (builds_before (builds_andThen hbody))
  simp only
  split
  · rename_i hreserved
    exact .invalid hfirst hreserved (.inr rfl)
  · exact .loop _ hfirst hname hstart hstop hstep hbody

theorem built_stmt {s : Stmt} (h : stmt.Builds lexemes (Rule.Built lexemes) s) :
    s.Built lexemes := by
  obtain h | ⟨⟨name, value⟩, rfl, hname, h⟩ | ⟨⟨name, args⟩, rfl, h⟩ := h
  · exact built_loop h
  · simp only
    split
    · rename_i hreserved
      exact .invalid hname hreserved (.inl rfl)
    · exact .assign hname (builds_andThen h)
  · obtain ⟨hname, hcall⟩ := built_call h
    exact .call hname hcall

theorem grammar_built {α : Type} (r : Rule α) {a : α}
    (h : (grammar α r).Builds lexemes (Rule.Built lexemes) a) : r.Built lexemes a := by
  cases r with
  | expr => exact built_expr h
  | stmt => exact built_stmt h

/-- The names and places of a program that was parsed are those of lexemes of its text. -/
theorem parse_built {origin text : String} {ss : List Stmt} (h : parse origin text = .ok ss)
    (hlexemes : ∀ {t i l j}, Scans origin text.toList t i (some (l, j)) → lexemes l) :
    ∀ s ∈ ss, s.Built lexemes := by
  have hparses := isProgram_iff_parses.mp (parse_eq_ok.mp h)
  have hbuilds := hparses.builds hlexemes grammar_built _ _ rfl
  exact builds_some (builds_before hbuilds)

end Parsed

/-- The places of a program that was parsed are places of its text. -/
theorem parse_plain {origin text : String} {ss : List Stmt} (h : parse origin text = .ok ss) :
    ∀ s ∈ ss, s.Plain fun pos => ∃ i, pos = placeAt origin text.toList i := by
  have hlexemes : ∀ {t i l j}, Scans origin text.toList t i (some (l, j)) →
      ∃ i, l.pos = placeAt origin text.toList i := by
    intro t i l j hl
    cases hl with
    | found => exact ⟨_, rfl⟩
  exact fun s hs => (parse_built h hlexemes s hs).plain fun _ hl => hl

theorem parse_wellFormed {origin text : String} {ss : List Stmt} (h : parse origin text = .ok ss) :
    ∀ s ∈ ss, s.wellFormed := fun s hs => (parse_plain h s hs).wellFormed

end Grammar

/-! ## Causes of failure -/

section Causes

variable {σ : Type} {target : Target σ} {vars : Bindings}

/-- A target that raises only errors that are reported. -/
def Target.Reports (target : Target σ) : Prop :=
  ∀ command s c t, target.accept command s = .error c t → c.isReported

/-- What a step can fail for: an error that the target raises, or else one that is not of the
output, and that is reported if the step is well formed. -/
def Target.Blames (target : Target σ) (well : Prop) (c : Cause) : Prop :=
  (∃ command s t, target.accept command s = .error c t) ∨
    c.isRender = false ∧ (well → c.isReported)

theorem Target.Blames.imp {well well' : Prop} {c : Cause} (h : target.Blames well c)
    (hw : well' → well) : target.Blames well' c :=
  h.imp_right fun ⟨hc, hr⟩ => ⟨hc, fun h => hr (hw h)⟩

/-- An error of the program itself that is always reported. -/
theorem Target.Blames.own {well : Prop} {c : Cause} (hc : c.isRender = false) (hr : c.isReported) :
    target.Blames well c := .inr ⟨hc, fun _ => hr⟩

theorem Target.Blames.isReported {well : Prop} {c : Cause} (h : target.Blames well c)
    (ht : target.Reports) (hw : well) : c.isReported := by
  obtain ⟨command, s, t, h⟩ | ⟨_, h⟩ := h
  · exact ht command s c t h
  · exact h hw

theorem Function.find_error {name : Label} {c : Cause} (h : find name = .error c) :
    c = .noSuchFunction name := by
  cases name with
  | word text =>
    simp only [find] at h
    cases hn : ofName? text with
    | none =>
      rw [hn] at h
      cases h
      rfl
    | some f =>
      rw [hn] at h
      cases h
  | value shown key json =>
    cases h
    rfl

theorem Function.dispatch_blames {well : Prop} {name : Label} {args : List Float} {s t : σ}
    {c : Cause} (h : Function.dispatch target name args s = .error c t) : target.Blames well c := by
  unfold dispatch at h
  cases hf : find name with
  | error e =>
    simp only [hf, throw_apply, EStateM.Result.error.injEq] at h
    rw [← h.1, find_error hf]
    exact .own rfl rfl
  | ok f =>
    simp only [hf] at h
    by_cases hn : args.length = f.arity
    · obtain ⟨operation, reason, rfl⟩ | hraised := apply_error hn h
      · exact .own rfl rfl
      · exact .inl hraised
    · simp only [apply, ne_eq, hn, not_false_eq_true, if_true, throw_apply,
        EStateM.Result.error.injEq] at h
      rw [← h.1]
      exact .own rfl rfl

theorem Expr.evalAll_blames {es : List Expr}
    (ih : ∀ e ∈ es, ∀ {s t c}, e.eval target vars s = .error c t → target.Blames e.hasText c)
    {s t : σ} {c : Cause} (h : Expr.evalAll target vars es s = .error c t) :
    target.Blames (∀ e ∈ es, e.hasText) c := by
  induction es generalizing s with
  | nil => cases h
  | cons e es ihs =>
    simp only [evalAll, bind_eq_error] at h
    obtain h | ⟨_, _, _, h | ⟨_, _, _, h⟩⟩ := h
    · exact (ih e (.head _) h).imp fun hes => hes e (.head _)
    · exact (ihs (fun e he => ih e (.tail _ he)) h).imp fun hes e he => hes e (.tail _ he)
    · cases h

theorem Expr.eval_blames {e : Expr} {s t : σ} {c : Cause}
    (h : e.eval target vars s = .error c t) : target.Blames e.hasText c := by
  induction e generalizing s t c with
  | var pos name =>
    cases hv : vars.get? name with
    | none =>
      simp only [eval, Bindings.find, hv, Action.ofExcept, throw_apply,
        EStateM.Result.error.injEq] at h
      rw [← h.1]
      exact .own rfl rfl
    | some value => simp [eval, Bindings.find, hv, Action.ofExcept] at h
  | const pos value => cases h
  | binary pos op left right ihl ihr =>
    simp only [eval, bind_eq_error] at h
    obtain h | ⟨x, _, _, h | ⟨y, _, _, h⟩⟩ := h
    · exact (ihl h).imp fun he => (Bool.and_eq_true_iff.mp he).1
    · exact (ihr h).imp fun he => (Bool.and_eq_true_iff.mp he).2
    · split at h
      · simp only [throw_apply, EStateM.Result.error.injEq] at h
        rw [← h.1, Cause.divisionByZero]
        -- a quotient without a text is not reported
        cases he : hasText (.binary pos op left right) with
        | true => exact .own rfl rfl
        | false => exact .inr ⟨rfl, fun hw => (Bool.false_ne_true hw).elim⟩
      · cases h
  | call pos name args ih =>
    simp only [eval, bind_eq_error] at h
    obtain h | ⟨_, _, _, h⟩ := h
    · refine (evalAll_blames (fun e he _ _ _ h => ih e he h) h).imp fun he => ?_
      rwa [hasText, haveTexts_eq, List.all_eq_true] at he
    · exact Function.dispatch_blames h
  | misfit what =>
    cases h
    cases what <;> exact .inr ⟨rfl, fun hw => (Bool.false_ne_true hw).elim⟩

theorem Range.check_blames {well : Prop} {first last : Float} {step : Option Float} {c : Cause}
    (h : Range.check first last step = .error c) : target.Blames well c := by
  unfold check at h
  split at h
  · cases h
  · split at h
    · cases h
      exact .own rfl rfl
    · split at h
      · cases h
        exact .own rfl rfl
      · split at h
        · cases h
          exact .own rfl rfl
        · cases h

theorem Exec.eval_blames {e : Expr} {m n : Machine σ} {f : Failure}
    (h : Exec.eval target e m = .error f n) : target.Blames e.hasText f.cause := by
  rw [eval_apply, onTarget_eq_error] at h
  obtain ⟨c, s, h, rfl, _⟩ := h
  exact Expr.eval_blames h

theorem Exec.bounds_blames {pass : Pass} {start stop : Expr} {step : Option Expr} {inclusive : Bool}
    {m n : Machine σ} {f : Failure}
    (h : Exec.bounds pass target start stop step inclusive m = .error f n) :
    target.Blames (start.hasText ∧ stop.hasText ∧ step.all Expr.hasText ∧
      (pass = .loopless → f.cause ≠ .undefinedOperation)) f.cause := by
  simp only [bounds, bind_eq_error] at h
  obtain h | ⟨_, _, _, h | ⟨_, _, _, h | ⟨_, _, _, h | ⟨_, _, _, h⟩⟩⟩⟩ := h
  · exact (eval_blames h).imp fun hw => hw.1
  · exact (eval_blames h).imp fun hw => hw.2.1
  · cases step with
    | none => cases h
    | some e =>
      simp only [stride, map_eq_pure_bind, bind_eq_error] at h
      obtain h | ⟨_, _, _, h⟩ := h
      · exact (eval_blames h).imp fun hw => hw.2.2.1
      · cases h
  · obtain ⟨c, hc, rfl, _⟩ := ofExcept_eq_error.mp h
    exact Range.check_blames hc
  · obtain ⟨c, hc, rfl, _⟩ := ofExcept_eq_error.mp h
    cases pass with
    | loopless =>
      cases hc
      exact .inr ⟨rfl, fun hw => absurd rfl (hw.2.2.2 rfl)⟩
    | real | rehearsal => cases hc

variable {pass : Pass} {fuel : Nat}

theorem Stmt.breaks_blames {s : Stmt} {m n : Machine σ} {c : Cause}
    (h : s.Breaks pass target m c n) :
    target.Blames (s.wellFormed ∧ (pass = .loopless → c ≠ .undefinedOperation)) c := by
  cases s with
  | assign pos name e => exact (Exec.eval_blames h).imp fun hw => hw.1
  | call pos e => exact (Exec.eval_blames h).imp fun hw => hw.1
  | loop pos name start stop step inclusive body =>
    refine (Exec.bounds_blames h).imp ?_
    rintro ⟨hs, hpass⟩
    simp only [wellFormed, Bool.and_eq_true] at hs
    exact ⟨hs.1.1.1, hs.1.1.2, hs.1.2, hpass⟩
  | invalid pos message phase =>
    rw [h.1]
    exact .own rfl rfl
  | misfit what =>
    rw [h.1]
    cases what <;> exact .inr ⟨rfl, fun hw => (Bool.false_ne_true hw.1).elim⟩

theorem Halts.blames {ss loops : List Stmt} {x : Stmt} {m n : Machine σ} {c : Cause}
    (h : Halts pass fuel target ss m loops x c n) :
    target.Blames ((∀ s ∈ ss, s.wellFormed) ∧ (pass = .loopless → c ≠ .undefinedOperation)) c := by
  induction h with
  | here h => exact (Stmt.breaks_blames h).imp fun hw => ⟨hw.1 _ (.head _), hw.2⟩
  | later _ _ ih => exact ih.imp fun hw => ⟨fun s hs => hw.1 s (.tail _ hs), hw.2⟩
  | within _ _ _ ih =>
    refine ih.imp fun hw => ⟨?_, hw.2⟩
    have hloop := hw.1 _ (.head _)
    simp only [Stmt.wellFormed, Stmt.allWellFormed_eq, Bool.and_eq_true, List.all_eq_true] at hloop
    exact hloop.2

/-- A well formed program fails only for a cause that is reported. -/
theorem Halts.isReported (ht : target.Reports) {ss loops : List Stmt} {x : Stmt} {m n : Machine σ}
    {c : Cause} (h : Halts pass fuel target ss m loops x c n) (hss : ∀ s ∈ ss, s.wellFormed)
    (hpass : pass = .loopless → c ≠ .undefinedOperation) : c.isReported :=
  h.blames.isReported ht ⟨hss, hpass⟩

theorem Stmt.execAll_reported (hpass : pass ≠ .loopless) (ht : target.Reports) {ss : List Stmt}
    (hss : ∀ s ∈ ss, s.wellFormed) {m n : Machine σ} {f : Failure}
    (h : Stmt.execAll pass fuel target ss m = .error f n) :
    f.cause.isReported ∨ f.cause = .outOfFuel ∧ (pass = .rehearsal → fuel = 0) := by
  refine (halts_of_execAll h).imp ?_ id
  rintro ⟨loops, x, hx⟩
  exact hx.isReported ht hss (absurd · hpass)

/-- Any program fails for an error of the output only if its target raises that error. -/
theorem Stmt.execAll_blames {ss : List Stmt} {m n : Machine σ} {f : Failure}
    (h : Stmt.execAll pass fuel target ss m = .error f n) : target.Blames False f.cause := by
  obtain ⟨loops, x, hx⟩ | ⟨hout, _⟩ := halts_of_execAll h
  · exact hx.blames.imp False.elim
  · rw [hout]
    exact .inr ⟨rfl, False.elim⟩

end Causes

end PolarPlot

import PolarPlot.Proofs.Diaries
import PolarPlot.Proofs.ErrorChain
import PolarPlot.Proofs.Independence
import PolarPlot.Proofs.Interchange

/-!
# Programs that differ in their places

A run does not look at the places in its program: they only show up in the statements of a failure.
So running commutes with moving places (`Stmt.execAllNoted_along`), and programs that are the same
without their places do the same, assignment by assignment, and fail in the same way
(`runs_of_bare_eq`).
-/

namespace PolarPlot

open Grammar Document

/-! ## Moving places twice -/

theorem Expr.relocate_relocate (f g : Position → Position) (e : Expr) :
    (e.relocate f).relocate g = e.relocate (g ∘ f) := by
  induction e with
  | var | const | misfit => rfl
  | binary pos op left right hl hr => simp only [relocate, hl, hr, Function.comp_apply]
  | call pos name args ih =>
    simp only [relocate, relocateAll_eq, List.map_map, Function.comp_apply]
    exact congrArg _ (List.map_congr_left ih)

theorem Stmt.relocate_relocate (f g : Position → Position) (s : Stmt) :
    (s.relocate f).relocate g = s.relocate (g ∘ f) := by
  induction s with
  | assign | call => simp only [relocate, Expr.relocate_relocate, Function.comp_apply]
  | loop pos name start stop step inclusive body ih =>
    have hstep : (step.map (Expr.relocate f)).map (Expr.relocate g) =
        step.map (Expr.relocate (g ∘ f)) := by
      cases step with
      | none => rfl
      | some e => simp only [Option.map_some, Expr.relocate_relocate]
    simp only [relocate, relocateAll_eq, Expr.relocate_relocate, hstep, List.map_map,
      Function.comp_apply]
    exact congrArg _ (List.map_congr_left ih)
  | invalid | misfit => rfl

/-! ## Expressions -/

section Expressions

variable (g : Position → Position)

@[simp] theorem Expr.text_relocate (e : Expr) : (e.relocate g).text = e.text := by
  induction e with
  | var | const | misfit => rfl
  | binary pos op left right hl hr => simp only [relocate, text, hl, hr]
  | call pos name args ih =>
    have htexts : (args.map (Expr.relocate g)).map Expr.text = args.map Expr.text := by
      rw [List.map_map]
      exact List.map_congr_left ih
    simp only [relocate, relocateAll_eq, text, texts_eq, htexts]

@[simp] theorem Expr.hasText_relocate (e : Expr) : (e.relocate g).hasText = e.hasText := by
  induction e with
  | var | const | misfit => rfl
  | binary pos op left right hl hr => simp only [relocate, hasText, hl, hr]
  | call pos name args ih =>
    rw [relocate, relocateAll_eq, hasText, hasText, haveTexts_eq, haveTexts_eq, List.all_map,
      Bool.eq_iff_iff, List.all_eq_true, List.all_eq_true]
    exact forall₂_congr fun e he => by rw [Function.comp_apply, ih e he]

theorem Cause.divisionByZero_relocate (e : Expr) :
    divisionByZero (e.relocate g) = divisionByZero e := by
  simp only [divisionByZero, Expr.text_relocate, Expr.hasText_relocate]

variable {σ : Type} (target : Target σ) (vars : Bindings)

theorem Expr.evalAll_relocate_of {es : List Expr}
    (ih : ∀ e ∈ es, (e.relocate g).eval target vars = e.eval target vars) :
    Expr.evalAll target vars (es.map (Expr.relocate g)) = Expr.evalAll target vars es := by
  induction es with
  | nil => rfl
  | cons e es ihs =>
    rw [List.map_cons, evalAll, evalAll, ih e (.head _), ihs fun e he => ih e (.tail _ he)]

/-- What an expression evaluates to does not depend on its places, and nor does the error if it has
no value. -/
theorem Expr.eval_relocate (e : Expr) : (e.relocate g).eval target vars = e.eval target vars := by
  induction e with
  | var | const | misfit => rfl
  | binary pos op left right hl hr =>
    have hzero := Cause.divisionByZero_relocate g (.binary pos op left right)
    rw [relocate] at hzero
    simp only [relocate, eval, hl, hr, hzero]
  | call pos name args ih =>
    rw [relocate, relocateAll_eq, eval, eval, evalAll_relocate_of g target vars ih]

theorem Exec.eval_relocate (e : Expr) : Exec.eval target (e.relocate g) = Exec.eval target e := by
  funext m
  rw [eval_apply, eval_apply, Expr.eval_relocate]

theorem Exec.bounds_relocate (pass : Pass) (start stop : Expr) (step : Option Expr)
    (inclusive : Bool) :
    Exec.bounds pass target (start.relocate g) (stop.relocate g)
      (step.map (Expr.relocate g)) inclusive =
      Exec.bounds pass target start stop step inclusive := by
  have hstride : stride target (step.map (Expr.relocate g)) = stride target step := by
    cases step with
    | none => rfl
    | some e => rw [Option.map_some, stride, stride, Exec.eval_relocate]
  rw [bounds, bounds, Exec.eval_relocate, Exec.eval_relocate, hstride]

end Expressions

/-! ## Runs -/

/-- A failure with its places moved. -/
def Failure.relocate (g : Position → Position) (f : Failure) : Failure :=
  { f with frames := f.frames.map fun frame => { frame with pos := g frame.pos } }

/-- A note with the places of its statement moved. -/
def Note.relocate (g : Position → Position) (n : Note) : Note :=
  { n with source := n.source.relocate g }

def Diary.relocate {σ : Type} (g : Position → Position) (d : Diary σ) : Diary σ :=
  { d with notes := d.notes.map (Note.relocate g) }

theorem Failure.relocate_within (g : Position → Position) (f : Failure) (phase : Label)
    (pos : Position) :
    (f.within ⟨phase, pos⟩).relocate g = (f.relocate g).within ⟨phase, g pos⟩ := by
  unfold within relocate
  split <;> rfl

section Runs

variable {σ α : Type} {g : Position → Position}

/-- The second step does what the first does, with all places moved. -/
abbrev Noted.Moves (g : Position → Position) (x y : Noted σ α) : Prop :=
  Along (Failure.relocate g) (Diary.relocate g) x y

theorem Noted.quiet_moves {act : Exec σ α} (h : ∀ {m n f}, act m = .error f n → f = ⟨[], f.cause⟩) :
    Moves g (quiet act) (quiet act) := by
  intro d
  change mapEnd _ _ (act d.machine) = mapEnd _ _ (mapEnd _ _ (act d.machine))
  cases hact : act d.machine with
  | ok a m => rfl
  | error f m =>
    rw [h hact]
    rfl

theorem Noted.assign_moves (source : Stmt) (name : Label) (value : Float) :
    Moves g (assign source name value : Noted σ Unit) (assign (source.relocate g) name value) := by
  intro d
  simp only [assign, Diary.relocate, mapEnd, List.map_append, List.map_singleton, Note.relocate]

variable {pass : Pass} {fuel : Nat} {target : Target σ}

theorem Stmt.execAllNoted_moves_of {ss : List Stmt}
    (ih : ∀ s ∈ ss, Noted.Moves g (s.execNoted pass fuel target)
      ((s.relocate g).execNoted pass fuel target)) :
    Noted.Moves g (Stmt.execAllNoted pass fuel target ss)
      (Stmt.execAllNoted pass fuel target (ss.map (Stmt.relocate g))) := by
  induction ss with
  | nil => exact .pure ()
  | cons s ss ihs =>
    rw [List.map_cons, execAllNoted, execAllNoted]
    exact (ih s (.head _)).bind fun _ => ihs fun s hs => ih s (.tail _ hs)

theorem Stmt.execNoted_moves (s : Stmt) :
    Noted.Moves g (s.execNoted pass fuel target) ((s.relocate g).execNoted pass fuel target) := by
  induction s with
  | assign pos name value =>
    have hassign : ∀ v, Noted.Moves g (Noted.assign (.assign pos name value) name v : Noted σ Unit)
        (Noted.assign (.assign (g pos) name (value.relocate g)) name v) := Noted.assign_moves _ name
    rw [relocate, execNoted, execNoted, Exec.eval_relocate]
    refine Along.within ?_ fun f => f.relocate_within g _ pos
    exact (Noted.quiet_moves Exec.eval_failure).bind hassign
  | call pos e =>
    rw [relocate, execNoted, execNoted, Exec.eval_relocate]
    refine Along.within ?_ fun f => f.relocate_within g _ pos
    exact (Noted.quiet_moves Exec.eval_failure).bind fun _ => .pure ()
  | loop pos name start stop step inclusive body ih =>
    have hassign : ∀ v, Noted.Moves g
        (Noted.assign (.loop pos name start stop step inclusive body) name v : Noted σ Unit)
        (Noted.assign
          (.loop (g pos) name (start.relocate g) (stop.relocate g) (step.map (Expr.relocate g))
            inclusive
          (body.map (Stmt.relocate g))) name v) := by
      intro v
      have h :=
        Noted.assign_moves (σ := σ) (g := g) (.loop pos name start stop step inclusive body) name v
      rwa [relocate, relocateAll_eq] at h
    rw [relocate, relocateAll_eq, execNoted, execNoted, Exec.bounds_relocate]
    refine Along.within ?_ fun f => f.relocate_within g _ pos
    refine (Noted.quiet_moves Exec.bounds_failure).bind fun r => ?_
    exact Along.rounds rfl (fun v => (hassign v).bind fun _ => execAllNoted_moves_of ih) fuel r
  | invalid pos message phase =>
    rw [relocate, execNoted, execNoted]
    exact Along.within (.throw _) fun f => f.relocate_within g _ pos
  | misfit what => exact .throw _

/-- Running a program with its places moved is running it and then moving the places. -/
theorem Stmt.execAllNoted_along (ss : List Stmt) (m : Machine σ) :
    Stmt.execAllNoted pass fuel target (ss.map (Stmt.relocate g)) (.blank m) =
      mapEnd (Failure.relocate g) (Diary.relocate g)
        (Stmt.execAllNoted pass fuel target ss (.blank m)) :=
  execAllNoted_moves_of (fun s _ => s.execNoted_moves) (.blank m)

end Runs

/-! ## Programs that are alike -/

/-- The same cause, inside of statements that were doing the same. -/
structure Failure.Agrees (f f' : Failure) : Prop where
  phases : f.frames.map Frame.phase = f'.frames.map Frame.phase
  cause : f.cause = f'.cause

inductive RunError.Agrees : RunError → RunError → Prop where
  | rehearsal {f f' : Failure} : f.Agrees f' → Agrees (.rehearsal f) (.rehearsal f')
  | drawing {f f' : Failure} : f.Agrees f' → Agrees (.drawing f) (.drawing f')

/-- A note without the places of its statement. -/
def Note.bare (n : Note) : Note := n.relocate fun _ => .unknown

/-- Runs that end in the same way, with the same machine after the same assignments. -/
inductive EndsAlike {σ : Type} :
    EStateM.Result Failure (Diary σ) Unit → EStateM.Result Failure (Diary σ) Unit → Prop where
  | ok {d d' : Diary σ} : d.machine = d'.machine → d.notes.map Note.bare = d'.notes.map Note.bare →
      EndsAlike (.ok () d) (.ok () d')
  | error {f f' : Failure} {d d' : Diary σ} : f.Agrees f' → d.machine = d'.machine →
      d.notes.map Note.bare = d'.notes.map Note.bare → EndsAlike (.error f d) (.error f' d')

/-- Programs that do the same: with every target and every machine to start from, in both passes.
What they ask of a target is seen by its log. -/
structure RunsAlike (ss ss' : List Stmt) : Prop where
  noted {σ : Type} (pass : Pass) (fuel : Nat) (T : Target σ) (m : Machine σ) :
    EndsAlike (Stmt.execAllNoted pass fuel T ss (.blank m))
      (Stmt.execAllNoted pass fuel T ss' (.blank m))
  rehearsed : Option.Rel Failure.Agrees (validate ss) (validate ss')
  drawn {σ : Type} (fuel : Nat) (T : Target σ) (s : σ) :
    Option.Rel RunError.Agrees (draw fuel T ss s).1 (draw fuel T ss' s).1 ∧
      (draw fuel T ss s).2 = (draw fuel T ss' s).2
  asked {σ : Type} (fuel : Nat) (T : Target σ) (s : σ) :
    (draw fuel T.logged ss ⟨[], s⟩).2.events = (draw fuel T.logged ss' ⟨[], s⟩).2.events

section Alike

variable {σ : Type} {ss ss' : List Stmt}

theorem Failure.agrees_of_relocate {g : Position → Position} {f f' : Failure}
    (h : f.relocate g = f'.relocate g) : f.Agrees f' where
  phases := by
    have hphases := congrArg (fun f => f.frames.map Frame.phase) h
    simpa only [relocate, List.map_map, Function.comp_def] using hphases
  cause := by
    have hcause := congrArg Failure.cause h
    exact hcause

theorem endsAlike_of_relocate {r r' : EStateM.Result Failure (Diary σ) Unit}
    (h : mapEnd (Failure.relocate fun _ => .unknown) (Diary.relocate fun _ => .unknown) r =
      mapEnd (Failure.relocate fun _ => .unknown) (Diary.relocate fun _ => .unknown) r') :
    EndsAlike r r' := by
  cases r with
  | ok _ d =>
    cases r' with
    | ok _ d' =>
      injection h with _ hd
      have hmachine := congrArg Diary.machine hd
      have hnotes := congrArg Diary.notes hd
      exact .ok hmachine hnotes
    | error f' d' => cases h
  | error f d =>
    cases r' with
    | ok _ d' => cases h
    | error f' d' =>
      injection h with hf hd
      have hmachine := congrArg Diary.machine hd
      have hnotes := congrArg Diary.notes hd
      exact .error (Failure.agrees_of_relocate hf) hmachine hnotes

theorem endsAlike_of_bare_eq (h : ss.map Stmt.bare = ss'.map Stmt.bare) (pass : Pass) (fuel : Nat)
    (T : Target σ) (m : Machine σ) :
    EndsAlike (Stmt.execAllNoted pass fuel T ss (.blank m))
      (Stmt.execAllNoted pass fuel T ss' (.blank m)) := by
  apply endsAlike_of_relocate
  rw [← Stmt.execAllNoted_along, ← Stmt.execAllNoted_along]
  exact congrArg (fun ss => Stmt.execAllNoted pass fuel T ss (.blank m)) h

/-- Without their notes, runs that end alike leave one machine. -/
theorem EndsAlike.plain {r r' : EStateM.Result Failure (Diary σ) Unit} (h : EndsAlike r r') :
    (∃ m, mapEnd id Diary.machine r = .ok () m ∧ mapEnd id Diary.machine r' = .ok () m) ∨
      ∃ f f' m, mapEnd id Diary.machine r = .error f m ∧ mapEnd id Diary.machine r' = .error f' m ∧
        f.Agrees f' := by
  cases h with
  | @ok d d' hm _ => exact .inl ⟨d.machine, rfl, by rw [mapEnd, hm]⟩
  | @error f f' d d' hf hm _ => exact .inr ⟨f, f', d.machine, rfl, by rw [mapEnd, hm]; rfl, hf⟩

theorem execAll_of_bare_eq (h : ss.map Stmt.bare = ss'.map Stmt.bare) (pass : Pass) (fuel : Nat)
    (T : Target σ) (m : Machine σ) :
    (∃ n, Stmt.execAll pass fuel T ss m = .ok () n ∧ Stmt.execAll pass fuel T ss' m = .ok () n) ∨
      ∃ f f' n, Stmt.execAll pass fuel T ss m = .error f n ∧
      Stmt.execAll pass fuel T ss' m = .error f' n ∧
        f.Agrees f' := by
  have hplain := (endsAlike_of_bare_eq h pass fuel T m).plain
  rwa [← Stmt.execAll_told, ← Stmt.execAll_told] at hplain

theorem draw_of_bare_eq (h : ss.map Stmt.bare = ss'.map Stmt.bare) (fuel : Nat) (T : Target σ)
    (s : σ) :
    Option.Rel RunError.Agrees (draw fuel T ss s).1 (draw fuel T ss' s).1 ∧
      (draw fuel T ss s).2 = (draw fuel T ss' s).2 := by
  obtain ⟨n, hn, hn'⟩ | ⟨f, f', n, hn, hn', hf⟩ := execAll_of_bare_eq h .real fuel T (.fresh s)
  · -- Both come to closing the target, with the same machine.
    simp only [draw, execute, bind_of_ok hn, bind_of_ok hn']
    cases Exec.onTarget T.close n with
    | ok _ n => exact ⟨.none, trivial⟩
    | error f n => exact ⟨.some (.drawing ⟨rfl, rfl⟩), trivial⟩
  · simp only [draw, execute, bind_eq_error.mpr (.inl hn), bind_eq_error.mpr (.inl hn')]
    exact ⟨.some (.drawing hf), trivial⟩

theorem runsAlike_of_bare_eq (h : ss.map Stmt.bare = ss'.map Stmt.bare) : RunsAlike ss ss' where
  noted := endsAlike_of_bare_eq h
  rehearsed := by
    obtain ⟨n, hn, hn'⟩ | ⟨f, f', n, hn, hn', hf⟩ :=
      execAll_of_bare_eq h .rehearsal 1 .discard (.fresh ())
    · simp only [validate, hn, hn']
      exact .none
    · simp only [validate, hn, hn']
      exact .some hf
  drawn := draw_of_bare_eq h
  asked fuel T s := congrArg Logged.events (draw_of_bare_eq h fuel T.logged ⟨[], s⟩).2

end Alike

/-- Programs that are the same without their places run alike. So does a program that was parsed and
what is loaded from its dump without places, be it written as JSON and read again. -/
theorem runs_of_bare_eq :
    (∀ {ss ss' : List Stmt}, ss.map Stmt.bare = ss'.map Stmt.bare → RunsAlike ss ss') ∧
    ∀ {origin text : String} {program : List Stmt}, parse origin text = .ok program →
      ∃ tree, Tree.load ((Tree.ofProgram program).dump false) = .ok tree ∧
        (∀ indent, Json.read (Json.text indent ((Tree.ofProgram program).dump false)).toList =
          .ok ((Tree.ofProgram program).dump false)) ∧
        RunsAlike tree.toProgram program := by
  refine ⟨runsAlike_of_bare_eq, ?_⟩
  intro origin text program h
  obtain ⟨-, hload⟩ := (Tree.restores_ofProgram h).load
  refine ⟨_, hload, Json.read_text (Tree.lossless_ofProgram h false (by rintro ⟨⟩)), ?_⟩
  apply runsAlike_of_bare_eq
  rw [Tree.toProgram_unplaced h, List.map_map]
  exact List.map_congr_left fun s _ => s.relocate_relocate _ _

/-- A loop whose body divides by zero, at a place. -/
def quotientAt (pos : Position) : List Stmt :=
  [.loop pos "i" (.const pos 0) (.const pos 1) none false
    [.assign pos "x" (.binary pos .divide (.var pos "i") (.const pos 0))]]

theorem runs_of_bare_eq_quotientAt : ∃ pos, pos ≠ Position.unknown ∧
    (quotientAt pos).map Stmt.bare = (quotientAt .unknown).map Stmt.bare ∧
    RunsAlike (quotientAt pos) (quotientAt .unknown) ∧
    ∃ program tree, parse "φ" "f(x)" = .ok program ∧
      Tree.load ((Tree.ofProgram program).dump false) = .ok tree ∧
      RunsAlike tree.toProgram program := by
  obtain ⟨program, hprogram⟩ := exists_eq_ok (x := parse "φ" "f(x)") (by decide +kernel)
  obtain ⟨tree, htree, -, hruns⟩ := runs_of_bare_eq.2 hprogram
  exact ⟨{ origin := "", line := 1, column := 2 }, by decide, rfl, runs_of_bare_eq.1 rfl, program,
    tree, hprogram, htree, hruns⟩

end PolarPlot

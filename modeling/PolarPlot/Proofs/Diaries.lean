import PolarPlot.Proofs.Courses

/-!
# Runs with a diary

A run shows its variables only at its end. With a diary (`Diary`) it also keeps a note of every
assignment: the statement that made it, the name and the value, and all variables after it. The
notes change nothing about the run (`Stmt.execAll_told`), and nothing happens to the variables that
is not noted (`Recounts`).

A step and another one that does the same on a mapped state are `Along` the map. The rules for this
are those of a run: sequence, what is inside of a statement, and the rounds of a loop.
-/

namespace PolarPlot

/-! ## Steps along a map -/

section Along

variable {ε ε' σ τ α β : Type}

/-- The second step does on a mapped state what the first does, up to the maps of errors and of
states. -/
def Along (f : ε → ε') (g : σ → τ) (x : EStateM ε σ α) (y : EStateM ε' τ α) : Prop :=
  ∀ s, y (g s) = mapEnd f g (x s)

/-- Does a step inside a statement, on any state. -/
def within (phase : Label) (pos : Position) (act : EStateM Failure τ α) : EStateM Failure τ α :=
  fun s => mapEnd (·.within ⟨phase, pos⟩) id (act s)

/-- Runs the body for each value of a range, at most `fuel` times, on any state. -/
def rounds (body : Float → EStateM Failure τ Unit) : Nat → Range → EStateM Failure τ Unit
  | 0, r => if r.next?.isSome then throw ⟨[], .outOfFuel⟩ else pure ()
  | fuel + 1, r =>
    match r.next? with
    | none => pure ()
    | some (value, r) => do
      body value
      rounds body fuel r

theorem inside_eq_within (phase : Label) (pos : Position) (act : Exec σ α) :
    Exec.inside phase pos act = within phase pos act := by
  funext m
  unfold Exec.inside within
  cases act m <;> rfl

section Rounds

variable {body : Float → EStateM Failure τ Unit} {fuel : Nat} {r r' : Range} {v : Float}

theorem rounds_done (h : r.next? = none) : rounds body fuel r = pure () := by
  cases fuel <;> simp [rounds, h]

theorem rounds_exhausted (h : r.next? = some (v, r')) :
    rounds body 0 r = throw ⟨[], .outOfFuel⟩ := by
  simp [rounds, h]

theorem rounds_next (h : r.next? = some (v, r')) :
    rounds body (fuel + 1) r = body v >>= fun _ => rounds body fuel r' := by
  simp [rounds, h]

end Rounds

theorem sweep_eq_rounds (body : Float → Exec σ Unit) (fuel : Nat) (r : Range) :
    Exec.sweep body fuel r = rounds body fuel r := by
  induction fuel generalizing r with
  | zero => rfl
  | succ fuel ih =>
    cases hr : r.next? with
    | none =>
      rw [rounds_done hr]
      funext m
      exact Exec.sweep_done hr
    | some next => rw [Exec.sweep_next hr, rounds_next hr, ih]

namespace Along

variable {f : ε → ε'} {g : σ → τ}

theorem ok {x : EStateM ε σ α} {y : EStateM ε' τ α} (h : Along f g x y) {a : α} {s t : σ}
    (hx : x s = .ok a t) : y (g s) = .ok a (g t) := by
  rw [h s, hx, mapEnd]

theorem pure (a : α) : Along f g (Pure.pure a) (Pure.pure a) := fun _ => rfl

theorem throw (e : ε) : Along f g (throw e : EStateM ε σ α) (throw (f e)) := fun _ => rfl

theorem bind {x : EStateM ε σ α} {y : EStateM ε' τ α} {k : α → EStateM ε σ β}
    {l : α → EStateM ε' τ β} (h : Along f g x y) (hk : ∀ a, Along f g (k a) (l a)) :
    Along f g (x >>= k) (y >>= l) := by
  intro s
  simp only [Bind.bind, EStateM.bind, h s]
  cases x s with
  | ok a t => exact hk a t
  | error e t => rfl

theorem within {f : Failure → Failure} {x : EStateM Failure σ α} {y : EStateM Failure τ α}
    (h : Along f g x y) {phase : Label} {pos pos' : Position}
    (hf : ∀ e : Failure, f (e.within ⟨phase, pos⟩) = (f e).within ⟨phase, pos'⟩) :
    Along f g (within phase pos x) (within phase pos' y) := by
  intro s
  simp only [PolarPlot.within, h s]
  cases x s with
  | ok a t => rfl
  | error e t => simp only [mapEnd, hf, id]

theorem rounds {f : Failure → Failure} {x : Float → EStateM Failure σ Unit}
    {y : Float → EStateM Failure τ Unit} (hf : f ⟨[], .outOfFuel⟩ = ⟨[], .outOfFuel⟩)
    (h : ∀ v, Along f g (x v) (y v)) (fuel : Nat) (r : Range) :
    Along f g (rounds x fuel r) (rounds y fuel r) := by
  induction fuel generalizing r with
  | zero =>
    cases hr : r.next? with
    | none =>
      rw [rounds_done hr, rounds_done hr]
      exact .pure ()
    | some next =>
      have hthrow := Along.throw (α := Unit) (f := f) (g := g) ⟨[], .outOfFuel⟩
      rw [hf] at hthrow
      rw [rounds_exhausted hr, rounds_exhausted hr]
      exact hthrow
  | succ fuel ih =>
    cases hr : r.next? with
    | none =>
      rw [rounds_done hr, rounds_done hr]
      exact .pure ()
    | some next =>
      rw [rounds_next hr, rounds_next hr]
      exact (h next.1).bind fun _ => ih next.2

end Along

end Along

/-! ## Notes -/

/-- The name that a statement assigns to. -/
def Stmt.target? : Stmt → Option Label
  | .assign _ name _ => some name
  | .loop _ name _ _ _ _ _ => some name
  | _ => none

/-- An assignment: the statement that makes it, the name and the value, and all variables after
it. -/
structure Note where
  source : Stmt
  name : Label
  value : Float
  vars : Bindings

/-- A machine, and a note of each assignment that it has made, in order. -/
structure Diary (σ : Type) where
  machine : Machine σ
  notes : List Note

/-- A diary without notes. -/
def Diary.blank {σ : Type} (m : Machine σ) : Diary σ := ⟨m, []⟩

/-- A step of a program that keeps a diary. -/
abbrev Noted (σ α : Type) : Type := EStateM Failure (Diary σ) α

namespace Noted

variable {σ α : Type}

/-- Does a step that assigns to nothing. -/
def quiet (act : Exec σ α) : Noted σ α :=
  fun d => mapEnd id (fun m => { d with machine := m }) (act d.machine)

/-- Assigns, and makes a note of it. -/
def assign (source : Stmt) (name : Label) (value : Float) : Noted σ Unit := fun d =>
  let vars := d.machine.vars.assign name value
  .ok () ⟨{ d.machine with vars := vars }, d.notes ++ [⟨source, name, value, vars⟩]⟩

end Noted

section Statements

variable {σ : Type} (pass : Pass) (fuel : Nat) (target : Target σ)

mutual

/-- Runs a statement and keeps a diary. -/
def Stmt.execNoted : Stmt → Noted σ Unit
  | .assign pos name value =>
    within Phase.assignment pos do
      Noted.assign (.assign pos name value) name (← Noted.quiet (Exec.eval target value))
  | .call pos e =>
    within Phase.call pos do
      let _ ← Noted.quiet (Exec.eval target e)
  | .loop pos name start stop step inclusive body =>
    within Phase.loop pos do
      let range ← Noted.quiet (Exec.bounds pass target start stop step inclusive)
      rounds (fun value => do
        Noted.assign (.loop pos name start stop step inclusive body) name value
        Stmt.execAllNoted body) fuel range
  | .invalid pos message phase => within phase pos (throw ⟨[], .illegalTarget message⟩)
  | .misfit what => throw ⟨[], .ofStmtMisfit what⟩

/-- Runs statements in order up to the first that fails, and keeps a diary. -/
def Stmt.execAllNoted : List Stmt → Noted σ Unit
  | [] => pure ()
  | s :: ss => do
    s.execNoted
    Stmt.execAllNoted ss

end

variable {pass fuel target}

/-! ## Without the notes -/

/-- What a step does, when its notes are forgotten. -/
abbrev Noted.Tells {α : Type} (act : Noted σ α) (plain : Exec σ α) : Prop :=
  Along id Diary.machine act plain

theorem Noted.quiet_tells {α : Type} (act : Exec σ α) : (quiet act).Tells act := by
  intro d
  unfold quiet
  cases act d.machine <;> rfl

theorem Noted.assign_tells (source : Stmt) (name : Label) (value : Float) :
    (assign source name value : Noted σ Unit).Tells (Exec.assign name value) := fun _ => rfl

theorem Stmt.execAllNoted_tells_of {ss : List Stmt}
    (ih : ∀ s ∈ ss, (s.execNoted pass fuel target).Tells (s.exec pass fuel target)) :
    (Stmt.execAllNoted pass fuel target ss).Tells (Stmt.execAll pass fuel target ss) := by
  induction ss with
  | nil => exact .pure ()
  | cons s ss ihs =>
    rw [execAllNoted, execAll]
    exact (ih s (.head _)).bind fun _ => ihs fun s hs => ih s (.tail _ hs)

theorem Stmt.execNoted_tells (s : Stmt) :
    (s.execNoted pass fuel target).Tells (s.exec pass fuel target) := by
  induction s with
  | assign pos name value =>
    rw [execNoted, exec, inside_eq_within]
    refine Along.within ?_ fun _ => rfl
    exact (Noted.quiet_tells _).bind fun v => Noted.assign_tells _ name v
  | call pos e =>
    rw [execNoted, exec, inside_eq_within]
    refine Along.within ?_ fun _ => rfl
    exact (Noted.quiet_tells _).bind fun _ => .pure ()
  | loop pos name start stop step inclusive body ih =>
    rw [execNoted, exec_loop, inside_eq_within]
    refine Along.within ((Noted.quiet_tells _).bind fun r => ?_) fun _ => rfl
    rw [sweep_eq_rounds]
    refine Along.rounds rfl (fun v => ?_) fuel r
    exact (Noted.assign_tells _ name v).bind fun _ => execAllNoted_tells_of ih
  | invalid pos message phase =>
    rw [execNoted, exec, inside_eq_within]
    exact Along.within (.throw _) fun _ => rfl
  | misfit what => exact .throw _

theorem Stmt.roundNoted_tells (source : Stmt) (name : Label) (body : List Stmt) (v : Float) :
    Noted.Tells (do Noted.assign source name v; Stmt.execAllNoted pass fuel target body)
      (Stmt.round pass fuel target name body v) :=
  (Noted.assign_tells source name v).bind fun _ => execAllNoted_tells_of fun s _ =>
    s.execNoted_tells

/-- Without its notes, a run with a diary is the run. -/
theorem Stmt.execAll_told (ss : List Stmt) (m : Machine σ) :
    Stmt.execAll pass fuel target ss m =
      mapEnd id Diary.machine (Stmt.execAllNoted pass fuel target ss (.blank m)) :=
  execAllNoted_tells_of (fun s _ => s.execNoted_tells) (.blank m)

/-! ## Nothing is left out -/

/-- The variables become others by the assignments in the notes, and each note shows the variables
after it. -/
inductive Recounts : Bindings → List Note → Bindings → Prop where
  | nil {vars : Bindings} : Recounts vars [] vars
  | cons {vars vars' : Bindings} {n : Note} {notes : List Note} :
      n.vars = vars.assign n.name n.value → Recounts n.vars notes vars' →
      Recounts vars (n :: notes) vars'

/-- The variables after some assignments, when there were none before. -/
def varsAfter (notes : List Note) : Bindings := (notes.getLast?.map Note.vars).getD .empty

/-- The value that was last assigned to a name. -/
def recent (x : Label) (notes : List Note) : Option Float :=
  (notes.filter (·.name.same x)).getLast?.map Note.value

theorem recent_cons (x : Label) (n : Note) (notes : List Note) :
    recent x (n :: notes) = (recent x notes).or (if n.name.same x then some n.value else none) := by
  unfold recent
  cases hn : n.name.same x with
  | false => simp [hn]
  | true =>
    rw [List.filter_cons_of_pos (by simpa using hn), List.getLast?_cons]
    cases (notes.filter (·.name.same x)).getLast? <;> simp

namespace Recounts

variable {vars vars' vars'' : Bindings} {notes notes' : List Note}

theorem append (h : Recounts vars notes vars') (h' : Recounts vars' notes' vars'') :
    Recounts vars (notes ++ notes') vars'' := by
  induction h with
  | nil => exact h'
  | cons hn _ ih => exact .cons hn (ih h')

/-- Between any two assignments there are variables that were reached by those before. -/
theorem exists_between (h : Recounts vars (notes ++ notes') vars'') :
    ∃ vars', Recounts vars notes vars' ∧ Recounts vars' notes' vars'' := by
  induction notes generalizing vars with
  | nil => exact ⟨vars, .nil, h⟩
  | cons n notes ih =>
    cases h with
    | cons hn h =>
      obtain ⟨vars', hl, hr⟩ := ih h
      exact ⟨vars', .cons hn hl, hr⟩

theorem eq_getD (h : Recounts vars notes vars') :
    vars' = (notes.getLast?.map Note.vars).getD vars := by
  induction h with
  | nil => rfl
  | cons _ _ ih =>
    rw [ih, List.getLast?_cons]
    cases List.getLast? _ <;> rfl

theorem eq_varsAfter (h : Recounts .empty notes vars) : vars = varsAfter notes := h.eq_getD

theorem covers (h : Recounts vars notes vars') : vars'.Covers vars := by
  induction h with
  | nil => exact .refl _
  | cons hn _ ih => exact ih.trans (hn ▸ Bindings.covers_assign _ _ _)

/-- A name has the value that was last assigned to it, and the value that it had if none was. -/
theorem get?_eq (h : Recounts vars notes vars') {x : Label} (hx : x.key ≠ Bindings.sink) :
    vars'.get? x = (recent x notes).or (vars.get? x) := by
  induction h with
  | nil => rfl
  | @cons vars _ n _ hn _ ih =>
    rw [ih, hn, Bindings.get?_assign, recent_cons, Option.or_assoc]
    by_cases hkey : x.key = n.name.key
    · have hsame : n.name.same x := beq_iff_eq.mpr hkey.symm
      rw [if_pos ⟨hkey, hkey ▸ hx⟩, if_pos hsame, Option.some_or]
    · have hsame : ¬ n.name.same x := fun h => hkey (beq_iff_eq.mp h).symm
      rw [if_neg fun h => hkey h.1, if_neg hsame, Option.none_or]

/-- What is assigned to the sink is lost. -/
theorem get?_sink (h : Recounts vars notes vars') {x : Label} (hx : x.key = Bindings.sink) :
    vars'.get? x = vars.get? x := by
  induction h with
  | nil => rfl
  | cons hn _ ih =>
    rw [ih, hn, Bindings.get?_assign, if_neg]
    rintro ⟨hkey, hne⟩
    exact hne (hkey ▸ hx)

end Recounts

/-- A diary goes on to another: the notes in between recount what became of the variables. -/
def Diary.Leads (d d' : Diary σ) : Prop :=
  ∃ notes, d'.notes = d.notes ++ notes ∧ Recounts d.machine.vars notes d'.machine.vars

theorem Diary.Leads.refl (d : Diary σ) : d.Leads d := ⟨[], (List.append_nil _).symm, .nil⟩

theorem Diary.Leads.trans {d d' d'' : Diary σ} (h : d.Leads d') (h' : d'.Leads d'') :
    d.Leads d'' := by
  obtain ⟨notes, hnotes, hrecounts⟩ := h
  obtain ⟨notes', hnotes', hrecounts'⟩ := h'
  exact ⟨notes ++ notes', by rw [hnotes', hnotes, List.append_assoc], hrecounts.append hrecounts'⟩

/-- A step makes a note of all that it does to the variables. -/
def Noted.Keeps {α : Type} (act : Noted σ α) : Prop :=
  ∀ d : Diary σ, d.Leads (lastState (act d))

namespace Noted

variable {α β : Type}

theorem lastState_bind (act : Noted σ α) (k : α → Noted σ β) (d : Diary σ) :
    (∃ a d', act d = .ok a d' ∧ lastState ((act >>= k) d) = lastState (k a d')) ∨
      lastState ((act >>= k) d) = lastState (act d) := by
  simp only [bind, EStateM.bind]
  cases act d with
  | ok a d' => exact .inl ⟨a, d', rfl, rfl⟩
  | error f d' => exact .inr rfl

theorem lastState_within (phase : Label) (pos : Position) (act : Noted σ α) (d : Diary σ) :
    lastState (within phase pos act d) = lastState (act d) :=
  lastState_mapEnd _ _ _

namespace Keeps

theorem pure (a : α) : Keeps (Pure.pure a : Noted σ α) := Diary.Leads.refl

theorem throw (f : Failure) : Keeps (throw f : Noted σ α) := Diary.Leads.refl

theorem quiet {act : Exec σ α} (h : act.Unbinding) : (quiet act).Keeps := by
  intro d
  refine ⟨[], ?_, ?_⟩
  · unfold Noted.quiet
    cases act d.machine <;> simp [mapEnd, lastState]
  · unfold Noted.quiet
    cases hact : act d.machine with
    | ok a m =>
      rw [mapEnd, lastState, h.ok hact]
      exact .nil
    | error f m =>
      rw [mapEnd, lastState, h.error hact]
      exact .nil

theorem assign (source : Stmt) (name : Label) (value : Float) :
    (assign source name value : Noted σ Unit).Keeps := fun _ => ⟨_, rfl, .cons rfl .nil⟩

/-- The diary of a step goes on to that of the steps after it. -/
theorem leads_bind {k : α → Noted σ β} (hk : ∀ a, (k a).Keeps) (act : Noted σ α) (d : Diary σ) :
    (lastState (act d)).Leads (lastState ((act >>= k) d)) := by
  obtain ⟨a, d', hact, hlast⟩ | hlast := lastState_bind act k d
  · rw [hlast, hact]
    exact hk a d'
  · rw [hlast]
    exact .refl _

theorem bind {act : Noted σ α} {k : α → Noted σ β} (h : act.Keeps) (hk : ∀ a, (k a).Keeps) :
    (act >>= k).Keeps := fun d => (h d).trans (leads_bind hk act d)

theorem within {act : Noted σ α} (h : act.Keeps) (phase : Label) (pos : Position) :
    Keeps (PolarPlot.within phase pos act) := by
  intro d
  rw [lastState_within]
  exact h d

theorem rounds {body : Float → Noted σ Unit} (h : ∀ v, (body v).Keeps) (fuel : Nat) (r : Range) :
    Keeps (PolarPlot.rounds body fuel r) := by
  induction fuel generalizing r with
  | zero =>
    cases hr : r.next? with
    | none =>
      rw [rounds_done hr]
      exact .pure ()
    | some next =>
      rw [rounds_exhausted hr]
      exact .throw _
  | succ fuel ih =>
    cases hr : r.next? with
    | none =>
      rw [rounds_done hr]
      exact .pure ()
    | some next =>
      rw [rounds_next hr]
      exact (h next.1).bind fun _ => ih next.2

end Keeps

end Noted

theorem Exec.bounds_unbinding (start stop : Expr) (step : Option Expr) (inclusive : Bool) :
    (Exec.bounds pass target start stop step inclusive).Unbinding := by
  apply (Unbinding.eval start).bind
  intro first
  apply (Unbinding.eval stop).bind
  intro last
  apply (Unbinding.stride step).bind
  intro stride
  exact (Unbinding.ofExcept _).bind fun _ => .ofExcept _

theorem Stmt.execAllNoted_keeps_of {ss : List Stmt}
    (ih : ∀ s ∈ ss, (s.execNoted pass fuel target).Keeps) :
    (Stmt.execAllNoted pass fuel target ss).Keeps := by
  induction ss with
  | nil => exact .pure ()
  | cons s ss ihs =>
    rw [execAllNoted]
    exact (ih s (.head _)).bind fun _ => ihs fun s hs => ih s (.tail _ hs)

theorem Stmt.execNoted_keeps (s : Stmt) : (s.execNoted pass fuel target).Keeps := by
  induction s with
  | assign pos name value =>
    rw [execNoted]
    exact .within ((Noted.Keeps.quiet (.eval value)).bind fun v => .assign _ name v) _ pos
  | call pos e =>
    rw [execNoted]
    exact .within ((Noted.Keeps.quiet (.eval e)).bind fun _ => .pure ()) _ pos
  | loop pos name start stop step inclusive body ih =>
    rw [execNoted]
    refine .within
      ((Noted.Keeps.quiet (Exec.bounds_unbinding start stop step inclusive)).bind fun r => ?_) _ pos
    exact .rounds (fun v => (Noted.Keeps.assign _ name v).bind fun _ => execAllNoted_keeps_of ih)
      fuel r
  | invalid pos message phase =>
    rw [execNoted]
    exact .within (.throw _) phase pos
  | misfit what =>
    rw [execNoted]
    exact .throw _

theorem Stmt.execAllNoted_keeps (ss : List Stmt) : (Stmt.execAllNoted pass fuel target ss).Keeps :=
  execAllNoted_keeps_of fun s _ => s.execNoted_keeps

/-- The variables of a run are those that its notes lead to. -/
theorem Stmt.execAllNoted_recounts (ss : List Stmt) (m : Machine σ) :
    Recounts m.vars (lastState (Stmt.execAllNoted pass fuel target ss (.blank m))).notes
      (lastState (Stmt.execAllNoted pass fuel target ss (.blank m))).machine.vars := by
  obtain ⟨notes, hnotes, hrecounts⟩ := execAllNoted_keeps ss (.blank m)
  rw [hnotes]
  exact hrecounts

/-! ## Who makes the notes -/

section Sources

variable {P : Note → Prop} {d : Diary σ}

theorem Noted.forall_bind {α β : Type} {act : Noted σ α} {k : α → Noted σ β}
    (h : ∀ n ∈ (lastState (act d)).notes, P n)
    (hk : ∀ a d', act d = .ok a d' → (∀ n ∈ d'.notes, P n) →
      ∀ n ∈ (lastState (k a d')).notes, P n) :
    ∀ n ∈ (lastState ((act >>= k) d)).notes, P n := by
  obtain ⟨a, d', hact, hlast⟩ | hlast := lastState_bind act k d
  · rw [hact, lastState] at h
    rw [hlast]
    exact hk a d' hact h
  · rwa [hlast]

theorem Noted.notes_quiet {α : Type} (act : Exec σ α) (d : Diary σ) :
    (lastState (quiet act d)).notes = d.notes := by
  unfold quiet
  cases act d.machine <;> rfl

theorem Noted.forall_assign {source : Stmt} {name : Label} {value : Float} (h : ∀ n ∈ d.notes, P n)
    (hP : P ⟨source, name, value, d.machine.vars.assign name value⟩) :
    ∀ n ∈ (lastState (assign source name value d)).notes, P n :=
  List.forall_mem_append.mpr ⟨h, List.forall_mem_singleton.mpr hP⟩

theorem Noted.forall_rounds {body : Float → Noted σ Unit} {plain : Float → Exec σ Unit}
    (hbody : ∀ v, (body v).Tells (plain v)) {fuel : Nat} {r : Range} (h : ∀ n ∈ d.notes, P n)
    (hround : ∀ {v d'}, Exec.Rounds plain fuel r d.machine v d'.machine → (∀ n ∈ d'.notes, P n) →
      ∀ n ∈ (lastState (body v d')).notes, P n) :
    ∀ n ∈ (lastState (rounds body fuel r d)).notes, P n := by
  induction fuel generalizing r d with
  | zero =>
    cases hr : r.next? with
    | none => rwa [rounds_done hr]
    | some next => rwa [rounds_exhausted hr]
  | succ fuel ih =>
    cases hr : r.next? with
    | none => rwa [rounds_done hr]
    | some next =>
      rw [rounds_next hr]
      refine forall_bind (hround (.first hr) h) fun _ d' hok hd' => ih hd' fun hrounds => ?_
      exact hround (.next hr ((hbody next.1).ok hok) hrounds)

theorem Stmt.forall_execAllNoted_of {ss : List Stmt}
    (ih : ∀ s ∈ ss, ∀ {d : Diary σ}, (∀ n ∈ d.notes, P n) →
      (∀ {n m}, Starts pass fuel target [s] d.machine n.source m →
        n.source.target? = some n.name → P n) →
      ∀ n ∈ (lastState (s.execNoted pass fuel target d)).notes, P n)
    (h : ∀ n ∈ d.notes, P n)
    (hP : ∀ {n m}, Starts pass fuel target ss d.machine n.source m →
      n.source.target? = some n.name → P n) :
    ∀ n ∈ (lastState (Stmt.execAllNoted pass fuel target ss d)).notes, P n := by
  induction ss generalizing d with
  | nil => exact h
  | cons s ss ihs =>
    rw [execAllNoted]
    refine Noted.forall_bind (ih s (.head _) h fun hs => hP hs.mono) fun _ d' hok hd' => ?_
    exact ihs (fun s hs => ih s (.tail _ hs)) hd' fun hs =>
      hP (.later (s.execNoted_tells.ok hok) hs)

/-- Only statements that a run comes to make notes, each of its own target. -/
theorem Stmt.forall_execNoted {s : Stmt} (h : ∀ n ∈ d.notes, P n)
    (hP : ∀ {n m}, Starts pass fuel target [s] d.machine n.source m →
      n.source.target? = some n.name → P n) :
    ∀ n ∈ (lastState (s.execNoted pass fuel target d)).notes, P n := by
  induction s generalizing d with
  | assign pos name value =>
    rw [execNoted, Noted.lastState_within]
    refine Noted.forall_bind ?_ fun v d' _ hd' => Noted.forall_assign hd' (hP .here rfl)
    rwa [Noted.notes_quiet]
  | call pos e =>
    rw [execNoted, Noted.lastState_within]
    refine Noted.forall_bind ?_ fun _ _ _ hd' => hd'
    rwa [Noted.notes_quiet]
  | loop pos name start stop step inclusive body ih =>
    rw [execNoted, Noted.lastState_within]
    refine Noted.forall_bind ?_ fun r d' hok hd' => ?_
    · rwa [Noted.notes_quiet]
    have hbounds : Exec.bounds pass target start stop step inclusive d.machine = .ok r d'.machine :=
      (Noted.quiet_tells _).ok hok
    refine Noted.forall_rounds (roundNoted_tells _ name body) hd' ?_
    intro v d'' hrounds hd''
    refine Noted.forall_bind (Noted.forall_assign hd'' (hP .here rfl)) fun _ u hu hnotes => ?_
    cases hu
    exact forall_execAllNoted_of (fun s hs _ h' hP' => ih s hs h' hP') hnotes fun hs =>
      hP (.within hbounds hrounds hs)
  | invalid pos message phase =>
    rw [execNoted, Noted.lastState_within]
    exact h
  | misfit what =>
    rw [execNoted]
    exact h

theorem Stmt.exists_starts_of_noted {ss : List Stmt} {m : Machine σ} :
    ∀ n ∈ (lastState (Stmt.execAllNoted pass fuel target ss (.blank m))).notes,
      n.source.target? = some n.name ∧ ∃ m', Starts pass fuel target ss m n.source m' :=
  forall_execAllNoted_of (fun s _ _ h hP => s.forall_execNoted h hP) (by simp [Diary.blank])
    fun hs htarget => ⟨htarget, _, hs⟩

end Sources

/-! ## What a run comes to -/

section Places

theorem Noted.Tells.exists_leads {α : Type} {act : Noted σ α} {plain : Exec σ α}
    (h : act.Tells plain) (hkeeps : act.Keeps) {d : Diary σ} {a : α} {m : Machine σ}
    (hplain : plain d.machine = .ok a m) :
    ∃ d', act d = .ok a d' ∧ d.Leads d' ∧ d'.machine = m := by
  have hleads := hkeeps d
  rw [h d] at hplain
  cases hact : act d with
  | ok b d' =>
    rw [hact] at hplain hleads
    cases hplain
    exact ⟨d', rfl, hleads, rfl⟩
  | error f d' =>
    rw [hact] at hplain
    cases hplain

theorem Noted.exists_leads_rounds {body : Float → Noted σ Unit} {plain : Float → Exec σ Unit}
    (hbody : ∀ v, (body v).Tells (plain v)) (hkeeps : ∀ v, (body v).Keeps) {fuel : Nat} {r : Range}
    {m n : Machine σ} {v : Float} (h : Exec.Rounds plain fuel r m v n) {d : Diary σ}
    (hd : d.machine = m) :
    ∃ d', d.Leads d' ∧ d'.machine = n ∧
    (lastState (body v d')).Leads (lastState (rounds body fuel r d)) := by
  induction h generalizing d with
  | first hr =>
    refine ⟨d, .refl d, hd, ?_⟩
    rw [rounds_next hr]
    exact Keeps.leads_bind (fun _ => .rounds hkeeps _ _) _ d
  | @next fuel r r' m m' n v w hr hv _ ih =>
    obtain ⟨d₁, hok, hfirst, hd₁⟩ := (hbody v).exists_leads (hkeeps v) (d := d) (hd ▸ hv)
    obtain ⟨d', hleads, hn, hrest⟩ := ih hd₁
    refine ⟨d', hfirst.trans hleads, hn, ?_⟩
    rw [rounds_next hr, bind_of_ok hok]
    exact hrest

/-- Whatever machine a run comes to has the variables of a moment in its diary. -/
theorem Starts.exists_leads {ss : List Stmt} {x : Stmt} {m n : Machine σ}
    (h : Starts pass fuel target ss m x n) {d : Diary σ} (hd : d.machine = m) :
    ∃ d', d.Leads d' ∧ d'.machine = n ∧
    d'.Leads (lastState (Stmt.execAllNoted pass fuel target ss d)) := by
  induction h generalizing d with
  | here => exact ⟨d, .refl d, hd, Stmt.execAllNoted_keeps _ d⟩
  | @later s x ss m m' n hs _ ih =>
    obtain ⟨d₁, hok, hfirst, hd₁⟩ :=
      s.execNoted_tells.exists_leads s.execNoted_keeps (d := d) (hd ▸ hs)
    obtain ⟨d', hleads, hn, hrest⟩ := ih hd₁
    refine ⟨d', hfirst.trans hleads, hn, ?_⟩
    rw [Stmt.execAllNoted, bind_of_ok hok]
    exact hrest
  | @within pos name start stop step inclusive body ss r v x m m' m'' n hbounds hrounds _ ih =>
    obtain ⟨d₁, hok, hentry, hd₁⟩ :=
      (Noted.quiet_tells (Exec.bounds pass target start stop step inclusive)).exists_leads
        (.quiet (Exec.bounds_unbinding start stop step inclusive)) (d := d) (hd ▸ hbounds)
    -- The round that the statement is in starts with an assignment to the variable of the loop.
    obtain ⟨d₂, hbefore, hd₂, hround⟩ := Noted.exists_leads_rounds
      (Stmt.roundNoted_tells (.loop pos name start stop step inclusive body) name body)
      (fun v => (Noted.Keeps.assign _ name v).bind fun _ => Stmt.execAllNoted_keeps body)
      hrounds hd₁
    obtain ⟨d₃, hassign, hstart, hd₃⟩ :=
      (Noted.assign_tells (.loop pos name start stop step inclusive body) name v).exists_leads
        (.assign _ name v) (d := d₂) rfl
    obtain ⟨d', hleads, hn, hrest⟩ := ih (d := d₃) (by rw [hd₃, hd₂])
    refine ⟨d', hentry.trans (hbefore.trans (hstart.trans hleads)), hn, ?_⟩
    rw [bind_of_ok hassign] at hround
    have hloop := Noted.Keeps.leads_bind (k := fun _ => Stmt.execAllNoted pass fuel target ss)
      (fun _ => Stmt.execAllNoted_keeps ss)
      ((Stmt.loop pos name start stop step inclusive body).execNoted pass fuel target) d
    rw [Stmt.execNoted, Noted.lastState_within, bind_of_ok hok] at hloop
    rw [Stmt.execAllNoted, Stmt.execNoted]
    exact hrest.trans (hround.trans hloop)

end Places

end Statements

end PolarPlot

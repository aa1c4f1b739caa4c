import PolarPlot.Drawing.Svg
import PolarPlot.Proofs.Script

/-!
# Steps of a picture

Each function of a picture is put together from a few kinds of steps: it writes, changes the state
without a look at the writer, or fails (`Svg.Composed`). There is one lemma that says so for each of
them. What holds of these kinds of steps and of one step after another thus holds of all functions
by one induction, as `Svg.Composed.cause_of_error` and `Svg.Composed.started` do here.
-/

namespace PolarPlot

open Number

/-! ## Steps on a part of the state -/

section Parts

variable {σ τ α : Type} {get : σ → τ} {set : τ → σ → σ} {act : Action τ α} {s s' : σ}

theorem Action.on_eq_ok {a : α} :
    Action.on get set act s = .ok a s' ↔ ∃ t, act (get s) = .ok a t ∧ s' = set t s := by
  unfold Action.on
  cases act (get s) <;> simp [eq_comm]

theorem Action.on_eq_error {c : Cause} :
    Action.on get set act s = .error c s' ↔ ∃ t, act (get s) = .error c t ∧ s' = set t s := by
  unfold Action.on
  cases act (get s) <;> simp [eq_comm]

end Parts

namespace Writer

variable {w v : Writer} {c : Cause}

theorem write_eq_error {what text : String} (h : write what text w = .error c v) :
    ∃ action detail, c = .output action detail := by
  unfold write at h
  split at h
  · cases h
  · cases h
    exact ⟨_, _, rfl⟩

theorem flush_eq_error (h : flush w = .error c v) : ∃ action detail, c = .output action detail := by
  unfold flush at h
  split at h
  · cases h
  · cases h
    exact ⟨_, _, rfl⟩

end Writer

/-! ## Commands that are refused -/

/-- Whether an end of a command has an infinite angle. -/
def Command.isInfinite : Command → Bool
  | .vertex _ theta => theta.isInf
  | .arc _ theta sweep => theta.isInf || (theta + sweep).isInf
  | .bare _ _ => false

/-- Why a picture refuses a command: it is outside of the unit circle, an angle is infinite, or it
is no command that can be drawn. -/
inductive Command.Refused : Command → Cause → Prop where
  | outside {c : Command} : 1 < c.r.abs → Refused c (.unnormalized c.r)
  | infinite {c : Command} : c.isInfinite → Refused c .infiniteAngle
  | bare (r theta : Float) : Refused (.bare r theta) (.notDrawable r theta)

theorem isInf_of_isNaN {x : Float} (h : x.isNaN) : x.isInf = false := by
  change x.toModel.unpack.isNaN = true at h
  change x.toModel.unpack.isInf = false
  generalize x.toModel.unpack = u at h ⊢
  cases u with
  | infinity s => cases h
  | notANumber | zero | finite => rfl

namespace Svg

variable {canvas : Canvas}

/-- A finite angle has a place. -/
theorem exists_toCartesian (canvas : Canvas) (r : Float) {theta : Float} (h : theta.isInf = false) :
    ∃ p, toCartesian canvas r theta = pure p := by
  unfold toCartesian Checked.cos Checked.sin Checked.extend
  cases theta.isNaN with
  | true => exact ⟨_, rfl⟩
  | false =>
    simp only [h]
    exact ⟨_, rfl⟩

theorem toCartesian_of_isInf (canvas : Canvas) (r : Float) {theta : Float}
    (h : theta.isInf = true) : toCartesian canvas r theta = throw .infiniteAngle := by
  -- what is no number is asked for first, and has a cosine
  have hnan : theta.isNaN = false := by
    cases hn : theta.isNaN with
    | false => rfl
    | true =>
      rw [isInf_of_isNaN hn] at h
      cases h
  unfold toCartesian Checked.cos Checked.sin Checked.extend
  simp only [hnan, h]
  rfl

theorem tick_isInf : ∀ i < ticks, (pi / 64 * ofInt i).isInf = false := by
  -- one angle after the other
  decide +kernel

/-! ## What steps are made of -/

/-- Steps that write, change the state without a look at the writer, and fail for the causes in `Q`.
The writer is only flushed when a picture is closed. -/
inductive Composed (Q : Cause → Prop) : (closing : Bool) → {α : Type} → Action State α → Prop where
  | pure {closing : Bool} {α : Type} (a : α) : Composed Q closing (Pure.pure a)
  | throw {closing : Bool} {α : Type} {c : Cause} : Q c →
      Composed Q closing (MonadExcept.throw c : Action State α)
  /-- A change of the state that leaves the writer alone. No page is taken back. -/
  | change {closing : Bool} {f : State → State} :
      (∀ w s, f { s with writer := w } = { f s with writer := w }) →
      (∀ s, s.started = true → (f s).started = true) → Composed Q closing (modify f)
  | write {closing : Bool} (text : String) : Composed Q closing (Svg.write text)
  | flush : Composed Q true
      (Action.on State.writer (fun w s => { s with writer := w }) Writer.flush)
  /-- What comes next depends on the state, but not on the writer. -/
  | look {closing : Bool} {α : Type} {g : State → Action State α} :
      (∀ w s, g { s with writer := w } = g s) → (∀ s, Composed Q closing (g s)) →
      Composed Q closing (get >>= g)
  | bind {closing : Bool} {α β : Type} {act : Action State α} {g : α → Action State β} :
      Composed Q false act → (∀ a, Composed Q closing (g a)) → Composed Q closing (act >>= g)

/-- A change without a look at the writer leaves the writer as it is. -/
theorem writer_of_change {f : State → State}
    (hf : ∀ w s, f { s with writer := w } = { f s with writer := w }) (s : State) :
    (f s).writer = s.writer := by
  have hsame : f s = { f s with writer := s.writer } := hf s.writer s
  rw [hsame]

section Composed

variable {Q : Cause → Prop} {closing : Bool} {α : Type} {act : Action State α}

theorem Composed.forM {f : α → Action State Unit} {xs : List α}
    (h : ∀ x ∈ xs, Composed Q false (f x)) : Composed Q false (xs.forM f) := by
  induction xs with
  | nil => exact .pure ()
  | cons x xs ih => exact (h x (.head _)).bind fun _ => ih fun y hy => h y (.tail _ hy)

/-- A step fails for a cause of its own, or for the output. -/
theorem Composed.cause_of_error (h : Composed Q closing act) {s t : State} {c : Cause}
    (herror : act s = .error c t) : Q c ∨ ∃ action detail, c = .output action detail := by
  induction h generalizing s t with
  | pure | change => cases herror
  | throw hc =>
    cases herror
    exact .inl hc
  | write =>
    obtain ⟨_, hw, -⟩ := Action.on_eq_error.mp herror
    exact .inr (Writer.write_eq_error hw)
  | flush =>
    obtain ⟨_, hw, -⟩ := Action.on_eq_error.mp herror
    exact .inr (Writer.flush_eq_error hw)
  | look _ _ ih => exact ih s herror
  | bind _ _ ih ihg =>
    obtain herror | ⟨a, u, -, herror⟩ := bind_eq_error.mp herror
    · exact ih herror
    · exact ihg a herror

/-- A page that was started stays so. -/
theorem Composed.started (h : Composed Q closing act) {s t : State} {a : α} (hact : act s = .ok a t)
    (hs : s.started = true) : t.started = true := by
  induction h generalizing s t with
  | pure =>
    cases hact
    exact hs
  | throw => cases hact
  | change _ hf =>
    cases hact
    exact hf s hs
  | write | flush =>
    obtain ⟨_, -, rfl⟩ := Action.on_eq_ok.mp hact
    exact hs
  | look _ _ ih => exact ih s hact hs
  | bind _ _ ih ihg =>
    obtain ⟨b, u, hb, hact⟩ := bind_eq_ok.mp hact
    exact ihg b hact (ih hb hs)

end Composed

/-! ## One lemma for each function -/

section Functions

variable {Q : Cause → Prop}

theorem start_composed : Composed Q false (start canvas) := by
  refine .look (fun _ _ => rfl) fun s => ?_
  split
  · exact .bind (.change (fun _ _ => rfl) fun _ _ => rfl) fun _ => .write _
  · exact .pure ()

theorem toCartesian_composed (r : Float) {theta : Float}
    (hQ : theta.isInf = true → Q .infiniteAngle) :
    Composed Q false (toCartesian canvas r theta) := by
  cases htheta : theta.isInf with
  | true =>
    rw [toCartesian_of_isInf canvas r htheta]
    exact .throw (hQ htheta)
  | false =>
    obtain ⟨p, hp⟩ := exists_toCartesian canvas r htheta
    rw [hp]
    exact .pure p

theorem addPoint_composed (p : Float × Float) : Composed Q false (addPoint p) :=
  .change (fun _ _ => rfl) fun _ hs => hs

theorem flushPending_composed : Composed Q false flushPending := by
  refine .look (fun _ _ => rfl) fun s => ?_
  dsimp only
  split
  · exact .bind (.write _) fun _ => .change (fun _ _ => rfl) fun _ hs => hs
  · exact .pure ()

theorem drawArc_composed (r : Float) {theta sweep : Float}
    (hQ : (theta.isInf || (theta + sweep).isInf) = true → Q .infiniteAngle) :
    Composed Q false (drawArc canvas r theta sweep) := by
  apply (toCartesian_composed r fun h => hQ (Bool.or_eq_true_iff.mpr (.inl h))).bind
  intro first
  apply (toCartesian_composed r fun h => hQ (Bool.or_eq_true_iff.mpr (.inr h))).bind
  intro last
  have hpath : ∀ text, Composed Q false (do
      write text
      modify fun s => { s with paths := s.paths + 1 }
      addPoint last) := by
    intro text
    refine .bind (.write text) fun _ => ?_
    exact .bind (.change (fun _ _ => rfl) fun _ hs => hs) fun _ => addPoint_composed last
  refine .look (fun _ _ => rfl) fun s => ?_
  dsimp only
  split
  · apply (addPoint_composed first).bind
    intro _
    exact flushPending_composed.bind fun _ => hpath _
  · exact hpath _

theorem accept_composed {c : Command} (hQ : ∀ e, c.Refused e → Q e) :
    Composed Q false (accept canvas c) := by
  have hchecked : ∀ {shown : Action State Unit}, Composed Q false shown →
      Composed Q false (do
        if 1 < c.r.abs then throw (.unnormalized c.r)
        shown) := by
    intro shown hshown
    dsimp only
    split
    · next hr => exact .bind (.throw (hQ _ (.outside hr))) fun _ => hshown
    · exact hshown
  apply start_composed.bind
  intro _
  cases c with
  | vertex r theta =>
    exact hchecked ((toCartesian_composed r fun h => hQ _ (.infinite h)).bind addPoint_composed)
  | arc r theta sweep => exact hchecked (drawArc_composed r fun h => hQ _ (.infinite h))
  | bare r theta => exact hchecked (.throw (hQ _ (.bare r theta)))

theorem replay_composed {cs : List Command} (hQ : ∀ c ∈ cs, ∀ e, c.Refused e → Q e) :
    Composed Q false ((Target.svg canvas).replay cs) := by
  induction cs with
  | nil => exact .pure ()
  | cons c cs ih =>
    exact (accept_composed (hQ c (.head _))).bind fun _ => ih fun d hd => hQ d (.tail _ hd)

theorem drawGuide_composed : Composed Q false (drawGuide canvas) := by
  have hplace : ∀ {theta : Float}, theta.isInf = false → ∀ r,
      Composed Q false (toCartesian canvas r theta) := by
    intro theta htheta r
    refine toCartesian_composed r fun h => ?_
    rw [htheta] at h
    cases h
  refine .bind (.write _) fun _ => ?_
  apply (hplace (by decide) 0).bind
  intro center
  apply Composed.forM
  intro i hi
  exact (hplace (tick_isInf i (List.mem_range.mp hi)) 1).bind fun tip => .write _

theorem close_composed : Composed Q true (close canvas) := by
  have hend : Composed Q true (do
      write footer
      modify fun s => { s with closed := true }
      Action.on State.writer (fun w s => { s with writer := w }) Writer.flush) := by
    refine .bind (.write _) fun _ => ?_
    exact .bind (.change (fun _ _ => rfl) fun _ hs => hs) fun _ => .flush
  refine .look (fun _ _ => rfl) fun s => ?_
  dsimp only
  split
  · apply start_composed.bind
    intro _
    apply flushPending_composed.bind
    intro _
    split
    · exact drawGuide_composed.bind fun _ => hend
    · exact hend
  · exact .flush

end Functions

end Svg

end PolarPlot

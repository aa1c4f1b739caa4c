import PolarPlot.Proofs.Diaries
import PolarPlot.Proofs.PostOrder
import PolarPlot.Proofs.Regular
import PolarPlot.Proofs.Stalling

/-!
# The variables of a run

What a parsed program binds, moment by moment (`Moment`): a moment of a run is told by the
assignments that it has made. A name that is bound was assigned to before and has the value that was
assigned to it last. The names of the constants are never assigned to, and what is assigned to the
sink is lost, so reading it is an error even in a loop over it (`variables_of_run`).
-/

namespace PolarPlot

open Grammar

/-! ## Targets of assignments -/

section Targets

variable {σ : Type} {pass : Pass} {fuel : Nat} {T : Target σ}

/-- What a regular program comes to is regular. -/
theorem Starts.regular {ss : List Stmt} {x : Stmt} {m n : Machine σ}
    (h : Starts pass fuel T ss m x n) (hss : ∀ s ∈ ss, s.Regular) : x.Regular := by
  induction h with
  | here => exact hss _ (.head _)
  | later _ _ ih => exact ih fun s hs => hss s (.tail _ hs)
  | within _ _ _ ih =>
    cases hss _ (.head _) with
    | loop _ _ _ _ _ hbody => exact ih hbody

theorem Stmt.Regular.isVariable {s : Stmt} (h : s.Regular) {name : Label}
    (hname : s.target? = some name) : ∃ word, name = .word word ∧ IsVariable word := by
  cases h with
  | assign hword =>
    cases hname
    exact ⟨_, rfl, hword⟩
  | loop hword =>
    cases hname
    exact ⟨_, rfl, hword⟩
  | call => cases hname
  | invalid => cases hname

theorem regular_of_parse {origin text : String} {program : List Stmt}
    (h : parse origin text = .ok program) : ∀ s ∈ program, s.Regular := by
  obtain ⟨ts, d, htakes⟩ := parse_eq_ok_iff_takes.mp h
  obtain ⟨ps, rest, z, rfl, _, _, hps, _, hspells⟩ := htakes.exists_pieces
  exact hspells.row_stmts.regular hps.isText

theorem exists_note_of_recent {x : Label} {notes : List Note} {v : Float}
    (h : recent x notes = some v) : ∃ n ∈ notes, n.name.key = x.key ∧ n.value = v := by
  obtain ⟨n, hn, hv⟩ := Option.map_eq_some_iff.mp h
  obtain ⟨hmem, hsame⟩ := List.mem_filter.mp (List.mem_of_getLast? hn)
  exact ⟨n, hmem, beq_iff_eq.mp hsame, hv⟩

end Targets

/-! ## Reading what is not bound -/

section Reading

variable {σ : Type} {T : Target σ} {vars : Bindings} {x : Label}

theorem Bindings.find_eq_ok {v : Float} : vars.find x = .ok v ↔ vars.get? x = some v := by
  unfold find
  cases vars.get? x <;> simp

theorem Expr.eval_unbound (h : ¬ vars.Binds x) (pos : Position) (s : σ) :
    (Expr.var pos x).eval T vars s = .error (.undefinedVariable x) s := by
  have hnone : vars.get? x = none := Option.not_isSome_iff_eq_none.mp h
  simp only [eval, Bindings.find, hnone, Action.ofExcept, throw_apply]

/-- An expression has a value only if all its nodes have one. -/
theorem Expr.hasValue_of_eval {e : Expr} {s t : σ} {v : Float} (h : e.eval T vars s = .ok v t) :
    ∀ node ∈ e.nodes, ∃ y, node.HasValue vars y := by
  obtain ⟨cs, o, heval, hwalks⟩ := e.performs_nodes vars
  cases o with
  | ok y => exact hwalks.hasValue
  | error c =>
    rw [heval, Target.perform, bind_eq_ok] at h
    obtain ⟨_, _, _, h⟩ := h
    cases h

/-- An expression that reads a name without a value has none. -/
theorem Expr.eval_ne_ok (h : ¬ vars.Binds x) {e : Expr} {pos : Position} (he : .var pos x ∈ e.nodes)
    (s t : σ) (v : Float) : e.eval T vars s ≠ .ok v t := by
  intro hv
  obtain ⟨y, hy⟩ := hasValue_of_eval hv _ he
  rw [HasValue, eval_unbound h] at hy
  cases hy

end Reading

/-! ## Loops over the sink -/

section Sink

variable {σ : Type} {pass : Pass} {fuel : Nat} {T : Target σ}

/-- Assigning to the sink does nothing, so all rounds are the body. -/
theorem Stmt.round_sink (body : List Stmt) :
    Stmt.round pass fuel T "_" body = fun _ => Stmt.execAll pass fuel T body := rfl

/-- A sweep over a range that ends runs its body once for each value. -/
theorem Exec.sweep_eq_forM {body : Float → Exec σ Unit} {n fuel : Nat} {r : Range}
    (hend : (r.take n).2.next? = none) (hfuel : (r.take n).1.length ≤ fuel) :
    sweep body fuel r = (r.take n).1.forM body := by
  induction n generalizing r fuel with
  | zero =>
    funext m
    exact sweep_done hend
  | succ n ih =>
    cases hr : r.next? with
    | none =>
      rw [Range.take_of_none hr]
      funext m
      exact sweep_done hr
    | some next =>
      rw [Range.take_of_some hr] at hend hfuel ⊢
      cases fuel with
      | zero => exact absurd hfuel (Nat.not_succ_le_zero _)
      | succ fuel =>
        rw [sweep_next hr, ih hend (Nat.le_of_succ_le_succ hfuel)]
        rfl

end Sink

/-! ## Runs -/

/-- The variables of a run, at the moment when it has made some assignments. -/
structure Moment {σ : Type} (pass : Pass) (fuel : Nat) (T : Target σ) (program : List Stmt) (s : σ)
    (before : List Note) : Prop where
  unbound {x : String} : x ∈ ["_", "pi", "π", "e"] → ¬ (varsAfter before).Binds x
  /-- A name that is bound is the target of a statement that the run has come to. -/
  assigned {x : Label} : (varsAfter before).Binds x → ∃ n ∈ before, n.name.key = x.key ∧
    n.source.target? = some n.name ∧ ∃ m, Starts pass fuel T program (.fresh s) n.source m
  value {x : Label} {v : Float} :
    (varsAfter before).find x = .ok v ↔ x.key ≠ Bindings.sink ∧ recent x before = some v
  sink {τ : Type} (U : Target τ) (t : τ) (pos : Position) :
    (Expr.var pos "_").eval U (varsAfter before) t = .error (.undefinedVariable "_") t
  /-- An expression that reads the sink anywhere has no value. -/
  reads {τ : Type} (U : Target τ) {e : Expr} {pos : Position} :
    .var pos "_" ∈ e.nodes → ∀ t v u, e.eval U (varsAfter before) t ≠ .ok v u

section Runs

variable {σ : Type} {pass : Pass} {fuel : Nat} {T : Target σ} {program : List Stmt} {s : σ}
  {before : List Note}

theorem moment_of_recounts (hprogram : ∀ s ∈ program, s.Regular)
    (hrecounts : Recounts .empty before (varsAfter before))
    (hsources : ∀ n ∈ before, n.source.target? = some n.name ∧
      ∃ m, Starts pass fuel T program (.fresh s) n.source m) :
    Moment pass fuel T program s before := by
  have hvalue : ∀ {x : Label}, x.key ≠ Bindings.sink →
      (varsAfter before).get? x = recent x before := by
    intro x hx
    rw [hrecounts.get?_eq hx, Bindings.empty, Bindings.get?, List.lookup_nil, Option.or_none]
  have hsink : ∀ {x : Label}, x.key = Bindings.sink → (varsAfter before).get? x = none := fun hx =>
    hrecounts.get?_sink hx
  -- A bound name was assigned to, so it is the target of a regular statement.
  have hbound : ∀ {x : Label}, (varsAfter before).Binds x → x.key ≠ Bindings.sink ∧
      ∃ n ∈ before, n.name.key = x.key := by
    intro x hx
    have hne : x.key ≠ Bindings.sink := by
      intro hkey
      rw [Bindings.Binds, hsink hkey] at hx
      cases hx
    rw [Bindings.Binds, hvalue hne] at hx
    obtain ⟨v, hv⟩ := Option.isSome_iff_exists.mp hx
    obtain ⟨n, hn, hkey, _⟩ := exists_note_of_recent hv
    exact ⟨hne, n, hn, hkey⟩
  have hunbound : ∀ {x : String}, x ∈ ["_", "pi", "π", "e"] → ¬ (varsAfter before).Binds x := by
    intro x hx hbinds
    obtain ⟨hne, n, hn, hkey⟩ := hbound hbinds
    obtain ⟨htarget, m, hstarts⟩ := hsources n hn
    obtain ⟨word, hword, _, hfree⟩ := (hstarts.regular hprogram).isVariable htarget
    rw [hword] at hkey
    obtain rfl : word = x := by
      injection hkey
    simp only [List.mem_cons, List.not_mem_nil, or_false] at hx
    obtain rfl | rfl | rfl | rfl := hx
    · exact hne rfl
    all_goals exact absurd hfree (by decide)
  refine ⟨hunbound, ?_, ?_, ?_, ?_⟩
  · intro x hx
    obtain ⟨_, n, hn, hkey⟩ := hbound hx
    obtain ⟨htarget, hstarts⟩ := hsources n hn
    exact ⟨n, hn, hkey, htarget, hstarts⟩
  · intro x v
    rw [Bindings.find_eq_ok]
    by_cases hx : x.key = Bindings.sink
    · simp [hsink hx, hx]
    · simp [hvalue hx, hx]
  · intro τ U t pos
    exact Expr.eval_unbound (hunbound (.head _)) pos t
  · intro τ U e pos he t v u
    exact Expr.eval_ne_ok (hunbound (.head _)) he t u v

end Runs

/-- At every moment of a run of a parsed program, in either pass and however it ends: the constants
and the sink are not bound, every name that is bound was assigned to, it stays bound, and it has the
value that was assigned to it last. Every statement that the run comes to finds the variables of
such a moment. A loop over the sink assigns to nothing, and runs its body once for each value of its
range. -/
theorem variables_of_run {origin text : String} {program : List Stmt}
    (h : parse origin text = .ok program) {σ : Type} (pass : Pass) (fuel : Nat) (T : Target σ)
    (s : σ) :
    (∃ d, lastState (Stmt.execAllNoted pass fuel T program (.blank (.fresh s))) = d ∧
      lastState (Stmt.execAll pass fuel T program (.fresh s)) = d.machine ∧
      d.machine.vars = varsAfter d.notes ∧
      (∀ before after, d.notes = before ++ after → Moment pass fuel T program s before) ∧
      (∀ before between after, d.notes = before ++ (between ++ after) →
        (varsAfter (before ++ between)).Covers (varsAfter before)) ∧
      ∀ x m, Starts pass fuel T program (.fresh s) x m →
        ∃ before after, d.notes = before ++ after ∧ m.vars = varsAfter before) ∧
    ∀ pos start stop step inclusive body,
      (Stmt.loop pos "_" start stop step inclusive body).exec pass fuel T =
        Exec.inside Phase.loop pos (Exec.bounds pass T start stop step inclusive >>= fun r =>
          Exec.sweep (fun _ => Stmt.execAll pass fuel T body) fuel r) ∧
      ∀ r n, (Range.take n r).2.next? = none → (Range.take n r).1.length ≤ fuel →
        Exec.sweep (fun _ => Stmt.execAll pass fuel T body) fuel r =
          (Range.take n r).1.forM fun _ => Stmt.execAll pass fuel T body := by
  constructor
  · obtain ⟨d, hd⟩ : ∃ d,
        lastState (Stmt.execAllNoted pass fuel T program (.blank (.fresh s))) = d := ⟨_, rfl⟩
    have htold : lastState (Stmt.execAll pass fuel T program (.fresh s)) = d.machine := by
      rw [Stmt.execAll_told, lastState_mapEnd, hd]
    have hrecounts : Recounts .empty d.notes d.machine.vars :=
      hd ▸ Stmt.execAllNoted_recounts program (.fresh s)
    have hsources : ∀ n ∈ d.notes, n.source.target? = some n.name ∧
        ∃ m, Starts pass fuel T program (.fresh s) n.source m := hd ▸ Stmt.exists_starts_of_noted
    refine ⟨d, hd, htold, hrecounts.eq_varsAfter, ?_, ?_, ?_⟩
    · intro before after hnotes
      rw [hnotes] at hrecounts hsources
      obtain ⟨vars, hbefore, _⟩ := hrecounts.exists_between
      rw [hbefore.eq_varsAfter] at hbefore
      exact moment_of_recounts (regular_of_parse h) hbefore (List.forall_mem_append.mp hsources).1
    · intro before between after hnotes
      rw [hnotes] at hrecounts
      obtain ⟨vars, hbefore, hrest⟩ := hrecounts.exists_between
      obtain ⟨vars', hbetween, _⟩ := hrest.exists_between
      rw [← hbefore.eq_varsAfter, ← (hbefore.append hbetween).eq_varsAfter]
      exact hbetween.covers
    · intro x m hstarts
      obtain ⟨d', ⟨before, hbefore, hvars⟩, rfl, after, hafter, _⟩ :=
        hstarts.exists_leads (d := .blank (.fresh s)) rfl
      rw [hd, hbefore] at hafter
      exact ⟨before, after, hafter, hvars.eq_varsAfter⟩
  · intro pos start stop step inclusive body
    refine ⟨?_, fun r n hend hfuel => Exec.sweep_eq_forM hend hfuel⟩
    rw [Stmt.exec_loop, Stmt.round_sink]

/-- A variable that is assigned to twice, and a loop over the sink that reads it. -/
def sinkText : String := "x = 1 for _ over [0, 1] \x7b x = 2 x = _ \x7d"

theorem variables_of_run_sinkText : ∃ program d, parse "" sinkText = .ok program ∧
    lastState (Stmt.execAllNoted .real 200 Target.discard program (.blank (.fresh ()))) = d ∧
    d.notes.map Note.name = ["x", "_", "x"] ∧
    ∀ before after, d.notes = before ++ after →
    Moment .real 200 Target.discard program () before := by
  have hnames : (parse "" sinkText).map (fun program =>
      (lastState
        (Stmt.execAllNoted .real 200 Target.discard program (.blank (.fresh ())))).notes.map
        Note.name) =
      .ok ["x", "_", "x"] := by
    decide +kernel
  obtain ⟨program, h⟩ := exists_eq_ok (x := parse "" sinkText) (by decide +kernel)
  obtain ⟨⟨d, hd, _, _, hmoments, _⟩, _⟩ := variables_of_run h .real 200 Target.discard ()
  rw [h] at hnames
  exact ⟨program, d, h, hd, hd ▸ Except.ok.inj hnames, hmoments⟩

end PolarPlot

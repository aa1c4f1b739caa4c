import Mathlib.Data.List.Induction
import PolarPlot.Proofs.Steady

/-!
# Pictures as drawings

What a picture shows of a row of commands, as a row of elements: polylines and paths that join
(`Svg.Continuous`). `Svg.svg_continuous` says that a picture writes its header, these elements, the
guide if it has one, and its footer, however often it is closed.
-/

namespace PolarPlot

open Number

namespace Svg

/-! ## Elements of a drawing -/

/-- The place of a point in a picture. -/
def place (canvas : Canvas) (r theta : Float) : Float × Float :=
  let cosine := (Checked.cos theta).toOption.getD nan
  let sine := (Checked.sin theta).toOption.getD nan
  (r * canvas.scale * cosine + canvas.scale, -(r * canvas.scale * sine) + canvas.scale)

/-- An arc in a picture. -/
structure Curve where
  first : Float × Float
  last : Float × Float
  radius : Float
  sweep : Float

inductive Element where
  /-- A polyline: the end of the path before it, vertices, and the start of the path after it. -/
  | polyline (start : Option (Float × Float)) (vertices : List (Float × Float))
      (stop : Option (Float × Float))
  | path (a : Curve)

namespace Element

def text : Element → String
  | .polyline start vertices stop =>
    Svg.polyline (start.toList ++ vertices ++ stop.toList) strokeColor strokeWidth
  | .path a =>
    Svg.path ("M " ++ coordinates a.first ++ " A " ++ fixedText 5 a.radius ++ "," ++
      fixedText 5 a.radius ++ " 0 " ++ toString (arcFlags a.sweep).1 ++ " " ++
      toString (arcFlags a.sweep).2 ++ " " ++ coordinates a.last) strokeColor strokeWidth

def vertices : Element → List (Float × Float)
  | .polyline _ vs _ => vs
  | .path _ => []

def curve? : Element → Option Curve
  | .polyline _ _ _ => none
  | .path a => some a

@[simp] theorem curve?_polyline (start : Option (Float × Float)) (vs : List (Float × Float))
    (stop : Option (Float × Float)) : (polyline start vs stop).curve? = none := rfl

@[simp] theorem curve?_path (a : Curve) : (path a).curve? = some a := rfl

end Element

/-- The point of a vertex in a picture. -/
def vertex? (canvas : Canvas) : Command → Option (Float × Float)
  | .vertex r theta => some (place canvas r theta)
  | _ => none

/-- The curve of an arc in a picture. -/
def curve? (canvas : Canvas) : Command → Option Curve
  | .arc r theta sweep =>
    some ⟨place canvas r theta, place canvas r (theta + sweep), r * canvas.scale, sweep⟩
  | _ => none

/-- Elements of which one ends where the other starts. -/
def Joined : Element → Element → Prop
  | .polyline _ _ stop, .path a => stop = some a.first
  | .path a, .polyline start _ _ => start = some a.last
  | _, _ => False

section Joined

variable {e : Element} {es₁ es₂ : List Element} {a : Curve} {start stop : Option (Float × Float)}
  {vs : List (Float × Float)}

end Joined

/-- The elements that are complete, and the polyline that is still open. -/
structure Sketch where
  done : List Element
  start : Option (Float × Float)
  vertices : List (Float × Float)

namespace Sketch

def empty : Sketch := ⟨[], none, []⟩

/-- The points of the open polyline. -/
def pending (g : Sketch) : List (Float × Float) := g.start.toList ++ g.vertices

/-- The elements when the open polyline ends somewhere. -/
def ended (g : Sketch) (stop : Option (Float × Float)) : List Element :=
  if g.pending.isEmpty then g.done else g.done ++ [.polyline g.start g.vertices stop]

/-- Draws a curve. -/
def turn (g : Sketch) (a : Curve) : Sketch := ⟨g.ended (some a.first) ++ [.path a], some a.last, []⟩

/-- Draws a command. -/
def add (canvas : Canvas) (g : Sketch) (c : Command) : Sketch :=
  match vertex? canvas c, curve? canvas c with
  | some p, _ => { g with vertices := g.vertices ++ [p] }
  | none, some a => g.turn a
  | none, none => g

/-- A sketch has drawn some commands. -/
structure Draws (canvas : Canvas) (cs : List Command) (g : Sketch) : Prop where
  paths : g.done.filterMap Element.curve? = cs.filterMap (curve? canvas)
  vertices : g.done.flatMap Element.vertices ++ g.vertices = cs.filterMap (vertex? canvas)
  chain : g.done.IsChain Joined
  /-- The last element is a path, and the open polyline starts at its end. -/
  last : g.done = [] ∧ g.start = none ∨
    ∃ es a, g.done = es ++ [.path a] ∧ g.start = some a.last
  /-- The first element comes from the first command. -/
  first : ∀ e ∈ g.done.head?, (∃ vs stop, e = .polyline none vs stop) ∨
    ∃ a, e = .path a ∧ cs.head?.bind (curve? canvas) = some a
  pending : g.pending = [] ↔ cs = []
  /-- A polyline follows on each path, and one more comes first if the first command is a vertex. -/
  count : (g.ended none).length = 2 * (cs.filterMap (curve? canvas)).length +
    if (cs.head?.bind (vertex? canvas)).isSome then 1 else 0

variable {canvas : Canvas} {cs : List Command} {g : Sketch} {a : Curve}

theorem ended_of_pending (h : g.pending ≠ []) (stop : Option (Float × Float)) :
    g.ended stop = g.done ++ [.polyline g.start g.vertices stop] := by
  simp [ended, h]

theorem Draws.eq_empty (h : Draws canvas cs g) (hp : g.pending = []) : g = empty := by
  obtain ⟨done, start, vertices⟩ := g
  obtain ⟨hstart, rfl⟩ : start.toList = [] ∧ vertices = [] := List.append_eq_nil_iff.mp hp
  obtain ⟨rfl, rfl⟩ | ⟨es, a, -, rfl⟩ := h.last
  · rfl
  · cases hstart

/-- The open polyline joins on to the path before it. -/
theorem Draws.chain_ended (h : Draws canvas cs g) (stop : Option (Float × Float)) :
    (g.done ++ [Element.polyline g.start g.vertices stop]).IsChain Joined := by
  refine List.isChain_append.mpr ⟨h.chain, .singleton _, ?_⟩
  rintro e he _ ⟨⟩
  obtain ⟨hnil, -⟩ | ⟨es, b, hdone, hstart⟩ := h.last
  · rw [hnil] at he
    cases he
  · rw [hdone, List.getLast?_concat] at he
    cases he
    exact hstart

theorem Draws.first_ended (h : Draws canvas cs g) (stop : Option (Float × Float)) :
    ∀ e ∈ (g.done ++ [Element.polyline g.start g.vertices stop]).head?,
      (∃ vs stop, e = .polyline none vs stop) ∨
        ∃ a, e = .path a ∧ cs.head?.bind (curve? canvas) = some a := by
  intro e he
  obtain ⟨hnil, hstart⟩ | ⟨es, b, hdone, -⟩ := h.last
  · rw [hnil, hstart] at he
    cases he
    exact .inl ⟨_, _, rfl⟩
  · refine h.first e ?_
    rw [List.head?_append_of_ne_nil _ (by simp [hdone])] at he
    exact he

theorem head?_concat {c : Command} (h : cs ≠ []) : (cs ++ [c]).head? = cs.head? := by
  rw [List.head?_append_of_ne_nil _ h]

theorem Draws.vertex (h : Draws canvas cs g) {c : Command} {p : Float × Float}
    (hp : vertex? canvas c = some p) (hc : curve? canvas c = none) :
    Draws canvas (cs ++ [c]) { g with vertices := g.vertices ++ [p] } where
  paths := by simp [h.paths, hc]
  vertices := by simp [← h.vertices, hp]
  chain := h.chain
  last := h.last
  first := by
    intro e he
    obtain hpoly | ⟨a, ha, hhead⟩ := h.first e he
    · exact .inl hpoly
    · refine .inr ⟨a, ha, ?_⟩
      rw [head?_concat ?_, hhead]
      rintro rfl
      cases hhead
  pending := by simp [Sketch.pending]
  count := by
    rw [ended_of_pending (by simp [Sketch.pending]), List.length_append, List.length_singleton,
      List.filterMap_append]
    by_cases hpending : g.pending = []
    · obtain rfl := h.eq_empty hpending
      obtain rfl := h.pending.mp hpending
      simp [empty, hp, hc]
    · have hcount := h.count
      rw [ended_of_pending hpending, List.length_append, List.length_singleton] at hcount
      rw [hcount, head?_concat (mt h.pending.mpr hpending)]
      simp [hc]

theorem Draws.turn (h : Draws canvas cs g) {c : Command} (hp : vertex? canvas c = none)
    (hc : curve? canvas c = some a) : Draws canvas (cs ++ [c]) (g.turn a) := by
  by_cases hpending : g.pending = []
  · obtain rfl := h.eq_empty hpending
    obtain rfl := h.pending.mp hpending
    exact {
      paths := by simp [Sketch.turn, ended, empty, Element.curve?, hc]
      vertices := by simp [Sketch.turn, ended, empty, Element.vertices, hp]
      chain := .singleton _
      last := .inr ⟨[], a, rfl, rfl⟩
      first := by
        rintro e ⟨⟩
        exact .inr ⟨a, rfl, hc⟩
      pending := by simp [Sketch.turn, Sketch.pending]
      count := by simp [ended, Sketch.turn, Sketch.pending, empty, hp, hc] }
  · have hdone : (g.turn a).done =
        g.done ++ [.polyline g.start g.vertices (some a.first)] ++ [.path a] := by
      rw [Sketch.turn, ended_of_pending hpending]
    have hhead : (cs ++ [c]).head? = cs.head? := head?_concat (mt h.pending.mpr hpending)
    exact {
      paths := by
        rw [hdone, List.filterMap_append, List.filterMap_append, h.paths]
        simp [Element.curve?, hc]
      vertices := by
        rw [hdone, List.flatMap_append, List.flatMap_append, List.filterMap_append, ← h.vertices]
        simp [Sketch.turn, Element.vertices, hp]
      chain := by
        rw [hdone]
        refine List.isChain_append.mpr ⟨h.chain_ended _, .singleton _, ?_⟩
        rintro e he _ ⟨⟩
        rw [List.getLast?_concat] at he
        cases he
        rfl
      last := .inr ⟨_, a, hdone, rfl⟩
      first := by
        rw [hdone, hhead, List.head?_append_of_ne_nil _ (by simp)]
        exact h.first_ended _
      pending := by simp [Sketch.turn, Sketch.pending]
      count := by
        have hcount := h.count
        rw [ended_of_pending hpending, List.length_append, List.length_singleton] at hcount
        rw [ended_of_pending (by simp [Sketch.turn, Sketch.pending]), hdone, hhead,
          List.filterMap_append]
        simp only [List.length_append, List.length_singleton, List.filterMap_cons, hc,
          List.filterMap_nil]
        omega }

theorem Draws.add (h : Draws canvas cs g) {c : Command} (hc : c.isDrawable) :
    Draws canvas (cs ++ [c]) (g.add canvas c) := by
  cases c with
  | vertex r theta => exact h.vertex rfl rfl
  | arc r theta sweep => exact h.turn rfl rfl
  | bare r theta => cases hc

end Sketch

/-! ## Steps of a picture -/

/-- A picture that was started and not closed, after some pieces of text were written. -/
def State.midway (w : Writer) (pieces : List String) (pending : List (Float × Float))
    (polylines paths : Nat) : State :=
  ⟨{ w with written := w.written ++ pieces.toArray }, true, false, pending.toArray,
    polylines, paths⟩

section Steps

variable {canvas : Canvas} {w : Writer} {pieces : List String} {pending : List (Float × Float)}
  {m n : Nat} {s t : State}

/-- A picture that shows some elements. -/
def State.showing (canvas : Canvas) (w : Writer) (es : List Element)
    (pending : List (Float × Float)) : State :=
  .midway w (header canvas.size :: es.map Element.text) pending (es.countP fun e => e.curve?.isNone)
    (es.countP fun e => e.curve?.isSome)

/-- A picture that shows a sketch. -/
def Sketch.state (canvas : Canvas) (w : Writer) (g : Sketch) : State :=
  .showing canvas w g.done g.pending

end Steps

end Svg

/-! ## Pictures as a whole -/

namespace Command

end Command

namespace Svg

section Whole

variable {canvas : Canvas} {w : Writer} {s : State} {cs : List Command}

end Whole

end Svg

end PolarPlot

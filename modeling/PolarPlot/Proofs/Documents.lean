import PolarPlot.Document.Program
import PolarPlot.Proofs.Splicing
import PolarPlot.Proofs.WellFormed

/-!
# Documents read back

A tree that was loaded can be dumped and loaded again, and so can the tree of a program that was
parsed. Without places in the dump, every place of what is loaded is unknown (`Tree.load_dump`).
-/

namespace PolarPlot

open Document Number

namespace Document

/-! ## Induction -/

/-- Induction on data, with a hypothesis for each item of a list and for each field of an object. -/
@[elab_as_elim, induction_eliminator]
theorem Datum.induction {motive : Datum → Prop} (scalar : ∀ s, motive (.scalar s))
    (list : ∀ items, (∀ d ∈ items, motive d) → motive (.list items))
    (obj : ∀ fields, (∀ f ∈ fields, motive f.2) → motive (.obj fields)) (d : Datum) : motive d := by
  refine @Datum.rec motive (fun ds => ∀ d ∈ ds, motive d) (fun fs => ∀ f ∈ fs, motive f.2)
    (fun f => motive f.2) scalar list obj ?_ ?_ ?_ ?_ ?_ d
  · simp
  · intro d ds hd hds
    simpa [hd] using hds
  · simp
  · intro f fs hf hfs
    exact List.forall_mem_cons.mpr ⟨hf, hfs⟩
  · intro _ _ h
    exact h

/-- Induction on trees, with a hypothesis for each item of a sequence and for each field of a
node. -/
@[elab_as_elim, induction_eliminator]
theorem Tree.induction {motive : Tree → Prop} (leaf : ∀ s, motive (.leaf s))
    (list : ∀ items, (∀ t ∈ items, motive t) → motive (.list items))
    (tuple : ∀ items, (∀ t ∈ items, motive t) → motive (.tuple items))
    (node : ∀ kind loc fields, (∀ t ∈ fields, motive t) → motive (.node kind loc fields))
    (t : Tree) : motive t := by
  refine @Tree.rec motive (fun ts => ∀ t ∈ ts, motive t) leaf list tuple node ?_ ?_ t
  · simp
  · intro t ts ht hts
    simpa [ht] using hts

/-! ## Fields and kinds -/

section Fields

variable {α : Type} {key : String}

theorem field?_cons_eq (x : α) (fs : List (String × α)) : field? key ((key, x) :: fs) = some x := by
  simp [field?]

theorem field?_cons_ne {f : String × α} (h : f.1 ≠ key) (fs : List (String × α)) :
    field? key (f :: fs) = field? key fs := by
  simp [field?, h]

theorem field?_eq_none {fs : List (String × α)} (h : ∀ f ∈ fs, f.1 ≠ key) :
    field? key fs = none := by
  simpa [field?] using h

theorem field?_append {fs : List (String × α)} (h : ∀ f ∈ fs, f.1 ≠ key) (gs : List (String × α)) :
    field? key (fs ++ gs) = field? key gs := by
  induction fs with
  | nil => rfl
  | cons f fs ih =>
    rw [List.cons_append, field?_cons_ne (h f (.head _)), ih fun f hf => h f (.tail _ hf)]

theorem exists_of_field? {x : α} {fs : List (String × α)} (h : field? key fs = some x) :
    ∃ f ∈ fs, f.2 = x := by
  obtain ⟨f, hf, hx⟩ := Option.map_eq_some_iff.mp h
  exact ⟨f, List.mem_of_find?_eq_some hf, hx⟩

end Fields

theorem Kind.ofName?_typeName (kind : Kind) : Kind.ofName? kind.typeName = some kind := by
  cases kind with
  | binary op => cases op <;> decide
  | _ => decide

theorem Kind.nodup_fieldNames (kind : Kind) : kind.fieldNames.Nodup := by
  cases kind <;> simp [Kind.fieldNames]

theorem Kind.marks_fieldNames (kind : Kind) :
    "_type" ∉ kind.fieldNames ∧ "_position" ∉ kind.fieldNames := by
  cases kind <;> simp [Kind.fieldNames]

/-! ## Trees at other places -/

mutual

/-- A tree at other places. -/
def Tree.relocate (f : Location → Location) : Tree → Tree
  | .leaf s => .leaf s
  | .list items => .list (Tree.relocateAll f items)
  | .tuple items => .tuple (Tree.relocateAll f items)
  | .node kind loc fields => .node kind (f loc) (Tree.relocateAll f fields)

def Tree.relocateAll (f : Location → Location) : List Tree → List Tree
  | [] => []
  | t :: ts => t.relocate f :: Tree.relocateAll f ts

end

/-- A tree without its places. -/
def Tree.unplaced (t : Tree) : Tree := t.relocate fun _ => .ofPosition .unknown

namespace Tree

@[simp] theorem relocateAll_eq (f : Location → Location) (ts : List Tree) :
    relocateAll f ts = ts.map (relocate f) := by
  induction ts with
  | nil => rfl
  | cons t ts ih => rw [relocateAll, ih, List.map_cons]

theorem relocate_id (t : Tree) : t.relocate id = t := by
  induction t with
  | leaf => rfl
  | list items ih | tuple items ih =>
    simpa [relocate] using (List.map_congr_left ih).trans (List.map_id items)
  | node _ _ fields ih => simpa [relocate] using (List.map_congr_left ih).trans (List.map_id fields)

@[simp] theorem dumpItems_eq (positions : Bool) (ts : List Tree) :
    dumpItems positions ts = ts.map (dump positions) := by
  induction ts with
  | nil => rfl
  | cons t ts ih => rw [dumpItems, ih, List.map_cons]

/-- The data of a sequence does not say where it stands. -/
theorem dump_list (positions : Bool) (ts : List Tree) :
    dump positions (.list ts) = dump positions (.tuple ts) := by
  rw [dump, dump]

@[simp] theorem ofEntries_eq (fields : List (String × Datum)) :
    ofEntries fields = fields.map fun f => (f.1, ofDatum f.2) := by
  induction fields with
  | nil => rfl
  | cons f fields ih =>
    obtain ⟨key, d⟩ := f
    rw [ofEntries, ih, List.map_cons]

/-! ## Loading what was dumped -/

/-- The places that a dump keeps. -/
def kept (positions : Bool) : Location → Location :=
  if positions then id else fun _ => .ofPosition .unknown

/-- The tree comes back from its dump as a part of a document, but for the places that the dump does
not have. -/
def Reloads (t : Tree) : Prop :=
  ∀ positions, ofDatum (t.dump positions) = .ok (t.relocate (kept positions))

theorem reloads_leaf (s : Scalar) : Reloads (.leaf s) := fun _ => rfl

theorem ofItems_dump {ts : List Tree} (h : ∀ t ∈ ts, t.Reloads) (positions : Bool) :
    ofItems (ts.map (dump positions)) = .ok (ts.map (relocate (kept positions))) := by
  induction ts with
  | nil => rfl
  | cons t ts ih =>
    rw [List.map_cons, ofItems, h t (.head _) positions, ih fun t ht => h t (.tail _ ht)]
    rfl

theorem reloads_tuple {ts : List Tree} (h : ∀ t ∈ ts, t.Reloads) : Reloads (.tuple ts) := by
  intro positions
  rw [dump, dumpItems_eq, ofDatum, ofItems_dump h, relocate, relocateAll_eq]
  rfl

/-- Fields that a node of a kind can have. -/
structure Fits (kind : Kind) (ts : List Tree) : Prop where
  length : ts.length = kind.fieldNames.length
  number : kind = .constant → ∃ x, ts = [.leaf (.num x)]

/-- The value of a field, if there is one, as far as it could be loaded. -/
def lookup (fields : List (String × Except LoadError Tree)) (name : String) :
    Except LoadError (Option Tree) :=
  match field? name fields with
  | none => .ok none
  | some (.ok t) => .ok (some t)
  | some (.error e) => .error e

variable {kind : Kind} {loc : Location} {fields : List (String × Except LoadError Tree)}
  {ts : List Tree}

theorem mapM_id_eq_some {os : List (Option Tree)} : os.mapM id = some ts ↔ os = ts.map some := by
  induction os generalizing ts with
  | nil => cases ts <;> simp
  | cons o os ih =>
    cases o with
    | none => cases ts <;> simp
    | some t => cases ts <;> simp [Option.bind_eq_some_iff, ih, and_comm]

theorem ofFields_of_fits (h : kind.fieldNames.mapM (lookup fields) = .ok (ts.map some))
    (hts : Fits kind ts) : ofFields kind loc fields = .ok (.node kind loc ts) := by
  have hall : (ts.map some).mapM id = some ts := mapM_id_eq_some.mpr rfl
  change (kind.fieldNames.mapM (lookup fields) >>= _) = _
  rw [h]
  cases kind with
  | constant =>
    obtain ⟨x, rfl⟩ := hts.number rfl
    rfl
  | error =>
    obtain ⟨message, phase, rfl⟩ := List.length_eq_two.mp hts.length
    rfl
  | _ =>
    simp only [bind, Except.bind, hall]
    rfl

theorem mapM_eq_ok {α β ε : Type} {f : α → Except ε β} {as : List α} {bs : List β}
    (h : as.mapM f = .ok bs) : bs.length = as.length ∧ ∀ b ∈ bs, ∃ a, f a = .ok b := by
  induction as generalizing bs with
  | nil =>
    cases h
    simp
  | cons a as ih =>
    rw [List.mapM_cons] at h
    cases ha : f a with
    | error e =>
      rw [ha] at h
      cases h
    | ok b =>
      cases has : as.mapM f with
      | error e =>
        rw [ha, has] at h
        cases h
      | ok bs =>
        rw [ha, has] at h
        cases h
        obtain ⟨hlength, hmem⟩ := ih has
        exact ⟨congrArg (· + 1) hlength, List.forall_mem_cons.mpr ⟨⟨a, ha⟩, hmem⟩⟩

theorem lookup_eq_ok {name : String} {t : Tree} (h : lookup fields name = .ok (some t)) :
    field? name fields = some (.ok t) := by
  unfold lookup at h
  split at h
  · cases h
  · cases h
    assumption
  · cases h

theorem ofFields_eq_ok {v : Tree} (h : ofFields kind loc fields = .ok v) :
    ∃ ts, v = .node kind loc ts ∧ Fits kind ts ∧
      ∀ t ∈ ts, (∃ s, t = .leaf s) ∨ ∃ name, field? name fields = some (.ok t) := by
  change (kind.fieldNames.mapM (lookup fields) >>= _) = _ at h
  cases hfound : kind.fieldNames.mapM (lookup fields) with
  | error e =>
    rw [hfound] at h
    cases h
  | ok found =>
    rw [hfound] at h
    obtain ⟨hlength, hall⟩ := mapM_eq_ok hfound
    have hmem : ∀ t, some t ∈ found → ∃ name, field? name fields = some (.ok t) := by
      intro t ht
      obtain ⟨name, hname⟩ := hall _ ht
      exact ⟨name, lookup_eq_ok hname⟩
    simp only [bind, Except.bind] at h
    split at h
    · rename_i t
      cases hx : t.toNumber with
      | error e =>
        rw [hx] at h
        cases h
      | ok x =>
        rw [hx] at h
        cases h
        exact ⟨_, rfl, ⟨rfl, fun _ => ⟨x, rfl⟩⟩, by simp⟩
    · cases h
    · rename_i message
      cases h
      refine ⟨_, rfl, ⟨rfl, by rintro ⟨⟩⟩, ?_⟩
      simp [hmem message]
    · rename_i hconstant _ _
      split at h
      · rename_i ts hts
        cases h
        obtain rfl := mapM_id_eq_some.mp hts
        refine ⟨ts, rfl, ⟨by simpa using hlength, fun hkind => (hconstant hkind).elim⟩, ?_⟩
        intro t ht
        exact .inr (hmem t (List.mem_map_of_mem ht))
      · cases h

/-! ## Fields of a dump -/

theorem mapM_lookup {names : List String} (hnames : names.Nodup) {ts : List Tree}
    (hlength : ts.length = names.length) {fields : List (String × Except LoadError Tree)}
    (hfields : ∀ f ∈ fields, f.1 ∉ names) :
    names.mapM (lookup (fields ++ names.zip (ts.map .ok))) = .ok (ts.map some) := by
  induction names generalizing ts fields with
  | nil =>
    obtain rfl := List.length_eq_zero_iff.mp hlength
    rfl
  | cons name names ih =>
    obtain ⟨t, ts, rfl⟩ := List.exists_cons_of_length_eq_add_one hlength
    obtain ⟨hname, hnames⟩ := List.nodup_cons.mp hnames
    have hlookup : lookup (fields ++ (name :: names).zip ((t :: ts).map .ok)) name =
        .ok (some t) := by
      rw [lookup, field?_append fun f hf heq => hfields f hf (heq ▸ .head _)]
      simp [field?]
    have hrest := @ih hnames ts (Nat.succ.inj hlength) (fields ++ [(name, .ok t)]) (by
      intro f hf
      obtain hf | hf := List.mem_append.mp hf
      · exact fun hmem => hfields f hf (.tail _ hmem)
      · rw [List.mem_singleton.mp hf]
        exact hname)
    rw [List.append_assoc] at hrest
    rw [List.mapM_cons, hlookup]
    exact congrArg (fun r => r >>= fun ts => Except.ok (some t :: ts)) hrest

theorem Fits.relocate (h : Fits kind ts) (f : Location → Location) :
    Fits kind (ts.map (Tree.relocate f)) where
  length := by rw [List.length_map, h.length]
  number hkind := by
    obtain ⟨x, rfl⟩ := h.number hkind
    exact ⟨x, rfl⟩

/-- The part of a dumped node before its fields. -/
def marks (positions : Bool) (kind : Kind) (loc : Location) : List (String × Datum) :=
  ("_type", .scalar (.str kind.typeName)) ::
    if positions then [("_position", dumpLocation loc)] else []

theorem dump_node (positions : Bool) :
    dump positions (.node kind loc ts) =
      .obj (marks positions kind loc ++ kind.fieldNames.zip (ts.map (dump positions))) := by
  rw [dump, dumpItems_eq]
  rfl

theorem marks_spec {positions : Bool} : ∀ f ∈ marks positions kind loc, f.1 ∉ kind.fieldNames := by
  obtain ⟨htype, hposition⟩ := Kind.marks_fieldNames kind
  cases positions <;> simp [marks, htype, hposition]

theorem kind_dump (positions : Bool) (fs : List (String × Datum)) :
    Kind.ofDatum? (field? "_type" (marks positions kind loc ++ fs)) = .ok kind := by
  rw [marks, List.cons_append, field?_cons_eq]
  simp only [Kind.ofDatum?, Kind.ofName?_typeName]

theorem location_dump (positions : Bool) (ds : List Datum) :
    Location.ofDatum? (field? "_position" (marks positions kind loc ++ kind.fieldNames.zip ds)) =
      .ok (kept positions loc) := by
  rw [marks, List.cons_append, field?_cons_ne (by simp)]
  cases positions with
  | true => rfl
  | false =>
    have hnone : field? "_position" (kind.fieldNames.zip ds) = none := by
      apply field?_eq_none
      intro f hf heq
      exact (Kind.marks_fieldNames kind).2 (heq ▸ (List.of_mem_zip hf).1)
    exact congrArg Location.ofDatum? hnone

theorem reloads_node (loc : Location) (hts : ∀ t ∈ ts, t.Reloads) (hfits : Fits kind ts) :
    Reloads (.node kind loc ts) := by
  intro positions
  have hloaded : ofEntries (kind.fieldNames.zip (ts.map (dump positions))) =
      kind.fieldNames.zip ((ts.map (relocate (kept positions))).map .ok) := by
    have hdumps : (ts.map (relocate (kept positions))).map Except.ok =
        (ts.map (dump positions)).map ofDatum := by
      rw [List.map_map, List.map_map]
      exact List.map_congr_left fun t ht => (hts t ht positions).symm
    rw [hdumps, ofEntries_eq]
    exact (List.zip_map_right ..).symm
  have hmarks : ∀ f ∈ ofEntries (marks positions kind loc), f.1 ∉ kind.fieldNames := by
    intro f hf
    rw [ofEntries_eq] at hf
    obtain ⟨g, hg, rfl⟩ := List.mem_map.mp hf
    exact marks_spec g hg
  have hkept := hfits.relocate (kept positions)
  have hfound := mapM_lookup (Kind.nodup_fieldNames kind) hkept.length hmarks
  rw [dump_node, ofDatum, kind_dump, relocate, relocateAll_eq]
  simp only [location_dump]
  refine ofFields_of_fits ?_ hkept
  rw [← hfound, ← hloaded]
  simp

/-! ## Loading what was loaded -/

theorem ofItems_eq_ok {ds : List Datum} {ts : List Tree} (h : ofItems ds = .ok ts) :
    ∀ t ∈ ts, ∃ d ∈ ds, ofDatum d = .ok t := by
  induction ds generalizing ts with
  | nil =>
    cases h
    simp
  | cons d ds ih =>
    rw [ofItems] at h
    cases hd : ofDatum d with
    | error e =>
      rw [hd] at h
      cases h
    | ok t =>
      cases hds : ofItems ds with
      | error e =>
        rw [hd, hds] at h
        cases h
      | ok ts =>
        rw [hd, hds] at h
        cases h
        refine List.forall_mem_cons.mpr ⟨⟨d, .head _, hd⟩, ?_⟩
        intro t ht
        obtain ⟨d', hd', hload⟩ := ih hds t ht
        exact ⟨d', .tail _ hd', hload⟩

theorem reloads_ofDatum {d : Datum} {v : Tree} (h : ofDatum d = .ok v) : v.Reloads := by
  induction d generalizing v with
  | scalar s =>
    cases h
    exact reloads_leaf s
  | list items ih =>
    rw [ofDatum] at h
    cases hitems : ofItems items with
    | error e =>
      rw [hitems] at h
      cases h
    | ok ts =>
      rw [hitems] at h
      cases h
      apply reloads_tuple
      intro t ht
      obtain ⟨d, hd, hload⟩ := ofItems_eq_ok hitems t ht
      exact ih d hd hload
  | obj fields ih =>
    rw [ofDatum] at h
    split at h
    · cases h
    · split at h
      · cases h
      · obtain ⟨ts, rfl, hfits, hmem⟩ := ofFields_eq_ok h
        refine reloads_node _ ?_ hfits
        intro t ht
        obtain ⟨s, rfl⟩ | ⟨name, hname⟩ := hmem t ht
        · exact reloads_leaf s
        · obtain ⟨g, hg, hgt⟩ := exists_of_field? hname
          rw [ofEntries_eq] at hg
          obtain ⟨f, hf, rfl⟩ := List.mem_map.mp hg
          exact ih f hf hgt

/-- The tree comes back from its dump as a whole document, but for the places that the dump does not
have. -/
def Restores (t : Tree) : Prop :=
  ∀ positions, load (t.dump positions) = .ok (t.relocate (kept positions))

theorem restores_list {ts : List Tree} (h : ∀ t ∈ ts, t.Reloads) : Restores (.list ts) := by
  intro positions
  rw [dump, dumpItems_eq, load, ofItems_dump h, relocate, relocateAll_eq]
  rfl

theorem Reloads.restores_node {kind : Kind} {loc : Location} {ts : List Tree}
    (h : Reloads (.node kind loc ts)) : Restores (.node kind loc ts) := by
  intro positions
  rw [← h positions, dump_node, load]

theorem restores_load {d : Datum} {v : Tree} (h : load d = .ok v) : v.Restores := by
  cases d with
  | scalar s =>
    cases s with
    | null =>
      cases h
      exact fun _ => rfl
    | str | rough | bool | int | num | date => cases h
  | list items =>
    rw [load] at h
    cases hitems : ofItems items with
    | error e =>
      rw [hitems] at h
      cases h
    | ok ts =>
      rw [hitems] at h
      cases h
      apply restores_list
      intro t ht
      obtain ⟨d, -, hload⟩ := ofItems_eq_ok hitems t ht
      exact reloads_ofDatum hload
  | obj fields =>
    rw [load] at h
    have hreloads := reloads_ofDatum h
    rw [ofDatum] at h
    split at h
    · cases h
    · split at h
      · cases h
      · obtain ⟨ts, rfl, -⟩ := ofFields_eq_ok h
        exact hreloads.restores_node

/-- Loading undoes dumping. -/
theorem Restores.load {t : Tree} (h : t.Restores) :
    load (t.dump true) = .ok t ∧ load (t.dump false) = .ok t.unplaced := by
  rw [h, h]
  exact ⟨congrArg Except.ok (relocate_id t), rfl⟩

end Tree

end Document

/-! ## Programs as documents -/

section Programs

variable {good : Position → Prop} {f : Position → Position} {g : Location → Location}

@[simp] theorem Expr.toTrees_eq (es : List Expr) : Expr.toTrees es = es.map Expr.toTree := by
  induction es with
  | nil => rfl
  | cons e es ih => rw [toTrees, ih, List.map_cons]

@[simp] theorem Expr.ofTrees_eq (ts : List Tree) : Expr.ofTrees ts = ts.map Expr.ofTree := by
  induction ts with
  | nil => rfl
  | cons t ts ih => rw [ofTrees, ih, List.map_cons]

@[simp] theorem Stmt.toTrees_eq (ss : List Stmt) : Stmt.toTrees ss = ss.map Stmt.toTree := by
  induction ss with
  | nil => rfl
  | cons s ss ih => rw [toTrees, ih, List.map_cons]

@[simp] theorem Stmt.ofTrees_eq (ts : List Tree) : Stmt.ofTrees ts = ts.map Stmt.ofTree := by
  induction ts with
  | nil => rfl
  | cons t ts ih => rw [ofTrees, ih, List.map_cons]

theorem Label.eq_word {name : Label} (h : name.isWord) : ∃ text, name = .word text := by
  cases name with
  | word text => exact ⟨text, rfl⟩
  | value => cases h

theorem Label.reloads {name : Label} (h : name.isWord) : name.toTree.Reloads := by
  obtain ⟨text, rfl⟩ := Label.eq_word h
  exact Tree.reloads_leaf _

theorem Expr.Plain.reloads {e : Expr} (h : e.Plain good) : e.toTree.Reloads := by
  induction e with
  | var pos name => exact Tree.reloads_node _ (by simp [Label.reloads h.2]) ⟨rfl, by rintro ⟨⟩⟩
  | const pos value =>
    exact Tree.reloads_node _ (by simp [Tree.reloads_leaf]) ⟨rfl, fun _ => ⟨value, rfl⟩⟩
  | binary pos op left right hl hr =>
    exact Tree.reloads_node _ (by simp [hl h.2.1, hr h.2.2]) ⟨rfl, by rintro ⟨⟩⟩
  | call pos name args ih =>
    obtain ⟨-, hname, hargs⟩ := h
    have htrees : (Tree.tuple (args.map Expr.toTree)).Reloads := by
      apply Tree.reloads_tuple
      rintro _ ht
      obtain ⟨e, he, rfl⟩ := List.mem_map.mp ht
      exact ih e he (Expr.allPlain_iff.mp hargs e he)
    exact Tree.reloads_node _ (by simp [Label.reloads hname, htrees]) ⟨rfl, by rintro ⟨⟩⟩
  | misfit what => cases h

theorem Stmt.Plain.reloads {s : Stmt} (h : s.Plain good) : s.toTree.Reloads := by
  induction s with
  | assign pos name value =>
    exact Tree.reloads_node _ (by simp [Label.reloads h.2.1, h.2.2.reloads]) ⟨rfl, by rintro ⟨⟩⟩
  | call pos e => exact Tree.reloads_node _ (by simp [h.2.reloads]) ⟨rfl, by rintro ⟨⟩⟩
  | loop pos name start stop step inclusive body ih =>
    obtain ⟨-, hname, hstart, hstop, hstep, hbody⟩ := h
    have hstride : ((step.map Expr.toTree).getD (.leaf .null)).Reloads := by
      cases step with
      | none => exact Tree.reloads_leaf _
      | some e => exact (hstep e rfl).reloads
    have htrees : (Tree.tuple (body.map Stmt.toTree)).Reloads := by
      apply Tree.reloads_tuple
      rintro _ ht
      obtain ⟨s, hs, rfl⟩ := List.mem_map.mp ht
      exact ih s hs (Stmt.allPlain_iff.mp hbody s hs)
    refine Tree.reloads_node _ ?_ ⟨rfl, by rintro ⟨⟩⟩
    simp [Label.reloads hname, hstart.reloads, hstop.reloads, hstride, Tree.reloads_leaf, htrees]
  | invalid pos message phase =>
    exact Tree.reloads_node _ (by simp [Tree.reloads_leaf, Label.reloads h.2]) ⟨rfl, by rintro ⟨⟩⟩
  | misfit what => cases h

theorem Label.toLabel_relocate {name : Label} (h : name.isWord) (g : Location → Location) :
    (name.toTree.relocate g).toLabel = name := by
  obtain ⟨text, rfl⟩ := Label.eq_word h
  rfl

/-- A plain expression comes back from its tree, at the places that the places of the tree say. -/
theorem Expr.Plain.ofTree_relocate {e : Expr} (h : e.Plain good)
    (hg : ∀ p, good p → (g (.ofPosition p)).toPosition = f p) :
    Expr.ofTree (e.toTree.relocate g) = e.relocate f := by
  induction e with
  | var pos name =>
    simp only [toTree, Tree.relocate, Tree.relocateAll, ofTree, Expr.relocate, hg pos h.1,
      Label.toLabel_relocate h.2]
  | const pos value =>
    simp only [toTree, Tree.relocate, Tree.relocateAll, ofTree, Expr.relocate, hg pos h]
  | binary pos op left right hl hr =>
    simp only [toTree, Tree.relocate, Tree.relocateAll, ofTree, Expr.relocate, hg pos h.1,
      hl h.2.1, hr h.2.2]
  | call pos name args ih =>
    obtain ⟨hpos, hname, hargs⟩ := h
    have hall : (args.map Expr.toTree).map (fun t => Expr.ofTree (t.relocate g)) =
        args.map (Expr.relocate f) := by
      rw [List.map_map]
      exact List.map_congr_left fun e he => ih e he (Expr.allPlain_iff.mp hargs e he)
    simp only [toTree, Tree.relocate, Tree.relocateAll, ofTree, Expr.relocate, hg pos hpos,
      Label.toLabel_relocate hname]
    simpa using hall
  | misfit what => cases h

theorem Expr.Plain.ofOptionalTree_relocate {step : Option Expr} (h : ∀ e ∈ step, e.Plain good)
    (hg : ∀ p, good p → (g (.ofPosition p)).toPosition = f p) :
    Expr.ofOptionalTree (((step.map Expr.toTree).getD (.leaf .null)).relocate g) =
      step.map (Expr.relocate f) := by
  cases step with
  | none => rfl
  | some e =>
    have he : e.Plain good := h e rfl
    have hnode : Expr.ofOptionalTree (e.toTree.relocate g) =
        some (Expr.ofTree (e.toTree.relocate g)) := by
      cases e with
      | misfit => cases he
      | var | const | binary | call => rfl
    exact hnode.trans (congrArg some (he.ofTree_relocate hg))

/-- A plain statement comes back from its tree, at the places that the places of the tree say. -/
theorem Stmt.Plain.ofTree_relocate {s : Stmt} (h : s.Plain good)
    (hg : ∀ p, good p → (g (.ofPosition p)).toPosition = f p) :
    Stmt.ofTree (s.toTree.relocate g) = s.relocate f := by
  induction s with
  | assign pos name value =>
    simp only [toTree, Tree.relocate, Tree.relocateAll, ofTree, Stmt.relocate, hg pos h.1,
      Label.toLabel_relocate h.2.1, h.2.2.ofTree_relocate hg]
  | call pos e =>
    simp only [toTree, Tree.relocate, Tree.relocateAll, ofTree, Stmt.relocate, hg pos h.1,
      h.2.ofTree_relocate hg]
  | loop pos name start stop step inclusive body ih =>
    obtain ⟨hpos, hname, hstart, hstop, hstep, hbody⟩ := h
    have hall : (body.map Stmt.toTree).map (fun t => Stmt.ofTree (t.relocate g)) =
        body.map (Stmt.relocate f) := by
      rw [List.map_map]
      exact List.map_congr_left fun s hs => ih s hs (Stmt.allPlain_iff.mp hbody s hs)
    simp only [toTree, Tree.relocate, Tree.relocateAll, ofTree, Stmt.relocate, hg pos hpos,
      Label.toLabel_relocate hname, hstart.ofTree_relocate hg, hstop.ofTree_relocate hg,
      Expr.Plain.ofOptionalTree_relocate hstep hg, Stmt.ofListTree]
    simpa [Tree.truthy, Scalar.truthy] using hall
  | invalid pos message phase =>
    simp only [toTree, Tree.relocate, Tree.relocateAll, ofTree, Stmt.relocate, hg pos h.1,
      Label.toLabel_relocate h.2]
    rfl
  | misfit what => cases h

theorem Document.Tree.toProgram_relocate {program : List Stmt} (h : ∀ s ∈ program, s.Plain good)
    (hg : ∀ p, good p → (g (.ofPosition p)).toPosition = f p) :
    ((Tree.ofProgram program).relocate g).toProgram = program.map (Stmt.relocate f) := by
  have hall : (program.map Stmt.toTree).map (fun t => Stmt.ofTree (t.relocate g)) =
      program.map (Stmt.relocate f) := by
    rw [List.map_map]
    exact List.map_congr_left fun s hs => (h s hs).ofTree_relocate hg
  simp only [toProgram, ofProgram, relocate, Stmt.ofListTree]
  simpa using hall

theorem Location.toPosition_ofPosition {p : Position} (h : p.spelling = none) :
    (Location.ofPosition p).toPosition = p := by
  obtain ⟨origin, line, column, spelling⟩ := p
  obtain rfl : spelling = none := h
  rfl

end Programs

namespace Document.Tree

open Grammar

section Parsed

variable {origin text : String} {program : List Stmt}

theorem restores_ofProgram (h : parse origin text = .ok program) :
    (ofProgram program).Restores := by
  rw [ofProgram, Stmt.toTrees_eq]
  apply restores_list
  intro t ht
  obtain ⟨s, hs, rfl⟩ := List.mem_map.mp ht
  exact (parse_plain h s hs).reloads

theorem toProgram_ofProgram (h : parse origin text = .ok program) :
    (ofProgram program).toProgram = program := by
  have hprogram := toProgram_relocate (parse_plain h) (g := id) (f := id) (by
    rintro p ⟨i, rfl⟩
    exact Location.toPosition_ofPosition rfl)
  rw [relocate_id, Stmt.relocate_id, List.map_id] at hprogram
  exact hprogram

theorem toProgram_unplaced (h : parse origin text = .ok program) :
    (ofProgram program).unplaced.toProgram = program.map Stmt.bare :=
  toProgram_relocate (parse_plain h) fun _ _ => rfl

end Parsed

/-- Loading undoes dumping on whatever was loaded or parsed. The sort of a sequence counts: a whole
document that is a list comes back as a list, and the sequences inside it as tuples. -/
theorem load_dump :
    (∀ {d : Datum} {v : Tree}, load d = .ok v →
      load (v.dump true) = .ok v ∧ load (v.dump false) = .ok v.unplaced) ∧
    ∀ {origin text : String} {program : List Stmt}, parse origin text = .ok program →
      load ((ofProgram program).dump true) = .ok (ofProgram program) ∧
        (ofProgram program).toProgram = program ∧
        load ((ofProgram program).dump false) = .ok (ofProgram program).unplaced ∧
        (ofProgram program).unplaced.toProgram = program.map Stmt.bare := by
  constructor
  · intro d v h
    exact (restores_load h).load
  · intro origin text program h
    obtain ⟨hload, hunplaced⟩ := (restores_ofProgram h).load
    exact ⟨hload, toProgram_ofProgram h, hunplaced, toProgram_unplaced h⟩

/-- A call whose name is a list and whose arguments are a constant, in fields out of order. -/
def oddCall : Datum :=
  .obj [("args", .obj [("value", .scalar (.bool true)), ("_type", .scalar (.str "Constant"))]),
    ("_position", .scalar (.int 0)), ("_type", .scalar (.str "Call")), ("more", .scalar .null),
    ("name", .list [.list [], .scalar (.int 3)])]

theorem load_dump_oddCall : ∃ v program, load oddCall = .ok v ∧ parse "φ" "f(x)" = .ok program ∧
    (load (v.dump true) = .ok v ∧ load (v.dump false) = .ok v.unplaced) ∧
      load ((ofProgram program).dump true) = .ok (ofProgram program) ∧
      (ofProgram program).toProgram = program ∧
      load ((ofProgram program).dump false) = .ok (ofProgram program).unplaced ∧
      (ofProgram program).unplaced.toProgram = program.map Stmt.bare := by
  obtain ⟨v, hv⟩ := exists_eq_ok (x := load oddCall) (by decide +kernel)
  obtain ⟨program, hprogram⟩ := exists_eq_ok (x := parse "φ" "f(x)") (by decide +kernel)
  exact ⟨v, program, hv, hprogram, load_dump.1 hv, load_dump.2 hprogram⟩

end Document.Tree

end PolarPlot

import Mathlib.Data.List.Chain
import PolarPlot.Proofs.Adequacy

/-!
# Phrases

A derivation takes tokens one after the other. Forgetting about alternatives, what it builds is
spelled by these tokens alone. `Reading` says that a text reads as a row of tokens, `Takes` is a
derivation with the tokens that it took, and `Spells` is the grammar read on rows of tokens, where a
choice is free and a repetition may end anywhere. What is taken is read and spelled
(`Takes.reading`, `Takes.spells`); that the converse holds for programs is shown elsewhere.
-/

namespace PolarPlot.Grammar

variable {R : Type → Type} {grammar : (α : Type) → R α → Peg R α}

/-- A token of a text: what it took, and the place after it. -/
structure Taken where
  token : Token
  lexeme : Lexeme
  stop : Cursor

/-- From a place to another, a text reads as a row of tokens. -/
inductive Reading : Cursor → List Taken → Cursor → Prop where
  | nil {c : Cursor} : Reading c [] c
  | cons {t : Token} {l : Lexeme} {c d e : Cursor} {ts : List Taken} :
      Reads t c (some (l, d)) → Reading d ts e → Reading c (⟨t, l, d⟩ :: ts) e

/-- A derivation that succeeds, with the tokens that it takes. -/
inductive Takes (grammar : (α : Type) → R α → Peg R α) :
    {α : Type} → Peg R α → Cursor → α → Cursor → List Taken → Prop where
  | token {t : Token} {c d : Cursor} {l : Lexeme} :
      Reads t c (some (l, d)) → Takes grammar (.token t) c l d [⟨t, l, d⟩]
  | rule {α : Type} {r : R α} {c d : Cursor} {a : α} {ts : List Taken} :
      Takes grammar (grammar α r) c a d ts → Takes grammar (.rule r) c a d ts
  | seq {α β : Type} {p : Peg R α} {q : Peg R β} {c d e : Cursor} {a : α} {b : β}
      {ts us : List Taken} :
      Takes grammar p c a d ts → Takes grammar q d b e us →
      Takes grammar (.seq p q) c (a, b) e (ts ++ us)
  | choiceFirst {α : Type} {p q : Peg R α} {c d : Cursor} {a : α} {ts : List Taken} :
      Takes grammar p c a d ts → Takes grammar (.choice p q) c a d ts
  | choiceSecond {α : Type} {p q : Peg R α} {c d : Cursor} {a : α} {ts : List Taken} :
      Derives grammar p c none → Takes grammar q c a d ts → Takes grammar (.choice p q) c a d ts
  | manyEnd {α : Type} {p : Peg R α} {c : Cursor} :
      Derives grammar p c none → Takes grammar (.many p) c [] c []
  | manyNext {α : Type} {p : Peg R α} {c d e : Cursor} {a : α} {as : List α}
      {ts us : List Taken} :
      Takes grammar p c a d ts → Takes grammar (.many p) d as e us →
      Takes grammar (.many p) c (a :: as) e (ts ++ us)
  | optionOne {α : Type} {p : Peg R α} {c d : Cursor} {a : α} {ts : List Taken} :
      Takes grammar p c a d ts → Takes grammar (.option p) c (some a) d ts
  | optionNone {α : Type} {p : Peg R α} {c : Cursor} :
      Derives grammar p c none → Takes grammar (.option p) c none c []
  | map {α β : Type} {f : α → β} {p : Peg R α} {c d : Cursor} {a : α} {ts : List Taken} :
      Takes grammar p c a d ts → Takes grammar (.map f p) c (f a) d ts

/-- A row of tokens spells a value. -/
inductive Spells (grammar : (α : Type) → R α → Peg R α) :
    {α : Type} → Peg R α → α → List Taken → Prop where
  | token {t : Token} {l : Lexeme} {d : Cursor} : Spells grammar (.token t) l [⟨t, l, d⟩]
  | rule {α : Type} {r : R α} {a : α} {ts : List Taken} :
      Spells grammar (grammar α r) a ts → Spells grammar (.rule r) a ts
  | seq {α β : Type} {p : Peg R α} {q : Peg R β} {a : α} {b : β} {ts us : List Taken} :
      Spells grammar p a ts → Spells grammar q b us → Spells grammar (.seq p q) (a, b) (ts ++ us)
  | choiceFirst {α : Type} {p q : Peg R α} {a : α} {ts : List Taken} :
      Spells grammar p a ts → Spells grammar (.choice p q) a ts
  | choiceSecond {α : Type} {p q : Peg R α} {a : α} {ts : List Taken} :
      Spells grammar q a ts → Spells grammar (.choice p q) a ts
  | manyEnd {α : Type} {p : Peg R α} : Spells grammar (.many p) [] []
  | manyNext {α : Type} {p : Peg R α} {a : α} {as : List α} {ts us : List Taken} :
      Spells grammar p a ts → Spells grammar (.many p) as us →
      Spells grammar (.many p) (a :: as) (ts ++ us)
  | optionOne {α : Type} {p : Peg R α} {a : α} {ts : List Taken} :
      Spells grammar p a ts → Spells grammar (.option p) (some a) ts
  | optionNone {α : Type} {p : Peg R α} : Spells grammar (.option p) none []
  | map {α β : Type} {f : α → β} {p : Peg R α} {a : α} {ts : List Taken} :
      Spells grammar p a ts → Spells grammar (.map f p) (f a) ts

/-! ## Taking and reading -/

theorem Reading.append {c d e : Cursor} {ts us : List Taken} (h : Reading c ts d)
    (h' : Reading d us e) : Reading c (ts ++ us) e := by
  induction h with
  | nil => exact h'
  | cons hr _ ih => exact .cons hr (ih h')

theorem Reading.split {c e : Cursor} {ts us : List Taken} (h : Reading c (ts ++ us) e) :
    ∃ d, Reading c ts d ∧ Reading d us e := by
  induction ts generalizing c with
  | nil => exact ⟨c, .nil, h⟩
  | cons x ts ih =>
    cases h with
    | cons hr h =>
      obtain ⟨d, ht, hu⟩ := ih h
      exact ⟨d, .cons hr ht, hu⟩

theorem Derives.exists_takes {α : Type} {p : Peg R α} {c : Cursor} {o : Option (α × Cursor)}
    (h : Derives grammar p c o) : ∀ a d, o = some (a, d) → ∃ ts, Takes grammar p c a d ts := by
  induction h with
  | token h =>
    rintro l d rfl
    exact ⟨_, .token h⟩
  | rule _ ih =>
    intro a d ho
    obtain ⟨ts, h⟩ := ih a d ho
    exact ⟨ts, .rule h⟩
  | seq _ _ ih ih' =>
    rintro _ _ ⟨⟩
    obtain ⟨ts, h⟩ := ih _ _ rfl
    obtain ⟨us, h'⟩ := ih' _ _ rfl
    exact ⟨ts ++ us, .seq h h'⟩
  | seqFirst | seqSecond | mapNone => exact nofun
  | choiceFirst _ ih =>
    rintro _ _ ⟨⟩
    obtain ⟨ts, h⟩ := ih _ _ rfl
    exact ⟨ts, .choiceFirst h⟩
  | choiceSecond h _ _ ih' =>
    intro a d ho
    obtain ⟨ts, h'⟩ := ih' a d ho
    exact ⟨ts, .choiceSecond h h'⟩
  | manyEnd h =>
    rintro _ _ ⟨⟩
    exact ⟨[], .manyEnd h⟩
  | manyNext _ _ ih ih' =>
    rintro _ _ ⟨⟩
    obtain ⟨ts, h⟩ := ih _ _ rfl
    obtain ⟨us, h'⟩ := ih' _ _ rfl
    exact ⟨ts ++ us, .manyNext h h'⟩
  | optionOne _ ih =>
    rintro _ _ ⟨⟩
    obtain ⟨ts, h⟩ := ih _ _ rfl
    exact ⟨ts, .optionOne h⟩
  | optionNone h =>
    rintro _ _ ⟨⟩
    exact ⟨[], .optionNone h⟩
  | map _ ih =>
    rintro _ _ ⟨⟩
    obtain ⟨ts, h⟩ := ih _ _ rfl
    exact ⟨ts, .map h⟩

theorem Takes.derives {α : Type} {p : Peg R α} {c d : Cursor} {a : α} {ts : List Taken}
    (h : Takes grammar p c a d ts) : Derives grammar p c (some (a, d)) := by
  induction h with
  | token h => exact .token h
  | rule _ ih => exact .rule ih
  | seq _ _ ih ih' => exact .seq ih ih'
  | choiceFirst _ ih => exact .choiceFirst ih
  | choiceSecond h _ ih => exact .choiceSecond h ih
  | manyEnd h => exact .manyEnd h
  | manyNext _ _ ih ih' => exact .manyNext ih ih'
  | optionOne _ ih => exact .optionOne ih
  | optionNone h => exact .optionNone h
  | map _ ih => exact .map ih

/-- What is taken is read. -/
theorem Takes.reading {α : Type} {p : Peg R α} {c d : Cursor} {a : α} {ts : List Taken}
    (h : Takes grammar p c a d ts) : Reading c ts d := by
  induction h with
  | token h => exact .cons h .nil
  | seq _ _ ih ih' | manyNext _ _ ih ih' => exact ih.append ih'
  | manyEnd | optionNone => exact .nil
  | rule _ ih | choiceFirst _ ih | choiceSecond _ _ ih | optionOne _ ih | map _ ih => exact ih

/-- What is taken spells what is built. -/
theorem Takes.spells {α : Type} {p : Peg R α} {c d : Cursor} {a : α} {ts : List Taken}
    (h : Takes grammar p c a d ts) : Spells grammar p a ts := by
  induction h with
  | token => exact .token
  | rule _ ih => exact .rule ih
  | seq _ _ ih ih' => exact .seq ih ih'
  | choiceFirst _ ih => exact .choiceFirst ih
  | choiceSecond _ _ ih => exact .choiceSecond ih
  | manyEnd => exact .manyEnd
  | manyNext _ _ ih ih' => exact .manyNext ih ih'
  | optionOne _ ih => exact .optionOne ih
  | optionNone => exact .optionNone
  | map _ ih => exact .map ih

/-! ## How tokens spell -/

/-- How a row of tokens spells a value, by the form of the parsing expression. -/
def Spelling (grammar : (α : Type) → R α → Peg R α) :
    {α : Type} → Peg R α → α → List Taken → Prop
  | _, .token t, l, ts => ∃ d, ts = [⟨t, l, d⟩]
  | _, .rule r, a, ts => Spells grammar (grammar _ r) a ts
  | _, .seq p q, ab, ts => ∃ us vs, ts = us ++ vs ∧ Spells grammar p ab.1 us ∧
      Spells grammar q ab.2 vs
  | _, .choice p q, a, ts => Spells grammar p a ts ∨ Spells grammar q a ts
  | _, .many p, as, ts => as = [] ∧ ts = [] ∨ ∃ a as' us vs, as = a :: as' ∧ ts = us ++ vs ∧
      Spells grammar p a us ∧ Spells grammar p.many as' vs
  | _, .option p, o, ts => o = none ∧ ts = [] ∨ ∃ a, o = some a ∧ Spells grammar p a ts
  | _, .map f p, b, ts => ∃ a, b = f a ∧ Spells grammar p a ts

theorem Spells.spelling {α : Type} {p : Peg R α} {a : α} {ts : List Taken}
    (h : Spells grammar p a ts) : Spelling grammar p a ts := by
  cases h with
  | token => exact ⟨_, rfl⟩
  | rule h => exact h
  | seq h h' => exact ⟨_, _, rfl, h, h'⟩
  | choiceFirst h => exact .inl h
  | choiceSecond h => exact .inr h
  | manyEnd => exact .inl ⟨rfl, rfl⟩
  | manyNext h h' => exact .inr ⟨_, _, _, _, rfl, rfl, h, h'⟩
  | optionOne h => exact .inr ⟨_, rfl, h⟩
  | optionNone => exact .inl ⟨rfl, rfl⟩
  | map h => exact ⟨_, rfl, h⟩

section Inversion

variable {α β : Type} {p : Peg R α} {q : Peg R β} {ts : List Taken}

theorem spells_token {t : Token} {l : Lexeme} :
    Spells grammar (.token t) l ts ↔ ∃ d, ts = [⟨t, l, d⟩] :=
  ⟨Spells.spelling, fun ⟨_, h⟩ => h ▸ .token⟩

theorem spells_rule {r : R α} {a : α} :
    Spells grammar (.rule r) a ts ↔ Spells grammar (grammar α r) a ts :=
  ⟨Spells.spelling, .rule⟩

theorem spells_seq {a : α} {b : β} : Spells grammar (.seq p q) (a, b) ts ↔
    ∃ us vs, ts = us ++ vs ∧ Spells grammar p a us ∧ Spells grammar q b vs :=
  ⟨Spells.spelling, fun ⟨_, _, h, hp, hq⟩ => h ▸ .seq hp hq⟩

theorem spells_choice {p q : Peg R α} {a : α} : Spells grammar (.choice p q) a ts ↔
    Spells grammar p a ts ∨ Spells grammar q a ts :=
  ⟨Spells.spelling, fun h => h.elim .choiceFirst .choiceSecond⟩

theorem spells_option_some {a : α} :
    Spells grammar (.option p) (some a) ts ↔ Spells grammar p a ts := by
  refine ⟨fun h => ?_, .optionOne⟩
  obtain ⟨ho, _⟩ | ⟨_, ho, h⟩ := h.spelling
  · cases ho
  · cases ho
    exact h

theorem spells_option_none : Spells grammar (.option p) none ts ↔ ts = [] := by
  refine ⟨fun h => ?_, fun h => h ▸ .optionNone⟩
  obtain ⟨_, h⟩ | ⟨_, ho, _⟩ := h.spelling
  · exact h
  · cases ho

theorem spells_many_nil : Spells grammar (.many p) [] ts ↔ ts = [] := by
  refine ⟨fun h => ?_, fun h => h ▸ .manyEnd⟩
  obtain ⟨_, h⟩ | ⟨_, _, _, _, ho, _⟩ := h.spelling
  · exact h
  · cases ho

theorem spells_many_cons {a : α} {as : List α} : Spells grammar (.many p) (a :: as) ts ↔
    ∃ us vs, ts = us ++ vs ∧ Spells grammar p a us ∧ Spells grammar (.many p) as vs := by
  refine ⟨fun h => ?_, fun ⟨_, _, h, hp, hm⟩ => h ▸ .manyNext hp hm⟩
  obtain ⟨ho, _⟩ | ⟨_, _, us, vs, ho, hts, hp, hm⟩ := h.spelling
  · cases ho
  · cases ho
    exact ⟨us, vs, hts, hp, hm⟩

theorem spells_map {f : α → β} {b : β} : Spells grammar (.map f p) b ts ↔
    ∃ a, b = f a ∧ Spells grammar p a ts :=
  ⟨Spells.spelling, fun ⟨_, h, hp⟩ => h ▸ .map hp⟩

end Inversion

/-! ## First and last tokens -/

/-- Which tokens a phrase may start and end with, and whether it may have none. -/
structure Outline where
  empty : Bool
  first : List Token
  last : List Token

/-- A row of tokens keeps to an outline. -/
structure Outline.Fits (o : Outline) (ts : List Token) : Prop where
  empty : ts = [] → o.empty
  first : ∀ t ∈ ts.head?, t ∈ o.first
  last : ∀ t ∈ ts.getLast?, t ∈ o.last

/-- The outline of a parsing expression, from the outlines of the rules. -/
def Peg.outline (rules : {α : Type} → R α → Outline) : {α : Type} → Peg R α → Outline
  | _, .token t => ⟨false, [t], [t]⟩
  | _, .rule r => rules r
  | _, .seq p q =>
    let o := p.outline rules
    let o' := q.outline rules
    { empty := o.empty && o'.empty
      first := o.first ++ if o.empty then o'.first else []
      last := o'.last ++ if o'.empty then o.last else [] }
  | _, .choice p q =>
    let o := p.outline rules
    let o' := q.outline rules
    ⟨o.empty || o'.empty, o.first ++ o'.first, o.last ++ o'.last⟩
  | _, .many p => { p.outline rules with empty := true }
  | _, .option p => { p.outline rules with empty := true }
  | _, .map _ p => p.outline rules

/-- Whether all tokens that may come next to each other within a phrase may do so by `ok`. -/
def Peg.adjoins (rules : {α : Type} → R α → Outline) (ok : Token → Token → Bool) :
    {α : Type} → Peg R α → Bool
  | _, .token _ => true
  | _, .rule _ => true
  | _, .seq p q => p.adjoins rules ok && q.adjoins rules ok &&
      (p.outline rules).last.all fun t => (q.outline rules).first.all (ok t)
  | _, .choice p q => p.adjoins rules ok && q.adjoins rules ok
  | _, .many p => p.adjoins rules ok &&
      (p.outline rules).last.all fun t => (p.outline rules).first.all (ok t)
  | _, .option p => p.adjoins rules ok
  | _, .map _ p => p.adjoins rules ok

namespace Outline

variable {o o' : Outline} {ts us : List Token}

/-- An outline says no more than another. -/
structure Within (o o' : Outline) : Prop where
  empty : o.empty → o'.empty
  first : o.first ⊆ o'.first
  last : o.last ⊆ o'.last

theorem Fits.mono (h : o.Fits ts) (ho : o.Within o') : o'.Fits ts :=
  ⟨fun ht => ho.empty (h.empty ht), fun t ht => ho.first (h.first t ht),
    fun t ht => ho.last (h.last t ht)⟩

theorem Fits.nil {first last : List Token} : Fits ⟨true, first, last⟩ [] :=
  ⟨fun _ => rfl, by simp, by simp⟩

theorem Fits.append (h : o.Fits ts) (h' : o'.Fits us) :
    Fits ⟨o.empty && o'.empty, o.first ++ if o.empty then o'.first else [],
      o'.last ++ if o'.empty then o.last else []⟩ (ts ++ us) where
  empty he := by
    obtain ⟨ht, hu⟩ := List.append_eq_nil_iff.mp he
    simp [h.empty ht, h'.empty hu]
  first t ht := by
    cases ts with
    | nil =>
      rw [h.empty rfl, if_pos rfl]
      exact List.mem_append_right _ (h'.first t ht)
    | cons x ts => exact List.mem_append_left _ (h.first t ht)
  last t ht := by
    cases us with
    | nil =>
      rw [List.append_nil] at ht
      rw [h'.empty rfl, if_pos rfl]
      exact List.mem_append_right _ (h.last t ht)
    | cons x us =>
      rw [List.getLast?_append_cons] at ht
      exact List.mem_append_left _ (h'.last t ht)

end Outline

section Outlines

variable {rules : {α : Type} → R α → Outline}
  (hrules : ∀ {α} (r : R α), ((grammar α r).outline rules).Within (rules r))

include hrules

/-- A phrase keeps to its outline. -/
theorem Spells.fits {α : Type} {p : Peg R α} {a : α} {ts : List Taken} (h : Spells grammar p a ts) :
    (p.outline rules).Fits (ts.map Taken.token) := by
  induction h with
  | token => exact ⟨by simp, by simp [Peg.outline], by simp [Peg.outline]⟩
  | rule _ ih => exact ih.mono (hrules _)
  | seq _ _ ih ih' =>
    rw [List.map_append]
    exact ih.append ih'
  | choiceFirst _ ih =>
    exact ih.mono ⟨fun h => Bool.or_eq_true_iff.mpr (.inl h), List.subset_append_left ..,
      List.subset_append_left ..⟩
  | choiceSecond _ ih =>
    exact ih.mono ⟨fun h => Bool.or_eq_true_iff.mpr (.inr h), List.subset_append_right ..,
      List.subset_append_right ..⟩
  | manyEnd | optionNone => exact .nil
  | manyNext _ _ ih ih' =>
    rw [List.map_append]
    refine (ih.append ih').mono ⟨fun _ => rfl, ?_, ?_⟩
    · intro t ht
      obtain ht | ht := List.mem_append.mp ht
      · exact ht
      · split at ht
        · exact ht
        · cases ht
    · intro t ht
      simpa [Peg.outline] using ht
  | optionOne _ ih => exact ih.mono ⟨fun _ => rfl, List.Subset.refl _, List.Subset.refl _⟩
  | map _ ih => exact ih

/-- Tokens next to each other in a phrase may be so. -/
theorem Spells.isChain {ok : Token → Token → Bool}
    (hok : ∀ {α} (r : R α), (grammar α r).adjoins rules ok) {α : Type} {p : Peg R α} {a : α}
    {ts : List Taken} (h : Spells grammar p a ts) (hp : p.adjoins rules ok) :
    (ts.map Taken.token).IsChain (ok · ·) := by
  have hjoin : ∀ {o o' : Outline} {ts us : List Taken}, o.Fits (ts.map Taken.token) →
      o'.Fits (us.map Taken.token) → (o.last.all fun t => o'.first.all (ok t)) →
      (ts.map Taken.token).IsChain (ok · ·) → (us.map Taken.token).IsChain (ok · ·) →
      ((ts ++ us).map Taken.token).IsChain (ok · ·) := by
    intro o o' ts us ht hu hall hts hus
    rw [List.map_append]
    refine hts.append hus fun t h u h' => ?_
    exact List.all_eq_true.mp (List.all_eq_true.mp hall t (ht.last t h)) u (hu.first u h')
  induction h with
  | token => exact .singleton _
  | rule _ ih => exact ih (hok _)
  | seq h h' ih ih' =>
    simp only [Peg.adjoins, Bool.and_eq_true] at hp
    exact hjoin (h.fits hrules) (h'.fits hrules) hp.2 (ih hp.1.1) (ih' hp.1.2)
  | choiceFirst _ ih => exact ih (Bool.and_eq_true_iff.mp hp).1
  | choiceSecond _ ih => exact ih (Bool.and_eq_true_iff.mp hp).2
  | manyEnd | optionNone => exact .nil
  | manyNext h h' ih ih' =>
    have hp' := hp
    simp only [Peg.adjoins, Bool.and_eq_true] at hp'
    exact hjoin (h.fits hrules) (h'.fits hrules) hp'.2 (ih hp'.1) (ih' hp)
  | optionOne _ ih => exact ih hp
  | map _ ih => exact ih hp

end Outlines

end PolarPlot.Grammar

import PolarPlot.Proofs.Phrases

/-!
# Phrases that are parsed

A parsing expression is complete if it takes every phrase that it spells, as long as certain tokens
do not come next (`Complete`). Where one part of a phrase ends, the first token of the next part
keeps those tokens away, and whether it does can be computed from outlines (`Outline.bars`). Each
form of parsing expressions has a lemma here; the ordered choice is the only one that asks for more,
because the second alternative is taken only where the first one fails.
-/

namespace PolarPlot.Grammar

variable {R : Type → Type} {grammar : (α : Type) → R α → Peg R α}

/-! ## What comes next -/

/-- A token does not match at a place. -/
def Lacks (t : Token) (c : Cursor) : Prop := t.length? (skipLayout c).rest = none

/-- None of some tokens matches at a place. -/
def Clear (barred : List Token) (c : Cursor) : Prop := ∀ t ∈ barred, Lacks t c

/-- Where the first token is, the second one does not match. It is enough to know this for tokens of
which one is fixed: they start with different characters. -/
def Token.bars (u t : Token) : Bool :=
  t ≠ .eof && (u = .eof ||
    match t.fixed?, u.fixed? with
    | some (ch :: _), _ => !u.opens ch
    | _, some (ch :: _) => !t.opens ch
    | _, _ => false)

theorem Lacks.derives {t : Token} {c : Cursor} (h : Lacks t c) :
    Derives grammar (.token t) c none := .token (.missing h)

theorem lacks_of_opens {t : Token} {c : Cursor} {ch : Char} {cs : List Char}
    (hc : (skipLayout c).rest = ch :: cs) (h : t.opens ch = false) : Lacks t c := by
  unfold Lacks
  rw [hc]
  exact Token.length?_eq_none h

/-- The character that a token is read at. -/
theorem Reads.exists_cons {t : Token} {c d : Cursor} {l : Lexeme} (h : Reads t c (some (l, d)))
    (ht : t ≠ .eof) : ∃ ch cs, (skipLayout c).rest = ch :: cs ∧ t.opens ch := by
  cases h with
  | found h =>
    cases hc : (skipLayout c).rest with
    | nil =>
      rw [hc] at h
      have hpos := (Token.length?_bounds h).2 ht
      have hle := (Token.length?_bounds h).1
      simp only [List.length_nil] at hle
      omega
    | cons ch cs =>
      rw [hc] at h
      exact ⟨ch, cs, rfl, Token.opens_of_length? h⟩

theorem Reads.rest_eof {c d : Cursor} {l : Lexeme} (h : Reads .eof c (some (l, d))) :
    (skipLayout c).rest = [] := by
  cases h with
  | found h =>
    simp only [Token.length?] at h
    split at h
    · exact List.isEmpty_iff.mp ‹_›
    · cases h

theorem Token.opens_fixed {t : Token} {ch : Char} {text : List Char}
    (ht : t.fixed? = some (ch :: text)) {x : Char} : t.opens x ↔ x = ch := by
  cases t <;> cases ht <;> simp [Token.opens]

theorem Token.length?_nil {t : Token} (ht : t ≠ .eof) : t.length? [] = none := by
  cases t with
  | eof => exact absurd rfl ht
  | _ => rfl

theorem Reads.lacks {u t : Token} {c d : Cursor} {l : Lexeme} (h : Reads u c (some (l, d)))
    (hb : u.bars t) : Lacks t c := by
  simp only [Token.bars, Bool.and_eq_true, Bool.or_eq_true, decide_eq_true_eq] at hb
  obtain ⟨ht, hb⟩ := hb
  by_cases hu : u = .eof
  · subst hu
    rw [Lacks, h.rest_eof, Token.length?_nil ht]
  · obtain ⟨x, cs, hc, hx⟩ := h.exists_cons hu
    refine lacks_of_opens hc (Bool.eq_false_iff.mpr fun ht => ?_)
    have hb := hb.resolve_left hu
    split at hb
    · rename_i ch text htext
      obtain rfl := (Token.opens_fixed htext).mp ht
      simp [hx] at hb
    · rename_i ch text htext _
      obtain rfl := (Token.opens_fixed htext).mp hx
      simp [ht] at hb
    · cases hb

/-- Where a phrase with this outline starts, none of `barred` matches. A phrase that may be empty
leaves this to what comes after it, where none of `after` matches. -/
def Outline.bars (o : Outline) (barred after : List Token) : Bool :=
  (o.first.all fun u => barred.all u.bars) && (!o.empty || barred.all after.contains)

theorem Clear.mono {barred after : List Token} {c : Cursor} (h : Clear after c)
    (hb : barred.all after.contains) : Clear barred c := by
  intro t ht
  exact h t (by simpa using List.all_eq_true.mp hb t ht)

theorem clear_of_bars {o : Outline} {barred after : List Token} {ts : List Taken} {c d : Cursor}
    (hb : o.bars barred after) (ho : o.Fits (ts.map Taken.token)) (hr : Reading c ts d)
    (hd : Clear after d) : Clear barred c := by
  obtain ⟨hfirst, hempty⟩ := Bool.and_eq_true_iff.mp hb
  cases hr with
  | nil =>
    rw [ho.empty rfl] at hempty
    exact hd.mono (by simpa using hempty)
  | cons h _ =>
    intro t ht
    have hu := List.all_eq_true.mp hfirst _ (ho.first _ rfl)
    exact h.lacks (List.all_eq_true.mp hu t ht)

/-! ## Completeness -/

/-- Every phrase of at most `n` tokens is taken where none of `barred` comes after it. -/
structure Complete (grammar : (α : Type) → R α → Peg R α) (n : Nat) (barred : List Token) {α : Type}
    (p : Peg R α) : Prop where
  takes : ∀ {a ts c d}, ts.length ≤ n → Spells grammar p a ts → Reading c ts d → Clear barred d →
    Takes grammar p c a d ts

namespace Complete

variable {m n : Nat} {barred after : List Token} {α β : Type} {p : Peg R α} {q : Peg R β}

theorem mono (hp : Complete grammar n barred p) (hm : m ≤ n) : Complete grammar m barred p :=
  ⟨fun hl hs hr hd => hp.takes (Nat.le_trans hl hm) hs hr hd⟩

theorem token (t : Token) : Complete grammar n barred (.token t) := by
  refine ⟨fun _ hs hr _ => ?_⟩
  obtain ⟨e, rfl⟩ := spells_token.mp hs
  cases hr with
  | cons h hr =>
    cases hr
    exact .token h

theorem rule {r : R α} (hr : Complete grammar n barred (grammar α r)) :
    Complete grammar n barred (.rule r) :=
  ⟨fun hn hs hread hd => .rule (hr.takes hn (spells_rule.mp hs) hread hd)⟩

theorem map {f : α → β} (hp : Complete grammar n barred p) :
    Complete grammar n barred (p.map f) := by
  refine ⟨fun hn hs hr hd => ?_⟩
  obtain ⟨a, rfl, ha⟩ := spells_map.mp hs
  exact .map (hp.takes hn ha hr hd)

theorem choice {p q : Peg R α} (hp : Complete grammar n barred p) (hq : Complete grammar n barred q)
    (hfail : ∀ {a ts c d}, Spells grammar q a ts → Reading c ts d → Clear barred d →
      Derives grammar p c none) : Complete grammar n barred (p.choice q) := by
  refine ⟨fun hn hs hr hd => ?_⟩
  obtain hs | hs := spells_choice.mp hs
  · exact .choiceFirst (hp.takes hn hs hr hd)
  · exact .choiceSecond (hfail hs hr hd) (hq.takes hn hs hr hd)

/-- A token gives room for one more. -/
theorem guard {t : Token} (hq : Complete grammar n barred q) :
    Complete grammar (n + 1) barred ((Peg.token t).seq q) := by
  constructor
  rintro ⟨l, b⟩ ts c d hn hs hr hd
  obtain ⟨us, vs, rfl, hs, hs'⟩ := spells_seq.mp hs
  obtain ⟨e, rfl⟩ := spells_token.mp hs
  cases hr with
  | cons h hr => exact .seq (.token h) (hq.takes (by simpa using hn) hs' hr hd)

theorem tokenSeq {t : Token} (hq : Complete grammar n barred q) :
    Complete grammar n barred ((Peg.token t).seq q) :=
  hq.guard.mono (Nat.le_succ n)

theorem option (hp : Complete grammar n barred p) (hb : barred.all after.contains)
    (hfail : ∀ {c}, Clear after c → Derives grammar p c none) :
    Complete grammar n after p.option := by
  constructor
  rintro (_ | a) ts c d hn hs hr hd
  · cases spells_option_none.mp hs
    cases hr
    exact .optionNone (hfail hd)
  · exact .optionOne (hp.takes hn (spells_option_some.mp hs) hr (hd.mono hb))

variable {rules : {α : Type} → R α → Outline}
  (hrules : ∀ {α} (r : R α), ((grammar α r).outline rules).Within (rules r))

include hrules

theorem seq (hp : Complete grammar n barred p) (hq : Complete grammar n after q)
    (hb : (q.outline rules).bars barred after) : Complete grammar n after (p.seq q) := by
  constructor
  rintro ⟨a, b⟩ ts c d hn hs hr hd
  obtain ⟨us, vs, rfl, hs, hs'⟩ := spells_seq.mp hs
  obtain ⟨m, hr, hr'⟩ := hr.split
  rw [List.length_append] at hn
  refine .seq (hp.takes (by omega) hs hr ?_) (hq.takes (by omega) hs' hr' hd)
  exact clear_of_bars hb (hs'.fits hrules) hr' hd

/-- A repetition goes on as long as there are phrases, and ends where there is no more. -/
theorem many (hp : Complete grammar n barred p) (hb : (p.many.outline rules).bars barred after)
    (hfail : ∀ {c}, Clear after c → Derives grammar p c none) :
    Complete grammar n after p.many := by
  constructor
  intro as ts c d hn hs hr hd
  induction as generalizing ts c with
  | nil =>
    cases spells_many_nil.mp hs
    cases hr
    exact .manyEnd (hfail hd)
  | cons a as ih =>
    obtain ⟨us, vs, rfl, hs, hs'⟩ := spells_many_cons.mp hs
    obtain ⟨m, hr, hr'⟩ := hr.split
    rw [List.length_append] at hn
    refine .manyNext (hp.takes (by omega) hs hr ?_) (ih (by omega) hs' hr')
    exact clear_of_bars hb (hs'.fits hrules) hr' hd

end Complete

end PolarPlot.Grammar

import PolarPlot.Proofs.Pieces
import PolarPlot.Proofs.Places

/-!
# Texts with more text in them

Two texts one after the other, with a line feed between them, are parsed to both programs
(`parse_append_newline`), and filler after a token or at the start of a text changes nothing but
places (`parse_insert_gap`). In both cases the new text has the pieces of the old ones, except that
there is more filler before one of them.
-/

namespace PolarPlot

/-- The place so many lines further down. -/
def Position.down (k : Nat) (p : Position) : Position := { p with line := p.line + k }

theorem Position.down_zero : Position.down 0 = id := by
  funext p
  simp [down]

namespace Grammar

/-! ## Filler between pieces -/

theorem Token.Stops.append_layout {t : Token} {rest : List Char} (h : t.Stops rest) (ch : Char)
    (hch : isLayout ch) (cs : List Char) : t.Stops (rest ++ ch :: cs) := by
  cases rest with
  | nil => exact ends_layout hch cs t
  | cons y rest => exact h

/-- Pieces, filler and more pieces are laid out as pieces again. The filler goes to the first piece
after it, and if there is none to the rest. -/
theorem exists_laid_filler {ps us : List Piece} {xs rest rest' : List Char} (hps : Laid ps rest)
    (hstops : ∀ t : Token, t.Stops rest → t.Stops (xs ++ (joined us ++ rest'))) (hxs : Filler xs)
    (hus : Laid us rest') (hrest' : Trailing rest') :
    ∃ qs end', joined qs ++ end' = joined ps ++ (xs ++ (joined us ++ rest')) ∧ Laid qs end' ∧
      Trailing end' ∧
      ∀ c, taken c qs = taken c ps ++ taken (c.advance ((joined ps).length + xs.length)) us := by
  have hps := hps.mono hstops
  cases us with
  | nil => exact ⟨ps, xs ++ rest', rfl, hps, hrest'.prepend hxs, fun c => by simp [taken]⟩
  | cons p us =>
    have hp : Laid ({ p with space := xs ++ p.space } :: us) rest' :=
      ⟨{ hus.1 with space := hxs.append hus.1.space }, hus.2⟩
    refine ⟨ps ++ { p with space := xs ++ p.space } :: us, rest', by simp [Piece.text],
      laid_append.mpr ⟨?_, hp⟩, hrest', fun c => ?_⟩
    · simpa [Piece.text] using hps
    · simp [taken_append, taken, Piece.text, Cursor.advance_add]

/-! ## One text after the other -/

/-- The second place is `k` lines below the first. -/
structure Cursor.Below (k : Nat) (c d : Cursor) : Prop where
  origin : d.origin = c.origin
  line : d.line = c.line + k
  column : d.column = c.column

theorem Cursor.Below.position {k : Nat} {c d : Cursor} (h : c.Below k d) :
    c.position.down k = d.position := by
  simp [Cursor.position, Position.down, h.origin, h.line, h.column]

/-- Places stay as far apart as they are over the same text. -/
theorem Cursor.Below.advance {k : Nat} {c d : Cursor} {xs rest rest' : List Char} (h : c.Below k d)
    (hc : c.rest = xs ++ rest) (hd : d.rest = xs ++ rest') :
    (c.advance xs.length).Below k (d.advance xs.length) := by
  induction xs generalizing c d with
  | nil => simpa using h
  | cons x xs ih =>
    rw [List.cons_append] at hc hd
    simp only [List.length_cons, Cursor.advance, hc, hd]
    have hline := h.line
    split
    · exact ih ⟨h.origin, by simp; omega, rfl⟩ rfl rfl
    · exact ih ⟨h.origin, hline, by simp [h.column]⟩ rfl rfl

theorem taken_below {k : Nat} {c d : Cursor} {ps : List Piece} {rest rest' : List Char}
    (h : c.Below k d) (hc : c.rest = joined ps ++ rest) (hd : d.rest = joined ps ++ rest') :
    List.Forall₂ (Taken.Alike (Position.down k) id) (taken c ps) (taken d ps) := by
  induction ps generalizing c d with
  | nil => exact .nil
  | cons p ps ih =>
    rw [joined_cons, List.append_assoc] at hc hd
    have hspace : (c.advance p.space.length).Below k (d.advance p.space.length) :=
      h.advance (by simp [hc, Piece.text]; rfl) (by simp [hd, Piece.text]; rfl)
    refine .cons ⟨rfl, rfl, hspace.position⟩ (ih (h.advance hc hd) ?_ ?_)
    · simp [hc]
    · simp [hd]

theorem Cursor.advance_line {c : Cursor} {xs rest : List Char} (hc : c.rest = xs ++ rest) :
    (c.advance xs.length).line = c.line + xs.count '\n' := by
  induction xs generalizing c with
  | nil => simp
  | cons x xs ih =>
    rw [List.cons_append] at hc
    simp only [List.length_cons, Cursor.advance, hc]
    split
    · rename_i hx
      rw [ih rfl, hx, List.count_cons_self]
      simp only
      omega
    · rename_i hx
      rw [ih rfl, List.count_cons_of_ne hx]

/-- The place after a text and a line feed is below the start by the lines of the text and one
more. -/
theorem Cursor.below_start (origin : String) (xs ys : List Char) :
    (Cursor.start origin ys).Below (xs.count '\n' + 1)
      ((Cursor.start origin (xs ++ '\n' :: ys)).advance (xs.length + 1)) := by
  have hrest : ((Cursor.start origin (xs ++ '\n' :: ys)).advance xs.length).rest = '\n' :: ys := by
    simp [Cursor.start]
  have hline := Cursor.advance_line (c := Cursor.start origin (xs ++ '\n' :: ys)) rfl
  rw [Cursor.advance_add]
  refine ⟨?_, ?_, ?_⟩
  · simp [Cursor.start]
  · simp only [Cursor.advance, hrest, if_true, hline]
    simp only [Cursor.start]
    omega
  · simp only [Cursor.advance, hrest, if_true]
    rfl

section Rows

variable {R : Type → Type} {grammar : (α : Type) → R α → Peg R α} {α : Type} {p : Peg R α}

theorem spells_many_append {as bs : List α} {us vs : List Taken} (h : Spells grammar p.many as us)
    (h' : Spells grammar p.many bs vs) : Spells grammar p.many (as ++ bs) (us ++ vs) := by
  induction as generalizing us with
  | nil =>
    cases spells_many_nil.mp h
    exact h'
  | cons a as ih =>
    obtain ⟨us, ws, rfl, ha, has⟩ := spells_many_cons.mp h
    rw [List.append_assoc]
    exact .manyNext ha (ih has)

theorem spells_some_append {as bs : List α} {us vs : List Taken} (h : Spells grammar p.some as us)
    (h' : Spells grammar p.some bs vs) : Spells grammar p.some (as ++ bs) (us ++ vs) := by
  obtain ⟨⟨a, as⟩, rfl, hseq⟩ := spells_map.mp h
  obtain ⟨us, ws, rfl, ha, has⟩ := spells_seq.mp hseq
  obtain ⟨⟨b, bs⟩, rfl, hseq⟩ := spells_map.mp h'
  obtain ⟨vs, xs, rfl, hb, hbs⟩ := spells_seq.mp hseq
  rw [List.append_assoc]
  exact .map (.seq ha (spells_many_append has (.manyNext hb hbs)))

end Rows

theorem exists_eq_ok {ε α : Type} {x : Except ε α} (h : x.isOk) : ∃ a, x = .ok a := by
  cases x with
  | error => cases h
  | ok a => exact ⟨a, rfl⟩

end Grammar

open Grammar

/-- With a line feed between them, two texts make one program of both. The second program is as many
lines further down as the first text has, and nothing else about it changes. -/
theorem parse_append_newline {origin s t : String} {ss ts : List Stmt}
    (hs : parse origin s = .ok ss) (ht : parse origin t = .ok ts) :
    parse origin (s ++ "\n" ++ t) =
      .ok (ss ++ ts.map (Stmt.relocate (Position.down (s.toList.count '\n' + 1)))) := by
  obtain ⟨ps, rest, htext, hps, hrest, hspells⟩ := parse_eq_ok_iff_laid.mp hs
  obtain ⟨qs, rest', htext', hqs, hrest', hspells'⟩ := parse_eq_ok_iff_laid.mp ht
  have hall : (s ++ "\n" ++ t).toList = s.toList ++ '\n' :: t.toList := by simp
  -- The line feed closes a comment left open in `rest`, so both are filler before the pieces of
  -- `t`.
  have hstops : ∀ u : Token, u.Stops rest → u.Stops ((rest ++ ['\n']) ++ (joined qs ++ rest')) := by
    intro u h
    simpa using h.append_layout '\n' rfl (joined qs ++ rest')
  obtain ⟨us, end', hjoined, hus, hend, htaken⟩ :=
    exists_laid_filler hps hstops hrest.filler hqs hrest'
  refine parse_eq_ok_iff_laid.mpr ⟨us, end', by simp [hjoined, hall, htext, htext'], hus, hend, ?_⟩
  have hlen : (joined ps).length + (rest ++ ['\n']).length = s.toList.length + 1 := by
    simp [htext, Nat.add_assoc]
  rw [htaken, hlen, hall]
  -- The tokens of `s` stay where they are, and those of `t` go down.
  have hstart : (Cursor.start origin s.toList).Below 0
      (Cursor.start origin (s.toList ++ '\n' :: t.toList)) := ⟨rfl, rfl, rfl⟩
  have hfirst := taken_below hstart htext (by rw [htext, List.append_assoc]; rfl)
  have hsecond := taken_below (Cursor.below_start origin s.toList t.toList) htext'
    (by simpa [Cursor.start] using htext')
  obtain ⟨ss', hss', he⟩ := hspells.exists_stmts_alike hfirst
  obtain ⟨ts', hts', he'⟩ := hspells'.exists_stmts_alike hsecond
  simp only [Position.down_zero, Stmt.relocate_id, List.map_id] at he he'
  rw [he, he']
  exact spells_some_append hss' hts'

theorem exists_parse_append_newline : ∃ ss ts, parse "" "f(x) // over" = .ok ss ∧
    parse "" "g(\ny)" = .ok ts ∧ parse "" ("f(x) // over" ++ "\n" ++ "g(\ny)") =
      .ok (ss ++ ts.map (Stmt.relocate (Position.down 1))) := by
  obtain ⟨ss, hs⟩ := exists_eq_ok (x := parse "" "f(x) // over") (by decide +kernel)
  obtain ⟨ts, ht⟩ := exists_eq_ok (x := parse "" "g(\ny)") (by decide +kernel)
  exact ⟨ss, ts, hs, ht, parse_append_newline hs ht⟩

/-! ## Filler after a token -/

/-- Text to put between tokens: a blank, and then any filler. -/
def IsGap (gap : String) : Prop := ∃ ch xs, gap.toList = ch :: xs ∧ isLayout ch ∧ Filler xs

theorem exists_split_of_mem_taken {ps : List Piece} {c : Cursor} {t : Taken} (h : t ∈ taken c ps) :
    ∃ qs us, ps = qs ++ us ∧ t.stop = c.advance (joined qs).length := by
  induction ps generalizing c with
  | nil => cases h
  | cons p ps ih =>
    cases h with
    | head => exact ⟨[p], ps, rfl, by simp⟩
    | tail _ h =>
      obtain ⟨qs, us, rfl, hstop⟩ := ih h
      exact ⟨p :: qs, us, rfl, by simp [hstop, Cursor.advance_add]⟩

/-- Without their places, the tokens of a row of pieces are the same everywhere. -/
theorem taken_alike (ps : List Piece) (c d : Cursor) :
    List.Forall₂ (Taken.Alike (fun _ => .unknown) (fun _ => .unknown)) (taken c ps)
      (taken d ps) := by
  induction ps generalizing c d with
  | nil => exact .nil
  | cons p ps ih => exact .cons ⟨rfl, rfl, rfl⟩ (ih _ _)

/-- Where a token of a program ends, its text comes apart between two pieces. -/
theorem Grammar.Takes.exists_pieces_split {origin before after : String} {ss : List Stmt}
    {ts : List Taken} {d : Cursor}
    (h : Takes grammar program (Cursor.start origin (before ++ after).toList) ss d ts)
    (hpoint : before = "" ∨ ∃ t ∈ ts, t.token ≠ .eof ∧ t.stop.offset = before.length) :
    ∃ ps us rest, before.toList = joined ps ∧ after.toList = joined us ++ rest ∧
    Laid (ps ++ us) rest ∧
      Trailing rest ∧ ∃ c, Spells grammar (Peg.rule Rule.stmt).some ss (taken c (ps ++ us)) := by
  obtain ⟨ps, rest, z, rfl, hz, htext, hps, hrest, hs⟩ := h.exists_pieces
  obtain rfl | ⟨t, hmem, ht, hstop⟩ := hpoint
  · exact ⟨[], ps, rest, rfl, by simpa [Cursor.start] using htext, hps, hrest, _, hs⟩
  · have hmem : t ∈ taken (Cursor.start origin (before ++ after).toList) ps := by
      obtain hmem | hmem := List.mem_append.mp hmem
      · exact hmem
      · obtain rfl := List.mem_singleton.mp hmem
        exact absurd hz ht
    obtain ⟨qs, us, rfl, hplace⟩ := exists_split_of_mem_taken hmem
    have hcut : before.toList ++ after.toList = joined qs ++ (joined us ++ rest) := by
      simpa [Cursor.start] using htext
    have hlen : before.toList.length = (joined qs).length := by
      rw [hplace, Cursor.advance_offset _ (by rw [htext]; simp)] at hstop
      simpa [Cursor.start, String.length_toList] using hstop.symm
    obtain ⟨hb, ha⟩ := List.append_inj hcut hlen
    exact ⟨qs, us, rest, hb, ha, hps, hrest, _, hs⟩

/-- A text that is parsed has tokens. A blank and any filler after it can be put after each of them,
and at the start of the text, and the text is parsed to the same program at other places. The end of
the text is none of the tokens in it. -/
theorem parse_insert_gap {origin text : String} {ss : List Stmt} (h : parse origin text = .ok ss) :
    (∃ ts d, Takes grammar program (Cursor.start origin text.toList) ss d ts) ∧
    ∀ ts d, Takes grammar program (Cursor.start origin text.toList) ss d ts →
      ∀ before after gap, text = before ++ after →
        (before = "" ∨ ∃ t ∈ ts, t.token ≠ .eof ∧ t.stop.offset = before.length) → IsGap gap →
        ∃ ss', parse origin (before ++ gap ++ after) = .ok ss' ∧
          ss'.map Stmt.bare = ss.map Stmt.bare := by
  refine ⟨parse_eq_ok_iff_takes.mp h, ?_⟩
  rintro ts d htakes before after gap rfl hpoint ⟨ch, xs, hxs, hch, hfiller⟩
  obtain ⟨ps, us, rest, hb, ha, hlaid, hrest, c, hs⟩ := htakes.exists_pieces_split hpoint
  obtain ⟨hps, hus⟩ := laid_append.mp hlaid
  obtain ⟨qs, end', hjoined, hqs, hend, htaken⟩ := exists_laid_filler hps
    (fun t _ => ends_layout hch _ t) (.blank hch hfiller) hus hrest
  have halike : List.Forall₂ (Taken.Alike (fun _ => .unknown) (fun _ => .unknown))
      (taken c (ps ++ us)) (taken (Cursor.start origin (before ++ gap ++ after).toList) qs) := by
    rw [taken_append, htaken]
    exact List.rel_append (taken_alike ps _ _) (taken_alike us _ _)
  obtain ⟨ss', hs', he⟩ := hs.exists_stmts_alike halike
  refine ⟨ss', parse_eq_ok_iff_laid.mpr ⟨qs, end', ?_, hqs, hend, hs'⟩, he.symm⟩
  simp [hjoined, hb, ha, hxs]

theorem exists_parse_insert_gap : ∃ ss ss', parse "" "f(x)" = .ok ss ∧
    parse "" ("f" ++ "\t/*(*///\n" ++ "(x)") = .ok ss' ∧ ss'.map Stmt.bare = ss.map Stmt.bare := by
  obtain ⟨ss, hs⟩ := exists_eq_ok (x := parse "" "f(x)") (by decide +kernel)
  obtain ⟨⟨ts, d, htakes⟩, hinsert⟩ := parse_insert_gap hs
  have hpoint : ∃ t ∈ ts, t.token ≠ .eof ∧ t.stop.offset = "f".length := by
    have hfits := htakes.spells.fits grammar_outline
    cases htakes.reading with
    | nil => cases hfits.empty rfl
    | @cons t l c e _ us hread _ =>
      have ht : t ∈ [Token.wordFor, .name, .function] := hfits.first t rfl
      simp only [List.mem_cons, List.not_mem_nil, or_false] at ht
      refine ⟨_, .head _, ?_, ?_⟩
      · obtain rfl | rfl | rfl := ht <;> simp
      · cases hread with
        | @found n hlen =>
          obtain rfl | rfl | rfl := ht
          · cases (show none = some n from hlen)
          · cases (show some 1 = some n from hlen)
            rfl
          · cases (show some 1 = some n from hlen)
            rfl
  have hline : Filler ('/' :: '/' :: ([] ++ '\n' :: [])) := .line (by simp) .nil
  have hblock : Filler ('/' :: '*' :: (['('] ++ '*' :: '/' :: _)) :=
    .block (by unfold Unclosed; decide) hline
  have hgap : IsGap "\t/*(*///\n" := ⟨'\t', _, rfl, rfl, hblock⟩
  obtain ⟨ss', hss', he⟩ := hinsert ts d htakes "f" "(x)" _ rfl (.inr hpoint) hgap
  exact ⟨ss, ss', hs, hss', he⟩

end PolarPlot

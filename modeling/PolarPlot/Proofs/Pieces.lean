import PolarPlot.Proofs.Unambiguous

/-!
# Texts in pieces

A text that reads as a row of tokens is a row of pieces, each of them a filler and a word, and a
rest. Whether a row of pieces reads as its tokens can be told piece by piece, from the first
character after it (`Laid`). A text is parsed to a program just if it can be laid out in pieces
whose tokens spell the program (`parse_eq_ok_iff_laid`), so a new layout of the same words is a new
text of the same program.
-/

namespace PolarPlot.Grammar

open Text

/-! ## Pieces -/

/-- A word that a token takes, and the filler before it. -/
structure Piece where
  token : Token
  space : List Char
  word : List Char

def Piece.text (p : Piece) : List Char := p.space ++ p.word

def joined (ps : List Piece) : List Char := ps.flatMap Piece.text

/-- A token ends where such a text starts. It must not grow, and a slash must not become a
comment. -/
def Token.Stops (t : Token) (rest : List Char) : Prop :=
  ∀ y ∈ rest.head?, t.lengthens y = false ∧ (t = .divide → y ≠ '/' ∧ y ≠ '*')

/-- Every token ends where such a text starts. -/
def Ends (rest : List Char) : Prop := ∀ t : Token, t.Stops rest

theorem ends_layout {ch : Char} (h : isLayout ch) (cs : List Char) : Ends (ch :: cs) := by
  rintro t _ ⟨⟩
  simp only [isLayout, Bool.or_eq_true, decide_eq_true_eq] at h
  obtain ((rfl | rfl) | rfl) | rfl := h <;> exact ⟨by cases t <;> rfl, fun _ => by decide⟩

/-- A piece reads as its token where `rest` comes after it. -/
structure Piece.Sound (p : Piece) (rest : List Char) : Prop where
  token : p.token ≠ .eof
  space : Filler p.space
  word : p.token.IsText p.word
  stops : p.token.Stops rest

/-- A row of pieces reads as its tokens where `rest` comes after it. -/
def Laid : List Piece → List Char → Prop
  | [], _ => True
  | p :: ps, rest => p.Sound (joined ps ++ rest) ∧ Laid ps rest

/-- The tokens of a row of pieces at a place. -/
def taken : Cursor → List Piece → List Taken
  | _, [] => []
  | c, p :: ps =>
    ⟨p.token, ⟨String.ofList p.word, (c.advance p.space.length).position⟩,
      c.advance p.text.length⟩ :: taken (c.advance p.text.length) ps

@[simp] theorem joined_nil : joined [] = [] := rfl

@[simp] theorem joined_cons (p : Piece) (ps : List Piece) :
    joined (p :: ps) = p.text ++ joined ps :=
  List.flatMap_cons

@[simp] theorem joined_append (ps qs : List Piece) : joined (ps ++ qs) = joined ps ++ joined qs :=
  List.flatMap_append

theorem Piece.Sound.text_ne_nil {p : Piece} {rest : List Char} (h : p.Sound rest) :
    p.text ≠ [] := by
  obtain ⟨ch, cs, hw, _⟩ := h.word.exists_cons h.token
  simp [Piece.text, hw]

theorem laid_append {ps qs : List Piece} {rest : List Char} :
    Laid (ps ++ qs) rest ↔ Laid ps (joined qs ++ rest) ∧ Laid qs rest := by
  induction ps with
  | nil => simp [Laid]
  | cons p ps ih => simp [Laid, ih, and_assoc]

/-- What comes after a row of pieces matters only for where its last token ends. -/
theorem Laid.mono {ps : List Piece} {rest rest' : List Char} (h : Laid ps rest)
    (hrest : ∀ t : Token, t.Stops rest → t.Stops rest') : Laid ps rest' := by
  induction ps with
  | nil => trivial
  | cons p ps ih =>
    obtain ⟨hp, hps⟩ := h
    refine ⟨{ hp with stops := ?_ }, ih hps⟩
    cases ps with
    | nil => exact hrest _ hp.stops
    | cons q ps =>
      have hhead : ∀ r, (joined (q :: ps) ++ r).head? = q.text.head? := by
        intro r
        rw [joined_cons, List.append_assoc, List.head?_append_of_ne_nil _ hps.1.text_ne_nil]
      have hstops := hp.stops
      unfold Token.Stops at hstops ⊢
      rwa [hhead] at hstops ⊢

theorem taken_append (c : Cursor) (ps qs : List Piece) :
    taken c (ps ++ qs) = taken c ps ++ taken (c.advance (joined ps).length) qs := by
  induction ps generalizing c with
  | nil => simp [taken]
  | cons p ps ih => simp [taken, ih, Cursor.advance_add]

/-! ## Reading pieces -/

theorem Token.layout_of_opens {t : Token} {ch : Char} (h : t.opens ch) : isLayout ch = false := by
  rw [Bool.eq_false_iff]
  intro hl
  simp only [isLayout, Bool.or_eq_true, decide_eq_true_eq] at hl
  obtain ((rfl | rfl) | rfl) | rfl := hl <;> cases t <;> cases h

theorem Token.eq_divide_of_opens {t : Token} (h : t.opens '/') : t = .divide := by
  cases t with
  | divide => rfl
  | _ => cases h

/-- Skipping stops at a piece's word. -/
theorem settled_of_stops {t : Token} {w rest : List Char} (ht : t ≠ .eof) (hw : t.IsText w)
    (hr : t.Stops rest) : Settled (w ++ rest) := by
  obtain ⟨ch, cs, rfl, hch⟩ := hw.exists_cons ht
  refine ⟨?_, ?_⟩
  · rintro _ ⟨⟩
    exact Token.layout_of_opens hch
  · cases hl : commentLength? (ch :: cs ++ rest) with
    | none => rfl
    | some n =>
      have hslash : ∃ y, (y = '/' ∨ y = '*') ∧ ∃ ys, ch :: cs ++ rest = '/' :: y :: ys := by
        obtain ⟨_, _, he, _⟩ | ⟨_, _, he, _⟩ := commentLength?_cases hl
        · exact ⟨'*', .inr rfl, _, he⟩
        · exact ⟨'/', .inl rfl, _, he⟩
      obtain ⟨y, hy, ys, he⟩ := hslash
      obtain ⟨rfl, he⟩ := List.cons.inj he
      obtain rfl := Token.eq_divide_of_opens hch
      cases hw
      have hne := (hr y (by simp_all)).2 rfl
      exact absurd hy (by simp [hne])

theorem Piece.Sound.reads {p : Piece} {rest : List Char} (h : p.Sound rest) {c : Cursor}
    (hc : c.rest = p.text ++ rest) :
    Reads p.token c (some (⟨String.ofList p.word, (c.advance p.space.length).position⟩,
      c.advance p.text.length)) := by
  have hrest : c.rest = p.space ++ (p.word ++ rest) := by rw [hc, Piece.text, List.append_assoc]
  have hword : (c.advance p.space.length).rest = p.word ++ rest := by simp [hrest]
  have hskip : skipLayout c = c.advance p.space.length := by
    rw [h.space.skipLayout hrest, skipLayout_of_settled]
    rw [hword]
    exact settled_of_stops h.token h.word h.stops
  have hread := reads_of_text (c := c) (by rw [hskip, hword])
    (h.word.length? h.token fun y hy => (h.stops y hy).1)
  rw [hskip, ← Cursor.advance_add] at hread
  simpa [Piece.text] using hread

theorem Laid.reading {ps : List Piece} {rest : List Char} (h : Laid ps rest) {c : Cursor}
    (hc : c.rest = joined ps ++ rest) : Reading c (taken c ps) (c.advance (joined ps).length) := by
  induction ps generalizing c with
  | nil =>
    rw [joined_nil, List.length_nil, Cursor.advance_zero]
    exact .nil
  | cons p ps ih =>
    rw [joined_cons, List.append_assoc] at hc
    have hps := ih h.2 (c := c.advance p.text.length) (by simp [hc])
    rw [joined_cons, List.length_append, Cursor.advance_add]
    exact .cons (h.1.reads hc) hps

/-! ## Pieces from tokens -/

/-- Which tokens may come next to each other. Two numbers could make one number with a fraction, and
a slash and a star could start a comment. -/
def Token.joins (t u : Token) : Bool :=
  t ≠ .eof && !(t = .number && u = .number) && !(t = .divide && u = .multiply)

theorem grammar_joins {α : Type} (r : Rule α) : (grammar α r).adjoins Rule.outline Token.joins := by
  cases r <;> decide

/-- The token that is read at a character which starts neither a blank nor a comment. -/
theorem Reads.opens_of_rest {u : Token} {c d : Cursor} {l : Lexeme} (h : Reads u c (some (l, d)))
    {y : Char} {ys : List Char} (hc : c.rest = y :: ys) (hy : y = '.' ∨ y = '*') : u.opens y := by
  have hset : Settled c.rest := by
    rw [hc]
    obtain rfl | rfl := hy <;> exact ⟨by simp [isLayout], rfl⟩
  have hskip := skipLayout_of_settled hset
  have hu : u ≠ .eof := by
    rintro rfl
    have hnil := h.rest_eof
    rw [hskip, hc] at hnil
    cases hnil
  obtain ⟨ch, cs, hcs, hch⟩ := h.exists_cons hu
  rw [hskip, hc] at hcs
  cases hcs
  exact hch

theorem Token.eq_number_of_opens {t : Token} (h : t.opens '.') : t = .number := by
  cases t with
  | number => rfl
  | _ => cases h

theorem Token.eq_multiply_of_opens {t : Token} (h : t.opens '*') : t = .multiply := by
  cases t with
  | multiply => rfl
  | _ => cases h

theorem Token.lengthens_point {t : Token} (h : t ≠ .number) : t.lengthens '.' = false := by
  cases t with
  | number => exact absurd rfl h
  | _ => rfl

/-- A token stops where another one is read that may come next to it. -/
theorem Reads.stops {t u : Token} {c d e : Cursor} {l l' : Lexeme} (h : Reads t c (some (l, d)))
    (hnext : Reads u d (some (l', e))) (hjoins : t.joins u) : t.Stops d.rest := by
  simp only [Token.joins, Bool.and_eq_true, Bool.not_eq_true', Bool.and_eq_false_iff,
    decide_eq_true_eq, decide_eq_false_iff_not] at hjoins
  obtain ⟨⟨ht, hnumber⟩, hdivide⟩ := hjoins
  obtain ⟨w, rest, hc, hw, rfl, rfl, hr⟩ := h.text ht
  have hrest : ((skipLayout c).advance w.length).rest = rest := by simp [hc]
  intro y hy
  obtain ⟨ys, hys⟩ := List.head?_eq_some_iff.mp hy
  rw [hrest] at hy
  refine ⟨?_, ?_⟩
  · by_cases hpoint : y = '.'
    · subst hpoint
      have hu := Token.eq_number_of_opens (hnext.opens_of_rest hys (.inl rfl))
      exact Token.lengthens_point (hnumber.resolve_right (not_not_intro hu))
    · exact hr y hy hpoint
  · rintro rfl
    refine ⟨?_, ?_⟩
    · rintro rfl
      cases hw
      obtain ⟨xs, hxs⟩ := exists_skips c
      have hset := hxs.settled.2
      rw [hc, hrest.symm.trans hys] at hset
      cases hset
    · rintro rfl
      have hu := Token.eq_multiply_of_opens (hnext.opens_of_rest hys (.inr rfl))
      exact hdivide.elim (absurd rfl) (absurd hu)

theorem Reads.exists_piece {t : Token} {c d : Cursor} {l : Lexeme} (h : Reads t c (some (l, d)))
    (ht : t ≠ .eof) (hstops : t.Stops d.rest) :
    ∃ p : Piece, p.token = t ∧ p.Sound d.rest ∧ c.rest = p.text ++ d.rest ∧
      d = c.advance p.text.length ∧
      l = ⟨String.ofList p.word, (c.advance p.space.length).position⟩ := by
  obtain ⟨w, rest, hc, hw, rfl, rfl, _⟩ := h.text ht
  obtain ⟨xs, hxs⟩ := exists_skips c
  obtain ⟨ch, cs, hcons, _⟩ := hw.exists_cons ht
  have hrest : ((skipLayout c).advance w.length).rest = rest := by simp [hc]
  refine ⟨⟨t, xs, w⟩, rfl, ⟨ht, hxs.filler (by simp [hc, hcons]), hw, hstops⟩, ?_, ?_, ?_⟩
  · rw [hrest, hxs.split, hc, Piece.text, List.append_assoc]
  · rw [hxs.place, Piece.text, List.length_append, Cursor.advance_add]
  · rw [hxs.place]

/-- A text that reads as tokens is laid out in pieces, up to a last token. -/
theorem Reading.exists_pieces {ts : List Taken} {z : Taken} {c e : Cursor}
    (h : Reading c (ts ++ [z]) e)
    (hjoins : ((ts ++ [z]).map Taken.token).IsChain (Token.joins · ·)) :
    ∃ ps rest, c.rest = joined ps ++ rest ∧ Laid ps rest ∧ ts = taken c ps ∧
      ∃ l d, Reads z.token (c.advance (joined ps).length) (some (l, d)) := by
  induction ts generalizing c with
  | nil =>
    cases h with
    | cons h _ => exact ⟨[], c.rest, rfl, trivial, rfl, _, _, by simpa using h⟩
  | cons t ts ih =>
    rw [List.cons_append] at h hjoins
    cases h with
    | @cons t l c m _ _ hread h =>
      obtain ⟨ps, rest, hm, hps, rfl, hz⟩ := ih h hjoins.tail
      obtain ⟨u, l', e', hnext, hu⟩ : ∃ u l' e', Reads u m (some (l', e')) ∧ t.joins u := by
        obtain ⟨u, us, hus⟩ := List.exists_cons_of_ne_nil (List.concat_ne_nil z (taken m ps))
        rw [hus] at h hjoins
        cases h with
        | cons hu _ => exact ⟨_, _, _, hu, (List.isChain_cons_cons.mp hjoins).1⟩
      have ht : t ≠ .eof := by
        rintro rfl
        cases hu
      obtain ⟨p, rfl, hp, hc, rfl, rfl⟩ := hread.exists_piece ht (hread.stops hnext hu)
      refine ⟨p :: ps, rest, ?_, ⟨hm ▸ hp, hps⟩, rfl, ?_⟩
      · rw [hc, hm, joined_cons, List.append_assoc]
      · rwa [joined_cons, List.length_append, Cursor.advance_add]

/-! ## Programs -/

/-- Nothing but fillers up to the end of the text, where a line comment may be left open. -/
def Trailing (rest : List Char) : Prop := ∀ c : Cursor, c.rest = rest → (skipLayout c).rest = []

theorem skipWith_rest {length? : List Char → Option Nat} {n : Nat} {c c' : Cursor}
    (h : c.rest = c'.rest) : (skipWith length? n c).rest = (skipWith length? n c').rest := by
  induction n generalizing c c' with
  | zero => simp [skipWith, skipBlanks_rest, h]
  | succ n ih =>
    have hb : (skipBlanks c).rest = (skipBlanks c').rest := by simp [skipBlanks_rest, h]
    simp only [skipWith, hb]
    cases length? (skipBlanks c').rest with
    | none => exact hb
    | some k => exact ih (by simp [hb])

theorem trailing_of_skipLayout {c : Cursor} (h : (skipLayout c).rest = []) : Trailing c.rest := by
  intro c' hc'
  rw [← h, skipLayout, skipLayout, hc']
  exact skipWith_rest hc'

theorem trailing_nil : Trailing [] := by
  intro c hc
  rw [skipLayout_of_settled (by rw [hc]; exact ⟨by simp, rfl⟩), hc]

theorem Trailing.prepend {rest xs : List Char} (h : Trailing rest) (hxs : Filler xs) :
    Trailing (xs ++ rest) := by
  intro c hc
  rw [hxs.skipLayout hc]
  exact h _ (by simp [hc])

/-- A line feed closes what comes after the last token. -/
theorem Trailing.filler {rest : List Char} (h : Trailing rest) : Filler (rest ++ ['\n']) := by
  obtain ⟨xs, hxs⟩ := exists_skips (Cursor.start "" rest)
  have hrest : rest = xs ++ (skipLayout (Cursor.start "" rest)).rest := hxs.split
  rw [h _ (by rfl), List.append_nil] at hrest
  exact hrest ▸ hxs.closed

/-- The tokens of a program are those of its pieces, and the end of the text. -/
theorem Takes.exists_pieces {c d : Cursor} {ss : List Stmt} {ts : List Taken}
    (h : Takes grammar program c ss d ts) :
    ∃ ps rest z, ts = taken c ps ++ [z] ∧ z.token = .eof ∧ c.rest = joined ps ++ rest ∧
    Laid ps rest ∧
      Trailing rest ∧ Spells grammar (Peg.rule Rule.stmt).some ss (taken c ps) := by
  have hjoins := h.spells.isChain grammar_outline grammar_joins (by decide)
  obtain ⟨⟨_, l⟩, rfl, hs⟩ := spells_map.mp h.spells
  obtain ⟨us, _, rfl, hstmts, heof⟩ := spells_seq.mp hs
  obtain ⟨e, rfl⟩ := spells_token.mp heof
  obtain ⟨ps, rest, hc, hps, rfl, l', d', hread⟩ := h.reading.exists_pieces hjoins
  refine ⟨ps, rest, _, rfl, rfl, hc, hps, ?_, hstmts⟩
  have hrest : (c.advance (joined ps).length).rest = rest := by simp [hc]
  exact hrest ▸ trailing_of_skipLayout hread.rest_eof

theorem takes_of_laid {c : Cursor} {ps : List Piece} {rest : List Char} {ss : List Stmt}
    (hc : c.rest = joined ps ++ rest) (hps : Laid ps rest) (hrest : Trailing rest)
    (hs : Spells grammar (Peg.rule Rule.stmt).some ss (taken c ps)) :
    ∃ z d, Takes grammar program c ss d (taken c ps ++ [z]) := by
  have hend : (skipLayout (c.advance (joined ps).length)).rest = [] := hrest _ (by simp [hc])
  have heof := Reads.found (t := .eof) (n := 0) (by rw [hend]; rfl)
  exact ⟨_, _, takes_of_spells (.map (.seq hs .token)) ((hps.reading hc).append (.cons heof .nil))⟩

theorem parse_eq_ok_iff_takes {origin text : String} {ss : List Stmt} : parse origin text = .ok ss ↔
    ∃ ts d, Takes grammar program (Cursor.start origin text.toList) ss d ts := by
  rw [parse_eq_ok]
  constructor
  · rintro ⟨d, h⟩
    obtain ⟨ts, h⟩ := h.exists_takes _ _ rfl
    exact ⟨ts, d, h⟩
  · rintro ⟨_, d, h⟩
    exact ⟨d, h.derives⟩

/-- A text is parsed to a program just if it is laid out in pieces that spell the program. -/
theorem parse_eq_ok_iff_laid {origin text : String} {ss : List Stmt} : parse origin text = .ok ss ↔
    ∃ ps rest, text.toList = joined ps ++ rest ∧ Laid ps rest ∧ Trailing rest ∧
      Spells grammar (Peg.rule Rule.stmt).some ss (taken (Cursor.start origin text.toList) ps) := by
  rw [parse_eq_ok_iff_takes]
  constructor
  · rintro ⟨ts, d, h⟩
    obtain ⟨ps, rest, z, _, _, hc, hps, hrest, hs⟩ := h.exists_pieces
    exact ⟨ps, rest, hc, hps, hrest, hs⟩
  · rintro ⟨ps, rest, hc, hps, hrest, hs⟩
    obtain ⟨z, d, h⟩ := takes_of_laid hc hps hrest hs
    exact ⟨_, d, h⟩

end PolarPlot.Grammar

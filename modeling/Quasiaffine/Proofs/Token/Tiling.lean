import Mathlib
import Quasiaffine.Proofs.Except
import Quasiaffine.Proofs.Token.Run
import Quasiaffine.Proofs.Token.Spelled

set_option autoImplicit false

namespace Quasiaffine

structure Tile where
  gap : List Char
  text : List Char
  token : Token

namespace Tile

def characters (tile : Tile) : List Char := tile.gap ++ tile.text

/-- A tile that stands behind the text `before`. The token starts a line if it is the first or if
there is a line end in front of it. Only the last one is the end of the text, and only in front of
it a comment may stay open. -/
structure Placed (tile : Tile) (before : List Char) (isFirst isLast : Prop) : Prop where
  start : tile.token.span.start.Behind (before ++ tile.gap)
  stop : tile.token.span.stop.Behind (before ++ tile.characters)
  gap : Gap.Fills isLast tile.gap
  text : tile.token.lexeme.Spelled tile.text
  startsLine : tile.token.startsLine = true ↔ isFirst ∨ '\n' ∈ tile.gap
  last : tile.token.lexeme = .endOfInput ↔ isLast

/-- Tiles that stand one behind the other, each behind the text `before` and the tiles it passes. -/
def Tiled (before : List Char) (isFirst : Prop) (tiles : List Tile) : Prop :=
  ∀ passed tile ahead, tiles = passed ++ tile :: ahead →
    tile.Placed (before ++ passed.flatMap characters) (isFirst ∧ passed = []) (ahead = [])

variable {before : List Char} {isFirst : Prop} {tile : Tile} {tiles : List Tile}

theorem Tiled.cons (h : tile.Placed before isFirst (tiles = []))
    (htiles : Tiled (before ++ tile.characters) False tiles) :
    Tiled before isFirst (tile :: tiles) := by
  rintro (- | ⟨t, passed⟩) tile' ahead hsplit
  · obtain ⟨rfl, rfl⟩ := List.cons.inj hsplit
    simpa using h
  · obtain ⟨rfl, rfl⟩ := List.cons.inj hsplit
    simpa [List.append_assoc] using htiles passed tile' ahead rfl

theorem Tiled.head (h : Tiled before isFirst (tile :: tiles)) :
    tile.Placed before isFirst (tiles = []) := by
  simpa using h [] tile tiles rfl

theorem Tiled.tail (h : Tiled before isFirst (tile :: tiles)) :
    Tiled (before ++ tile.characters) False tiles := by
  intro passed tile' ahead hsplit
  simpa [List.append_assoc] using h (tile :: passed) tile' ahead (by rw [hsplit]; rfl)

theorem Placed.offset_le {isLast : Prop} (h : tile.Placed before isFirst isLast) :
    tile.token.span.start.offset ≤ tile.token.span.stop.offset := by
  have hstop := h.stop
  rw [characters, ← List.append_assoc] at hstop
  exact Nat.le.intro (h.start.offset_append hstop).symm

theorem Tiled.offset_le {p : Location} (h : Tiled before isFirst tiles) (hp : p.Behind before) :
    ∀ t ∈ tiles.map token, p.offset ≤ t.span.start.offset := by
  induction tiles generalizing before isFirst p with
  | nil => simp
  | cons tile tiles ih =>
    rw [List.map_cons, List.forall_mem_cons]
    have hstart := Nat.le.intro (hp.offset_append h.head.start).symm
    refine ⟨hstart, fun t ht => ?_⟩
    have := ih h.tail h.head.stop t ht
    have := h.head.offset_le
    omega

theorem Tiled.start_le_stop (h : Tiled before isFirst tiles) :
    ∀ t ∈ tiles.map token, t.span.start.offset ≤ t.span.stop.offset := by
  intro t ht
  obtain ⟨tile, htile, rfl⟩ := List.mem_map.1 ht
  obtain ⟨passed, ahead, hsplit⟩ := List.append_of_mem htile
  exact (h passed tile ahead hsplit).offset_le

/-- The last token is the end of the text and stands behind all of it. -/
theorem Tiled.getLast? (h : Tiled before isFirst tiles) (hne : tiles ≠ []) :
    ∃ t, (tiles.map token).getLast? = some t ∧ t.lexeme = .endOfInput ∧
      t.span.start = t.span.stop ∧ t.span.stop.Behind (before ++ tiles.flatMap characters) := by
  obtain ⟨passed, tile, rfl⟩ := (List.eq_nil_or_concat' tiles).resolve_left hne
  have hlast := h passed tile [] rfl
  have hend := hlast.last.2 rfl
  have htext : tile.text = [] := by
    have hspelled := hlast.text
    rw [hend] at hspelled
    generalize tile.text = text at hspelled
    cases hspelled
    rfl
  have hcharacters : tile.characters = tile.gap := by rw [characters, htext, List.append_nil]
  have hstop := hlast.stop
  rw [hcharacters] at hstop
  refine ⟨tile.token, by simp, hend, hlast.start.unique hstop, ?_⟩
  simpa [hcharacters, List.append_assoc] using hstop

theorem Tiled.pairwise (h : Tiled before isFirst tiles) :
    (tiles.map token).Pairwise fun t t' => t.span.stop.offset ≤ t'.span.start.offset := by
  induction tiles generalizing before isFirst with
  | nil => exact .nil
  | cons tile tiles ih => exact .cons (h.tail.offset_le h.head.stop) (ih h.tail)

end Tile

namespace Cursor

variable {c d : Cursor} {t : Token} {ts : List Token} {source before : List Char}

def tile (c : Cursor) (t : Token) : Tile := ⟨c.gap, c.taken, t⟩

theorem next_eq_ok (h : c.next = (.ok t, d)) :
    (Lexeme.scan c.skipGap.rest).result = .ok t.lexeme ∧
      t.span = ⟨c.skipGap.place, d.place⟩ ∧ t.startsLine = c.skipGap.lineStart ∧
      d.lineStart = c.taken.contains '\n' := by
  simp only [next, Prod.mk.injEq] at h
  obtain ⟨htoken, rfl⟩ := h
  split at htoken
  · rename_i l hl
    cases htoken
    exact ⟨hl, rfl, rfl, rfl⟩
  · cases htoken

theorem next_spelled (h : c.next = (.ok t, d)) : t.lexeme.Spelled c.taken :=
  Lexeme.spelled_scan (next_eq_ok h).1

theorem next_lineStart (h : c.next = (.ok t, d)) : d.lineStart = false := by
  rw [(next_eq_ok h).2.2.2, ← Bool.not_eq_true, List.contains_iff_mem]
  exact (next_spelled h).newline_not_mem

theorem isEnd_iff : t.isEnd = true ↔ t.lexeme = .endOfInput := by
  rw [Token.isEnd, Token.kind]
  cases t.lexeme <;> simp [Lexeme.kind]

theorem isEnd_iff_rest (h : c.next = (.ok t, d)) : t.isEnd = true ↔ c.skipGap.rest = [] := by
  have hresult := (next_eq_ok h).1
  rw [isEnd_iff]
  constructor
  · intro hend
    have hspelled := next_spelled h
    rw [hend] at hspelled
    by_contra hne
    apply Lexeme.scan_taken_ne_nil hne
    generalize hcs : c.taken = cs at hspelled
    cases hspelled
    exact hcs
  · intro hnil
    rw [hnil] at hresult
    exact (Except.ok.inj hresult).symm

theorem At.placed (hc : c.At source before) (h : c.next = (.ok t, d)) {isFirst isLast : Prop}
    (hfirst : c.lineStart = true ↔ isFirst) (hlast : t.isEnd = true ↔ isLast) :
    (c.tile t).Placed before isFirst isLast := by
  obtain ⟨-, hspan, hline, -⟩ := next_eq_ok h
  have hd := hc.next
  rw [h] at hd
  have hrest : (c.skipGap.rest = []) = isLast := propext ((isEnd_iff_rest h).symm.trans hlast)
  refine ⟨?_, ?_, hrest ▸ Gap.fills_skipped c.rest, next_spelled h, ?_, isEnd_iff.symm.trans hlast⟩
  · simpa [tile, hspan] using hc.skipGap.place
  · simpa [tile, hspan, Tile.characters] using hd.place
  · rw [← hfirst]
    simp [tile, hline, Cursor.skipGap, gap]

theorem Run.tiled (hrun : c.Run ts) (hc : c.At source before) {isFirst : Prop}
    (hfirst : c.lineStart = true ↔ isFirst) : ∃ tiles : List Tile, tiles.map Tile.token = ts ∧
      before ++ tiles.flatMap Tile.characters = source ∧ Tile.Tiled before isFirst tiles := by
  induction hrun generalizing before isFirst with
  | @last c d t h hend =>
    have hrest := (isEnd_iff_rest h).1 hend
    refine ⟨[c.tile t], rfl, ?_, .cons (hc.placed h hfirst (by simp [hend])) (by simp [Tile.Tiled])⟩
    have hsource := hc.skipGap.text
    have htaken : c.taken = [] := by simp [taken, hrest, Lexeme.scan]
    simpa [hrest, tile, Tile.characters, htaken] using hsource
  | @step c d t ts h hend hrun ih =>
    have hd := hc.next
    rw [h, List.append_assoc] at hd
    have hlater : d.lineStart = true ↔ False := by simp [next_lineStart h]
    obtain ⟨tiles, hmap, hsource, htiled⟩ := ih hd hlater
    have hne : tiles ≠ [] := fun hnil => hrun.ne_nil (by rw [← hmap, hnil, List.map_nil])
    refine ⟨c.tile t :: tiles, by simp [hmap, tile], ?_,
      .cons (hc.placed h hfirst (by simp [hend, hne])) htiled⟩
    simpa [List.append_assoc, tile, Tile.characters] using hsource

/-- The tokens of a text tile it: white space and comments followed by the text of a token, again
and again up to the end of the text, which is the last token. -/
theorem tokens_tile_text {source : String} {ts : List Token}
    (h : (Cursor.ofText source).tokens = .ok ts) :
    ∃ tiles : List Tile, tiles.map Tile.token = ts ∧
      tiles.flatMap Tile.characters = source.toList ∧ Tile.Tiled [] True tiles ∧
      (∀ t ∈ ts, t.span.start.offset ≤ t.span.stop.offset) ∧
      ts.Pairwise (fun t t' => t.span.stop.offset ≤ t'.span.start.offset) ∧
      ∃ t, ts.getLast? = some t ∧ t.lexeme = .endOfInput ∧ t.span.start = t.span.stop ∧
        t.span.stop.Behind source.toList := by
  have hrun := run_of_tokens h
  obtain ⟨tiles, rfl, hsource, htiled⟩ := hrun.tiled (at_ofText source) (iff_of_true rfl trivial)
  rw [List.nil_append] at hsource
  have hlast := htiled.getLast? fun hnil => hrun.ne_nil (by rw [hnil, List.map_nil])
  rw [List.nil_append, hsource] at hlast
  exact ⟨tiles, rfl, hsource, htiled, htiled.start_le_stop, htiled.pairwise, hlast⟩

/-- Behind a primed name there are a comment within a comment, a string that is no comment, a number
with its sign and a comment up to the end of the line; the last comment ends with the text. -/
theorem tokens_tile_text_of_comments :
    let source := "é\x27\x27 /* a /* b */ c */ \"/*\" -12 # x\n&& // y"
    let ts : List Token := [
      ⟨.identifier "é\x27\x27", ⟨⟨1, 1, 0⟩, ⟨1, 4, 4⟩⟩, true⟩,
      ⟨.string "/*", ⟨⟨1, 23, 23⟩, ⟨1, 27, 27⟩⟩, false⟩,
      ⟨.number (-12), ⟨⟨1, 28, 28⟩, ⟨1, 31, 31⟩⟩, false⟩,
      ⟨.keyword .and false, ⟨⟨2, 1, 36⟩, ⟨2, 3, 38⟩⟩, true⟩,
      ⟨.endOfInput, ⟨⟨2, 8, 43⟩, ⟨2, 8, 43⟩⟩, false⟩]
    (Cursor.ofText source).tokens = .ok ts ∧
      ∃ tiles : List Tile, tiles.map Tile.token = ts ∧
        tiles.flatMap Tile.characters = source.toList ∧ Tile.Tiled [] True tiles := by
  intro source ts
  have htokens : (Cursor.ofText source).tokens = .ok ts := eq_ok_of_toOption (by decide +kernel)
  obtain ⟨tiles, hmap, hsource, htiled, -⟩ := tokens_tile_text htokens
  exact ⟨htokens, tiles, hmap, hsource, htiled⟩

end Cursor

end Quasiaffine

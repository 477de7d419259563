import Mathlib
import Quasiaffine.Proofs.Source.Places
import Quasiaffine.Proofs.Token.Gaps

/-!
Cursors in a source text. A cursor stands behind a part of the source, and what it reads next starts
and ends at places of the source. The tokens of a cursor are read one after the other, up to the end
of the text.
-/

set_option autoImplicit false

namespace Quasiaffine.Cursor

variable {c d : Cursor} {t : Token} {ts : List Token} {e : Error} {source before : List Char}

def gap (c : Cursor) : List Char := Gap.skipped .blank c.rest

def taken (c : Cursor) : List Char := (Lexeme.scan c.skipGap.rest).taken

structure At (c : Cursor) (source before : List Char) : Prop where
  text : before ++ c.rest = source
  place : c.place.Behind before

theorem at_ofText (source : String) : (ofText source).At source.toList [] :=
  ⟨rfl, Location.behind_first⟩

theorem At.skipGap (h : c.At source before) : c.skipGap.At source (before ++ c.gap) where
  text := by
    have hgap : c.gap ++ c.rest.drop c.gap.length = c.rest :=
      List.prefix_iff_eq_append.1 (Gap.skipped_prefix .blank c.rest)
    rw [← h.text, List.append_assoc, ← hgap]
    simp [Cursor.skipGap, gap]
  place := h.place.afterAll c.gap

theorem At.next (h : c.At source before) : c.next.2.At source (before ++ c.gap ++ c.taken) where
  text := by
    have hscan := Lexeme.scan_append c.skipGap.rest
    rw [← h.skipGap.text, ← hscan, ← List.append_assoc]
    rfl
  place := h.skipGap.place.afterAll c.taken

/-- The tokens of a text from a cursor on, of which only the last is the end of the text. -/
inductive Run : Cursor → List Token → Prop
  | last {c d : Cursor} {t : Token} (h : c.next = (.ok t, d)) (hend : t.isEnd = true) : Run c [t]
  | step {c d : Cursor} {t : Token} {ts : List Token} (h : c.next = (.ok t, d))
      (hend : t.isEnd = false) (hrun : Run d ts) : Run c (t :: ts)

theorem Run.ne_nil (h : c.Run ts) : ts ≠ [] := by
  cases h <;> simp

theorem run_of_tokens (h : c.tokens = .ok ts) : c.Run ts := by
  fun_induction Cursor.tokens c generalizing ts with
  | case1 => cases h
  | case2 c t d hnext hend =>
    cases h
    exact .last hnext hend
  | case3 => cases h
  | case4 c t d hnext hend _ ts hd ih =>
    cases h
    exact .step hnext (by simpa using hend) (ih hd)

theorem Run.tokens_eq (h : c.Run ts) : c.tokens = .ok ts := by
  induction h with
  | last hnext hend =>
    rw [tokens]
    split <;> simp_all
  | step hnext hend _ ih =>
    rw [tokens]
    split <;> simp_all

end Quasiaffine.Cursor

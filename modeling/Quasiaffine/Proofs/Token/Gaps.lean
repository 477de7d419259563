import Mathlib
import Quasiaffine.Token.Lexer

set_option autoImplicit false

namespace Quasiaffine.Gap

structure IsLineComment (text : List Char) : Prop where
  begins : ['#'] <+: text ∨ ['/', '/'] <+: text
  line : '\n' ∉ text

def Plain (c : Char) (text : List Char) : Prop :=
  ¬(c = '*' ∧ text.head? = some '/') ∧ ¬(c = '/' ∧ text.head? = some '*')

inductive Body : List Char → Prop
  | close : Body ['*', '/']
  | nested {inner text : List Char} (hinner : Body inner) (h : Body text) :
      Body ('/' :: '*' :: (inner ++ text))
  | character {c : Char} {text : List Char} (hc : Plain c text) (h : Body text) : Body (c :: text)

inductive OpenBody : List Char → Prop
  | done : OpenBody []
  | nested {inner text : List Char} (hinner : Body inner) (h : OpenBody text) :
      OpenBody ('/' :: '*' :: (inner ++ text))
  | nestedOpen {text : List Char} (h : OpenBody text) : OpenBody ('/' :: '*' :: text)
  | character {c : Char} {text : List Char} (hc : Plain c text) (h : OpenBody text) :
      OpenBody (c :: text)

/-- What may stand in front of a token; `atEnd` says that no text follows. -/
inductive Fills (atEnd : Prop) : List Char → Prop
  | none : Fills atEnd []
  | blank {c : Char} {text : List Char} (hc : Text.isBlank c = true) (h : Fills atEnd text) :
      Fills atEnd (c :: text)
  | lineComment {comment text : List Char} (hc : IsLineComment comment)
      (h : Fills atEnd ('\n' :: text)) : Fills atEnd (comment ++ '\n' :: text)
  | lastLineComment {comment : List Char} (hend : atEnd) (hc : IsLineComment comment) :
      Fills atEnd comment
  | blockComment {body text : List Char} (hbody : Body body) (h : Fills atEnd text) :
      Fills atEnd ('/' :: '*' :: (body ++ text))
  | openComment {body : List Char} (hend : atEnd) (hbody : OpenBody body) :
      Fills atEnd ('/' :: '*' :: body)

inductive Goes (atEnd : Prop) : Gap → List Char → Prop
  | blank {text : List Char} (h : Fills atEnd text) : Goes atEnd .blank text
  | line {comment text : List Char} (hc : '\n' ∉ comment) (h : Fills atEnd text) :
      Goes atEnd .lineComment (comment ++ '\n' :: text)
  | lineEnd {comment : List Char} (hend : atEnd) (hc : '\n' ∉ comment) :
      Goes atEnd .lineComment comment
  | block {outer : Nat} {body text : List Char} (hbody : Body body)
      (h : Goes atEnd (closed outer) text) : Goes atEnd (.blockComment outer) (body ++ text)
  | blockEnd {outer : Nat} {body : List Char} (hend : atEnd) (hbody : OpenBody body) :
      Goes atEnd (.blockComment outer) body
  | sign {behind : Gap} {c : Char} {text : List Char} (h : Goes atEnd behind text) :
      Goes atEnd (.sign behind) (c :: text)
  | signEnd {behind : Gap} (hend : atEnd) : Goes atEnd (.sign behind) []

variable {atEnd : Prop} {c : Char} {body text rest : List Char} {gap : Gap} {outer : Nat}

theorem skipped_prefix (gap : Gap) (text : List Char) : skipped gap text <+: text := by
  induction text generalizing gap with
  | nil => exact List.nil_prefix
  | cons c text ih =>
    have hstep : ∀ g : Gap, c :: skipped g text <+: c :: text := fun g =>
      List.cons_prefix_cons.2 ⟨rfl, ih g⟩
    unfold skipped
    split
    · split
      · exact hstep _
      split
      · exact hstep _
      split
      · exact hstep _
      · exact List.nil_prefix
    · split <;> exact hstep _
    · split
      · exact hstep _
      split <;> exact hstep _
    · exact hstep _

/-- Inside of a comment the next character is skipped in any case. -/
theorem head?_skipped (h : gap ≠ .blank) (text : List Char) :
    (skipped gap text).head? = text.head? := by
  cases text with
  | nil => rfl
  | cons c text =>
    cases gap with
    | blank => exact absurd rfl h
    | sign behind => rfl
    | lineComment =>
      rw [skipped]
      split <;> rfl
    | blockComment outer =>
      rw [skipped]
      split
      · rfl
      split <;> rfl

theorem Body.plain (h : Body body) (hc : Plain c (body ++ text)) : Plain c body := by
  have hhead : (body ++ text).head? = body.head? := by cases h <;> rfl
  rwa [Plain, hhead] at hc

namespace Goes

theorem fills (h : Goes atEnd .blank text) : Fills atEnd text := by
  cases h with
  | blank h => exact h

theorem behind_sign (h : Goes atEnd (.sign gap) (c :: text)) : Goes atEnd gap text := by
  cases h with
  | sign h => exact h

theorem lineCharacter (h : Goes atEnd .lineComment text) (hc : c ≠ '\n') :
    Goes atEnd .lineComment (c :: text) := by
  have hmem : ∀ comment : List Char, '\n' ∉ comment → '\n' ∉ c :: comment :=
    fun _ h => List.not_mem_cons_of_ne_of_not_mem hc.symm h
  cases h with
  | line hline h => exact .line (hmem _ hline) h
  | lineEnd hend hline => exact .lineEnd hend (hmem _ hline)

theorem lineComment (h : Goes atEnd .lineComment text)
    (hbegins : c = '#' ∨ c = '/' ∧ text.head? = some '/') : Fills atEnd (c :: text) := by
  have hbegins : ∀ comment rest : List Char, text = comment ++ rest → rest.head? ≠ some '/' →
      ['#'] <+: c :: comment ∨ ['/', '/'] <+: c :: comment := by
    rintro comment rest rfl hrest
    rcases hbegins with rfl | ⟨rfl, hhead⟩
    · exact .inl (by simp)
    · cases comment with
      | nil => exact absurd hhead hrest
      | cons b comment =>
        obtain rfl : b = '/' := by simpa using hhead
        exact .inr (by simp)
  have hc : ∀ comment : List Char, ['#'] <+: c :: comment ∨ ['/', '/'] <+: c :: comment →
      '\n' ∉ comment → IsLineComment (c :: comment) := by
    intro comment hcomment hline
    refine ⟨hcomment, ?_⟩
    rw [List.mem_cons, not_or]
    refine ⟨?_, hline⟩
    rintro rfl
    simp at hcomment
  cases h with
  | @line comment text hline h =>
    have := hc comment (hbegins comment ('\n' :: text) rfl (by simp)) hline
    exact .lineComment this (.blank (by decide) h)
  | lineEnd hend hline =>
    exact .lastLineComment hend (hc text (hbegins text [] (by simp) (by simp)) hline)

theorem blockComment (h : Goes atEnd (.blockComment 0) text) :
    Fills atEnd ('/' :: '*' :: text) := by
  cases h with
  | block hbody h => exact .blockComment hbody h.fills
  | blockEnd hend hbody => exact .openComment hend hbody

theorem close (h : Goes atEnd (closed outer) text) :
    Goes atEnd (.blockComment outer) ('*' :: '/' :: text) :=
  .block .close h

theorem nest (h : Goes atEnd (.blockComment (outer + 1)) text) :
    Goes atEnd (.blockComment outer) ('/' :: '*' :: text) := by
  cases h with
  | @block _ inner rest hinner h =>
    cases h with
    | @block _ body rest hbody h =>
      have := Goes.block (.nested hinner hbody) h
      simpa [List.append_assoc] using this
    | blockEnd hend hbody => exact .blockEnd hend (.nested hinner hbody)
  | blockEnd hend hbody => exact .blockEnd hend (.nestedOpen hbody)

theorem character (h : Goes atEnd (.blockComment outer) text) (hc : Plain c text) :
    Goes atEnd (.blockComment outer) (c :: text) := by
  cases h with
  | block hbody h => exact .block (.character (hbody.plain hc) hbody) h
  | blockEnd hend hbody => exact .blockEnd hend (.character hc hbody)

end Goes

/-- A text that starts inside of a gap goes on as the gap does, up to where the gap ends. -/
theorem goes_skipped (gap : Gap) (text : List Char) :
    Goes (text.drop (skipped gap text).length = []) gap (skipped gap text) := by
  induction text generalizing gap with
  | nil =>
    cases gap with
    | blank => exact .blank .none
    | lineComment => exact .lineEnd rfl (by simp [skipped])
    | blockComment outer => exact .blockEnd rfl .done
    | sign behind => exact .signEnd rfl
  | cons c text ih =>
    -- A sign has two characters, and the text goes on behind the second of them.
    have hsign : ∀ g (b : Char), text.head? = some b →
        ∃ tail, skipped (.sign g) text = b :: tail ∧
          Goes (text.drop (skipped (.sign g) text).length = []) g tail := by
      intro g b hb
      obtain ⟨tail, rfl⟩ := List.head?_eq_some_iff.1 hb
      exact ⟨skipped g tail, rfl, (ih (.sign g)).behind_sign⟩
    cases gap with
    | blank =>
      rw [skipped]
      split_ifs with hblank hline hblock
      · exact .blank (.blank hblank (ih .blank).fills)
      · refine .blank ((ih .lineComment).lineComment ?_)
        rwa [head?_skipped (by simp)]
      · obtain ⟨rfl, hhead⟩ := hblock
        obtain ⟨tail, htail, hgoes⟩ := hsign (.blockComment 0) '*' hhead
        rw [htail] at hgoes ⊢
        exact .blank hgoes.blockComment
      · exact .blank .none
    | lineComment =>
      rw [skipped]
      split_ifs with hc
      · subst hc
        exact .line List.not_mem_nil (ih .blank).fills
      · exact (ih .lineComment).lineCharacter hc
    | blockComment outer =>
      rw [skipped]
      split_ifs with hclose hopen
      · obtain ⟨rfl, hhead⟩ := hclose
        obtain ⟨tail, htail, hgoes⟩ := hsign (closed outer) '/' hhead
        rw [htail] at hgoes ⊢
        exact hgoes.close
      · obtain ⟨rfl, hhead⟩ := hopen
        obtain ⟨tail, htail, hgoes⟩ := hsign (.blockComment (outer + 1)) '*' hhead
        rw [htail] at hgoes ⊢
        exact hgoes.nest
      · refine (ih (.blockComment outer)).character ?_
        rw [Plain, head?_skipped (by simp)]
        exact ⟨hclose, hopen⟩
    | sign behind => exact .sign (ih behind)

theorem fills_skipped (text : List Char) :
    Fills (text.drop (skipped .blank text).length = []) (skipped .blank text) :=
  (goes_skipped .blank text).fills

end Quasiaffine.Gap

import Quasiaffine.Proofs.Formula.Spelling

set_option autoImplicit false

namespace Quasiaffine

def isSeparator (a : Char) : Bool := [' ', ')', ']', '[', ',', ';', '/'].contains a

def Separated (text : String) : Prop := ∀ a ∈ text.toList.head?, isSeparator a = true

/-- A text that is cut into the same tokens wherever a separator or nothing stands behind it. -/
def Writes (text : String) (ls : List Lexeme) : Prop :=
  ∀ rest ls', (∀ a ∈ rest.head?, isSeparator a = true) → Spells rest ls' →
    Spells (text.toList ++ rest) (ls ++ ls')

namespace Lexeme

variable {l : Lexeme} {a : Char}

@[simp] theorem text_mark (m : Mark) : (mark m).text = m.text := rfl

theorem Written.endsBefore_separator (h : l.Written) (hl : l ≠ .mark .slash)
    (ha : isSeparator a = true) : l.endsBefore a = true := by
  simp only [isSeparator, List.contains_cons, List.contains_nil, Bool.or_false, Bool.or_eq_true,
    beq_iff_eq] at ha
  cases h with
  | mark =>
    rename_i m _
    rcases ha with rfl | rfl | rfl | rfl | rfl | rfl | rfl <;> cases m <;>
      first | rfl | exact absurd rfl hl
  | _ =>
    rcases ha with rfl | rfl | rfl | rfl | rfl | rfl | rfl <;> simp only [endsBefore] <;> decide

end Lexeme

section Writes

variable {text text' : String} {l : Lexeme} {m : Mark} {ls ls' : List Lexeme}

theorem writes_empty : Writes "" [] := fun _ _ _ h => h

theorem Writes.append (h : Writes text ls) (h' : Writes text' ls') (hs : Separated text') :
    Writes (text ++ text') (ls ++ ls') := by
  intro rest ls'' hrest hspells
  rw [String.toList_append, List.append_assoc, List.append_assoc]
  refine h _ _ ?_ (h' rest ls'' hrest hspells)
  cases htext : text'.toList with
  | nil => exact hrest
  | cons c cs => exact fun a ha => hs a (by rwa [htext])

theorem Writes.cons (h : Writes text ls) (hl : l.Written)
    (hend : ∀ a ∈ text.toList.head?, l.endsBefore a = true)
    (hslash : text = "" → l ≠ .mark .slash) : Writes (l.text ++ text) (l :: ls) := by
  intro rest ls' hrest hspells
  rw [String.toList_append, List.append_assoc]
  refine .token hl (fun a ha => ?_) (h rest ls' hrest hspells)
  cases htext : text.toList with
  | nil =>
    rw [htext] at ha
    exact hl.endsBefore_separator (hslash (String.toList_eq_nil_iff.1 htext)) (hrest a ha)
  | cons c cs =>
    rw [htext] at ha
    exact hend a (by rwa [htext])

theorem Writes.blank (h : Writes text ls) : Writes (" " ++ text) ls := by
  intro rest ls' hrest hspells
  rw [String.toList_append]
  exact .blank (h rest ls' hrest hspells)

theorem writes_token (hl : l.Written) (hslash : l ≠ .mark .slash) : Writes l.text [l] := by
  have h := writes_empty.cons hl (by simp) fun _ => hslash
  rwa [String.append_empty] at h

theorem writes_name {x : String} (hx : IsName x) : Writes x [.identifier x] :=
  writes_token (l := .identifier x) (.identifier hx) nofun

theorem writes_number (c : ℤ) : Writes (toString c) [.number c] :=
  writes_token (l := .number c) (.number c) nofun

theorem writes_keyword (word : Keyword) : Writes word.text [.keyword word true] :=
  writes_token (l := .keyword word true) (.keyword word) nofun

theorem Writes.number (h : Writes text ls) (c : ℤ)
    (hend : ∀ a ∈ text.toList.head?, Text.isDigit a = false) :
    Writes (toString c ++ text) (.number c :: ls) :=
  h.cons (l := .number c) (.number c) (fun a ha => by simp [Lexeme.endsBefore, hend a ha])
    fun _ => nofun

theorem Writes.markBefore (h : Writes text ls) (m : Mark) (hm : m ≠ .caret ∧ m ≠ .slash)
    (hend : ∀ a ∈ text.toList.head?, (Lexeme.mark m).endsBefore a = true) :
    Writes (m.text ++ text) (.mark m :: ls) :=
  h.cons (l := .mark m) (.mark hm.1) hend fun _ hl => hm.2 (Lexeme.mark.inj hl)

theorem Writes.leftParen (h : Writes text ls) : Writes ("(" ++ text) (.mark .leftParen :: ls) :=
  h.markBefore .leftParen (by decide) fun _ _ => rfl

theorem Writes.leftBracket (h : Writes text ls) : Writes ("[" ++ text) (.mark .leftBracket :: ls) :=
  h.markBefore .leftBracket (by decide) fun _ _ => rfl

theorem Writes.star (h : Writes text ls) : Writes ("*" ++ text) (.mark .star :: ls) :=
  h.markBefore .star (by decide) fun _ _ => rfl

theorem separated_rightParen : Separated ")" := by simp [Separated, isSeparator]

theorem separated_rightBracket : Separated "]" := by simp [Separated, isSeparator]

theorem Writes.inParens (h : Writes text ls) :
    Writes ("(" ++ (text ++ ")")) (.mark .leftParen :: (ls ++ [.mark .rightParen])) :=
  (h.append (writes_token (l := .mark .rightParen) (.mark nofun) nofun)
    separated_rightParen).leftParen

theorem Writes.inBrackets (h : Writes text ls) :
    Writes ("[" ++ (text ++ "]")) (.mark .leftBracket :: (ls ++ [.mark .rightBracket])) :=
  (h.append (writes_token (l := .mark .rightBracket) (.mark nofun) nofun)
    separated_rightBracket).leftBracket

theorem separated_blank (text : String) : Separated (" " ++ text) := by
  rw [Separated, String.toList_append]
  rintro a ⟨⟩
  rfl

theorem Writes.spaced {sign : String} (h : Writes text ls) (hl : l.Written)
    (hsign : sign = " " ++ l.text ++ " ") : Writes (sign ++ text) (l :: ls) := by
  rw [hsign, String.append_assoc, String.append_assoc]
  refine (h.blank.cons hl (fun a ha => ?_) fun hempty => ?_).blank
  · rw [String.toList_append] at ha
    obtain ⟨⟩ := ha
    exact hl.endsBefore_blank
  · have := congrArg String.toList hempty
    rw [String.toList_append] at this
    cases this

theorem Writes.plus (h : Writes text ls) : Writes (" + " ++ text) (.mark .plus :: ls) :=
  h.spaced (.mark nofun) rfl

theorem Writes.minus (h : Writes text ls) : Writes (" - " ++ text) (.mark .minus :: ls) :=
  h.spaced (.mark nofun) rfl

theorem Writes.between {sign : String} (h : Writes text ls) (h' : Writes text' ls')
    (hl : l.Written) (hsign : sign = " " ++ l.text ++ " ") :
    Writes (text ++ (sign ++ text')) (ls ++ l :: ls') := by
  refine h.append (h'.spaced hl hsign) ?_
  rw [hsign, String.append_assoc, String.append_assoc]
  exact separated_blank _

theorem Writes.spells (h : Writes text ls) : Spells text.toList (ls ++ [.endOfInput]) := by
  simpa using h [] [.endOfInput] (by simp) .done

end Writes

end Quasiaffine

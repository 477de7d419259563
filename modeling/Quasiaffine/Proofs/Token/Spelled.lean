import Mathlib
import Quasiaffine.Proofs.Token.Scanning

set_option autoImplicit false

namespace Quasiaffine.Lexeme

/-- What token a piece of text spells. -/
inductive Spelled : Lexeme → List Char → Prop
  | natural {digits : List Char} (hne : digits ≠ []) (h : ∀ c ∈ digits, Text.isDigit c = true) :
      Spelled (number (Nat.ofDigitChars 10 digits 0)) digits
  | negative {digits : List Char} (hne : digits ≠ []) (h : ∀ c ∈ digits, Text.isDigit c = true) :
      Spelled (number (-Nat.ofDigitChars 10 digits 0)) ('-' :: digits)
  | string {contents : String} (h : '"' ∉ contents.toList ∧ '\n' ∉ contents.toList) :
      Spelled (string contents) ('"' :: (contents.toList ++ ['"']))
  | identifier {name : String} (h : IsWord name.toList) (hk : Keyword.ofText? name = none) :
      Spelled (identifier name) name.toList
  | keyword (word : Keyword) : Spelled (keyword word true) word.text.toList
  | both : Spelled (keyword .and false) ['&', '&']
  | either : Spelled (keyword .or false) ['|', '|']
  | negation : Spelled (keyword .not false) ['!']
  | mark (m : Mark) : Spelled (mark m) m.text.toList
  | doubleEq : Spelled (mark .eq) ['=', '=']
  | endOfInput : Spelled endOfInput []

variable {c : Char} {l : Lexeme} {text : List Char}

theorem spelled_scanNumber (hne : text.takeWhile Text.isDigit ≠ []) :
    (scanNumber [] text).result = .ok l → Spelled l (scanNumber [] text).taken := by
  rintro ⟨⟩
  exact .natural hne fun a ha => List.mem_takeWhile_imp ha

theorem spelled_scanNumber_minus (hne : text.takeWhile Text.isDigit ≠ []) :
    (scanNumber ['-'] text).result = .ok l → Spelled l (scanNumber ['-'] text).taken := by
  rintro ⟨⟩
  exact .negative hne fun a ha => List.mem_takeWhile_imp ha

theorem spelled_ofWord {word : List Char} (h : IsWord word) :
    Spelled (ofWord (String.ofList word)) word := by
  unfold ofWord
  split
  · rename_i k hk
    have htext := List.find?_some hk
    rw [beq_iff_eq] at htext
    have := Spelled.keyword k
    rwa [htext, String.toList_ofList] at this
  · rename_i hk
    have hname := String.toList_ofList (l := word)
    have := Spelled.identifier (hname.symm ▸ h) hk
    rwa [hname] at this

theorem isWord_scanWord (hc : Text.isIdentifierStart c = true) :
    IsWord (scanWord c text).taken := by
  refine ⟨c, text.takeWhile Text.isIdentifierContinue,
    (text.dropWhile Text.isIdentifierContinue).takeWhile (· == '\''), rfl, hc,
    fun a ha => List.mem_takeWhile_imp ha, fun a ha => ?_⟩
  simpa using List.mem_takeWhile_imp ha

theorem spelled_scanString (h : (scanString text).result = .ok l) :
    Spelled l (scanString text).taken := by
  unfold scanString at h ⊢
  split at h
  · cases h
  · rename_i b rest hrest
    split_ifs at h with hb
    subst hb
    cases h
    have hall : ∀ a ∈ text.takeWhile isStringCharacter, a ≠ '"' ∧ a ≠ '\n' := fun a ha => by
      simpa [isStringCharacter] using List.mem_takeWhile_imp ha
    have hcontents := String.toList_ofList (l := text.takeWhile isStringCharacter)
    have hnone : '"' ∉ text.takeWhile isStringCharacter ∧ '\n' ∉ text.takeWhile isStringCharacter :=
      ⟨fun h => (hall _ h).1 rfl, fun h => (hall _ h).2 rfl⟩
    rw [← hcontents] at hnone
    have := Spelled.string hnone
    rwa [hcontents] at this

theorem spelled_operators : ∀ operator ∈ operators, Spelled operator.2 operator.1 := by
  have hmark : ∀ m : Mark, ∀ cs, m.text.toList = cs → Spelled (.mark m) cs := by
    rintro m cs rfl
    exact .mark m
  simp only [operators, List.forall_mem_cons]
  and_intros
  any_goals exact hmark _ _ rfl
  exacts [.doubleEq, .both, .either, .negation, by simp]

theorem spelled_scanOperator (h : (scanOperator c text).result = .ok l) :
    Spelled l (scanOperator c text).taken := by
  unfold scanOperator at h ⊢
  split at h
  · rename_i operator ho
    cases h
    exact spelled_operators operator (List.mem_of_find?_eq_some ho)
  · cases h

/-- A scan takes a text that spells the token it gives. -/
theorem spelled_scan (h : (scan text).result = .ok l) : Spelled l (scan text).taken := by
  cases text with
  | nil =>
    cases h
    exact .endOfInput
  | cons c text =>
    rw [scan] at h ⊢
    split_ifs at h ⊢ with hdigit hminus hquote hstart
    · exact spelled_scanNumber (by simp [hdigit]) h
    · obtain ⟨-, hd⟩ := hminus
      cases text with
      | nil => simp at hd
      | cons d text => exact spelled_scanNumber_minus (by simpa using hd) h
    · exact spelled_scanString h
    · cases h
      exact spelled_ofWord (isWord_scanWord hstart)
    · exact spelled_scanOperator h

theorem IsWord.newline_not_mem (h : IsWord text) : '\n' ∉ text := by
  obtain ⟨c, body, primes, rfl, hc, hbody, hprimes⟩ := h.parts
  simp only [List.mem_cons, List.mem_append, not_or]
  refine ⟨?_, fun h => absurd (hbody _ h) (by decide), fun h => absurd (hprimes _ h) (by decide)⟩
  rintro rfl
  exact absurd hc (by decide)

theorem Spelled.newline_not_mem (h : Spelled l text) : '\n' ∉ text := by
  have hdigits : ∀ digits : List Char, (∀ c ∈ digits, Text.isDigit c = true) → '\n' ∉ digits :=
    fun _ h hmem => absurd (h _ hmem) (by decide)
  cases h with
  | natural _ h => exact hdigits _ h
  | negative _ h => simpa using hdigits _ h
  | string h => simpa using h.2
  | identifier h => exact h.newline_not_mem
  | keyword word => exact (isWord_keyword word).newline_not_mem
  | mark m => cases m <;> decide
  | _ => decide

end Quasiaffine.Lexeme

import Mathlib
import Quasiaffine.Token.Stream

set_option autoImplicit false

namespace Quasiaffine

def IsName (name : String) : Prop :=
  Lexeme.scan name.toList = ⟨.ok (.identifier name), name.toList, []⟩

namespace Lexeme

def endsBefore (l : Lexeme) (c : Char) : Bool :=
  match l with
  | number _ => !Text.isDigit c
  | identifier _ | keyword _ _ => !Text.isIdentifierContinue c && c != '\''
  | mark .minus => c != '>' && !Text.isDigit c
  | mark .eq | mark .lt | mark .gt => c != '='
  | mark .pipe => c != '|'
  | mark .slash => c != '/' && c != '*'
  | _ => true

inductive Written : Lexeme → Prop
  | number (v : Int) : Written (number v)
  | identifier {name : String} (h : IsName name) : Written (identifier name)
  | keyword (word : Keyword) : Written (keyword word true)
  | mark {m : Mark} (h : m ≠ .caret) : Written (mark m)

section Words

variable {c : Char} {text body primes rest : List Char}

theorem takeWhile_append_stop {p : Char → Bool} {as bs : List Char} (ha : ∀ a ∈ as, p a = true)
    (hb : ∀ b ∈ bs.head?, p b = false) :
    (as ++ bs).takeWhile p = as ∧ (as ++ bs).dropWhile p = bs := by
  induction as with
  | nil =>
    cases bs with
    | nil => exact ⟨rfl, rfl⟩
    | cons b bs =>
      have := hb b rfl
      constructor <;> simp [this]
  | cons a as ih =>
    rw [List.forall_mem_cons] at ha
    simpa [List.takeWhile_cons, List.dropWhile_cons, ha.1] using ih ha.2

structure IsWord (word : List Char) : Prop where
  parts : ∃ c body primes, word = c :: (body ++ primes) ∧ Text.isIdentifierStart c = true ∧
    (∀ a ∈ body, Text.isIdentifierContinue a = true) ∧ ∀ a ∈ primes, a = '\''

theorem isIdentifierContinue_prime : Text.isIdentifierContinue '\'' = false := by decide

theorem not_isDigit_of_isIdentifierStart (h : Text.isIdentifierStart c = true) :
    Text.isDigit c = false := by
  by_contra hd
  rw [Bool.not_eq_false] at hd
  simp only [Text.isDigit, Bool.and_eq_true, decide_eq_true_eq, Char.le_def] at hd
  have h₁ : ('0' : Char).val.toNat ≤ c.val.toNat := UInt32.le_iff_toNat_le.1 hd.1
  have h₂ : c.val.toNat ≤ ('9' : Char).val.toNat := UInt32.le_iff_toNat_le.1 hd.2
  have h₃ : ('0' : Char).val.toNat = 48 := rfl
  have h₄ : ('9' : Char).val.toNat = 57 := rfl
  have hc : c.toNat = c.val.toNat := rfl
  rw [Text.isIdentifierStart, if_pos (by omega)] at h
  simp only [Text.isLetter, Bool.or_eq_true, Bool.and_eq_true, decide_eq_true_eq, Char.le_def,
    UInt32.le_iff_toNat_le, beq_iff_eq] at h
  have h₅ : ('a' : Char).val.toNat = 97 := rfl
  have h₆ : ('A' : Char).val.toNat = 65 := rfl
  have h₇ : ('_' : Char).val.toNat = 95 := rfl
  rcases h with (h | h) | h
  · omega
  · omega
  · rw [h] at h₂
    omega

theorem scan_word (rest : List Char) {word : List Char} (h : IsWord word)
    (hr : ∀ a ∈ rest.head?, Text.isIdentifierContinue a = false ∧ a ≠ '\'') :
    scan (word ++ rest) = ⟨.ok (ofWord (String.ofList word)), word, rest⟩ := by
  obtain ⟨c, body, primes, rfl, hc, hbody, hprimes⟩ := h.parts
  have hstop : ∀ a ∈ (primes ++ rest).head?, Text.isIdentifierContinue a = false := by
    cases primes with
    | nil => exact fun a ha => (hr a ha).1
    | cons p primes =>
      rw [List.forall_mem_cons] at hprimes
      simpa [hprimes.1] using isIdentifierContinue_prime
  have hbody := takeWhile_append_stop hbody hstop
  have hprimes := takeWhile_append_stop (p := (· == '\''))
    (fun a ha => beq_iff_eq.2 (hprimes a ha)) fun a ha => beq_eq_false_iff_ne.2 (hr a ha).2
  have hdigit := not_isDigit_of_isIdentifierStart hc
  have hminus : c ≠ '-' := by
    rintro rfl
    revert hc
    decide
  have hquote : c ≠ '"' := by
    rintro rfl
    revert hc
    decide
  rw [List.cons_append, List.append_assoc, scan, if_neg (by simp [hdigit]),
    if_neg fun h => hminus h.1, if_neg hquote, if_pos hc, scanWord, hbody.1, hbody.2, hprimes.1,
    hprimes.2]

theorem ofWord_eq_identifier {word name : String} (h : ofWord word = identifier name) :
    word = name := by
  unfold ofWord at h
  split at h
  · cases h
  · exact identifier.inj h

theorem isWord_of_scan {name : String} {text : List Char}
    (h : (scan text).result = .ok (identifier name)) :
    IsWord name.toList ∧ ofWord name = identifier name := by
  cases text with
  | nil => simp [scan] at h
  | cons c text =>
    rw [scan] at h
    split at h
    · simp [scanNumber] at h
    split at h
    · simp [scanNumber] at h
    split at h
    · unfold scanString at h
      split at h
      · cases h
      · split_ifs at h
        simp at h
    split at h
    · rename_i hc
      have hword := Except.ok.inj h
      obtain rfl := ofWord_eq_identifier hword
      refine ⟨?_, hword⟩
      rw [String.toList_ofList]
      refine ⟨c, text.takeWhile Text.isIdentifierContinue,
        (text.dropWhile Text.isIdentifierContinue).takeWhile (· == '\''), rfl, hc,
        fun a ha => List.mem_takeWhile_imp ha, fun a ha => ?_⟩
      simpa using List.mem_takeWhile_imp ha
    · unfold scanOperator at h
      split at h
      · rename_i operator ho
        have hkind : ∀ operator ∈ operators, operator.2 ≠ identifier name := by
          simp [operators]
        exact absurd (Except.ok.inj h) (hkind operator (List.mem_of_find?_eq_some ho))
      · cases h

theorem isWord_of_isName {name : String} (h : IsName name) : IsWord name.toList :=
  (isWord_of_scan (congrArg Scan.result h)).1

theorem isName_of_scan {name : String} {text : List Char}
    (h : (scan text).result = .ok (identifier name)) : IsName name := by
  obtain ⟨hword, hname⟩ := isWord_of_scan h
  have hself := scan_word [] hword (by simp)
  rwa [List.append_nil, String.ofList_toList, hname] at hself

theorem scan_name {name : String} (h : IsName name)
    (hr : ∀ a ∈ rest.head?, Text.isIdentifierContinue a = false ∧ a ≠ '\'') :
    scan (name.toList ++ rest) = ⟨.ok (identifier name), name.toList, rest⟩ := by
  have hword := isWord_of_isName h
  have hself := scan_word [] hword (by simp)
  rw [List.append_nil, h, Scan.mk.injEq, Except.ok.injEq] at hself
  rw [scan_word rest hword hr, ← hself.1]

theorem isIdentifierStart_of_isLetter (h : Text.isLetter c = true) :
    Text.isIdentifierStart c = true := by
  have hc : c.toNat < 128 := by
    simp only [Text.isLetter, Bool.or_eq_true, Bool.and_eq_true, decide_eq_true_eq, Char.le_def,
      UInt32.le_iff_toNat_le] at h
    have h₁ : ('z' : Char).val.toNat = 122 := rfl
    have h₂ : ('Z' : Char).val.toNat = 90 := rfl
    have h₃ : c.toNat = c.val.toNat := rfl
    omega
  rw [Text.isIdentifierStart, if_pos hc, h, Bool.true_or]

theorem isWord_keyword (k : Keyword) : IsWord k.text.toList := by
  have hletters : k.text.toList ≠ [] ∧ ∀ a ∈ k.text.toList, Text.isLetter a = true := by
    cases k <;> simp [Keyword.text, Text.isLetter]
  obtain ⟨c, body, hword⟩ := List.exists_cons_of_ne_nil hletters.1
  rw [hword] at hletters ⊢
  rw [List.forall_mem_cons] at hletters
  exact ⟨c, body, [], by simp, isIdentifierStart_of_isLetter hletters.2.1, fun a ha =>
    Text.isIdentifierContinue_of_start (isIdentifierStart_of_isLetter (hletters.2.2 a ha)), by simp⟩

theorem scan_keyword (k : Keyword)
    (hr : ∀ a ∈ rest.head?, Text.isIdentifierContinue a = false ∧ a ≠ '\'') :
    scan (k.text.toList ++ rest) = ⟨.ok (keyword k true), k.text.toList, rest⟩ := by
  rw [scan_word rest (isWord_keyword k) hr, String.ofList_toList, ofWord, Keyword.ofText?_text]

end Words

section Numbers

variable {rest : List Char}

theorem isDigit_of_isDigit {c : Char} (h : c.isDigit = true) : Text.isDigit c = true := by
  simpa [Char.isDigit, Text.isDigit, Char.le_def] using h

theorem scanNumber_digits (sign : List Char) (n : Nat)
    (hr : ∀ a ∈ rest.head?, Text.isDigit a = false) :
    scanNumber sign (Nat.toDigits 10 n ++ rest) =
      ⟨.ok (number (if sign.isEmpty then (n : Int) else -n)), sign ++ Nat.toDigits 10 n, rest⟩ := by
  have hdigits : ∀ a ∈ Nat.toDigits 10 n, Text.isDigit a = true := fun a ha =>
    isDigit_of_isDigit (Nat.isDigit_of_mem_toDigits (by decide) (by decide) ha)
  have hsplit := takeWhile_append_stop hdigits hr
  have hvalue : digitsValue (Nat.toDigits 10 n) = n := Nat.ofDigitChars_ten_toDigits
  rw [scanNumber, hsplit.1, hsplit.2, hvalue]

theorem scan_number (v : Int) (hr : ∀ a ∈ rest.head?, Text.isDigit a = false) :
    scan ((toString v).toList ++ rest) = ⟨.ok (number v), (toString v).toList, rest⟩ := by
  have hdigits : ∀ n : Nat, ∃ c text, Nat.toDigits 10 n = c :: text ∧ Text.isDigit c = true := by
    intro n
    obtain ⟨c, text, h⟩ := List.exists_cons_of_ne_nil (Nat.toDigits_ne_nil (n := n) (b := 10))
    exact ⟨c, text, h, isDigit_of_isDigit (Nat.isDigit_of_mem_toDigits (b := 10) (n := n) (by decide)
      (by decide) (h ▸ List.mem_cons_self))⟩
  rw [Int.toString_eq_repr, Int.repr_eq_if]
  split
  · rename_i hv
    obtain ⟨c, text, hdig, hc⟩ := hdigits v.toNat
    have hscan := scanNumber_digits [] v.toNat hr
    rw [Nat.toList_repr]
    rw [hdig] at hscan ⊢
    rw [List.cons_append] at hscan ⊢
    rw [scan, if_pos hc, hscan]
    simp [Int.toNat_of_nonneg hv]
  · rename_i hv
    obtain ⟨c, text, hdig, hc⟩ := hdigits (-v).toNat
    have hscan := scanNumber_digits ['-'] (-v).toNat hr
    have hlist : ("-" ++ (-v).toNat.repr).toList = '-' :: Nat.toDigits 10 (-v).toNat := by
      rw [String.toList_append, Nat.toList_repr]
      rfl
    rw [hlist]
    rw [hdig] at hscan ⊢
    rw [List.cons_append, List.cons_append] at *
    rw [scan, if_neg (by decide), if_pos ⟨rfl, by simpa using hc⟩, hscan]
    have : ((-v).toNat : Int) = -v := Int.toNat_of_nonneg (by omega)
    simp [this]

end Numbers

section Marks

variable {c : Char} {rest : List Char}

theorem scan_operator {text : List Char} (hdigit : Text.isDigit c = false)
    (hminus : c = '-' → ∀ a ∈ text.head?, Text.isDigit a = false) (hquote : c ≠ '"')
    (hstart : Text.isIdentifierStart c = false) : scan (c :: text) = scanOperator c text := by
  have hno : ¬(c = '-' ∧ text.head?.any Text.isDigit) := by
    rintro ⟨hc, ht⟩
    cases text with
    | nil => simp at ht
    | cons a text => simp [hminus hc a rfl] at ht
  rw [scan, if_neg (by simp [hdigit]), if_neg hno, if_neg hquote, if_neg (by simp [hstart])]

theorem firstCharacter_mark {m : Mark} {text : List Char} (h : m.text.toList = c :: text) :
    Text.isDigit c = false ∧ c ≠ '"' ∧ Text.isIdentifierStart c = false ∧
      (c = '-' → m = .minus ∧ text = [] ∨ text = ['>']) := by
  cases m <;> simp only [Mark.text, String.reduceToList, List.cons.injEq] at h <;>
    obtain ⟨rfl, rfl⟩ := h <;> decide

theorem scanOperator_mark {m : Mark} {text : List Char} (h : m.text.toList = c :: text)
    (hr : ∀ a ∈ rest.head?, (mark m).endsBefore a = true) :
    scanOperator c (text ++ rest) = ⟨.ok (mark m), c :: text, rest⟩ := by
  cases rest with
  | nil =>
    cases m <;> simp only [Mark.text, String.reduceToList, List.cons.injEq] at h <;>
      obtain ⟨rfl, rfl⟩ := h <;> rfl
  | cons a rest =>
    have hr : (mark m).endsBefore a = true := hr a rfl
    have hne : ∀ b : Char, a ≠ b → (b == a) = false := fun b h => beq_eq_false_iff_ne.2 h.symm
    cases m <;> simp only [Mark.text, String.reduceToList, List.cons.injEq] at h <;>
      obtain ⟨rfl, rfl⟩ := h
    case minus | eq | lt | gt | pipe | slash =>
      simp only [endsBefore, bne_iff_ne, Bool.and_eq_true] at hr
      simp [scanOperator, operators, List.isPrefixOf, hne, hr]
    all_goals simp [scanOperator, operators, List.isPrefixOf]

theorem scan_mark {m : Mark} (hr : ∀ a ∈ rest.head?, (mark m).endsBefore a = true) :
    scan (m.text.toList ++ rest) = ⟨.ok (mark m), m.text.toList, rest⟩ := by
  obtain ⟨c, text, htext⟩ := List.exists_cons_of_ne_nil (l := m.text.toList) (by cases m <;> decide)
  obtain ⟨hdigit, hquote, hstart, hminus⟩ := firstCharacter_mark htext
  rw [htext, List.cons_append, scan_operator hdigit (fun hc => ?_) hquote hstart,
    scanOperator_mark htext hr]
  rcases hminus hc with ⟨rfl, rfl⟩ | rfl
  · exact fun a ha => by simpa [endsBefore] using (Bool.and_eq_true_iff.1 (hr a ha)).2
  · simp [Text.isDigit]

end Marks

section Gaps

variable {c : Char} {text rest : List Char}

theorem skipped_eq_nil (hblank : Text.isBlank c = false) (hhash : c ≠ '#')
    (hslash : c = '/' → ∀ a ∈ text.head?, a ≠ '/' ∧ a ≠ '*') :
    Gap.skipped .blank (c :: text) = [] := by
  rw [Gap.skipped, hblank, if_neg (by decide), if_neg, if_neg]
  · exact fun h => (hslash h.1 _ h.2).2 rfl
  · rintro (h | h)
    · exact hhash h
    · exact (hslash h.1 _ h.2).1 rfl

def blankRanges : List (Nat × Nat) :=
  [(0x85, 0x85), (0xA0, 0xA0), (0x1680, 0x1680), (0x2000, 0x200A), (0x2028, 0x2029),
    (0x202F, 0x202F), (0x205F, 0x205F), (0x3000, 0x3000)]

theorem disjoint_blankRanges : (Text.identifierStartRanges.toList.all fun r =>
    blankRanges.all fun b => r.2 < b.1 || b.2 < r.1) = true := by
  decide +kernel

theorem not_isBlank_of_isIdentifierStart (h : Text.isIdentifierStart c = true) :
    Text.isBlank c = false := by
  by_contra hb
  simp only [Bool.not_eq_false, Text.isBlank, Bool.or_eq_true, Bool.and_eq_true, decide_eq_true_eq,
    beq_iff_eq] at hb
  rw [Text.isIdentifierStart] at h
  split at h
  · simp only [Text.isLetter, Bool.or_eq_true, Bool.and_eq_true, decide_eq_true_eq, Char.le_def,
      UInt32.le_iff_toNat_le, beq_iff_eq] at h
    have h₁ : ('a' : Char).val.toNat = 97 := rfl
    have h₂ : ('A' : Char).val.toNat = 65 := rfl
    have h₃ : ('_' : Char).toNat = 95 := rfl
    have h₄ : c.toNat = c.val.toNat := rfl
    rcases h with (h | h) | rfl <;> omega
  · obtain ⟨range, hrange, hin⟩ : ∃ range ∈ Text.identifierStartRanges.toList,
        range.1 ≤ c.toNat ∧ c.toNat ≤ range.2 := by
      rw [Text.inRanges, ← Array.any_toList, List.any_eq_true] at h
      simpa using h
    have hout := List.all_eq_true.1 disjoint_blankRanges range hrange
    simp only [blankRanges, List.all_cons, List.all_nil, Bool.and_true, Bool.and_eq_true,
      Bool.or_eq_true, decide_eq_true_eq] at hout
    omega

theorem skipped_word {word : List Char} (h : IsWord word) :
    Gap.skipped .blank (word ++ rest) = [] := by
  obtain ⟨c, body, primes, rfl, hc, -, -⟩ := h.parts
  refine skipped_eq_nil (not_isBlank_of_isIdentifierStart hc) ?_ ?_ <;> rintro rfl <;>
    exact absurd hc (by decide)

theorem skipped_digits {n : Nat} : Gap.skipped .blank (Nat.toDigits 10 n ++ rest) = [] := by
  obtain ⟨c, text, h⟩ := List.exists_cons_of_ne_nil (Nat.toDigits_ne_nil (n := n) (b := 10))
  have hc : c.isDigit = true :=
    Nat.isDigit_of_mem_toDigits (b := 10) (n := n) (by decide) (by decide) (h ▸ List.mem_cons_self)
  simp only [Char.isDigit, Bool.and_eq_true, decide_eq_true_eq, ge_iff_le,
    UInt32.le_iff_toNat_le] at hc
  have h₁ : ('0' : Char).val.toNat = 48 := rfl
  have h₂ : ('9' : Char).val.toNat = 57 := rfl
  have h₃ : c.toNat = c.val.toNat := rfl
  rw [h, List.cons_append]
  refine skipped_eq_nil ?_ ?_ ?_
  · simp [Text.isBlank]
    omega
  · rintro rfl
    revert hc
    decide
  · rintro rfl
    exact absurd hc (by decide)

theorem skipped_number (v : Int) : Gap.skipped .blank ((toString v).toList ++ rest) = [] := by
  rw [Int.toString_eq_repr, Int.repr_eq_if]
  split
  · rw [Nat.toList_repr]
    exact skipped_digits
  · rw [String.toList_append]
    exact skipped_eq_nil (c := '-') (by decide) (by decide) fun h => absurd h (by decide)

theorem skipped_mark {m : Mark} (hr : ∀ a ∈ rest.head?, (mark m).endsBefore a = true) :
    Gap.skipped .blank (m.text.toList ++ rest) = [] := by
  obtain ⟨c, text, htext⟩ := List.exists_cons_of_ne_nil (l := m.text.toList) (by cases m <;> decide)
  rw [htext, List.cons_append]
  cases m <;> simp only [Mark.text, String.reduceToList, List.cons.injEq] at htext <;>
    obtain ⟨rfl, rfl⟩ := htext <;> refine skipped_eq_nil (by decide) (by decide) ?_
  case slash => simpa [endsBefore] using hr
  all_goals exact fun h => absurd h (by decide)

end Gaps

section Tokens

variable {l : Lexeme} {rest : List Char}

theorem Written.text_ne_nil (h : l.Written) : l.text.toList ≠ [] := by
  cases h with
  | number v =>
    intro hnil
    have := scan_number v (show ∀ a ∈ ([] : List Char).head?, Text.isDigit a = false by simp)
    simp_all [scan, text]
  | identifier h =>
    intro hnil
    obtain ⟨c, body, primes, hword, -⟩ := (isWord_of_isName h).parts
    simp_all [text]
  | keyword word => cases word <;> simp [text, kind, TokenKind.text, Keyword.text]
  | mark => rename_i m _; cases m <;> simp [text, kind, TokenKind.text, Mark.text]

/-- A token is cut off from what stands behind its text. -/
theorem Written.scan_eq (h : l.Written) (hr : ∀ a ∈ rest.head?, l.endsBefore a = true) :
    scan (l.text.toList ++ rest) = ⟨.ok l, l.text.toList, rest⟩ := by
  cases h with
  | number v => exact scan_number v fun a ha => by simpa [endsBefore] using hr a ha
  | identifier h => exact scan_name h fun a ha => by simpa [endsBefore] using hr a ha
  | keyword word => exact scan_keyword word fun a ha => by simpa [endsBefore] using hr a ha
  | mark => exact scan_mark hr

theorem Written.skipped_eq (h : l.Written) (hr : ∀ a ∈ rest.head?, l.endsBefore a = true) :
    Gap.skipped .blank (l.text.toList ++ rest) = [] := by
  cases h with
  | number v => exact skipped_number v
  | identifier h => exact skipped_word (isWord_of_isName h)
  | keyword word => exact skipped_word (isWord_keyword word)
  | mark => exact skipped_mark hr

end Tokens

end Lexeme

end Quasiaffine

import Mathlib
import Quasiaffine.Proofs.Token.Tiling

/-!
Cutting the texts of tokens again. The text of a token is cut into that token wherever a blank or
the end of the text stands behind it; a keyword that was an operator comes back as a word.
-/

set_option autoImplicit false

namespace Quasiaffine

namespace Lexeme

variable {l : Lexeme} {text rest : List Char}

def respelled : Lexeme → Lexeme
  | keyword word _ => keyword word true
  | l => l

theorem kind_respelled (l : Lexeme) : l.respelled.kind = l.kind := by cases l <;> rfl

theorem respelled_of_not_isKeyword (h : l.isKeyword = false) : l.respelled = l := by
  cases l with
  | keyword => cases h
  | _ => rfl

theorem toList_text_string (contents : String) :
    (string contents).text.toList = '"' :: (contents.toList ++ ['"']) := by
  simp [text]

theorem scan_string {contents : String} (h : '"' ∉ contents.toList ∧ '\n' ∉ contents.toList) :
    scan ((string contents).text.toList ++ rest) =
      ⟨.ok (string contents), (string contents).text.toList, rest⟩ := by
  have hall : ∀ a ∈ contents.toList, isStringCharacter a = true := fun a ha => by
    simp only [isStringCharacter, Bool.and_eq_true, bne_iff_ne]
    exact ⟨fun hc => h.1 (hc ▸ ha), fun hc => h.2 (hc ▸ ha)⟩
  have hquote : ∀ b ∈ ('"' :: rest).head?, isStringCharacter b = false := by
    simp [isStringCharacter]
  have hsplit := takeWhile_append_stop hall hquote
  rw [toList_text_string, List.cons_append, List.append_assoc, List.singleton_append, scan,
    if_neg (by decide), if_neg (by simp), if_pos rfl, scanString, hsplit.1]
  split
  · rename_i hnil
    simp [hsplit.2] at hnil
  · rename_i c behind hcons
    rw [hsplit.2] at hcons
    cases hcons
    simp [String.ofList_toList]

theorem mark_endsBefore_blank (m : Mark) : (mark m).endsBefore ' ' = true := by cases m <;> decide

/-- In front of a blank or the end of the text a token is cut off at the end of its own text. -/
theorem Spelled.scan_text (h : Spelled l text) (hl : l ≠ .endOfInput)
    (hrest : ∀ a ∈ rest.head?, a = ' ') :
    scan (l.text.toList ++ rest) = ⟨.ok l.respelled, l.text.toList, rest⟩ := by
  have hword : ∀ a ∈ rest.head?, Text.isIdentifierContinue a = false ∧ a ≠ '\'' := by
    rintro a ha
    rw [hrest a ha]
    decide
  have hdigit : ∀ a ∈ rest.head?, Text.isDigit a = false := by
    rintro a ha
    rw [hrest a ha]
    decide
  cases h with
  | natural | negative => exact scan_number _ hdigit
  | string h => exact scan_string h
  | @identifier name h hk =>
    have hname : ofWord name = .identifier name := by rw [ofWord, hk]
    have := scan_word rest h hword
    rwa [String.ofList_toList, hname] at this
  | keyword | both | either | negation => exact scan_keyword _ hword
  | mark | doubleEq => exact scan_mark fun a ha => hrest a ha ▸ mark_endsBefore_blank _
  | endOfInput => exact absurd rfl hl

/-- A token starts with the first character of its own text. -/
theorem Spelled.skipped_text (h : Spelled l text) (hl : l ≠ .endOfInput)
    (hrest : ∀ a ∈ rest.head?, a = ' ') : Gap.skipped .blank (l.text.toList ++ rest) = [] := by
  cases h with
  | natural | negative => exact skipped_number _
  | @string contents =>
    rw [toList_text_string]
    exact skipped_eq_nil (by decide) (by decide) fun h => absurd h (by decide)
  | identifier h => exact skipped_word h
  | keyword | both | either | negation => exact skipped_word (isWord_keyword _)
  | mark | doubleEq => exact skipped_mark fun a ha => hrest a ha ▸ mark_endsBefore_blank _
  | endOfInput => exact absurd rfl hl

end Lexeme

namespace Cursor

variable {c d : Cursor} {t : Token} {ts : List Token}

def joined (ts : List Token) : String :=
  " ".intercalate ((ts.filter fun t => !t.isEnd).map (·.text))

theorem joined_cons (h : t.isEnd = false) (ts : List Token) : ∃ rest : List Char,
    (joined (t :: ts)).toList = t.text.toList ++ rest ∧
      (rest = (joined ts).toList ∧ rest = [] ∨ rest = ' ' :: (joined ts).toList) := by
  rw [joined, List.filter_cons, if_pos (by simp [h]), List.map_cons, joined]
  cases (ts.filter fun t => !t.isEnd).map (·.text) with
  | nil => exact ⟨[], by simp, .inl (by simp)⟩
  | cons text texts =>
    refine ⟨' ' :: (" ".intercalate (text :: texts)).toList, ?_, .inr rfl⟩
    rw [String.intercalate_cons_cons, String.toList_append, String.toList_append, List.append_assoc]
    rfl

theorem skipGap_rest_blank {text : List Char} (h : c.rest = text ∨ c.rest = ' ' :: text) :
    c.skipGap.rest = text.drop (Gap.skipped .blank text).length := by
  rcases h with h | h
  · rw [skipGap, h]
  · rw [skipGap, h, Gap.skipped, if_pos (by decide)]
    rfl

theorem next_of_scan {l : Lexeme} {taken rest : List Char}
    (h : Lexeme.scan c.skipGap.rest = ⟨.ok l, taken, rest⟩) :
    ∃ t d, c.next = (.ok t, d) ∧ t.lexeme = l ∧ d.rest = rest := by
  rw [next, h]
  exact ⟨_, _, rfl, rfl, rfl⟩

theorem Run.respell (h : c.Run ts) (hd : d.rest = (joined ts).toList ∨
    d.rest = ' ' :: (joined ts).toList) : ∃ ts', d.Run ts' ∧
      List.Forall₂ (fun t t' => t'.lexeme = t.lexeme.respelled) ts ts' := by
  induction h generalizing d with
  | @last c _ t hnext hend =>
    have hrest : d.skipGap.rest = [] := by
      rw [skipGap_rest_blank hd]
      simp [joined, hend]
    obtain ⟨t', d', hnext', hlexeme, -⟩ := next_of_scan (c := d) (by rw [hrest]; rfl)
    refine ⟨[t'], .last hnext' (isEnd_iff.2 hlexeme), .cons ?_ .nil⟩
    rw [hlexeme, isEnd_iff.1 hend]
    rfl
  | @step c c' t ts hnext hend hrun ih =>
    obtain ⟨rest, hjoined, hrest⟩ := joined_cons hend ts
    have hne : t.lexeme ≠ .endOfInput := fun h => by simp [isEnd_iff.2 h] at hend
    have hblank : ∀ a ∈ rest.head?, a = ' ' := by
      rcases hrest with ⟨-, rfl⟩ | rfl <;> simp
    have hspelled := next_spelled hnext
    have hscan := hspelled.scan_text hne hblank
    have hskip : d.skipGap.rest = t.lexeme.text.toList ++ rest := by
      rw [skipGap_rest_blank hd, hjoined, Token.text, hspelled.skipped_text hne hblank]
      rfl
    obtain ⟨t', d', hnext', hlexeme, hd'⟩ := next_of_scan (c := d) (by rw [hskip, hscan])
    obtain ⟨ts', hrun', hall⟩ := ih (d := d') (by rw [hd']; exact hrest.imp And.left id)
    refine ⟨t' :: ts', .step hnext' ?_ hrun', .cons hlexeme hall⟩
    rw [Token.isEnd, Token.kind, hlexeme, Lexeme.kind_respelled]
    exact hend

/-- The texts of the tokens of a source, put side by side with blanks between them, are cut into
tokens of the same kinds that say the same, except that a keyword is always a word. -/
theorem tokens_of_joined {source : String} {ts : List Token}
    (h : (Cursor.ofText source).tokens = .ok ts) :
    ∃ ts', (Cursor.ofText (joined ts)).tokens = .ok ts' ∧ ts'.length = ts.length ∧
      List.Forall₂ (fun t t' => t'.kind = t.kind ∧
        (t.lexeme.isKeyword = false → t'.lexeme = t.lexeme)) ts ts' := by
  obtain ⟨ts', hrun, hrespelled⟩ := (run_of_tokens h).respell (d := .ofText (joined ts)) (.inl rfl)
  refine ⟨ts', hrun.tokens_eq, hrespelled.length_eq.symm, hrespelled.imp fun t t' ht => ⟨?_, ?_⟩⟩
  · rw [Token.kind, ht, Lexeme.kind_respelled]
    rfl
  · exact fun hk => ht.trans (Lexeme.respelled_of_not_isKeyword hk)

/-- Operators next to each other, a string with signs of comments in it, a number with its sign. -/
theorem tokens_of_joined_operators :
    ∃ ts ts', (Cursor.ofText "a\x27&&!β||\"/*#\"==-3^2->min").tokens = .ok ts ∧
      joined ts = "a\x27 and not β or \"/*#\" = -3 ^ 2 -> min" ∧
      (Cursor.ofText "a\x27 and not β or \"/*#\" = -3 ^ 2 -> min").tokens = .ok ts' ∧
      ts'.length = 13 ∧ List.Forall₂ (fun t t' => t'.kind = t.kind ∧
        (t.lexeme.isKeyword = false → t'.lexeme = t.lexeme)) ts ts' := by
  have hsource : ((Cursor.ofText "a\x27&&!β||\"/*#\"==-3^2->min").tokens.toOption.any fun ts =>
      ts.length = 13 ∧ joined ts = "a\x27 and not β or \"/*#\" = -3 ^ 2 -> min") = true := by
    decide +kernel
  simp only [Option.any_eq_true, decide_eq_true_eq] at hsource
  obtain ⟨ts, hts, hlength, hjoined⟩ := hsource
  obtain ⟨ts', htokens, hsame, hall⟩ := tokens_of_joined (eq_ok_of_toOption hts)
  rw [hjoined] at htokens
  exact ⟨ts, ts', eq_ok_of_toOption hts, hjoined, htokens, hsame.trans hlength, hall⟩

end Cursor

end Quasiaffine

import Quasiaffine.Printer.Expression
import Quasiaffine.Proofs.Printer.Writing
import Quasiaffine.Proofs.Reader.Phrase

set_option autoImplicit false

namespace Quasiaffine.Printer

open Phrase

/-- The text of a column of a row, and its value at each point: a name in scope, or an expression in
brackets, which is rounded down. -/
inductive Column (F : Frame) : String → (Row → ℤ) → Prop
  | name {x : String} {pos : Nat} (hx : IsName x) (h : F.scope.position? x = some pos) :
      Column F x fun r => r.entry pos
  | floor {text : String} {ls : List Lexeme} {v : Row → ℚ} (hw : Writes text ls) (h : Sum F ls v) :
      Column F ("[" ++ (text ++ "]")) fun r => ⌊v r⌋

/-- Terms of a sum, each a multiple of a column that is not zero, and their sum at each point. -/
inductive Terms (F : Frame) : List (ℤ × String) → (Row → ℤ) → Prop
  | nil : Terms F [] fun _ => 0
  | cons {c : ℤ} {text : String} {u w : Row → ℤ} {ts : List (ℤ × String)} (hc : c ≠ 0)
      (h : Column F text u) (hs : Terms F ts w) : Terms F ((c, text) :: ts) fun r => c * u r + w r

variable {F : Frame} {text : String} {u w : Row → ℤ} {ts : List (ℤ × String)}

section Columns

theorem Column.operand (h : Column F text u) :
    ∃ ls, Writes text ls ∧ Operand F ls fun r => (u r : ℚ) := by
  cases h with
  | name hx h => exact ⟨_, writes_name hx, .name h⟩
  | floor hw h => exact ⟨_, hw.inBrackets, .floor h⟩

theorem Column.head (h : Column F text u) : ∃ a cs, text.toList = a :: cs ∧
    (a = '[' ∨ Text.isIdentifierStart a = true ∧ a ≠ '[') := by
  cases h with
  | name hx h =>
    obtain ⟨c, body, primes, hword, hc, -⟩ := (Lexeme.isWord_of_isName hx).parts
    refine ⟨c, _, hword, .inr ⟨hc, ?_⟩⟩
    rintro rfl
    revert hc
    decide
  | floor => exact ⟨'[', _, String.toList_append, .inl rfl⟩

theorem Column.ne_empty (h : Column F text u) : text ≠ "" := by
  rintro rfl
  obtain ⟨a, cs, htext, -⟩ := h.head
  cases htext

theorem Column.minus_endsBefore (h : Column F text u) :
    ∀ a ∈ text.toList.head?, (Lexeme.mark .minus).endsBefore a = true := by
  obtain ⟨a, cs, htext, ha⟩ := h.head
  rw [htext]
  rintro b ⟨⟩
  rcases ha with rfl | ⟨ha, -⟩
  · decide
  · have hdigit := Lexeme.not_isDigit_of_isIdentifierStart ha
    have hne : a ≠ '>' := by
      rintro rfl
      revert ha
      decide
    simp [Lexeme.endsBefore, hdigit, hne]

def behindNumber (text : String) : String :=
  if text.toList.head? = some '[' then "*" ++ text else text

theorem termText_of_natAbs_ne_one {c : ℤ} (hc : c.natAbs ≠ 1) (text : String) :
    termText c text = toString (c.natAbs : ℤ) ++ behindNumber text := by
  rw [termText, if_neg hc, behindNumber]
  split
  · exact String.append_assoc ..
  · rfl

theorem Column.behindNumber_head (h : Column F text u) :
    ∀ a ∈ (behindNumber text).toList.head?, Text.isDigit a = false := by
  obtain ⟨a, cs, htext, ha⟩ := h.head
  rw [behindNumber]
  rcases ha with rfl | ⟨ha, hne⟩
  · have hstar : ("*" ++ text).toList = '*' :: text.toList := String.toList_append
    rw [htext, if_pos (by rfl), hstar]
    rintro b ⟨⟩
    decide
  · rw [if_neg (by simp [htext, hne]), htext]
    rintro b ⟨⟩
    exact Lexeme.not_isDigit_of_isIdentifierStart ha

theorem Column.multiple (h : Column F text u) (c : ℤ) :
    ∃ ls, Writes (toString c ++ behindNumber text) ls ∧ Term F ls fun r => c * (u r : ℚ) := by
  have hend := h.behindNumber_head
  cases h with
  | name hx h =>
    have hhead : behindNumber text = text := by
      obtain ⟨a, body, primes, hword, ha, -⟩ := (Lexeme.isWord_of_isName hx).parts
      rw [behindNumber, if_neg]
      rw [hword]
      rintro ⟨⟩
      revert ha
      decide
    rw [hhead] at hend ⊢
    exact ⟨_, (writes_name hx).number c hend, .juxtaposed c (.operand (.name h))⟩
  | @floor inner ls₀ v hw h =>
    have hhead : ("[" ++ (inner ++ "]")).toList.head? = some '[' := by
      rw [String.toList_append]
      rfl
    have hstar := hw.inBrackets.star
    rw [behindNumber, if_pos hhead] at hend ⊢
    exact ⟨_, hstar.number c hend, .factor (.scaled c (.operand (.floor h)))⟩

theorem Column.term (h : Column F text u) (c : ℤ) :
    ∃ ls, Writes (termText c text) ls ∧ Term F ls fun r => |(c : ℚ)| * u r := by
  by_cases hc : c.natAbs = 1
  · obtain ⟨ls, hls, hoperand⟩ := h.operand
    refine ⟨ls, by rwa [termText, if_pos hc], ?_⟩
    have habs : |(c : ℚ)| = 1 := by
      rw [← Int.cast_abs, Int.abs_eq_natAbs, hc]
      rfl
    simpa [habs] using Term.factor (.operand hoperand)
  · rw [termText_of_natAbs_ne_one hc, ← Int.cast_abs, Int.abs_eq_natAbs]
    exact h.multiple _

theorem toString_of_neg {c : ℤ} (hc : c < 0) : toString c = "-" ++ toString (c.natAbs : ℤ) := by
  rw [Int.toString_eq_repr, Int.repr_eq_if, if_neg (by omega), Int.toString_eq_repr,
    Int.repr_eq_if, if_pos (by omega), Int.toNat_natCast, show (-c).toNat = c.natAbs by omega]

def leadText (c : ℤ) (text : String) : String := (if c < 0 then "-" else "") ++ termText c text

theorem Column.lead (h : Column F text u) (c : ℤ) : ∃ ls, Writes (leadText c text) ls ∧
    ∀ ls' (w : Row → ℚ), More F ls' w → Summands F (ls ++ ls') (fun r => c * (u r : ℚ)) w := by
  by_cases hc : 0 ≤ c
  · obtain ⟨ls, hls, hterm⟩ := h.term c
    rw [leadText, if_neg (by omega), String.empty_append]
    refine ⟨ls, hls, fun ls' w hm => ?_⟩
    rw [abs_of_nonneg (Int.cast_nonneg hc)] at hterm
    exact .term hterm hm
  · rw [leadText, if_pos (by omega)]
    by_cases hone : c.natAbs = 1
    · obtain ⟨ls, hls, hoperand⟩ := h.operand
      rw [termText, if_pos hone]
      refine ⟨.mark .minus :: ls, hls.markBefore .minus (by decide) h.minus_endsBefore,
        fun ls' w hm => ?_⟩
      have hneg := Summands.negated (.term (.factor (.operand hoperand)) hm)
      have hc : c = -1 := by omega
      simpa [hc] using hneg
    · obtain ⟨ls, hls, hterm⟩ := h.multiple c
      refine ⟨ls, ?_, fun ls' w hm => .term hterm hm⟩
      rwa [termText_of_natAbs_ne_one hone, ← String.append_assoc, ← toString_of_neg (by omega)]

end Columns

section Sums

def moreText (term : ℤ × String) : String :=
  (if term.1 < 0 then " - " else " + ") ++ termText term.1 term.2

def constantText (k : ℤ) : String :=
  if 0 < k then " + " ++ toString k else if k < 0 then " - " ++ toString (k.natAbs : ℤ) else ""

def restText (ts : List (ℤ × String)) (k : ℤ) : String :=
  String.join (ts.map moreText) ++ constantText k

theorem restText_cons (term : ℤ × String) (ts : List (ℤ × String)) (k : ℤ) :
    restText (term :: ts) k = moreText term ++ restText ts k := by
  rw [restText, List.map_cons, String.join_cons, String.append_assoc, restText]

theorem foldl_addTerm {text : String} (h : text ≠ "") (ts : List (ℤ × String)) :
    ts.foldl addTerm text = text ++ String.join (ts.map moreText) := by
  induction ts generalizing text with
  | nil => simp
  | cons term ts ih =>
    have hstep : addTerm text term = text ++ moreText term := by
      rw [addTerm, moreText, if_neg (by simpa using h), String.append_assoc]
    rw [List.foldl_cons, hstep, ih (by simp [h]), List.map_cons, String.join_cons,
      String.append_assoc]

theorem sumText_nil (k : ℤ) : sumText [] k = toString k := by
  simp [sumText]

theorem sumText_cons {c : ℤ} (h : text ≠ "") (ts : List (ℤ × String)) (k : ℤ) :
    sumText ((c, text) :: ts) k = leadText c text ++ restText ts k := by
  have hlead : addTerm "" (c, text) = leadText c text := by simp [addTerm, leadText]
  have hterm : termText c text ≠ "" := by
    rw [termText]
    split_ifs <;> simp [h]
  have hne : leadText c text ≠ "" := by
    simp [leadText, hterm]
  have hterms : (((c, text) :: ts).foldl addTerm "") =
      leadText c text ++ String.join (ts.map moreText) := by
    rw [List.foldl_cons, hlead, foldl_addTerm hne]
  rw [sumText, hterms, restText, ← String.append_assoc, constantText]
  simp only [String.isEmpty_iff, String.append_eq_empty_iff, hne, false_and, if_false]
  split
  · exact String.append_assoc ..
  · split
    · exact String.append_assoc ..
    · exact String.append_empty.symm

theorem separated_restText (ts : List (ℤ × String)) (k : ℤ) : Separated (restText ts k) := by
  cases ts with
  | nil =>
    rw [restText, List.map_nil, String.join_nil, String.empty_append, constantText]
    split
    · exact separated_blank ("+ " ++ toString k)
    · split
      · exact separated_blank ("- " ++ toString (k.natAbs : ℤ))
      · simp [Separated]
  | cons term ts =>
    rw [restText_cons, moreText]
    split
    · rw [String.append_assoc]
      exact separated_blank ("- " ++ _)
    · rw [String.append_assoc]
      exact separated_blank ("+ " ++ _)

theorem writes_constantText (k : ℤ) :
    ∃ ls, Writes (constantText k) ls ∧ More F ls fun _ => (k : ℚ) := by
  have hliteral : ∀ n : ℤ, Summands F ([.number n] ++ []) (fun _ => (n : ℚ)) fun _ => 0 := fun n =>
    .term (.factor (.literal n)) .done
  rw [constantText]
  split
  · exact ⟨_, (writes_number k).plus, by simpa using More.plus (hliteral k)⟩
  · split
    · rename_i hk
      refine ⟨_, (writes_number _).minus, ?_⟩
      have hminus := More.minus (hliteral (k.natAbs : ℤ))
      rw [← Int.abs_eq_natAbs, Int.cast_abs, abs_of_neg (Int.cast_lt_zero.2 hk)] at hminus
      simpa using hminus
    · obtain rfl : k = 0 := by omega
      exact ⟨[], writes_empty, by simpa using More.done⟩

theorem Terms.more (h : Terms F ts w) (k : ℤ) :
    ∃ ls, Writes (restText ts k) ls ∧ More F ls fun r => (w r : ℚ) + k := by
  induction h with
  | nil => simpa [restText] using writes_constantText k
  | @cons c text u w ts hc h hs ih =>
    obtain ⟨ls, hls, hterm⟩ := h.term c
    obtain ⟨ls', hls', hmore⟩ := ih
    have hwrites := hls.append hls' (separated_restText ts k)
    by_cases hneg : c < 0
    · refine ⟨.mark .minus :: (ls ++ ls'), ?_, ?_⟩
      · rw [restText_cons, moreText, if_pos hneg, String.append_assoc]
        exact hwrites.minus
      · have hminus := More.minus (.term hterm hmore)
        rw [abs_of_neg (Int.cast_lt_zero.2 hneg)] at hminus
        simpa [add_assoc] using hminus
    · refine ⟨.mark .plus :: (ls ++ ls'), ?_, ?_⟩
      · rw [restText_cons, moreText, if_neg hneg, String.append_assoc]
        exact hwrites.plus
      · have hplus := More.plus (.term hterm hmore)
        rw [abs_of_nonneg (Int.cast_nonneg (by omega))] at hplus
        simpa [add_assoc] using hplus

theorem Terms.sum (h : Terms F ts w) (k : ℤ) :
    ∃ ls, Writes (sumText ts k) ls ∧ Sum F ls fun r => ((w r + k : ℤ) : ℚ) := by
  cases h with
  | nil =>
    have hliteral : Summands F ([.number k] ++ []) (fun _ => (k : ℚ)) fun _ => 0 :=
      .term (.factor (.literal k)) .done
    refine ⟨_, sumText_nil k ▸ writes_number k, ?_⟩
    simpa using Sum.summands hliteral
  | @cons c text u w ts hc h hs =>
    obtain ⟨ls, hls, hlead⟩ := h.lead c
    obtain ⟨ls', hls', hmore⟩ := hs.more k
    refine ⟨ls ++ ls', ?_, ?_⟩
    · rw [sumText_cons h.ne_empty]
      exact hls.append hls' (separated_restText ts k)
    · simpa [add_assoc] using Sum.summands (hlead ls' _ hmore)

end Sums

end Quasiaffine.Printer

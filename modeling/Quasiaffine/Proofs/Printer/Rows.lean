import Quasiaffine.Proofs.Division.Unknowns
import Quasiaffine.Proofs.Printer.Names
import Quasiaffine.Proofs.Printer.Sums
import Quasiaffine.Proofs.Reader.Clause

set_option autoImplicit false

namespace Quasiaffine.Printer

open Phrase

def valuesAt (us : List (Row → ℤ)) (x : Row) : Row := us.map (· x)

variable {F : Frame} {names : List String} {us : List (Row → ℤ)}

section Expressions

theorem terms_zip (h : List.Forall₂ (Column F) names us) (coefficients : Row) :
    Terms F ((coefficients.zip names).filter fun term => term.1 ≠ 0)
      fun x => coefficients.dot (valuesAt us x) := by
  induction h generalizing coefficients with
  | nil => simpa [valuesAt] using Terms.nil
  | cons h hs ih =>
    cases coefficients with
    | nil => simpa using Terms.nil
    | cons c cs =>
      by_cases hc : c = 0
      · simpa [valuesAt, hc] using ih cs
      · simpa [valuesAt, hc] using Terms.cons hc h (ih cs)

theorem dot_cons_one (row values : Row) :
    row.dot (1 :: values) = Row.dot (row.drop 1) values + row.entry 0 := by
  cases row with
  | nil => simp
  | cons c cs => simp [add_comm]

/-- A written expression has the value of its row. -/
theorem affineText_spec (h : List.Forall₂ (Column F) names us) (row : Row) :
    ∃ ls, Writes (affineText row names) ls ∧
      Sum F ls fun x => (row.dot (1 :: valuesAt us x) : ℚ) := by
  obtain ⟨ls, hls, hsum⟩ := (terms_zip h (row.drop 1)).sum (row.entry 0)
  simp only [dot_cons_one]
  exact ⟨ls, hls, hsum⟩

end Expressions

section Constraints

def positivePart (coefficients : Row) : Row := coefficients.map (max 0)

theorem zip_positivePart (coefficients : Row) (names : List String) :
    ((positivePart coefficients).zip names).filter (fun term => term.1 ≠ 0) =
      (coefficients.zip names).filter fun term => 0 < term.1 := by
  induction coefficients generalizing names with
  | nil => rfl
  | cons c cs ih =>
    cases names with
    | nil => simp
    | cons name names =>
      have ih := ih names
      rw [positivePart] at ih ⊢
      by_cases hc : 0 < c
      · simpa [hc, max_eq_right hc.le, hc.ne'] using ih
      · simpa [hc, max_eq_left (not_lt.1 hc)] using ih

theorem zip_neg (coefficients : Row) (names : List String) :
    ((coefficients.neg.zip names).filter fun term => 0 < term.1) =
      ((coefficients.zip names).filter fun term => term.1 < 0).map fun term => (-term.1, term.2) := by
  induction coefficients generalizing names with
  | nil => rfl
  | cons c cs ih =>
    cases names with
    | nil => simp [Row.neg]
    | cons name names =>
      have ih := ih names
      rw [Row.neg] at ih ⊢
      by_cases hc : c < 0
      · simp [hc, ih]
      · simp [hc, ih]

theorem dot_positivePart (coefficients values : Row) :
    (positivePart coefficients).dot values - (positivePart coefficients.neg).dot values =
      coefficients.dot values := by
  induction coefficients generalizing values with
  | nil => simp [positivePart, Row.neg]
  | cons c cs ih =>
    cases values with
    | nil => simp
    | cons v vs =>
      have ih := ih vs
      have hc : max 0 c - max 0 (-c) = c := by omega
      simp only [positivePart, Row.neg, List.map_cons, Row.dot_cons] at ih ⊢
      rw [← ih]
      nth_rewrite 3 [← hc]
      ring

theorem constraintText_eq (c : Constraint) (names : List String) :
    constraintText c.row c.isEquality names =
      sumText (((positivePart (c.row.drop 1)).zip names).filter fun term => term.1 ≠ 0)
          (max 0 c.constant)
        ++ ((if c.isEquality then " = " else " >= ")
          ++ sumText (((positivePart (Row.neg (c.row.drop 1))).zip names).filter fun term => term.1 ≠ 0)
            (max 0 (-c.constant))) := by
  have hleft : (if c.constant < 0 then 0 else c.constant) = max 0 c.constant := by omega
  have hright : (if c.constant < 0 then -c.constant else 0) = max 0 (-c.constant) := by omega
  rw [zip_positivePart, zip_positivePart, zip_neg, ← hleft, ← hright, ← String.append_assoc]
  rfl

theorem comparisons_pair {ls ls' : List Lexeme} {l : Lexeme} {v w : Row → ℚ} {op : Comparison}
    {C : Row → Prop} (h : Sum F ls v) (h' : Sum F ls' w) (hl : l.comparison? = some op)
    (hC : ∀ x, op.holds (v x) (w x) = true ↔ C x) : Comparisons F (ls ++ l :: ls') C := by
  have hall : AllCompare op [v] [w] = C := funext fun x => propext (by simpa [AllCompare] using hC x)
  rw [← hall]
  exact .chain (.last h) (.last hl (.last h'))

/-- A written constraint says what the constraint says. -/
theorem constraintText_spec (h : List.Forall₂ (Column F) names us) (c : Constraint) :
    ∃ ls, Writes (constraintText c.row c.isEquality names) ls ∧
      Comparisons F ls fun x => c.isSatisfied (1 :: valuesAt us x) = true := by
  obtain ⟨ls, hls, hleft⟩ := (terms_zip h (positivePart (c.row.drop 1))).sum (max 0 c.constant)
  obtain ⟨ls', hls', hright⟩ :=
    (terms_zip h (positivePart (Row.neg (c.row.drop 1)))).sum (max 0 (-c.constant))
  have hdot : ∀ x, c.row.dot (1 :: valuesAt us x) =
      Row.dot (positivePart (c.row.drop 1)) (valuesAt us x) + max 0 c.constant -
        (Row.dot (positivePart (Row.neg (c.row.drop 1))) (valuesAt us x) + max 0 (-c.constant)) := by
    intro x
    have hconstant : c.row.entry 0 = max 0 c.constant - max 0 (-c.constant) := by
      rw [← Constraint.constant]
      omega
    rw [dot_cons_one, ← dot_positivePart, hconstant]
    ring
  rw [constraintText_eq]
  cases hkind : c.kind with
  | equality =>
    refine ⟨_, hls.between hls' (l := .mark .eq) (.mark (by decide)) ?_,
      comparisons_pair hleft hright rfl fun x => ?_⟩
    · rw [Constraint.isEquality, hkind]
      rfl
    · rw [Constraint.isSatisfied, hkind, hdot]
      simp only [Comparison.holds, ConstraintKind.admits, decide_eq_true_eq, Int.cast_inj,
        sub_eq_zero]
  | inequality =>
    refine ⟨_, hls.between hls' (l := .mark .ge) (.mark (by decide)) ?_,
      comparisons_pair hleft hright rfl fun x => ?_⟩
    · rw [Constraint.isEquality, hkind]
      rfl
    · rw [Constraint.isSatisfied, hkind, hdot]
      simp only [Comparison.holds, ConstraintKind.admits, decide_eq_true_eq, Int.cast_le, sub_nonneg]

end Constraints

section Divisions

theorem writes_over {m : ℤ} (hm : 0 < m) :
    Writes ("/" ++ toString m) [.mark .slash, .number m] := by
  have hdigits : (toString m).toList = Nat.toDigits 10 m.toNat := by
    rw [Int.toString_eq_repr, Int.repr_eq_if, if_pos hm.le, Nat.toList_repr]
  refine (writes_number m).cons (l := .mark .slash) (.mark nofun) (fun a ha => ?_) fun hempty => ?_
  · have ha : a ∈ Nat.toDigits 10 m.toNat := hdigits ▸ List.mem_of_mem_head? ha
    have hdigit := Nat.isDigit_of_mem_toDigits (by decide) (by decide) ha
    have hslash : a ≠ '/' := by
      rintro rfl
      cases hdigit
    have hstar : a ≠ '*' := by
      rintro rfl
      cases hdigit
    simp [Lexeme.endsBefore, hslash, hstar]
  · rw [hempty] at hdigits
    exact absurd hdigits.symm Nat.toDigits_ne_nil

theorem separated_over (text : String) : Separated ("/" ++ text) := by
  rw [Separated, String.toList_append]
  rintro a ⟨⟩
  rfl

def divisionText (div : Row) (names : List String) : String :=
  "[" ++ ("(" ++ (affineText (div.drop 1) names ++ ")") ++ ("/" ++ toString (div.entry 0)) ++ "]")

theorem column_divisionText (h : List.Forall₂ (Column F) names us) {div : Row}
    (hm : 0 < div.entry 0) :
    Column F (divisionText div names) fun x => Division.value div (1 :: valuesAt us x) := by
  obtain ⟨ls, hls, hsum⟩ := affineText_spec h (div.drop 1)
  have hwrites := hls.inParens.append (writes_over hm) (separated_over _)
  have hquotient := Sum.summands (.term (.factor (.divided hm (.paren hsum))) .done)
  rw [List.append_nil] at hquotient
  have hcolumn := Column.floor hwrites hquotient
  simp only [add_zero, Affine.floor_div _ hm] at hcolumn
  exact hcolumn

end Divisions

end Quasiaffine.Printer

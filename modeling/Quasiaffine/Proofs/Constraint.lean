import Quasiaffine.Constraint
import Quasiaffine.Proofs.Dot

set_option autoImplicit false

namespace Quasiaffine

theorem ConstraintKind.admits_iff (kind : ConstraintKind) (x : Int) :
    kind.admits x = true ↔ match kind with
      | .inequality => 0 ≤ x
      | .equality => x = 0 := by
  cases kind <;> simp [admits]

/-- Rounding the constant of an inequality down loses no integer solution. -/
theorem le_fdiv_add_iff {g c t : Int} (hg : 0 < g) : 0 ≤ c.fdiv g + t ↔ 0 ≤ c + g * t := by
  have hdiv : c.fdiv g = c / g := Int.fdiv_eq_ediv_of_nonneg c (Int.le_of_lt hg)
  have hsplit : g * (c / g) + c % g = c := Int.mul_ediv_add_emod c g
  have hnonneg := Int.emod_nonneg c (Int.ne_of_gt hg)
  have hlt := Int.emod_lt_of_pos c hg
  rw [hdiv]
  constructor
  · intro h
    have := Int.mul_nonneg (Int.le_of_lt hg) h
    rw [Int.mul_add] at this
    omega
  · intro h
    by_contra hneg
    have hle : c / g + t ≤ -1 := by omega
    have := Int.mul_le_mul_of_nonneg_left hle (Int.le_of_lt hg)
    rw [Int.mul_add] at this
    omega

theorem fdiv_add_eq_zero_iff {g c t : Int} (hg : 0 < g) (hd : g ∣ c) :
    c.fdiv g + t = 0 ↔ c + g * t = 0 := by
  obtain ⟨q, rfl⟩ := hd
  rw [Int.mul_fdiv_cancel_left _ (Int.ne_of_gt hg), ← Int.mul_add, Int.mul_eq_zero]
  constructor
  · exact .inr
  · rintro (h | h)
    · omega
    · exact h

namespace Constraint

variable {c d : Constraint}

theorem isSatisfied_iff (c : Constraint) (values : Row) :
    c.isSatisfied values = true ↔ c.kind.admits (c.row.dot values) = true := Iff.rfl

def InLowestTerms (c : Constraint) : Prop := Row.gcd (c.row.drop 1) = 1

/-- What a constraint comes to that is not in lowest terms yet. -/
theorem normalize_kept_spec (h : c.normalize = .kept d) :
    d.kind = c.kind ∧ d.width = c.width ∧ d.InLowestTerms ∧
      ∀ v, d.isSatisfied (1 :: v) = c.isSatisfied (1 :: v) := by
  obtain ⟨row, kind⟩ := c
  cases row with
  | nil => simp [normalize] at h
  | cons constant coeffs =>
    simp only [normalize] at h
    split_ifs at h with hg0 hadm hdvd hg1
    · obtain rfl := Normalized.kept.inj h
      exact ⟨rfl, rfl, by exact_mod_cast hg1, fun _ => rfl⟩
    · obtain rfl := Normalized.kept.inj h
      refine ⟨rfl, by simp [width, Row.length_divide],
        Row.gcd_divide_gcd (by exact_mod_cast hg0), fun v => ?_⟩
      have hpos : (0 : Int) < Row.gcd coeffs := by omega
      have hdot := Row.mul_dot_divide (fun x hx => Row.gcd_dvd hx) v (r := coeffs)
      rw [isSatisfied, isSatisfied]
      simp only [Row.dot_cons, Int.mul_one]
      rw [← hdot, Bool.eq_iff_iff, ConstraintKind.admits_iff, ConstraintKind.admits_iff]
      cases kind with
      | inequality => exact le_fdiv_add_iff hpos
      | equality =>
        have hmod : constant.emod (Row.gcd coeffs) = 0 := by simpa [isEquality] using hdvd
        exact fdiv_add_eq_zero_iff hpos (Int.dvd_of_emod_eq_zero hmod)

theorem isSatisfied_of_normalize_kept (h : c.normalize = .kept d) (v : Row) :
    d.isSatisfied (1 :: v) = c.isSatisfied (1 :: v) := (normalize_kept_spec h).2.2.2 v

theorem width_of_normalize_kept (h : c.normalize = .kept d) : d.width = c.width :=
  (normalize_kept_spec h).2.1

theorem InLowestTerms.exists_dot_eq (h : c.InLowestTerms) (t : Int) :
    ∃ x : Row, x.length + 1 = c.width ∧ c.row.dot (1 :: x) = t := by
  obtain ⟨row, kind⟩ := c
  cases row with
  | nil => cases h
  | cons constant coeffs =>
    obtain ⟨x, hl, hx⟩ := Row.exists_dot_eq (r := coeffs) (t := t - constant)
      (by rw [show Row.gcd coeffs = 1 from h]; exact one_dvd _)
    refine ⟨x, by rw [hl]; rfl, ?_⟩
    rw [Row.dot_cons, hx]
    omega

theorem isSatisfied_of_normalize_trivial (h : c.normalize = .trivial) (v : Row) :
    c.isSatisfied (1 :: v) = true := by
  obtain ⟨row, kind⟩ := c
  cases row with
  | nil => cases kind <;> rfl
  | cons constant coeffs =>
    simp only [normalize] at h
    split_ifs at h with hg0 hadm
    have hzero := Row.gcd_eq_zero (r := coeffs) (by exact_mod_cast hg0) v
    simpa [isSatisfied, hzero] using hadm

theorem not_isSatisfied_of_normalize_infeasible (h : c.normalize = .infeasible) (v : Row) :
    c.isSatisfied (1 :: v) = false := by
  obtain ⟨row, kind⟩ := c
  cases row with
  | nil => simp [normalize] at h
  | cons constant coeffs =>
    simp only [normalize] at h
    split_ifs at h with hg0 hadm hdvd
    · have hzero := Row.gcd_eq_zero (r := coeffs) (by exact_mod_cast hg0) v
      simpa [isSatisfied, hzero] using hadm
    · simp only [isEquality, Bool.and_eq_true, beq_iff_eq, bne_iff_ne] at hdvd
      obtain ⟨rfl, hne⟩ := hdvd
      rw [← Bool.not_eq_true, isSatisfied, ConstraintKind.admits_iff]
      intro hsat
      refine hne (Int.emod_eq_zero_of_dvd ?_)
      have hdvd := Row.dvd_dot (fun x hx => Row.gcd_dvd hx) v (r := coeffs)
      simp only [Row.dot_cons, Int.mul_one] at hsat
      rw [show constant = -Row.dot coeffs v by omega]
      exact Int.dvd_neg.2 hdvd

/-- A constraint has a solution unless bringing it to lowest terms finds that it has none. -/
theorem exists_isSatisfied_iff (c : Constraint) :
    (∃ v, c.isSatisfied (1 :: v) = true) ↔ c.normalize ≠ .infeasible := by
  constructor
  · rintro ⟨v, hv⟩ h
    rw [not_isSatisfied_of_normalize_infeasible h] at hv
    cases hv
  · intro h
    cases hn : c.normalize with
    | trivial => exact ⟨[], isSatisfied_of_normalize_trivial hn []⟩
    | infeasible => exact absurd hn h
    | kept d =>
      obtain ⟨x, -, hx⟩ := (normalize_kept_spec hn).2.2.1.exists_dot_eq 0
      refine ⟨x, ?_⟩
      rw [← isSatisfied_of_normalize_kept hn, isSatisfied, hx]
      cases d.kind <;> rfl

theorem exists_isSatisfied_of_length {n : Nat} (hw : c.width ≤ 1 + n)
    (h : ∃ v, c.isSatisfied (1 :: v) = true) :
    ∃ v, v.length = n ∧ c.isSatisfied (1 :: v) = true := by
  obtain ⟨v, hv⟩ := h
  refine ⟨(List.range n).map (Row.entry v), by simp, ?_⟩
  rw [isSatisfied, Row.dot_congr (v := 1 :: v), ← isSatisfied, hv]
  intro i hi
  cases i with
  | zero => rfl
  | succ i =>
    have hin : i < n := by
      have := Row.lt_length_of_entry_ne_zero hi
      rw [width] at hw
      omega
    simp [Row.entry, List.getD_eq_getElem?_getD, List.getElem?_range hin]

theorem isSatisfied_expand {w n : Nat} {e : List Nat} {u d : Row} (hu : u.length = w)
    (hw : w ≤ c.width) (hd : e.Nodup) (hlt : ∀ k ∈ e, k < n) :
    isSatisfied ⟨c.row.expand w e n, c.kind⟩ (u ++ d) = c.isSatisfied (u ++ e.map (Row.entry d)) := by
  rw [isSatisfied, isSatisfied, Row.dot_expand hu hw hd hlt]

end Constraint

theorem Row.dot_of_isNegation {r s : Row} (hl : r.length = s.length)
    (h : Row.isNegation r s = true) (v : Row) : dot r v = -dot s v := by
  induction r generalizing s v with
  | nil =>
    obtain rfl := List.eq_nil_of_length_eq_zero hl.symm
    simp
  | cons x r ih =>
    cases s with
    | nil => simp at hl
    | cons y s =>
      simp only [isNegation, Bool.and_eq_true, beq_iff_eq] at h
      cases v with
      | nil => simp
      | cons z v =>
        have := ih (by simpa using hl) h.2 v
        simp only [dot_cons, this, h.1]
        ring

namespace Constraint

variable {c d : Constraint}

theorem isSatisfied_of_isSame (h : c.isSame d = true) (hw : c.width = d.width) (v : Row) :
    c.isSatisfied v = d.isSatisfied v := by
  simp only [isSame, isEquality, Bool.and_eq_true, Bool.or_eq_true, beq_iff_eq] at h
  obtain ⟨hk, hrow | ⟨heq, hneg⟩⟩ := h
  · rw [isSatisfied, isSatisfied, hk, hrow]
  · have hdot := Row.dot_of_isNegation hw hneg v
    rw [isSatisfied, isSatisfied, ← hk, heq, hdot, Bool.eq_iff_iff, ConstraintKind.admits_iff,
      ConstraintKind.admits_iff]
    omega

theorem isSatisfied_positive {row : Row} (h : 0 < row.length) (v : Row) :
    (positive row).isSatisfied (1 :: v) = true ↔ 0 < row.dot (1 :: v) := by
  rw [isSatisfied_iff, ConstraintKind.admits_iff, positive]
  simp only [Row.dot_set h, Row.entry_cons_zero]
  omega

/-- The complements hold just where the constraint does not. -/
theorem exists_complement_iff (h : 0 < c.width) (v : Row) :
    (∃ d ∈ c.complements, d.isSatisfied (1 :: v) = true) ↔ c.isSatisfied (1 :: v) = false := by
  have hneg : 0 < c.row.neg.length := by rwa [Row.length_neg]
  have h' : 0 < c.row.length := h
  rw [← Bool.not_eq_true, isSatisfied_iff, ConstraintKind.admits_iff, complements]
  cases hk : c.kind with
  | inequality =>
    simp only [List.mem_singleton, exists_eq_left, isSatisfied_positive hneg, Row.dot_neg]
    omega
  | equality =>
    simp only [List.mem_cons, List.not_mem_nil, or_false, exists_eq_or_imp, exists_eq_left,
      isSatisfied_positive hneg, isSatisfied_positive h', Row.dot_neg]
    omega

theorem width_complement (hd : d ∈ c.complements) : d.width = c.width := by
  unfold complements at hd
  split at hd
  · rw [List.mem_singleton] at hd
    simp [hd, positive, width, Row.length_neg]
  · rcases List.mem_cons.1 hd with rfl | hd
    · simp [positive, width]
    · rw [List.mem_singleton] at hd
      simp [hd, positive, width, Row.length_neg]

theorem asInequalities_isSatisfied (v : Row) (hs : c.isSatisfied v = true)
    (hd : d ∈ c.asInequalities) : d.isSatisfied v = true ∧ d.kind = .inequality := by
  unfold asInequalities at hd
  split at hd
  · rw [List.mem_singleton] at hd
    exact ⟨hd ▸ hs, hd ▸ ‹_›⟩
  · rename_i hk
    rw [isSatisfied_iff, ConstraintKind.admits_iff, hk] at hs
    rcases List.mem_cons.1 hd with rfl | hd
    · refine ⟨?_, rfl⟩
      rw [isSatisfied_iff, ConstraintKind.admits_iff]
      exact Int.le_of_eq hs.symm
    · rw [List.mem_singleton] at hd
      subst hd
      refine ⟨?_, rfl⟩
      rw [isSatisfied_iff, ConstraintKind.admits_iff, Row.dot_neg]
      exact Int.le_of_eq (by simp only [hs]; rfl)

end Constraint

end Quasiaffine

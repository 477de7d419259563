import Quasiaffine.Proofs.Row

set_option autoImplicit false

namespace Quasiaffine.Row

open Finset in
theorem dot_eq_sum {r v : Row} {n : Nat} (h : r.length ≤ n ∨ v.length ≤ n) :
    dot r v = ∑ i ∈ range n, r.entry i * v.entry i := by
  induction r generalizing v n with
  | nil => simp [dot]
  | cons x r ih =>
    cases v with
    | nil => simp [dot]
    | cons y v =>
      cases n with
      | zero => simp at h
      | succ n =>
        rw [dot, ih (n := n) (by simpa using h), sum_range_succ']
        simp only [entry_cons_succ, entry_cons_zero]
        rw [Int.add_comm]

@[simp] theorem dot_nil_left (v : Row) : dot [] v = 0 := by simp [dot]

@[simp] theorem dot_nil_right (r : Row) : dot r [] = 0 := by cases r <;> simp [dot]

@[simp] theorem dot_cons (x y : Int) (r v : Row) : dot (x :: r) (y :: v) = x * y + dot r v := rfl

theorem dot_congr {r u v : Row} (h : ∀ c, r.entry c ≠ 0 → u.entry c = v.entry c) :
    dot r u = dot r v := by
  rw [dot_eq_sum (n := r.length) (.inl (Nat.le_refl _)),
    dot_eq_sum (n := r.length) (.inl (Nat.le_refl _))]
  refine Finset.sum_congr rfl fun c _ => ?_
  by_cases hc : r.entry c = 0
  · rw [hc, Int.zero_mul, Int.zero_mul]
  · rw [h c hc]

theorem dot_congr_left {r s v : Row} (h : ∀ c, r.entry c = s.entry c) : dot r v = dot s v := by
  rw [dot_eq_sum (n := v.length) (.inr (Nat.le_refl _)),
    dot_eq_sum (n := v.length) (.inr (Nat.le_refl _))]
  exact Finset.sum_congr rfl fun c _ => by rw [h c]

theorem dot_append {r s u v : Row} (h : r.length = u.length) :
    dot (r ++ s) (u ++ v) = dot r u + dot s v := by
  induction r generalizing u with
  | nil =>
    obtain rfl := List.eq_nil_of_length_eq_zero h.symm
    simp
  | cons x r ih =>
    cases u with
    | nil => simp at h
    | cons y u =>
      have := ih (u := u) (by simpa using h)
      simp only [List.cons_append, dot_cons, this]
      omega

@[simp] theorem dot_zeros (n : Nat) (v : Row) : dot (zeros n) v = 0 := by
  rw [dot_eq_sum (n := v.length) (.inr (Nat.le_refl _))]
  simp

theorem dot_map_mul (f : Int) (r v : Row) : dot (r.map (· * f)) v = dot r v * f := by
  induction r generalizing v with
  | nil => simp
  | cons x r ih =>
    cases v with
    | nil => simp
    | cons y v =>
      simp only [List.map_cons, dot_cons, ih]
      ring

theorem dot_scale (f : Int) (r v : Row) : dot (r.scale f) v = dot r v * f := dot_map_mul f r v

theorem dot_neg (r v : Row) : dot r.neg v = -dot r v := by
  have h : r.neg = r.map (· * (-1)) := List.map_congr_left fun x _ => by omega
  rw [h, dot_map_mul]
  omega

theorem mul_dot_divide {f : Int} {r : Row} (h : ∀ x ∈ r, f ∣ x) (v : Row) :
    f * dot (r.divide f) v = dot r v := by
  induction r generalizing v with
  | nil => simp [divide]
  | cons x r ih =>
    cases v with
    | nil => simp
    | cons y v =>
      have hx : f * x.tdiv f = x := Int.mul_tdiv_cancel' (h x List.mem_cons_self)
      have := ih (fun z hz => h z (List.mem_cons_of_mem x hz)) v
      simp only [divide, List.map_cons, dot_cons] at this ⊢
      rw [Int.mul_add, this, ← Int.mul_assoc, hx]

theorem dvd_gcd_iff {n : Nat} {r : Row} : n ∣ r.gcd ↔ ∀ x ∈ r, (n : Int) ∣ x := by
  induction r with
  | nil => simp [gcd]
  | cons x r ih => rw [gcd, Nat.dvd_gcd_iff, ih, List.forall_mem_cons, Int.natCast_dvd]

theorem gcd_dvd {r : Row} {x : Int} (h : x ∈ r) : (r.gcd : Int) ∣ x :=
  dvd_gcd_iff.1 (Nat.dvd_refl _) x h

theorem dvd_dot {f : Int} {r : Row} (h : ∀ x ∈ r, f ∣ x) (v : Row) : f ∣ dot r v :=
  ⟨_, (mul_dot_divide h v).symm⟩

theorem gcd_eq_zero {r : Row} (h : r.gcd = 0) (v : Row) : dot r v = 0 := by
  have := dvd_dot (fun x hx => gcd_dvd hx) v (r := r)
  rw [h] at this
  simpa using this

theorem dot_comm (r v : Row) : dot r v = dot v r := by
  induction r generalizing v with
  | nil => simp
  | cons x r ih =>
    cases v with
    | nil => simp
    | cons y v => rw [dot_cons, dot_cons, ih, Int.mul_comm]

/-- The greatest common divisor is a value of the row. -/
theorem exists_dot_eq_gcd (r : Row) : ∃ v : Row, v.length = r.length ∧ dot r v = gcd r := by
  induction r with
  | nil => exact ⟨[], rfl, rfl⟩
  | cons x r ih =>
    obtain ⟨v, hl, hv⟩ := ih
    have hbezout := Int.gcd_eq_gcd_ab x (gcd r)
    refine ⟨x.gcdA (gcd r) :: v.scale (x.gcdB (gcd r)), by simp [length_scale, hl], ?_⟩
    rw [dot_cons, dot_comm, dot_scale, dot_comm, hv, gcd, ← hbezout]
    rfl

theorem exists_dot_eq {r : Row} {t : Int} (h : (gcd r : Int) ∣ t) :
    ∃ v : Row, v.length = r.length ∧ dot r v = t := by
  obtain ⟨v, hl, hv⟩ := exists_dot_eq_gcd r
  obtain ⟨q, rfl⟩ := h
  exact ⟨v.scale q, by rw [length_scale, hl], by rw [dot_comm, dot_scale, dot_comm, hv]⟩

theorem gcd_eq_one_iff {r : Row} : gcd r = 1 ↔ ∃ v : Row, v.length = r.length ∧ dot r v = 1 := by
  constructor
  · intro h
    exact exists_dot_eq (by simp [h])
  · rintro ⟨v, -, hv⟩
    have hdvd := dvd_dot (fun x hx => gcd_dvd hx) v (r := r)
    rw [hv] at hdvd
    exact Nat.dvd_one.1 (by exact_mod_cast hdvd)

theorem mul_gcd_divide {r : Row} {g : Nat} (hg : 0 < g) (h : g ∣ gcd r) :
    g * gcd (r.divide g) = gcd r := by
  rw [dvd_gcd_iff] at h
  induction r with
  | nil => simp [divide, gcd]
  | cons x r ih =>
    obtain ⟨⟨y, rfl⟩, hr⟩ := List.forall_mem_cons.1 h
    have htdiv : ((g : Int) * y).tdiv g = y :=
      Int.mul_tdiv_cancel_left _ (by exact_mod_cast Nat.ne_of_gt hg)
    have hcons : divide g ((g * y) :: r) = y :: divide g r := by
      rw [divide, List.map_cons, htdiv]
      rfl
    rw [hcons, gcd, gcd, ← Nat.gcd_mul_left, ih hr, Int.natAbs_mul, Int.natAbs_natCast]

theorem gcd_divide_gcd {r : Row} (h : gcd r ≠ 0) : gcd (r.divide (gcd r)) = 1 :=
  (mul_eq_left₀ h).1 (mul_gcd_divide (Nat.pos_of_ne_zero h) (Nat.dvd_refl _))

theorem dot_set {r : Row} {i : Nat} (hi : i < r.length) (x : Int) (v : Row) :
    dot (r.set i x) v = dot r v + (x - r.entry i) * v.entry i := by
  induction r generalizing i v with
  | nil => simp at hi
  | cons y r ih =>
    cases v with
    | nil => simp
    | cons z v =>
      cases i with
      | zero =>
        simp only [List.set_cons_zero, dot_cons, entry_cons_zero]
        ring
      | succ i =>
        simp only [List.set_cons_succ, dot_cons, entry_cons_succ,
          ih (by simpa using hi : i < r.length)]
        ring

theorem dot_combine {m₁ m₂ : Int} {r s : Row} (h : r.length = s.length) (v : Row) :
    dot (combine m₁ m₂ r s) v = m₁ * dot r v + m₂ * dot s v := by
  induction r generalizing s v with
  | nil =>
    obtain rfl := List.eq_nil_of_length_eq_zero h.symm
    simp [combine]
  | cons x r ih =>
    cases s with
    | nil => simp at h
    | cons y s =>
      cases v with
      | nil => simp
      | cons z v =>
        simp only [combine, dot_cons, ih (by simpa using h : r.length = s.length)]
        ring

theorem dot_combine_right {m₁ m₂ : Int} {u v : Row} (r : Row) (h : u.length = v.length) :
    dot r (combine m₁ m₂ u v) = m₁ * dot r u + m₂ * dot r v := by
  rw [dot_comm, dot_combine h, dot_comm u, dot_comm v]

/-- A row is told by its values. -/
theorem eq_of_dot_eq {r s : Row} (hl : r.length = s.length)
    (h : ∀ v : Row, v.length = r.length → dot r v = dot s v) : r = s := by
  apply ext_entry hl
  intro c
  rcases Nat.lt_or_ge c r.length with hc | hc
  · have hunit := h ((zeros r.length).set c 1) (by simp)
    rw [dot_comm, dot_comm s, dot_set (by simpa using hc), dot_set (by simpa using hc)] at hunit
    simpa using hunit
  · rw [entry_eq_zero hc, entry_eq_zero (hl ▸ hc)]

/-- A row that is zero wherever one without a common divisor is has a multiple of its values. -/
theorem exists_dot_eq_mul {r s : Row} (hr : gcd r = 1)
    (h : ∀ v : Row, v.length = r.length → dot r v = 0 → dot s v = 0) :
    ∃ q, ∀ v : Row, v.length = r.length → dot s v = q * dot r v := by
  obtain ⟨u, hu, hone⟩ := gcd_eq_one_iff.1 hr
  refine ⟨dot s u, fun v hv => ?_⟩
  have hzero := h (combine 1 (-dot r v) v u) (by rw [length_combine, hv])
    (by rw [dot_combine_right r (hv.trans hu.symm), hone]; omega)
  rw [dot_combine_right s (hv.trans hu.symm)] at hzero
  linarith

theorem dot_zipWith {a b : Int} {r s : Row} (h : r.length = s.length) (v : Row) :
    dot (List.zipWith (fun x y => a * x + b * y) r s) v = a * dot r v + b * dot s v := by
  induction r generalizing s v with
  | nil =>
    obtain rfl := List.eq_nil_of_length_eq_zero h.symm
    simp
  | cons x r ih =>
    cases s with
    | nil => simp at h
    | cons y s =>
      cases v with
      | nil => simp
      | cons z v =>
        simp only [List.zipWith_cons_cons, dot_cons, ih (by simpa using h : r.length = s.length)]
        ring

theorem dot_swap {r v : Row} {i j : Nat} (hi : i < r.length) (hj : j < r.length)
    (hl : v.length = r.length) : dot (r.swap i j) (v.swap i j) = dot r v := by
  rw [dot_eq_sum (n := r.length) (.inl (by rw [length_swap])),
    dot_eq_sum (n := r.length) (.inl (Nat.le_refl _))]
  refine Finset.sum_equiv (Equiv.swap i j) (fun c => ?_) fun c _ => ?_
  · simp only [Finset.mem_range]
    by_cases hc : c = i
    · simp [hc, hi, hj]
    · by_cases hc' : c = j
      · simp [hc', hi, hj]
      · rw [Equiv.swap_apply_of_ne_of_ne hc hc']
  · rw [entry_swap r hi hj, entry_swap v (hl ▸ hi) (hl ▸ hj)]

theorem dot_insertZeros {r u v w : Row} {pos n : Nat} (hu : u.length = pos) (hr : pos ≤ r.length)
    (hv : v.length = n) : dot (r.insertZeros pos n) (u ++ v ++ w) = dot r (u ++ w) := by
  have hp : (r.take pos).length = u.length := by simp [hu, hr]
  conv_rhs => rw [← List.take_append_drop pos r]
  rw [insertZeros, dot_append (by simp [hp, hv]), dot_append hp, dot_append hp, dot_zeros,
    Int.add_zero]

theorem dot_moveEntries {r a b c : Row} (d : Row) {s n t : Nat} (ha : a.length = s)
    (hb : b.length = n) (hc : s + c.length = t) (hr : t + n ≤ r.length) :
    dot (r.moveEntries s n t) (a ++ c ++ b ++ d) = dot r (a ++ b ++ c ++ d) := by
  obtain ⟨A, r, hA, rfl⟩ := exists_split (by omega : s ≤ r.length)
  rw [List.length_append] at hr
  obtain ⟨B, r, hB, rfl⟩ := exists_split (by omega : n ≤ r.length)
  rw [List.length_append] at hr
  obtain ⟨C, D, hC, rfl⟩ := exists_split (by omega : c.length ≤ r.length)
  have hmove := moveEntries_append A B C D
  rw [hA, hB, hC, hc, List.append_assoc, List.append_assoc] at hmove
  rw [hmove]
  simp only [List.append_assoc]
  rw [dot_append (hA.trans ha.symm), dot_append hC, dot_append (hB.trans hb.symm),
    dot_append (hA.trans ha.symm), dot_append (hB.trans hb.symm), dot_append hC]
  omega

section Scatter

variable {n : Nat} {e : List Nat}

theorem dot_foldl_set {row : Row} (hd : e.Nodup) (hlt : ∀ k ∈ e, k < row.length)
    (hz : ∀ k ∈ e, row.entry k = 0) (values v : Row) :
    dot ((e.zip values).foldl (fun row place => row.set place.1 place.2) row) v =
      dot row v + dot values (e.map v.entry) := by
  induction e generalizing values row with
  | nil => simp
  | cons k e ih =>
    rw [List.nodup_cons] at hd
    cases values with
    | nil => simp
    | cons x values =>
      simp only [List.zip_cons_cons, List.foldl_cons, List.map_cons, dot_cons]
      rw [ih hd.2, dot_set (hlt k List.mem_cons_self), hz k List.mem_cons_self]
      · ring
      · intro j hj
        rw [List.length_set]
        exact hlt j (List.mem_cons_of_mem k hj)
      · intro j hj
        rw [entry_set, if_neg, hz j (List.mem_cons_of_mem k hj)]
        rintro ⟨rfl, -⟩
        exact hd.1 hj

theorem dot_scatter (hd : e.Nodup) (hlt : ∀ k ∈ e, k < n) (values v : Row) :
    dot (scatter n e values) v = dot values (e.map v.entry) := by
  rw [scatter, dot_foldl_set hd (by simpa using hlt) (by simp), dot_zeros, Int.zero_add]

/-- An expanded row takes at the new divisions the value that the row takes at the old ones. -/
theorem dot_expand {r u d : Row} {w : Nat} (hu : u.length = w) (hw : w ≤ r.length) (hd : e.Nodup)
    (hlt : ∀ k ∈ e, k < n) : dot (r.expand w e n) (u ++ d) = dot r (u ++ e.map d.entry) := by
  have hp : (r.take w).length = u.length := by simp [hu, hw]
  conv_rhs => rw [← List.take_append_drop w r]
  rw [expand, dot_append hp, dot_append hp, dot_scatter hd hlt]

end Scatter

theorem drop_one_expand {r : Row} {w n : Nat} {e : List Nat} (hw : w + 1 ≤ r.length) :
    (r.expand (w + 1) e n).drop 1 = expand (r.drop 1) w e n := by
  cases r with
  | nil => simp at hw
  | cons x r => simp [expand]

end Quasiaffine.Row

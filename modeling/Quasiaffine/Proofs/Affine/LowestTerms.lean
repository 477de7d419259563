import Quasiaffine.Proofs.Affine
import Quasiaffine.Proofs.Division.Editing

/-!
Expressions stay in lowest terms: no number but one divides the denominator and all entries of the
numerator. Sums and multiples are divided by the common divisor of their rows; all other operations
leave a row without one as it is, for each its own reason.
-/

set_option autoImplicit false

namespace Quasiaffine

namespace Row

variable {r s : Row}

theorem gcd_eq_one_of_dvd (hr : r.gcd = 1) (h : ∀ x ∈ r, (s.gcd : Int) ∣ x) : s.gcd = 1 :=
  Nat.dvd_one.1 (hr ▸ dvd_gcd_iff.2 h)

theorem gcd_eq_one_of_mem (h : 1 ∈ r) : r.gcd = 1 :=
  Nat.dvd_one.1 (by exact_mod_cast gcd_dvd h)

/-- A row without a common divisor is divided by `d`: what `d` shares with the entries behind the
first is cancelled, and the rest of it goes to the first entry. -/
theorem gcd_cancel {m : Int} {d : Nat} (hd : 0 < d) (hg : gcd (m :: r) = 1) :
    gcd (m * (d / Nat.gcd (gcd r) d : Nat) :: r.divide (Nat.gcd (gcd r) d)) = 1 := by
  have hpos : 0 < Nat.gcd (gcd r) d := Nat.gcd_pos_of_pos_right _ hd
  have hmul := mul_gcd_divide hpos (Nat.gcd_dvd_left (gcd r) d)
  have hrest : Nat.Coprime (gcd r / Nat.gcd (gcd r) d) (d / Nat.gcd (gcd r) d) :=
    Nat.coprime_div_gcd_div_gcd hpos
  rw [Nat.div_eq_of_eq_mul_right hpos hmul.symm] at hrest
  have hfirst : Nat.Coprime m.natAbs (gcd (r.divide (Nat.gcd (gcd r) d))) :=
    Nat.Coprime.coprime_dvd_right (Dvd.intro_left _ hmul) hg
  rw [gcd, Int.natAbs_mul, Int.natAbs_natCast]
  exact hfirst.mul_left hrest.symm

end Row

namespace LocalSpace

variable {ls ls' a b : LocalSpace} {row : Row}

theorem total_addDiv (hok : ls.addDiv row = .ok ls') :
    ls'.space = ls.space ∧ ls'.total = ls.total + 1 := by
  simp only [addDiv, bind_eq_ok_iff] at hok
  obtain ⟨-, -, hok⟩ := hok
  obtain rfl := Except.ok.inj hok
  refine ⟨rfl, ?_⟩
  simp only [total, divCount, Matrix.height, Matrix.appendColumns, Matrix.insertColumns,
    Matrix.mapRows, List.length_append, List.length_map, List.length_singleton]
  omega

theorem total_normalizeDiv (ls : LocalSpace) (k : Nat) : (ls.normalizeDiv k).total = ls.total := by
  simp only [normalizeDiv, total, divCount, Matrix.height, Matrix.setRow, List.length_set]

theorem space_merge {m : MergedSpace} (hok : a.merge b = .ok m) :
    a.space.agrees b.space = true ∧ m.ls.space = a.space := by
  simp only [merge, bind_eq_ok_iff, require_eq_ok_iff, exists_const] at hok
  obtain ⟨hagrees, hok⟩ := hok
  refine ⟨hagrees, ?_⟩
  split_ifs at hok <;> obtain rfl := Except.ok.inj hok <;> rfl

end LocalSpace

namespace Affine

variable {a b c : Affine} {ls : LocalSpace} {row : Row} {kind : DimKind} {first n : Nat} {f : Int}

structure Reduced (a : Affine) : Prop where
  proper : a.space.Proper
  length : a.row.length = 2 + a.ls.total
  denominator : 0 < a.denominator
  primitive : a.row.gcd = 1

theorem gcd_lowestTerms (h : 0 < row.entry 0) : (lowestTerms row).gcd = 1 := by
  cases row with
  | nil => simp at h
  | cons m r =>
    have hne : Row.gcd (m :: r) ≠ 0 := fun hz => by
      have hdvd := Row.gcd_dvd (r := m :: r) List.mem_cons_self
      rw [hz] at hdvd
      obtain rfl := Int.zero_dvd.1 hdvd
      simp at h
    unfold lowestTerms
    split
    · omega
    · exact Row.gcd_divide_gcd hne

section Constructors

theorem reduced_zero (hs : ls.space.Proper) : (zero ls).Reduced :=
  ⟨hs, by simp [zero]; omega, by simp [zero, denominator], Row.gcd_eq_one_of_mem List.mem_cons_self⟩

theorem reduced_const (hs : ls.space.Proper) (value : Int) : (const ls value).Reduced :=
  ⟨hs, by simp [const]; omega, by simp [const, denominator],
    Row.gcd_eq_one_of_mem List.mem_cons_self⟩

theorem reduced_var {pos : Nat} (hs : ls.space.Proper) (hok : var ls kind pos = .ok a) :
    a.Reduced := by
  simp only [var, bind_eq_ok_iff] at hok
  obtain ⟨-, -, hok⟩ := hok
  obtain rfl := Except.ok.inj hok
  obtain ⟨i, hi⟩ : ∃ i, ls.column kind pos = i + 1 := ⟨1 + ls.offset kind + pos, by
    rw [LocalSpace.column]
    omega⟩
  have hrow : (zero ls).row.set (ls.column kind pos) 1 = 1 :: (Row.zeros (1 + ls.total)).set i 1 := by
    rw [hi]
    rfl
  refine ⟨hs, ?_, ?_, ?_⟩
  · rw [List.length_set]
    exact (reduced_zero hs).length
  · simp [denominator, hrow]
  · rw [hrow]
    exact Row.gcd_eq_one_of_mem List.mem_cons_self

theorem reduced_ofRow (hs : ls.space.Proper) (hok : ofRow ls row = .ok a) : a.Reduced := by
  simp only [ofRow, bind_eq_ok_iff, require_eq_ok_iff, exists_const, beq_iff_eq,
    decide_eq_true_eq] at hok
  obtain ⟨hlength, hpos, hok⟩ := hok
  obtain rfl := Except.ok.inj hok
  exact ⟨hs, (length_lowestTerms row).trans hlength, denominator_lowestTerms hpos,
    gcd_lowestTerms hpos⟩

end Constructors

theorem reduced_cons {m : Int} {r : Row} (hs : ls.space.Proper) (hlen : r.length = 1 + ls.total)
    (hm : 0 < m) (hg : Row.gcd (m :: r) = 1) : Reduced ⟨ls, m :: r⟩ :=
  ⟨hs, by rw [List.length_cons, hlen, Nat.add_comm, ← Nat.add_assoc], hm, hg⟩

theorem Reduced.exists_cons (h : a.Reduced) : ∃ ls m r, a = ⟨ls, m :: r⟩ ∧ ls.space.Proper ∧
    r.length = 1 + ls.total ∧ 0 < m ∧ Row.gcd (m :: r) = 1 := by
  obtain ⟨ls, row⟩ := a
  have hlen : row.length = 2 + ls.total := h.length
  cases row with
  | nil =>
    rw [List.length_nil] at hlen
    omega
  | cons m r =>
    rw [List.length_cons] at hlen
    exact ⟨ls, m, r, rfl, h.proper, by omega, h.denominator, h.primitive⟩

section Arithmetic

theorem Reduced.neg (h : a.Reduced) : a.neg.Reduced := by
  obtain ⟨ls, m, r, rfl, hs, hlen, hm, hg⟩ := h.exists_cons
  refine reduced_cons hs ((Row.length_neg r).trans hlen) hm
    (Row.gcd_eq_one_of_dvd hg fun x hx => ?_)
  rcases List.mem_cons.1 hx with rfl | hx
  · exact Row.gcd_dvd List.mem_cons_self
  · exact Int.dvd_neg.1 (Row.gcd_dvd (List.mem_cons_of_mem _ (List.mem_map.2 ⟨x, hx, rfl⟩)))

theorem Reduced.addConstant (h : a.Reduced) (value : Int) : (a.addConstant value).Reduced := by
  -- A common divisor of the denominator and the new constant divides the old one.
  obtain ⟨ls, m, r, rfl, hs, hlen, hm, hg⟩ := h.exists_cons
  cases r with
  | nil =>
    rw [List.length_nil] at hlen
    omega
  | cons constant r =>
    refine reduced_cons (r := (constant + value * m) :: r) hs hlen hm
      (Row.gcd_eq_one_of_dvd hg fun x hx => ?_)
    have hdvd : ∀ y ∈ m :: (constant + value * m) :: r,
        (Row.gcd (m :: (constant + value * m) :: r) : Int) ∣ y := fun y hy => Row.gcd_dvd hy
    simp only [List.forall_mem_cons] at hdvd
    obtain ⟨hm', hconstant, hrest⟩ := hdvd
    simp only [List.mem_cons] at hx
    rcases hx with rfl | rfl | hx
    · exact hm'
    · exact (Int.dvd_add_left (Int.dvd_mul_of_dvd_right hm')).1 hconstant
    · exact hrest x hx

theorem Reduced.scale (h : a.Reduced) (f : Int) : (a.scale f).Reduced := by
  obtain ⟨ls, m, r, rfl, hs, hlen, hm, -⟩ := h.exists_cons
  unfold Affine.scale
  split
  · exact reduced_zero hs
  · refine ⟨hs, ?_, denominator_lowestTerms hm, gcd_lowestTerms hm⟩
    rw [length_lowestTerms]
    change (m :: Row.scale f r).length = 2 + ls.total
    rw [List.length_cons, Row.length_scale, hlen]
    omega

theorem Reduced.scaleDown (h : a.Reduced) (hok : a.scaleDown f = .ok b) : b.Reduced := by
  obtain ⟨ls, m, r, rfl, hs, hlen, hm, hg⟩ := h.exists_cons
  simp only [Affine.scaleDown, bind_eq_ok_iff, require_eq_ok_iff, exists_const,
    decide_eq_true_eq] at hok
  obtain ⟨hf, hok⟩ := hok
  obtain rfl := Except.ok.inj hok
  lift f to Nat using Int.le_of_lt hf with d
  have hd : 0 < d := by exact_mod_cast hf
  change Reduced ⟨ls, m * (d : Int).tdiv (Nat.gcd (Row.gcd r) d) ::
    Row.divide (Nat.gcd (Row.gcd r) d) r⟩
  have hquot : 0 < d / Nat.gcd (Row.gcd r) d :=
    Nat.div_pos (Nat.le_of_dvd hd (Nat.gcd_dvd_right _ _)) (Nat.gcd_pos_of_pos_right _ hd)
  rw [← Int.ofNat_tdiv]
  exact reduced_cons hs ((Row.length_divide _ r).trans hlen)
    (Int.mul_pos hm (by exact_mod_cast hquot)) (Row.gcd_cancel hd hg)

theorem gcd_addRows {r s : Row} (hr : 0 < r.entry 0) (hs : 0 < s.entry 0) :
    (addRows r s).gcd = 1 :=
  gcd_lowestTerms (lcm_denominators_pos hr hs)

theorem Reduced.add (ha : a.Reduced) (hb : b.Reduced) (hok : a.add b = .ok c) : c.Reduced := by
  simp only [Affine.add, bind_eq_ok_iff] at hok
  obtain ⟨m, hm, hok⟩ := hok
  obtain rfl := Except.ok.inj hok
  obtain ⟨hagrees, hspace⟩ := LocalSpace.space_merge hm
  have ht : a.space.total = b.space.total := Space.total_eq_of_agrees hagrees ha.proper hb.proper
  have hla := prefix_le_length ha.length
  have hlb : 2 + a.space.total ≤ b.row.length := ht ▸ prefix_le_length hb.length
  have hda : 0 < (a.row.expand (2 + a.space.total) m.left m.ls.divCount).entry 0 :=
    denominator_expand (by omega) hla ha.denominator
  have hdb : 0 < (b.row.expand (2 + a.space.total) m.right m.ls.divCount).entry 0 :=
    denominator_expand (by omega) hlb hb.denominator
  have hlen : (a.row.expand (2 + a.space.total) m.left m.ls.divCount).length =
      (b.row.expand (2 + a.space.total) m.right m.ls.divCount).length := by
    rw [Row.length_expand hla, Row.length_expand hlb]
  refine ⟨?_, ?_, denominator_addRows hda hdb, ?_⟩
  · change m.ls.space.Proper
    rw [hspace]
    exact ha.proper
  · rw [length_addRows hlen (by rw [Row.length_expand hla]; omega), Row.length_expand hla,
      LocalSpace.total, hspace]
    exact Nat.add_assoc _ _ _
  · exact gcd_addRows hda hdb

end Arithmetic

section Rounding

theorem Reduced.floor (h : a.Reduced) (hok : a.floor = .ok b) : b.Reduced := by
  obtain ⟨ls, m, r, rfl, hs, hlen, hm, -⟩ := h.exists_cons
  simp only [Affine.floor] at hok
  split at hok
  · exact Except.ok.inj hok ▸ h
  split at hok
  · obtain rfl := Except.ok.inj hok
    cases r with
    | nil =>
      rw [List.length_nil] at hlen
      omega
    | cons constant r =>
      exact reduced_cons (r := constant.fdiv m :: r) hs hlen Int.one_pos
        (Row.gcd_eq_one_of_mem List.mem_cons_self)
  · obtain ⟨wider, hwider, hok⟩ := bind_eq_ok_iff.1 hok
    obtain rfl := Except.ok.inj hok
    obtain ⟨hspace, htotal⟩ := LocalSpace.total_addDiv hwider
    refine reduced_cons (r := (r.map (splitCoefficient m)).map Prod.fst ++ [1]) ?_ ?_ Int.one_pos
      (Row.gcd_eq_one_of_mem List.mem_cons_self)
    · change wider.space.Proper
      rw [hspace]
      exact hs
    · rw [LocalSpace.total_normalizeDiv, htotal, List.length_append, List.length_map,
        List.length_map, hlen, List.length_singleton, Nat.add_assoc]

theorem Reduced.ceil (h : a.Reduced) (hok : a.ceil = .ok b) : b.Reduced := by
  obtain ⟨c, hc, hok⟩ := bind_eq_ok_iff.1 hok
  exact Except.ok.inj hok ▸ (h.neg.floor hc).neg

theorem Reduced.floorDiv (h : a.Reduced) (hok : a.floorDiv f = .ok b) : b.Reduced := by
  obtain ⟨c, hc, hok⟩ := bind_eq_ok_iff.1 hok
  exact (h.scaleDown hc).floor hok

theorem Reduced.ceilDiv (h : a.Reduced) (hok : a.ceilDiv f = .ok b) : b.Reduced := by
  obtain ⟨c, hc, hok⟩ := bind_eq_ok_iff.1 hok
  exact (h.scaleDown hc).ceil hok

theorem Reduced.mod (h : a.Reduced) (hok : a.mod f = .ok b) : b.Reduced := by
  obtain ⟨q, hq, hok⟩ := bind_eq_ok_iff.1 hok
  exact h.add ((h.floorDiv hq).scale f).neg hok

end Rounding

section Dimensions

theorem Reduced.resetSpace {s : Space} (h : a.Reduced) (hs : s.Proper)
    (hok : a.resetSpace s = .ok b) : b.Reduced := by
  simp only [Affine.resetSpace, LocalSpace.resetSpace, bind_eq_ok_iff, require_eq_ok_iff,
    exists_const, beq_iff_eq] at hok
  obtain ⟨ls, ⟨htotal, hls⟩, hok⟩ := hok
  obtain rfl := Except.ok.inj hls
  obtain rfl := Except.ok.inj hok
  refine ⟨hs, ?_, h.denominator, h.primitive⟩
  rw [h.length, LocalSpace.total, LocalSpace.total, ← htotal]
  rfl

theorem Reduced.insertDims (h : a.Reduced) (hok : a.insertDims kind first n = .ok b) :
    b.Reduced := by
  simp only [Affine.insertDims, bind_eq_ok_iff] at hok
  obtain ⟨ls, hls, hok⟩ := hok
  obtain rfl := Except.ok.inj hok
  obtain ⟨hs, htotal⟩ := LocalSpace.total_insertDims h.proper hls
  have hcolumn : 0 < a.ls.column kind first := by
    rw [LocalSpace.column]
    omega
  refine ⟨hs, ?_, ?_, Row.gcd_eq_one_of_dvd h.primitive fun x hx => Row.gcd_dvd ?_⟩
  · rw [Row.length_insertZeros, h.length, htotal, Nat.add_assoc]
  · rw [Affine.denominator, Row.entry_zero_insertZeros hcolumn]
    exact h.denominator
  · rw [Row.insertZeros]
    rw [← List.take_append_drop (a.ls.column kind first) a.row, List.mem_append] at hx
    rcases hx with hx | hx <;> simp [hx]

end Dimensions

/-- The expressions that are built from given rows, constants and variables by any finite sequence of
operations that succeed. They may start over any local space: of its space only that is asked which
all spaces have, no input tuple where it is one of a set. -/
inductive Obtained : Affine → Prop
  | zero {ls : LocalSpace} (hs : ls.space.Proper) : Obtained (zero ls)
  | const {ls : LocalSpace} (hs : ls.space.Proper) (value : Int) : Obtained (const ls value)
  | var {ls : LocalSpace} {kind : DimKind} {pos : Nat} {a : Affine} (hs : ls.space.Proper)
      (hok : var ls kind pos = .ok a) : Obtained a
  | ofRow {ls : LocalSpace} {row : Row} {a : Affine} (hs : ls.space.Proper)
      (hok : ofRow ls row = .ok a) : Obtained a
  | add {a b c : Affine} (ha : Obtained a) (hb : Obtained b) (hok : a.add b = .ok c) : Obtained c
  | sub {a b c : Affine} (ha : Obtained a) (hb : Obtained b) (hok : a.sub b = .ok c) : Obtained c
  | neg {a : Affine} (ha : Obtained a) : Obtained a.neg
  | addConstant {a : Affine} (ha : Obtained a) (value : Int) : Obtained (a.addConstant value)
  | scale {a : Affine} (ha : Obtained a) (f : Int) : Obtained (a.scale f)
  | scaleDown {a b : Affine} {f : Int} (ha : Obtained a) (hok : a.scaleDown f = .ok b) : Obtained b
  | floor {a b : Affine} (ha : Obtained a) (hok : a.floor = .ok b) : Obtained b
  | ceil {a b : Affine} (ha : Obtained a) (hok : a.ceil = .ok b) : Obtained b
  | floorDiv {a b : Affine} {d : Int} (ha : Obtained a) (hok : a.floorDiv d = .ok b) : Obtained b
  | ceilDiv {a b : Affine} {d : Int} (ha : Obtained a) (hok : a.ceilDiv d = .ok b) : Obtained b
  | mod {a b : Affine} {m : Int} (ha : Obtained a) (hok : a.mod m = .ok b) : Obtained b
  | insertDims {a b : Affine} {kind : DimKind} {first n : Nat} (ha : Obtained a)
      (hok : a.insertDims kind first n = .ok b) : Obtained b
  | addDims {a b : Affine} {kind : DimKind} {n : Nat} (ha : Obtained a)
      (hok : a.addDims kind n = .ok b) : Obtained b
  | resetSpace {a b : Affine} {s : Space} (ha : Obtained a) (hs : s.Proper)
      (hok : a.resetSpace s = .ok b) : Obtained b

theorem Obtained.reduced (h : Obtained a) : a.Reduced := by
  induction h with
  | zero hs => exact reduced_zero hs
  | const hs value => exact reduced_const hs value
  | var hs hok => exact reduced_var hs hok
  | ofRow hs hok => exact reduced_ofRow hs hok
  | add _ _ hok ha hb => exact ha.add hb hok
  | sub _ _ hok ha hb => exact ha.add hb.neg hok
  | neg _ ha => exact ha.neg
  | addConstant _ value ha => exact ha.addConstant value
  | scale _ f ha => exact ha.scale f
  | scaleDown _ hok ha => exact ha.scaleDown hok
  | floor _ hok ha => exact ha.floor hok
  | ceil _ hok ha => exact ha.ceil hok
  | floorDiv _ hok ha => exact ha.floorDiv hok
  | ceilDiv _ hok ha => exact ha.ceilDiv hok
  | mod _ hok ha => exact ha.mod hok
  | insertDims _ hok ha => exact ha.insertDims hok
  | addDims _ hok ha => exact ha.insertDims hok
  | resetSpace _ hs hok ha => exact ha.resetSpace hs hok

/-- Over whole runs the row of an expression has an entry for the denominator, the constant and
every dimension and division, its denominator is positive and its entries have no common divisor. -/
theorem lowestTerms_of_obtained (h : Obtained a) :
    a.row.length = 2 + a.space.total + a.ls.divCount ∧ 0 < a.denominator ∧ a.row.gcd = 1 :=
  ⟨by rw [h.reduced.length, LocalSpace.total, ← Nat.add_assoc]; rfl, h.reduced.denominator,
    h.reduced.primitive⟩

/-- `(4 i + 6) / 8` is `(2 i + 3) / 4`, a sixth of that and one is `(2 i + 7) / 24`, and its
remainder modulo one is over the division `⌊(i + 3) / 12⌋`. -/
theorem lowestTerms_of_obtained_remainder :
    let a : Affine := ⟨.overOneVariable [], [4, 3, 2]⟩
    let b : Affine := ⟨.overOneVariable [], [24, 7, 2]⟩
    let c : Affine := ⟨.overOneVariable [[12, 3, 1, 0]], [24, 7, 2, -24]⟩
    ofRow (.overOneVariable []) [8, 6, 4] = .ok a ∧ (a.addConstant 1).scaleDown 6 = .ok b ∧
      b.mod 1 = .ok c ∧
      c.row.length = 2 + c.space.total + c.ls.divCount ∧ 0 < c.denominator ∧ c.row.gcd = 1 := by
  intro a b c
  have ha : ofRow (.overOneVariable []) [8, 6, 4] = .ok a := rfl
  have hb : (a.addConstant 1).scaleDown 6 = .ok b := by cbv
  have hc : b.mod 1 = .ok c := by cbv
  have hs : (LocalSpace.overOneVariable []).space.Proper := fun _ => rfl
  exact ⟨ha, hb, hc, lowestTerms_of_obtained
    (.mod (.scaleDown (.addConstant (.ofRow hs ha) 1) hb) hc)⟩

end Affine

end Quasiaffine

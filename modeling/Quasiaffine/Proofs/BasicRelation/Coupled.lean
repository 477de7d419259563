import Quasiaffine.BasicRelation.Definitions
import Quasiaffine.Proofs.BasicRelation.Sorting
import Quasiaffine.Proofs.Division.Editing
import Quasiaffine.Proofs.Division.Shape

/-!
Divisions and constraints are kept apart, in the local space and in a list. Whatever is done to a
relation, the constraints stay as wide as the local space asks for, each speaks of some dimension or
division, and the two bounds of every division with a definition are among them.
-/

set_option autoImplicit false

namespace Quasiaffine

def Row.Speaks (r : Row) : Prop := ∃ i, 0 < i ∧ r.entry i ≠ 0

namespace Row

variable {r : Row} {n p q i j : Nat}

theorem exists_ne_zero_of_gcd (h : r.gcd ≠ 0) : ∃ x ∈ r, x ≠ 0 := by
  induction r with
  | nil => exact absurd rfl h
  | cons x r ih =>
    by_cases hx : x = 0
    · rw [gcd, hx, Int.natAbs_zero, Nat.gcd_zero_left] at h
      obtain ⟨y, hy, hne⟩ := ih h
      exact ⟨y, List.mem_cons_of_mem _ hy, hne⟩
    · exact ⟨x, List.mem_cons_self, hx⟩

theorem speaks_cons_iff (x : Int) (r : Row) : Speaks (x :: r) ↔ ∃ y ∈ r, y ≠ 0 := by
  constructor
  · rintro ⟨i, hi, hne⟩
    obtain ⟨i, rfl⟩ := Nat.exists_eq_succ_of_ne_zero (Nat.ne_of_gt hi)
    rw [entry_cons_succ] at hne
    have hlt := lt_length_of_entry_ne_zero hne
    refine ⟨r[i], List.getElem_mem hlt, ?_⟩
    simpa [entry, List.getD_eq_getElem?_getD, hlt] using hne
  · rintro ⟨y, hy, hne⟩
    obtain ⟨i, hi⟩ := List.mem_iff_getElem?.1 hy
    refine ⟨i + 1, i.succ_pos, ?_⟩
    rw [entry_cons_succ, entry, List.getD_eq_getElem?_getD, hi]
    exact hne

structure Carries (f : Row → Row) (n p q : Nat) : Prop where
  neg : ∀ s : Row, f s.neg = (f s).neg
  constant : ∀ s : Row, s.length = n → (f s).entry 0 = s.entry 0
  set_constant : ∀ (s : Row) (x : Int), s.length = n → f (s.set 0 x) = (f s).set 0 x
  set : ∀ (s : Row) (x : Int), s.length = n → f (s.set p x) = (f s).set q x

section InsertZeros

variable {pos : Nat}

theorem insertZeros_neg (s : Row) : s.neg.insertZeros pos n = (s.insertZeros pos n).neg := by
  simp [insertZeros, neg, zeros, List.map_take, List.map_drop]

theorem insertZeros_set (s : Row) (x : Int) (hs : pos ≤ s.length) :
    insertZeros pos n (s.set p x) =
      (s.insertZeros pos n).set (if p < pos then p else p + n) x := by
  refine ext_entry (by simp [length_insertZeros]) fun c => ?_
  have hset : pos ≤ (s.set p x).length := by rwa [List.length_set]
  rw [entry_insertZeros hset, entry_set, entry_set, entry_set, entry_insertZeros hs,
    length_insertZeros]
  split_ifs <;> first | rfl | omega

theorem carries_insertZeros (hpos : 0 < pos) (hn : pos ≤ i) :
    Carries (insertZeros pos n) i p (if p < pos then p else p + n) where
  neg s := insertZeros_neg s
  constant s _ := entry_zero_insertZeros hpos
  set_constant s x hs := by
    rw [insertZeros_set s x (hs ▸ hn), if_pos hpos]
  set s x hs := insertZeros_set s x (hs ▸ hn)

theorem Speaks.insertZeros (h : r.Speaks) (hr : pos ≤ r.length) :
    (r.insertZeros pos n).Speaks := by
  obtain ⟨i, hi, hne⟩ := h
  refine ⟨if i < pos then i else i + n, by split_ifs <;> omega, ?_⟩
  rw [entry_insertZeros hr]
  split_ifs <;> first | omega | simpa using hne

end InsertZeros

section MoveEntries

variable {start target : Nat}

theorem moveEntries_neg (s : Row) :
    s.neg.moveEntries start n target = (s.moveEntries start n target).neg := by
  simp [moveEntries, dropEntries, neg, List.map_take, List.map_drop]

theorem moveEntries_set_zero (s : Row) (x : Int) (hstart : 0 < start) (htarget : 0 < target) :
    moveEntries start n target (s.set 0 x) = (s.moveEntries start n target).set 0 x := by
  obtain ⟨start, rfl⟩ := Nat.exists_eq_succ_of_ne_zero (Nat.ne_of_gt hstart)
  obtain ⟨target, rfl⟩ := Nat.exists_eq_succ_of_ne_zero (Nat.ne_of_gt htarget)
  cases s with
  | nil => simp [moveEntries, dropEntries]
  | cons y s => simp only [List.set_cons_zero, moveEntries_cons]

theorem moveEntries_set (s : Row) (x : Int) (hs : start ≤ target) (ht : target + n ≤ s.length)
    (hp : target + n ≤ p) :
    moveEntries start n target (s.set p x) = (s.moveEntries start n target).set p x := by
  obtain ⟨a, s, ha, rfl⟩ := exists_split (by omega : start ≤ s.length)
  rw [List.length_append] at ht
  obtain ⟨b, s, hb, rfl⟩ := exists_split (by omega : n ≤ s.length)
  rw [List.length_append] at ht
  obtain ⟨c, d, hc, rfl⟩ := exists_split (by omega : target - start ≤ s.length)
  have hmove (d : Row) := moveEntries_append a b c d
  rw [ha, hb, hc, show start + (target - start) = target by omega] at hmove
  have hfront : p = (a ++ b ++ c).length + (p - (target + n)) := by
    simp only [List.length_append]
    omega
  have hback : p = (a ++ c ++ b).length + (p - (target + n)) := by
    simp only [List.length_append]
    omega
  simp only [← List.append_assoc]
  rw [hmove]
  conv_rhs => rw [hback, List.set_append_right _ _ (Nat.le_add_right _ _), Nat.add_sub_cancel_left]
  conv_lhs => rw [hfront, List.set_append_right _ _ (Nat.le_add_right _ _), Nat.add_sub_cancel_left]
  exact hmove _

theorem carries_moveEntries (hstart : 0 < start) (hs : start ≤ target) (ht : target + n ≤ i)
    (hp : target + n ≤ p) : Carries (moveEntries start n target) i p p where
  neg s := moveEntries_neg s
  constant s hi := by
    exact entry_moveEntries_zero hstart (by omega) (by omega)
  set_constant s x _ := moveEntries_set_zero s x hstart (by omega)
  set s x hi := moveEntries_set s x hs (hi ▸ ht) hp

theorem Speaks.moveEntries (h : r.Speaks) (hstart : 0 < start) (htarget : 0 < target) :
    (r.moveEntries start n target).Speaks := by
  obtain ⟨start, rfl⟩ := Nat.exists_eq_succ_of_ne_zero (Nat.ne_of_gt hstart)
  obtain ⟨target, rfl⟩ := Nat.exists_eq_succ_of_ne_zero (Nat.ne_of_gt htarget)
  cases r with
  | nil => simp [Speaks] at h
  | cons y s =>
    rw [moveEntries_cons, speaks_cons_iff]
    obtain ⟨x, hx, hne⟩ := (speaks_cons_iff y s).1 h
    refine ⟨x, ?_, hne⟩
    rw [← List.take_append_drop start s, ← List.take_append_drop n (s.drop start)] at hx
    have hsplit : ∀ t : Row, x ∈ t → x ∈ t.take target ∨ x ∈ t.drop target := fun t ht => by
      rwa [← List.mem_append, List.take_append_drop]
    have hothers := hsplit (dropEntries start n s)
    simp only [dropEntries, List.mem_append, List.drop_drop] at hx hothers
    simp only [Row.moveEntries, dropEntries, List.mem_append]
    tauto

end MoveEntries

section Swap

theorem swap_neg (s : Row) : s.neg.swap i j = (s.swap i j).neg := by
  rw [swap, swap, neg, entry_map (by rfl), entry_map (by rfl), ← List.map_set, ← List.map_set, neg]

theorem carries_swap (hi : 0 < i) (hj : 0 < j) (hin : i < n) (hjn : j < n) :
    Carries (swap i j) n p (Equiv.swap i j p) where
  neg s := swap_neg s
  constant s hs := by
    rw [entry_swap s (hs ▸ hin) (hs ▸ hjn), Equiv.swap_apply_of_ne_of_ne (by omega) (by omega)]
  set_constant s x hs := by
    cases s with
    | nil => simp at hs; omega
    | cons y s =>
      obtain ⟨i, rfl⟩ := Nat.exists_eq_succ_of_ne_zero (Nat.ne_of_gt hi)
      obtain ⟨j, rfl⟩ := Nat.exists_eq_succ_of_ne_zero (Nat.ne_of_gt hj)
      rw [List.set_cons_zero, swap_cons, swap_cons, List.set_cons_zero]
  set s x hs := by
    refine ext_entry (by simp [length_swap]) fun c => ?_
    rw [entry_swap _ (by rw [List.length_set]; omega) (by rw [List.length_set]; omega), entry_set,
      entry_set, entry_swap s (by omega) (by omega), length_swap]
    have hc : p = Equiv.swap i j c ↔ Equiv.swap i j p = c := by
      rw [← Equiv.apply_eq_iff_eq (Equiv.swap i j), Equiv.swap_apply_self]
    have hlt : Equiv.swap i j c < s.length ↔ c < s.length := by
      refine ⟨fun hlt => ?_, fun hlt => swap_lt (by omega) (by omega) hlt⟩
      rw [← Equiv.swap_apply_self i j c]
      exact swap_lt (by omega) (by omega) hlt
    simp only [hc, hlt]

theorem Speaks.swap (h : r.Speaks) (hi : 0 < i) (hj : 0 < j) (hin : i < r.length)
    (hjn : j < r.length) : (r.swap i j).Speaks := by
  obtain ⟨k, hk, hne⟩ := h
  refine ⟨Equiv.swap i j k, ?_, by rwa [entry_swap r hin hjn, Equiv.swap_apply_self]⟩
  rw [Equiv.swap_apply_def]
  split_ifs <;> omega

end Swap

end Row

theorem Constraint.speaks_of_normalize_kept {c d : Constraint} (h : c.normalize = .kept d) :
    d.row.Speaks := by
  obtain ⟨row, kind⟩ := c
  cases row with
  | nil => simp [normalize] at h
  | cons constant coeffs =>
    simp only [normalize] at h
    split_ifs at h with hg0 hadm hdvd hg1 <;> obtain rfl := Normalized.kept.inj h <;>
      obtain ⟨x, hx, hne⟩ := Row.exists_ne_zero_of_gcd (r := coeffs) (by exact_mod_cast hg0)
    · exact (Row.speaks_cons_iff _ _).2 ⟨x, hx, hne⟩
    · refine (Row.speaks_cons_iff _ _).2 ⟨_, List.mem_map.2 ⟨x, hx, rfl⟩, fun hzero => hne ?_⟩
      have := Int.mul_tdiv_cancel' (Row.gcd_dvd hx)
      rw [← this, hzero, Int.mul_zero]

namespace BasicRelation

/-- Widths are right, each constraint speaks of a dimension or division, and the bounds of the
divisions of which `p` holds are among the constraints. -/
structure CoupledOn (p : Nat → Prop) (b : BasicRelation) : Prop where
  shaped : b.ls.Shaped
  proper : b.space.Proper
  width : ∀ c ∈ b.constraints, c.width = b.width
  speaks : ∀ c ∈ b.constraints, c.row.Speaks
  bounds : ∀ k, p k → ∀ lower upper, b.divBounds? k = some (lower, upper) →
    lower ∈ b.constraints ∧ upper ∈ b.constraints

abbrev Coupled : BasicRelation → Prop := CoupledOn fun _ => True

variable {p : Nat → Prop} {a b b' : BasicRelation} {c lower upper : Constraint} {k : Nat}

theorem divBounds?_eq_of_ls_eq (h : a.ls = b.ls) : a.divBounds? k = b.divBounds? k := by
  simp only [divBounds?, space, h]

theorem width_eq_of_shaped (h : b.ls.Shaped) {r : Row} (hr : r ∈ b.ls.divs.rows) :
    (r.drop 1).length = b.width := by
  rw [List.length_drop, h.rows r hr, BasicRelation.width, LocalSpace.total, LocalSpace.divCount,
    Matrix.height]
  omega

theorem divBounds_spec (h : b.ls.Shaped) (hb : b.divBounds? k = some (lower, upper)) :
    (lower.width = b.width ∧ lower.row.Speaks) ∧ upper.width = b.width ∧ upper.row.Speaks := by
  obtain ⟨r, hr, hk, rfl, rfl⟩ := divBounds?_eq_some_iff.1 hb
  have hlen := width_eq_of_shaped h (List.mem_of_getElem? hr)
  have hlt := (List.getElem?_eq_some_iff.1 hr).1
  have hpos : 1 + b.space.total + k < (r.drop 1).length := by
    rw [hlen, width, LocalSpace.total, LocalSpace.divCount, Matrix.height, space]
    omega
  have hentry : (b.lowerBound r k).entry (1 + b.space.total + k) = -r.entry 0 := by
    rw [lowerBound, Row.entry_set, if_pos ⟨rfl, hpos⟩]
  rw [Division.isKnown_iff] at hk
  refine ⟨⟨?_, 1 + b.space.total + k, by omega, ?_⟩, ?_, 1 + b.space.total + k, by omega, ?_⟩
  · rw [Constraint.width, lowerBound, List.length_set, hlen]
  · rw [hentry]
    omega
  · rw [Constraint.width, List.length_set, Row.length_neg, lowerBound, List.length_set, hlen]
  · rw [Row.entry_set, if_neg (by omega), Row.neg, Row.entry_map (by rfl), hentry]
    omega

theorem mem_insert_of_isInequality (hc : c.kind = .inequality) : c ∈ (b.insert c).constraints := by
  unfold insert
  split
  · rename_i hany
    obtain ⟨d, hd, hsame⟩ := List.any_eq_true.1 hany
    simp only [Constraint.isSame, Bool.and_eq_true, beq_iff_eq, Bool.or_eq_true,
      Constraint.isEquality] at hsame
    obtain ⟨hkind, hrow | ⟨heq, -⟩⟩ := hsame
    · obtain rfl : d = c := by
        cases d
        cases c
        simp_all
      exact hd
    · rw [hkind, hc] at heq
      cases heq
  · exact List.mem_append_right _ (List.mem_singleton.2 rfl)

namespace CoupledOn

theorem insert (h : CoupledOn p b) (hw : c.width = b.width) (hc : c.row.Speaks) :
    CoupledOn p (b.insert c) := by
  refine ⟨by simpa using h.shaped, by simpa [space] using h.proper, fun d hd => ?_, fun d hd => ?_,
    fun k hk lower upper hb => ?_⟩
  · rw [width_insert]
    exact (mem_constraints_insert hd).elim (h.width d) fun heq => heq ▸ hw
  · exact (mem_constraints_insert hd).elim (h.speaks d) fun heq => heq ▸ hc
  · rw [divBounds?_eq_of_ls_eq (ls_insert b c)] at hb
    obtain ⟨hl, hu⟩ := h.bounds k hk lower upper hb
    exact ⟨subset_insert b c hl, subset_insert b c hu⟩

theorem insertDivBounds (h : CoupledOn p b) (k : Nat) :
    CoupledOn (fun i => p i ∨ i = k) (b.insertDivBounds k) := by
  unfold BasicRelation.insertDivBounds
  split
  · rename_i lower upper hb
    obtain ⟨⟨hwl, hsl⟩, hwu, hsu⟩ := divBounds_spec h.shaped hb
    obtain ⟨r, -, -, hl, hu⟩ := divBounds?_eq_some_iff.1 hb
    have hins := (h.insert hwl hsl).insert (c := upper) (by simpa using hwu) hsu
    refine ⟨hins.shaped, hins.proper, hins.width, hins.speaks, ?_⟩
    rintro i (hi | rfl) lower' upper' hb'
    · exact hins.bounds i hi lower' upper' hb'
    · rw [divBounds?_eq_of_ls_eq (b := b) (by simp), hb] at hb'
      obtain ⟨rfl, rfl⟩ := Prod.mk.inj (Option.some.inj hb')
      exact ⟨subset_insert _ _ (mem_insert_of_isInequality (by rw [hl])),
        mem_insert_of_isInequality (by rw [hu])⟩
  · rename_i hb
    refine ⟨h.shaped, h.proper, h.width, h.speaks, ?_⟩
    rintro i (hi | rfl) lower upper hb'
    · exact h.bounds i hi lower upper hb'
    · rw [hb] at hb'
      cases hb'

end CoupledOn

theorem coupled_ofLocalSpace {ls : LocalSpace} (h : ls.Shaped) (hs : ls.space.Proper) :
    (ofLocalSpace ls).Coupled := by
  have hinv : CoupledOn (· < ls.divCount) (ofLocalSpace ls) :=
    foldl_range_induction (P := fun n b => CoupledOn (· < n) b)
      ⟨h, hs, by simp, by simp, by simp⟩ fun i _ b hb => by
        have := hb.insertDivBounds i
        exact ⟨this.shaped, this.proper, this.width, this.speaks,
          fun k hk => this.bounds k (by omega)⟩
  refine ⟨hinv.shaped, hinv.proper, hinv.width, hinv.speaks, fun k _ lower upper hb => ?_⟩
  obtain ⟨r, hr, -⟩ := divBounds?_eq_some_iff.1 hb
  rw [ls_ofLocalSpace] at hr
  exact hinv.bounds k (List.getElem?_eq_some_iff.1 hr).1 lower upper hb

namespace Coupled

theorem setContradictory (h : b.Coupled) (contradictory : Bool) :
    Coupled { b with contradictory } :=
  ⟨h.shaped, h.proper, h.width, h.speaks, h.bounds⟩

theorem addConstraint (h : b.Coupled) (hok : b.addConstraint c = .ok b') :
    b'.Coupled ∧ b'.ls = b.ls := by
  simp only [BasicRelation.addConstraint, bind_eq_ok_iff, require_eq_ok_iff, exists_const,
    beq_iff_eq] at hok
  obtain ⟨hwidth, hok⟩ := hok
  cases hn : c.normalize with
  | trivial =>
    rw [hn] at hok
    exact Except.ok.inj hok ▸ ⟨h, rfl⟩
  | infeasible =>
    rw [hn] at hok
    exact Except.ok.inj hok ▸ ⟨h.setContradictory true, rfl⟩
  | kept d =>
    rw [hn] at hok
    obtain rfl := Except.ok.inj hok
    exact ⟨h.insert ((Constraint.width_of_normalize_kept hn).trans hwidth)
      (Constraint.speaks_of_normalize_kept hn), ls_insert b d⟩

theorem addConstraints {cs : List Constraint} (h : b.Coupled)
    (hok : b.addConstraints cs = .ok b') : b'.Coupled :=
  foldlM_induction (P := Coupled) (fun _ _ _ _ hstep hb => (hb.addConstraint hstep).1) h hok

/-- Columns of constraints change as those of division rows do. -/
theorem mapConstraints {ls : LocalSpace} {f : Row → Row} (h : b.Coupled) (hls : ls.Shaped)
    (hs : ls.space.Proper) (hlength : ∀ s : Row, s.length = b.width → (f s).length = 1 + ls.total)
    (hspeaks : ∀ s : Row, s.length = b.width → s.Speaks → (f s).Speaks)
    (hdiv : ∀ k r', ls.divs.rows[k]? = some r' → Division.isKnown r' = true →
      ∃ i r, b.ls.divs.rows[i]? = some r ∧ r'.entry 0 = r.entry 0 ∧ r'.drop 1 = f (r.drop 1) ∧
        Row.Carries f b.width (1 + b.space.total + i) (1 + ls.space.total + k)) :
    (b.mapConstraints ls fun c => { c with row := f c.row }).Coupled := by
  refine ⟨hls, hs, fun c hc => ?_, fun c hc => ?_, fun k _ lower upper hb => ?_⟩
  · obtain ⟨d, hd, rfl⟩ := List.mem_map.1 hc
    exact hlength d.row (h.width d hd)
  · obtain ⟨d, hd, rfl⟩ := List.mem_map.1 hc
    exact hspeaks d.row (h.width d hd) (h.speaks d hd)
  · obtain ⟨r', hr', hk, rfl, rfl⟩ := divBounds?_eq_some_iff.1 hb
    obtain ⟨i, r, hr, hentry, hdrop, hf⟩ := hdiv k r' hr' hk
    have hlen := width_eq_of_shaped h.shaped (List.mem_of_getElem? hr)
    have hlower : (b.mapConstraints ls fun c => { c with row := f c.row }).lowerBound r' k =
        f (b.lowerBound r i) := by
      rw [lowerBound, lowerBound, hf.set _ _ hlen, hdrop, hentry]
      rfl
    have hneg : (b.lowerBound r i).neg.length = b.width := by
      rw [Row.length_neg, lowerBound, List.length_set, hlen]
    have hknown : Division.isKnown r = true := by
      rw [Division.isKnown_iff] at hk ⊢
      rwa [← hentry]
    have hmem := h.bounds i trivial _ _
      (divBounds?_eq_some_iff.2 ⟨r, hr, hknown, rfl, rfl⟩)
    refine ⟨List.mem_map.2 ⟨_, hmem.1, ?_⟩, List.mem_map.2 ⟨_, hmem.2, ?_⟩⟩
    · simp only [hlower]
    · simp only [hlower, hf.set_constant _ _ hneg, hf.neg, ← hf.constant _ hneg, hentry]

end Coupled

end BasicRelation

end Quasiaffine

import Quasiaffine.BasicRelation.Basic
import Quasiaffine.Proofs.Constraint
import Quasiaffine.Proofs.Division.Value
import Quasiaffine.Proofs.Space

/-!
The points of a basic relation. A point belongs to it if there are values of the divisions, those
with a definition taking the value that it gives, with which all constraints hold. Each operation
has its law: which points its result has, given those of its operands.
-/

set_option autoImplicit false

namespace Quasiaffine

namespace BasicRelation

structure Admits (b : BasicRelation) (values : Row) : Prop where
  consistent : b.contradictory = false
  satisfied : ∀ c ∈ b.constraints, c.isSatisfied values = true

structure Holds (b : BasicRelation) (x d : Row) : Prop where
  assigns : b.ls.Assigns x d
  admits : b.Admits (1 :: (x ++ d))

instance : Membership Row BasicRelation where
  mem b x := x.length = b.space.total ∧ ∃ d, b.Holds x d

theorem mem_iff {b : BasicRelation} {x : Row} :
    x ∈ b ↔ x.length = b.space.total ∧ ∃ d, b.Holds x d := Iff.rfl

/-- All rows are as wide as the local space asks for, divisions refer to earlier ones only, and no
denominator is negative. -/
structure WellFormed (b : BasicRelation) : Prop where
  divisions : b.ls.WellFormed
  positive : ∀ r ∈ b.ls.divs.rows, 0 ≤ r.entry 0
  width : ∀ c ∈ b.constraints, c.width = b.width

def EachSolvable (b : BasicRelation) : Prop :=
  ∀ c ∈ b.constraints, ∃ v, c.isSatisfied (1 :: v) = true

variable {b : BasicRelation} {c : Constraint} {v x d : Row}

theorem admits_map_iff {ls : LocalSpace} {f : Constraint → Constraint} {v v' : Row}
    (h : ∀ c ∈ b.constraints, (f c).isSatisfied v = c.isSatisfied v') :
    (b.mapConstraints ls f).Admits v ↔ b.Admits v' := by
  constructor
  · rintro ⟨hcon, hsat⟩
    exact ⟨hcon, fun c hc => (h c hc) ▸ hsat (f c) (List.mem_map.2 ⟨c, hc, rfl⟩)⟩
  · rintro ⟨hcon, hsat⟩
    refine ⟨hcon, fun c hc => ?_⟩
    obtain ⟨c', hc', rfl⟩ := List.mem_map.1 hc
    rw [h c' hc', hsat c' hc']

section Insert

@[simp] theorem ls_insert (b : BasicRelation) (c : Constraint) : (b.insert c).ls = b.ls := by
  unfold insert
  split <;> rfl

@[simp] theorem width_insert (b : BasicRelation) (c : Constraint) : (b.insert c).width = b.width := by
  rw [width, ls_insert, width]

@[simp] theorem contradictory_insert (b : BasicRelation) (c : Constraint) :
    (b.insert c).contradictory = b.contradictory := by
  unfold insert
  split <;> rfl

theorem mem_constraints_insert {c' : Constraint} (h : c' ∈ (b.insert c).constraints) :
    c' ∈ b.constraints ∨ c' = c := by
  unfold insert at h
  split at h
  · exact .inl h
  · simpa using h

theorem subset_insert (b : BasicRelation) (c : Constraint) :
    b.constraints ⊆ (b.insert c).constraints := by
  unfold insert
  split <;> simp

theorem WellFormed.insert (h : b.WellFormed) (hc : c.width = b.width) :
    (b.insert c).WellFormed := by
  refine ⟨by simpa using h.divisions, by simpa using h.positive, fun c' hc' => ?_⟩
  rw [width_insert]
  rcases mem_constraints_insert hc' with hc' | rfl
  · exact h.width c' hc'
  · exact hc

theorem EachSolvable.insert (h : b.EachSolvable) (hc : ∃ v, c.isSatisfied (1 :: v) = true) :
    (b.insert c).EachSolvable := by
  intro c' hc'
  rcases mem_constraints_insert hc' with hc' | rfl
  · exact h c' hc'
  · exact hc

theorem admits_insert (hb : ∀ c ∈ b.constraints, c.width = b.width) (hc : c.width = b.width) :
    (b.insert c).Admits v ↔ b.Admits v ∧ c.isSatisfied v = true := by
  constructor
  · rintro ⟨hcon, hsat⟩
    rw [contradictory_insert] at hcon
    unfold BasicRelation.insert at hsat
    split at hsat
    · rename_i hany
      obtain ⟨c', hc', hsame⟩ := List.any_eq_true.1 hany
      refine ⟨⟨hcon, hsat⟩, ?_⟩
      rw [← Constraint.isSatisfied_of_isSame hsame ((hb c' hc').trans hc.symm)]
      exact hsat c' hc'
    · simp only [List.mem_append, List.mem_singleton, or_imp, forall_and, forall_eq] at hsat
      exact ⟨⟨hcon, hsat.1⟩, hsat.2⟩
  · rintro ⟨⟨hcon, hsat⟩, hc⟩
    refine ⟨by rw [contradictory_insert, hcon], fun c' hc' => ?_⟩
    rcases mem_constraints_insert hc' with hc' | rfl
    · exact hsat c' hc'
    · exact hc

end Insert

section DivBounds

variable {r : Row} {k : Nat} {lower upper : Constraint}

theorem eq_fdiv_iff {f m q : Int} (hm : 0 < m) :
    (0 ≤ f - m * q ∧ 0 ≤ -(f - m * q) + (m - 1)) ↔ q = f.fdiv m := by
  rw [Int.fdiv_eq_ediv_of_nonneg _ (Int.le_of_lt hm)]
  constructor
  · rintro ⟨hl, hu⟩
    exact ((Int.ediv_emod_unique hm).2 ⟨Int.sub_add_cancel f (m * q), hl, by omega⟩).1.symm
  · rintro rfl
    have := Int.emod_nonneg f (Int.ne_of_gt hm)
    have := Int.emod_lt_of_pos f hm
    have := Int.emod_def f m
    omega

def lowerBound (b : BasicRelation) (r : Row) (k : Nat) : Row :=
  (r.drop 1).set (1 + b.space.total + k) (-r.entry 0)

theorem dot_lowerBound (h : b.ls.WellFormed) (hr : b.ls.divs.rows[k]? = some r) (v : Row) :
    (b.lowerBound r k).dot (1 :: v) =
      Row.dot (r.drop 1) (1 :: v) - r.entry 0 * v.entry (b.space.total + k) := by
  have hlen := h.triangular.length_row r (List.mem_of_getElem? hr)
  have hlt := (List.getElem?_eq_some_iff.1 hr).1
  have htotal : b.ls.space.total = b.space.total := rfl
  have hpos : 1 + b.space.total + k < (r.drop 1).length := by
    rw [List.length_drop]
    omega
  have hcoeff : Row.entry (r.drop 1) (1 + b.space.total + k) = 0 := by
    rw [Row.entry_drop]
    exact h.triangular.zero_from k r hr _ (by omega)
  have hval : Row.entry (1 :: v) (1 + b.space.total + k) = v.entry (b.space.total + k) := by
    rw [Nat.add_assoc, Nat.add_comm 1, Row.entry_cons_succ]
  rw [lowerBound, Row.dot_set hpos, hcoeff, hval]
  ring

theorem divBounds?_eq_some_iff : b.divBounds? k = some (lower, upper) ↔
    ∃ r, b.ls.divs.rows[k]? = some r ∧ Division.isKnown r = true ∧
      lower = ⟨b.lowerBound r k, .inequality⟩ ∧
      upper = ⟨(b.lowerBound r k).neg.set 0 ((b.lowerBound r k).neg.entry 0 + (r.entry 0 - 1)),
        .inequality⟩ := by
  simp only [divBounds?, LocalSpace.div?, Division.isKnown_iff, lowerBound]
  cases b.ls.divs.rows[k]? with
  | none => simp
  | some r =>
    by_cases hm : r.entry 0 = 0
    · simp [hm]
    · simp only [hm, if_false, Option.some.injEq, Prod.mk.injEq, exists_eq_left', not_false_eq_true,
        true_and, ne_eq]
      exact and_congr eq_comm eq_comm

theorem width_divBounds (hb : b.divBounds? k = some (lower, upper)) (h : b.ls.WellFormed) :
    lower.width = b.width ∧ upper.width = b.width := by
  obtain ⟨r, hr, -, rfl, rfl⟩ := divBounds?_eq_some_iff.1 hb
  have hlen := h.triangular.length_row r (List.mem_of_getElem? hr)
  simp only [Constraint.width, lowerBound, List.length_set, List.length_drop, Row.length_neg, hlen,
    width, LocalSpace.total, space, LocalSpace.divCount, Matrix.height]
  omega

/-- The two bounds of a division say that it has the value that its definition gives. -/
theorem isSatisfied_divBounds (hb : b.divBounds? k = some (lower, upper)) (h : b.ls.WellFormed)
    (hp : ∀ r ∈ b.ls.divs.rows, 0 ≤ r.entry 0) (hr : b.ls.divs.rows[k]? = some r)
    (hx : x.length = b.space.total) :
    (lower.isSatisfied (1 :: (x ++ d)) = true ∧ upper.isSatisfied (1 :: (x ++ d)) = true) ↔
      d.entry k = Division.value r (1 :: (x ++ d)) := by
  obtain ⟨r', hr', hk, rfl, rfl⟩ := divBounds?_eq_some_iff.1 hb
  obtain rfl := Option.some.inj (hr.symm.trans hr')
  rw [Division.isKnown_iff] at hk
  have hm := hp r (List.mem_of_getElem? hr)
  have hlen := h.triangular.length_row r (List.mem_of_getElem? hr)
  have hdot : (b.lowerBound r k).dot (1 :: (x ++ d)) =
      Row.dot (r.drop 1) (1 :: (x ++ d)) - r.entry 0 * d.entry k := by
    rw [dot_lowerBound h hr, ← hx, Row.entry_append_right]
  have hneg : 0 < (b.lowerBound r k).neg.length := by
    rw [Row.length_neg, lowerBound, List.length_set, List.length_drop]
    omega
  rw [Constraint.isSatisfied_iff, Constraint.isSatisfied_iff, ConstraintKind.admits_iff,
    ConstraintKind.admits_iff, Division.value, ← eq_fdiv_iff (by omega)]
  simp only [Row.dot_set hneg, Row.dot_neg, hdot, Row.entry_cons_zero]
  constructor <;> rintro ⟨hl, hu⟩ <;> constructor <;> linarith

theorem ls_insertDivBounds (b : BasicRelation) (k : Nat) : (b.insertDivBounds k).ls = b.ls := by
  unfold insertDivBounds
  split <;> simp

theorem contradictory_insertDivBounds (b : BasicRelation) (k : Nat) :
    (b.insertDivBounds k).contradictory = b.contradictory := by
  unfold insertDivBounds
  split <;> simp

theorem WellFormed.insertDivBounds (h : b.WellFormed) (k : Nat) :
    (b.insertDivBounds k).WellFormed := by
  unfold BasicRelation.insertDivBounds
  split
  · rename_i lower upper hb
    obtain ⟨hl, hu⟩ := width_divBounds hb h.divisions
    exact (h.insert hl).insert (by simpa using hu)
  · exact h

/-- Adding the bounds of a division takes no point away. -/
theorem Holds.insertDivBounds (h : b.Holds x d) (hb : b.WellFormed) (hx : x.length = b.space.total)
    (k : Nat) : (b.insertDivBounds k).Holds x d := by
  refine ⟨by rw [ls_insertDivBounds]; exact h.assigns, ?_⟩
  unfold BasicRelation.insertDivBounds
  split
  · rename_i lower upper hbounds
    obtain ⟨hl, hu⟩ := width_divBounds hbounds hb.divisions
    obtain ⟨r, hr, hk, -⟩ := divBounds?_eq_some_iff.1 hbounds
    have hsat := (isSatisfied_divBounds hbounds hb.divisions hb.positive hr hx).2
      (h.assigns.value k r hr hk)
    rw [admits_insert (hb.insert hl).width (by simpa using hu), admits_insert hb.width hl]
    exact ⟨⟨h.admits, hsat.1⟩, hsat.2⟩
  · exact h.admits

theorem EachSolvable.insertDivBounds (h : b.EachSolvable) (hb : b.WellFormed) (k : Nat) :
    (b.insertDivBounds k).EachSolvable := by
  -- Each bound of a division holds at the values of the divisions, of which there always
  -- are some.
  unfold BasicRelation.insertDivBounds
  split
  · rename_i lower upper hbounds
    have hx : (Row.zeros b.space.total).length = b.space.total := Row.length_zeros _
    obtain ⟨d, hd⟩ := LocalSpace.exists_assigns hb.divisions hx
    obtain ⟨r, hr, hk, -⟩ := divBounds?_eq_some_iff.1 hbounds
    have hsat := (isSatisfied_divBounds hbounds hb.divisions hb.positive hr hx).2 (hd.value k r hr hk)
    exact (h.insert ⟨_, hsat.1⟩).insert ⟨_, hsat.2⟩
  · exact h

theorem Holds.of_insertDivBounds (h : (b.insertDivBounds k).Holds x d) : b.Holds x d := by
  have hls := ls_insertDivBounds b k
  have hcon := contradictory_insertDivBounds b k
  refine ⟨hls ▸ h.assigns, hcon ▸ h.admits.consistent, fun c hc => h.admits.satisfied c ?_⟩
  unfold BasicRelation.insertDivBounds
  split
  · exact subset_insert _ _ (subset_insert _ _ hc)
  · exact hc

end DivBounds

section OfLocalSpace

variable {ls : LocalSpace}

theorem ofLocalSpace_induction (ls : LocalSpace) {P : BasicRelation → Prop} (h0 : P ⟨ls, [], false⟩)
    (step : ∀ b k, P b → P (b.insertDivBounds k)) : P (ofLocalSpace ls) :=
  foldl_range_induction (P := fun _ => P) h0 fun k _ b h => step b k h

@[simp] theorem ls_ofLocalSpace (ls : LocalSpace) : (ofLocalSpace ls).ls = ls :=
  ofLocalSpace_induction ls (P := fun b => b.ls = ls) rfl fun b k h => by
    rw [ls_insertDivBounds, h]

@[simp] theorem contradictory_ofLocalSpace (ls : LocalSpace) :
    (ofLocalSpace ls).contradictory = false :=
  ofLocalSpace_induction ls (P := fun b => b.contradictory = false) rfl fun b k h => by
    rw [contradictory_insertDivBounds, h]

theorem wellFormed_ofLocalSpace (h : ls.WellFormed) (hp : ∀ r ∈ ls.divs.rows, 0 ≤ r.entry 0) :
    (ofLocalSpace ls).WellFormed :=
  ofLocalSpace_induction ls ⟨h, hp, by simp⟩ fun _ k h => h.insertDivBounds k

theorem holds_ofLocalSpace_iff (h : ls.WellFormed) (hp : ∀ r ∈ ls.divs.rows, 0 ≤ r.entry 0)
    (hx : x.length = ls.space.total) : (ofLocalSpace ls).Holds x d ↔ ls.Assigns x d := by
  constructor
  · intro hd
    simpa using hd.assigns
  · intro hd
    have hinv := ofLocalSpace_induction ls
      (P := fun b => b.WellFormed ∧ b.ls = ls ∧ b.Holds x d)
      ⟨⟨h, hp, by simp⟩, rfl, hd, rfl, by simp⟩
      fun b k ⟨hb, hls, hd⟩ => ⟨hb.insertDivBounds k, by rw [ls_insertDivBounds, hls],
        hd.insertDivBounds hb (by rw [space, hls, hx]) k⟩
    exact hinv.2.2

theorem mem_ofLocalSpace_iff (h : ls.WellFormed) (hp : ∀ r ∈ ls.divs.rows, 0 ≤ r.entry 0) :
    x ∈ ofLocalSpace ls ↔ x.length = ls.space.total := by
  rw [mem_iff, space, ls_ofLocalSpace]
  refine and_iff_left_of_imp fun hx => ?_
  obtain ⟨d, hd⟩ := LocalSpace.exists_assigns h hx
  exact ⟨d, (holds_ofLocalSpace_iff h hp hx).2 hd⟩

theorem eachSolvable_ofLocalSpace (h : ls.WellFormed) (hp : ∀ r ∈ ls.divs.rows, 0 ≤ r.entry 0) :
    (ofLocalSpace ls).EachSolvable :=
  (ofLocalSpace_induction ls (P := fun b => b.WellFormed ∧ b.EachSolvable)
    ⟨⟨h, hp, by simp⟩, by simp [EachSolvable]⟩
    fun _ k ⟨hb, hs⟩ => ⟨hb.insertDivBounds k, hs.insertDivBounds hb k⟩).2

end OfLocalSpace

section AddConstraint

/-- A constraint is added in lowest terms. The relation is marked if no point satisfies it. -/
theorem addConstraint_eq_ok (h : b.WellFormed) (hc : c.width = b.width) :
    ∃ b', b.addConstraint c = .ok b' ∧ b'.ls = b.ls ∧ b'.WellFormed ∧
      (b.EachSolvable → b'.EachSolvable) ∧
      (b'.contradictory = false ↔
        b.contradictory = false ∧ ∃ v, c.isSatisfied (1 :: v) = true) ∧
      (∀ v, b'.Admits (1 :: v) ↔ b.Admits (1 :: v) ∧ c.isSatisfied (1 :: v) = true) := by
  rw [addConstraint]
  simp only [hc, beq_self_eq_true, require, if_true, bind, Except.bind, pure, Except.pure]
  have hsolvable := Constraint.exists_isSatisfied_iff c
  cases hn : c.normalize with
  | trivial =>
    rw [hn] at hsolvable
    refine ⟨b, rfl, rfl, h, id, by simp [hsolvable], fun v => ?_⟩
    rw [Constraint.isSatisfied_of_normalize_trivial hn]
    simp
  | infeasible =>
    rw [hn] at hsolvable
    refine ⟨{ b with contradictory := true }, rfl, rfl, ⟨h.divisions, h.positive, h.width⟩, id,
      by simp [hsolvable], fun v => ?_⟩
    rw [Constraint.not_isSatisfied_of_normalize_infeasible hn]
    constructor
    · intro hv
      cases hv.consistent
    · rintro ⟨-, hv⟩
      cases hv
  | kept k =>
    rw [hn] at hsolvable
    have hk : k.width = b.width := (Constraint.width_of_normalize_kept hn).trans hc
    have hsat := Constraint.isSatisfied_of_normalize_kept hn
    refine ⟨b.insert k, rfl, ls_insert b k, h.insert hk, fun hb => hb.insert ?_,
      by simp [hsolvable], fun v => ?_⟩
    · obtain ⟨v, hv⟩ := hsolvable.2 (by simp)
      exact ⟨v, (hsat v).trans hv⟩
    · rw [admits_insert h.width hk, hsat]

theorem addConstraints_eq_ok (cs : List Constraint) (h : b.WellFormed)
    (hc : ∀ c ∈ cs, c.width = b.width) :
    ∃ b', b.addConstraints cs = .ok b' ∧ b'.ls = b.ls ∧ b'.WellFormed ∧
      (b.EachSolvable → b'.EachSolvable) ∧
      (b'.contradictory = false ↔
        b.contradictory = false ∧ ∀ c ∈ cs, ∃ v, c.isSatisfied (1 :: v) = true) ∧
      (∀ v, b'.Admits (1 :: v) ↔
        b.Admits (1 :: v) ∧ ∀ c ∈ cs, c.isSatisfied (1 :: v) = true) := by
  induction cs generalizing b with
  | nil => exact ⟨b, rfl, rfl, h, id, by simp, by simp⟩
  | cons c cs ih =>
    obtain ⟨b₁, hok₁, hls₁, hwf₁, hs₁, hcon₁, hadm₁⟩ :=
      addConstraint_eq_ok h (hc c List.mem_cons_self)
    have hwidth : b₁.width = b.width := by rw [width, hls₁, width]
    obtain ⟨b₂, hok₂, hls₂, hwf₂, hs₂, hcon₂, hadm₂⟩ := ih hwf₁ fun c' hc' => by
      rw [hwidth, hc c' (List.mem_cons_of_mem c hc')]
    refine ⟨b₂, ?_, hls₂.trans hls₁, hwf₂, fun hb => hs₂ (hs₁ hb), ?_, fun v => ?_⟩
    · rw [addConstraints, List.foldlM_cons, hok₁]
      exact hok₂
    · rw [hcon₂, hcon₁, List.forall_mem_cons, and_assoc]
    · rw [hadm₂, hadm₁, List.forall_mem_cons, and_assoc]

end AddConstraint

section Expand

variable {ls : LocalSpace} {e : List Nat}

theorem width_expandedConstraints (h : b.WellFormed) {n : Nat} :
    ∀ c ∈ b.expandedConstraints e n, c.width = 1 + b.space.total + n := by
  intro c hc
  obtain ⟨c', hc', rfl⟩ := List.mem_map.1 hc
  have hw := h.width c' hc'
  rw [Constraint.width, Row.length_expand]
  simp only [Constraint.width, width, LocalSpace.total, space] at hw ⊢
  omega

/-- The constraints over other divisions hold at values of these as they did at the old ones. -/
theorem expandedConstraints_isSatisfied (h : b.WellFormed) {n : Nat} (hd : e.Nodup)
    (hlt : ∀ k ∈ e, k < n) (hx : x.length = b.space.total) :
    (∀ c ∈ b.expandedConstraints e n, c.isSatisfied (1 :: (x ++ d)) = true) ↔
      ∀ c ∈ b.constraints, c.isSatisfied (1 :: (x ++ e.map d.entry)) = true := by
  simp only [expandedConstraints, List.forall_mem_map]
  refine forall₂_congr fun c hc => ?_
  have hw := h.width c hc
  have := Constraint.isSatisfied_expand (c := c) (d := d) (u := 1 :: x) rfl
    (by simp [hw, hx, width, LocalSpace.total, space]; omega) hd hlt
  rw [List.length_cons, hx, Nat.add_comm] at this
  rw [← List.cons_append, this, List.cons_append]

theorem eachSolvable_expandedConstraints (h : b.WellFormed) {n : Nat} (hd : e.Nodup)
    (hlt : ∀ k ∈ e, k < n) (hl : e.length = b.ls.divCount) (hs : b.EachSolvable) :
    ∀ c ∈ b.expandedConstraints e n, ∃ v, c.isSatisfied (1 :: v) = true := by
  intro c hc
  obtain ⟨c', hc', rfl⟩ := List.mem_map.1 hc
  have hw := h.width c' hc'
  obtain ⟨v, hvl, hv⟩ := Constraint.exists_isSatisfied_of_length (n := b.ls.total)
    (by rw [hw, width]) (hs c' hc')
  have hvl' : v.length = b.space.total + b.ls.divCount := hvl
  obtain ⟨d, hd'⟩ := LocalSpace.exists_map_entry (p := v.drop b.space.total) hd hlt
    (by simp [hvl', hl])
  refine ⟨v.take b.space.total ++ d, ?_⟩
  have := Constraint.isSatisfied_expand (c := c') (d := d) (u := 1 :: v.take b.space.total) rfl
    (by simp [hw, hvl', width, LocalSpace.total, space]; omega) hd hlt
  rw [hd', List.cons_append, List.cons_append, List.take_append_drop, hv] at this
  rw [← this]
  congr 3
  simp [hvl']
  omega

/-- The relation over a local space that has its divisions and others. Its constraints are in
lowest terms, so each of them has a solution. -/
theorem expandInto_eq_ok (h : b.WellFormed) (hls : ls.WellFormed)
    (hp : ∀ r ∈ ls.divs.rows, 0 ≤ r.entry 0) (ht : ls.space.total = b.space.total)
    (hd : e.Nodup) (hlt : ∀ k ∈ e, k < ls.divs.rows.length) (hl : e.length = b.ls.divCount) :
    ∃ b', b.expandInto ls e = .ok b' ∧ b'.ls = ls ∧ b'.WellFormed ∧ b'.EachSolvable ∧
      (b.EachSolvable → (b'.contradictory = false ↔ b.contradictory = false)) ∧
      ∀ x d, x.length = b.space.total → ls.Assigns x d →
        (b'.Admits (1 :: (x ++ d)) ↔ b.Admits (1 :: (x ++ e.map d.entry))) := by
  have hfull := wellFormed_ofLocalSpace hls hp
  have hbounds := fun x d hx => holds_ofLocalSpace_iff (x := x) (d := d) hls hp hx
  have hsolvable := eachSolvable_ofLocalSpace hls hp
  have hls' := ls_ofLocalSpace ls
  rw [expandInto]
  generalize ofLocalSpace ls = full at *
  have hstart : WellFormed ⟨full.ls, full.constraints, b.contradictory⟩ :=
    ⟨hfull.divisions, hfull.positive, hfull.width⟩
  obtain ⟨b', hok, hls'', hwf, hs, hcon, hadm⟩ := addConstraints_eq_ok
    (b.expandedConstraints e ls.divCount) hstart fun c hc => by
      rw [width_expandedConstraints h c hc, width, hls', LocalSpace.total, ht]
      omega
  refine ⟨b', hok, hls''.trans hls', hwf, hs hsolvable, fun hb => ?_, fun x d hx ha => ?_⟩
  · rw [hcon]
    exact and_iff_left (eachSolvable_expandedConstraints h hd hlt hl hb)
  · have hsat := ((hbounds x d (hx.trans ht.symm)).2 ha).admits.satisfied
    rw [hadm, LocalSpace.divCount, Matrix.height, expandedConstraints_isSatisfied h hd hlt hx]
    exact ⟨fun h => ⟨h.1.consistent, h.2⟩,
      fun hc => ⟨⟨hc.consistent, hsat⟩, hc.satisfied⟩⟩

theorem positive_merge {a b : BasicRelation} {m : LocalSpace} {f : List Nat} (ha : a.WellFormed)
    (hb : b.WellFormed) (ht : a.space.total = b.space.total)
    (hm : IsMerge (2 + a.space.total) a.ls.divs.rows b.ls.divs.rows m.divs.rows e f) :
    ∀ r ∈ m.divs.rows, 0 ≤ r.entry 0 := by
  intro r hr
  have hbt := hb.divisions.triangular
  rw [show b.ls.space.total = a.space.total from ht.symm] at hbt
  obtain ⟨s, hs, heq⟩ := hm.exists_denominator (by omega) ha.divisions.triangular hbt hr
  rw [heq]
  exact hs.elim (ha.positive s) (hb.positive s)

theorem admits_orContradictory {q : BasicRelation} {flag : Bool} {values : Row} :
    Admits { q with contradictory := q.contradictory || flag } values ↔
      q.Admits values ∧ flag = false := by
  constructor
  · rintro ⟨hcon, hsat⟩
    rw [Bool.or_eq_false_iff] at hcon
    exact ⟨⟨hcon.1, hsat⟩, hcon.2⟩
  · rintro ⟨hq, hflag⟩
    exact ⟨Bool.or_eq_false_iff.2 ⟨hq.consistent, hflag⟩, hq.satisfied⟩

theorem intersect_eq_ok {a b : BasicRelation} (ha : a.WellFormed) (hb : b.WellFormed)
    (hs : a.space.agrees b.space = true) (ht : a.space.total = b.space.total) :
    ∃ r, a.intersect b = .ok r ∧ r.space = a.space ∧ r.WellFormed ∧ r.EachSolvable ∧
      (a.ls.allKnown = true → b.ls.allKnown = true → r.ls.allKnown = true) ∧
      ∀ x, x ∈ r ↔ x ∈ a ∧ x ∈ b := by
  obtain ⟨m, hm, hspace, hwf, hmerge, -⟩ := LocalSpace.merge_eq_ok ha.divisions hb.divisions hs ht
  have htm : m.ls.space.total = a.space.total := by rw [hspace, space]
  have hpos := positive_merge ha hb ht hmerge
  have hbt := hb.divisions.triangular
  rw [show b.ls.space.total = a.space.total from ht.symm] at hbt
  obtain ⟨p, hp, hpls, hpwf, hps, -, hpadm⟩ := expandInto_eq_ok ha hwf hpos htm hmerge.left.nodup
    hmerge.left.lt hmerge.left.length
  obtain ⟨q, hq, hqls, hqwf, hqs, -, hqadm⟩ := addConstraints_eq_ok
    (b.expandedConstraints m.right m.ls.divCount) hpwf fun c hc => by
      rw [width_expandedConstraints hb c hc, width, hpls, LocalSpace.total, htm, ← ht]
      omega
  -- At a point, the constraints of both operands hold with what is left of the merged divisions.
  have hadm : ∀ x d, x.length = a.space.total → m.ls.Assigns x d →
      (Admits { q with contradictory := q.contradictory || b.contradictory } (1 :: (x ++ d)) ↔
        a.Admits (1 :: (x ++ m.left.map d.entry)) ∧
          b.Admits (1 :: (x ++ m.right.map d.entry))) := by
    intro x d hx hd
    have hb' := expandedConstraints_isSatisfied (d := d) hb hmerge.right.nodup hmerge.right.lt
      (hx.trans ht)
    rw [admits_orContradictory, hqadm, hpadm x d hx hd, and_assoc]
    exact and_congr_right fun _ => ⟨fun h => ⟨h.2, hb'.1 h.1⟩,
      fun h => ⟨hb'.2 h.satisfied, h.consistent⟩⟩
  refine ⟨{ q with contradictory := q.contradictory || b.contradictory }, ?_, ?_,
    ⟨hqwf.divisions, hqwf.positive, hqwf.width⟩, hqs hps, fun hka hkb => ?_, fun x => ?_⟩
  · rw [intersect, hm]
    simp only [bind, Except.bind, hp, hq, pure, Except.pure]
  · rw [space, hqls, hpls, hspace, space]
  · change q.ls.allKnown = true
    rw [hqls, hpls]
    exact List.all_eq_true.2 (hmerge.isKnown (by omega) ha.divisions.triangular hbt
      (List.all_eq_true.1 hka) (List.all_eq_true.1 hkb))
  · have hmem : x ∈ ({ q with contradictory := q.contradictory || b.contradictory } :
        BasicRelation) ↔ x.length = a.space.total ∧ ∃ d, m.ls.Assigns x d ∧
          Admits { q with contradictory := q.contradictory || b.contradictory } (1 :: (x ++ d)) := by
      rw [mem_iff, space, hqls, hpls, htm]
      refine and_congr_right fun _ => exists_congr fun d => ?_
      exact ⟨fun h => ⟨by simpa [hqls, hpls] using h.assigns, h.admits⟩,
        fun h => ⟨by simpa [hqls, hpls] using h.1, h.2⟩⟩
    rw [hmem, mem_iff, mem_iff, ← ht]
    constructor
    · rintro ⟨hx, d, hd, hr⟩
      obtain ⟨had, hbd⟩ := (hadm x d hx hd).1 hr
      obtain ⟨hda, hdb⟩ := hd.operands hmerge ht hx ha.divisions.triangular hbt
      exact ⟨⟨hx, _, hda, had⟩, hx, _, hdb, hbd⟩
    · rintro ⟨⟨hx, p, hp⟩, -, q, hq⟩
      obtain ⟨d, hd, rfl, rfl⟩ := LocalSpace.Assigns.amalgam hmerge ht hx ha.divisions.triangular hbt
        hp.assigns hq.assigns
      exact ⟨hx, d, hd, (hadm x d hx hd).2 ⟨hp.admits, hq.admits⟩⟩

end Expand

section Emptiness

/-- Two opposite inequalities whose constants add up to less than zero do not both hold. -/
theorem not_isSatisfied_of_leavesNoRoom {a b : Constraint} (h : leavesNoRoom a b = true)
    (ha : a.kind = .inequality) (hb : b.kind = .inequality) (v : Row)
    (hav : a.isSatisfied (1 :: v) = true) : b.isSatisfied (1 :: v) = false := by
  obtain ⟨r, _⟩ := a
  obtain ⟨s, _⟩ := b
  subst ha hb
  simp only [leavesNoRoom, Constraint.isOpposite, Constraint.constant, Bool.and_eq_true,
    beq_iff_eq] at h
  obtain ⟨⟨hl, hneg⟩, hdec⟩ := h
  have hsum := of_decide_eq_true hdec
  rw [Constraint.isSatisfied_iff, ConstraintKind.admits_iff] at hav
  rw [← Bool.not_eq_true, Constraint.isSatisfied_iff, ConstraintKind.admits_iff]
  cases r with
  | nil =>
    obtain rfl := List.eq_nil_of_length_eq_zero hl.symm
    simp at hsum
  | cons x r =>
    cases s with
    | nil => simp at hl
    | cons y s =>
      have hdot := Row.dot_of_isNegation (by simpa using hl) (by simpa using hneg) v
      simp only [Row.dot_cons, Row.entry_cons_zero] at hav hsum ⊢
      omega

theorem anyPair_iff {α : Type} {r : α → α → Bool} {xs : List α} :
    anyPair r xs = true ↔ ¬ xs.Pairwise fun x y => r x y = false := by
  induction xs with
  | nil => simp [anyPair]
  | cons x xs ih =>
    simp only [anyPair, Bool.or_eq_true, ih, List.pairwise_cons, not_and_or]
    simp

theorem not_satisfied_of_isObviouslyEmpty (h : b.isObviouslyEmpty = true)
    (hcon : b.contradictory = false) (v : Row) :
    ¬∀ c ∈ b.constraints, c.isSatisfied (1 :: v) = true := by
  intro hall
  rw [isObviouslyEmpty, hcon, Bool.false_or, anyPair_iff] at h
  refine h (List.pairwise_of_forall_mem_list fun p hp q hq => ?_)
  obtain ⟨p', hp', hpp⟩ := List.mem_flatMap.1 hp
  obtain ⟨q', hq', hqq⟩ := List.mem_flatMap.1 hq
  have hps := Constraint.asInequalities_isSatisfied _ (hall p' hp') hpp
  have hqs := Constraint.asInequalities_isSatisfied _ (hall q' hq') hqq
  rw [← Bool.not_eq_true]
  intro hpq
  have := not_isSatisfied_of_leavesNoRoom hpq hps.2 hqs.2 _ hps.1
  rw [hqs.1] at this
  cases this

theorem notMem_of_isObviouslyEmpty (h : b.isObviouslyEmpty = true) : x ∉ b := by
  rintro ⟨-, d, hd⟩
  exact not_satisfied_of_isObviouslyEmpty h hd.admits.consistent _ hd.admits.satisfied

theorem contradictory_of_not_isObviouslyEmpty (h : b.isObviouslyEmpty = false) :
    b.contradictory = false := by
  rw [isObviouslyEmpty, Bool.or_eq_false_iff] at h
  exact h.1

end Emptiness

end BasicRelation

end Quasiaffine

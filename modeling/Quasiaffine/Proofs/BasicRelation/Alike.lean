import Quasiaffine.Proofs.BasicRelation.Coupled
import Quasiaffine.Proofs.BasicRelation.Dimensions
import Quasiaffine.Proofs.BasicRelation.Sorting

set_option autoImplicit false

namespace Quasiaffine

theorem Row.isNegation_iff {r s : Row} (h : r.length = s.length) :
    r.isNegation s = true ↔ r = s.neg := by
  induction r generalizing s with
  | nil =>
    obtain rfl := List.eq_nil_of_length_eq_zero h.symm
    simp [isNegation, neg]
  | cons x r ih =>
    cases s with
    | nil => simp at h
    | cons y s =>
      rw [List.length_cons, List.length_cons, Nat.add_right_cancel_iff] at h
      simp only [isNegation, Bool.and_eq_true, beq_iff_eq, ih h, neg, List.map_cons,
        List.cons.injEq]

theorem Row.isNegation_swap {r s : Row} {i j : Nat} (h : r.length = s.length) (hi : i < r.length)
    (hj : j < r.length) : (r.swap i j).isNegation (s.swap i j) = r.isNegation s := by
  rw [Bool.eq_iff_iff, isNegation_iff (by rw [length_swap, length_swap, h]), isNegation_iff h,
    ← swap_neg]
  constructor
  · intro heq
    rw [← swap_swap hi hj, heq, swap_swap (by rw [length_neg]; omega) (by rw [length_neg]; omega)]
  · exact fun heq => by rw [heq]

namespace BasicRelation

/-- Nothing outside the divisions tells `c` from `b`. -/
structure Alike (b c : BasicRelation) : Prop where
  space : c.space = b.space
  isObviouslyEmpty : c.isObviouslyEmpty = b.isObviouslyEmpty
  mem_iff : ∀ x, x ∈ c ↔ x ∈ b

variable {a b c : BasicRelation}

theorem Alike.refl (b : BasicRelation) : b.Alike b := ⟨rfl, rfl, fun _ => Iff.rfl⟩

theorem Alike.symm (h : b.Alike c) : c.Alike b :=
  ⟨h.space.symm, h.isObviouslyEmpty.symm, fun x => (h.mem_iff x).symm⟩

theorem Alike.trans (h : a.Alike b) (h' : b.Alike c) : a.Alike c :=
  ⟨h'.space.trans h.space, h'.isObviouslyEmpty.trans h.isObviouslyEmpty,
    fun x => (h'.mem_iff x).trans (h.mem_iff x)⟩

section Emptiness

variable {i j : Nat}

def swapEntries (i j : Nat) (c : Constraint) : Constraint :=
  { c with row := c.row.swap (i + 1) (j + 1) }

theorem asInequalities_swapEntries (c : Constraint) :
    (swapEntries i j c).asInequalities = c.asInequalities.map (swapEntries i j) := by
  obtain ⟨row, kind⟩ := c
  cases kind <;> simp [swapEntries, Constraint.asInequalities, Row.swap_neg]

theorem width_of_mem_asInequalities {c d : Constraint} (h : d ∈ c.asInequalities) :
    d.width = c.width := by
  obtain ⟨row, kind⟩ := c
  cases kind with
  | inequality =>
    rw [Constraint.asInequalities, List.mem_singleton] at h
    rw [h]
  | equality =>
    simp only [Constraint.asInequalities, List.mem_cons, List.not_mem_nil, or_false] at h
    rcases h with rfl | rfl
    · rfl
    · exact Row.length_neg row

theorem leavesNoRoom_swapEntries {c d : Constraint} {n : Nat} (hc : c.width = n + 1)
    (hd : d.width = n + 1) (hi : i < n) (hj : j < n) :
    leavesNoRoom (swapEntries i j c) (swapEntries i j d) = leavesNoRoom c d := by
  obtain ⟨_ | ⟨x, r⟩, _⟩ := c
  · simp [Constraint.width] at hc
  obtain ⟨_ | ⟨y, s⟩, _⟩ := d
  · simp [Constraint.width] at hd
  simp only [Constraint.width, List.length_cons, Nat.add_right_cancel_iff] at hc hd
  have hneg := Row.isNegation_swap (hc.trans hd.symm) (hc ▸ hi) (hc ▸ hj)
  simp only [swapEntries, Row.swap_cons, leavesNoRoom, Constraint.isOpposite, Constraint.constant,
    Row.entry_cons_zero, List.length_cons, Row.length_swap, List.drop_succ_cons, List.drop_zero,
    hneg]
  rfl

theorem isObviouslyEmpty_swapDiv (h : b.Wide) (hi : i < b.ls.divs.rows.length)
    (hj : j < b.ls.divs.rows.length) :
    (b.swapDiv i j).isObviouslyEmpty = b.isObviouslyEmpty := by
  have hcs : (b.swapDiv i j).constraints =
      b.constraints.map (swapEntries (b.space.total + i) (b.space.total + j)) := by
    refine List.map_congr_left fun c _ => ?_
    rw [swapEntries, Nat.add_comm (b.space.total + i), Nat.add_comm (b.space.total + j),
      ← Nat.add_assoc, ← Nat.add_assoc]
  have hwidth : ∀ c ∈ b.constraints.flatMap Constraint.asInequalities,
      c.width = b.space.total + b.ls.divs.rows.length + 1 := by
    intro c hc
    obtain ⟨c', hc', hcc⟩ := List.mem_flatMap.1 hc
    rw [width_of_mem_asInequalities hcc, h.constraints c' hc', space]
    omega
  rw [isObviouslyEmpty, isObviouslyEmpty, hcs, List.flatMap_map,
    funext asInequalities_swapEntries, ← List.map_flatMap]
  refine congrArg _ ?_
  rw [Bool.eq_iff_iff, anyPair_iff, anyPair_iff, List.pairwise_map, not_iff_not]
  refine List.Pairwise.iff_of_mem fun {c d} hc hd => ?_
  rw [leavesNoRoom_swapEntries (hwidth c hc) (hwidth d hd) (by omega) (by omega)]

end Emptiness

theorem alike_swapDiv {i j : Nat} (h : b.Wide) (hi : i < b.ls.divs.rows.length)
    (hj : j < b.ls.divs.rows.length) : b.Alike (b.swapDiv i j) :=
  ⟨LocalSpace.space_swapDiv b.ls i j, isObviouslyEmpty_swapDiv h hi hj,
    fun _ => mem_swapDiv_iff h hi hj⟩

theorem alike_sortDivs (h : b.Wide) : b.Alike b.sortDivs :=
  sortDivs_induction (P := b.Alike) h (.refl b) fun _ _ _ hc hi hj ha =>
    ha.trans (alike_swapDiv hc hi hj)

end BasicRelation

end Quasiaffine

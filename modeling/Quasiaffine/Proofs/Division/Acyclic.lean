import Quasiaffine.Proofs.Division.Ordering
import Quasiaffine.Proofs.Division.Shape

/-!
Sorting divisions in any row order. Divisions that refer to each other in no circle are ranked by the
number of divisions that they depend on, so ordering them comes to an end. Sorting is then a matter
of exchanges that no division without a definition makes on its own account, and what is sorted stays
as it is.
-/

set_option autoImplicit false

namespace Quasiaffine

namespace LocalSpace

variable {ls : LocalSpace} {i j k : Nat}

def Refers (ls : LocalSpace) (k j : Nat) : Prop :=
  ∃ r : Row, ls.divs.rows[k]? = some r ∧ r.entry (2 + ls.space.total + j) ≠ 0

def Acyclic (ls : LocalSpace) : Prop := ∀ k, ¬Relation.TransGen ls.Refers k k

theorem acyclic_of_ranking {f : Nat → Nat} (h : ∀ k j, ls.Refers k j → f j < f k) :
    ls.Acyclic := by
  have hlt : ∀ k j, Relation.TransGen ls.Refers k j → f j < f k := by
    intro k j hkj
    induction hkj with
    | single hkj => exact h _ _ hkj
    | tail _ hij ih => exact Nat.lt_trans (h _ _ hij) ih
  exact fun k hk => Nat.lt_irrefl _ (hlt k k hk)

theorem WellFormed.acyclic (h : ls.WellFormed) : ls.Acyclic := by
  refine acyclic_of_ranking (f := id) ?_
  rintro k j ⟨r, hr, hne⟩
  change j < k
  by_contra hge
  exact hne (h.triangular.zero_from k r hr _ (by omega))

section Depth

open Classical in
noncomputable def dependencies (ls : LocalSpace) (k : Nat) : Finset Nat :=
  (Finset.range ls.divCount).filter (Relation.TransGen ls.Refers k)

theorem mem_dependencies_iff :
    j ∈ ls.dependencies k ↔ j < ls.divCount ∧ Relation.TransGen ls.Refers k j := by
  simp only [dependencies, Finset.mem_filter, Finset.mem_range]

theorem Shaped.lt_of_refers (h : ls.Shaped) (hr : ls.Refers k j) : j < ls.divCount := by
  obtain ⟨r, hr, hne⟩ := hr
  have hlt := Row.lt_length_of_entry_ne_zero hne
  rw [h.rows r (List.mem_of_getElem? hr)] at hlt
  exact Nat.lt_of_add_lt_add_left hlt

/-- A division depends on more divisions than those that it refers to. -/
theorem card_dependencies_lt (h : ls.Shaped) (ha : ls.Acyclic) (hr : ls.Refers k j) :
    (ls.dependencies j).card < (ls.dependencies k).card := by
  refine Finset.card_lt_card (Finset.ssubset_iff_subset_ne.2 ⟨fun l hl => ?_, fun heq => ?_⟩)
  · obtain ⟨hlt, hjl⟩ := mem_dependencies_iff.1 hl
    exact mem_dependencies_iff.2 ⟨hlt, .head hr hjl⟩
  · have hj : j ∈ ls.dependencies k := mem_dependencies_iff.2 ⟨h.lt_of_refers hr, .single hr⟩
    rw [← heq] at hj
    exact ha j (mem_dependencies_iff.1 hj).2

theorem card_dependencies_lt_divCount (ha : ls.Acyclic) (hk : k < ls.divCount) :
    (ls.dependencies k).card < ls.divCount := by
  rw [← Finset.card_range ls.divCount]
  refine Finset.card_lt_card (Finset.ssubset_iff_subset_ne.2 ⟨fun l hl => ?_, fun heq => ?_⟩)
  · exact Finset.mem_range.2 (mem_dependencies_iff.1 hl).1
  · rw [← Finset.mem_range, ← heq] at hk
    exact ha k (mem_dependencies_iff.1 hk).2

theorem Sortable.descends (h : ls.Sortable) (ha : ls.Acyclic) :
    Descends ls.divCount ls fun k => (ls.dependencies k).card where
  sortable := h
  count := rfl
  lt := fun _ hk => card_dependencies_lt_divCount ha hk
  refers := fun _ _ r hr hne => card_dependencies_lt ⟨h.columns, h.width⟩ ha ⟨r, hr, hne⟩

end Depth

section Unknowns

theorem Sortable.isKnown_swapDiv (h : ls.Sortable) (hij : i ≠ j) (hi : i < ls.divs.rows.length)
    (hj : j < ls.divs.rows.length) (k : Nat) :
    (ls.swapDiv i j).isKnown k = ls.isKnown (Equiv.swap i j k) := by
  rw [isKnown, div?, getElem?_swapDiv hij hi hj, isKnown, div?]
  cases hr : ls.divs.rows[Equiv.swap i j k]? with
  | none => rfl
  | some r =>
    simp only [Option.map_some, Option.any_some, Division.isKnown]
    rw [h.entry_swap_zero (List.mem_of_getElem? hr) hi hj]

/-- Divisions without a definition are still in the order in which they stood in `ls`. -/
structure KeepsUnknowns (ls : LocalSpace) (r : Rearranged) : Prop where
  sortable : r.ls.Sortable
  known : ∀ k, r.ls.isKnown (destination r.swaps k) = ls.isKnown k
  increasing : ∀ i j, i < j → ls.isKnown i = false → ls.isKnown j = false →
    destination r.swaps i < destination r.swaps j

theorem KeepsUnknowns.sinks {r r' : Rearranged} (h : KeepsUnknowns ls r)
    (hs : Rearranged.Sinks r r') : KeepsUnknowns ls r' := by
  obtain ⟨p, hp, hknown, rfl⟩ := hs
  have hdest : ∀ k, destination (r.swap p (p + 1)).swaps k =
      Equiv.swap p (p + 1) (destination r.swaps k) := fun k => by
    rw [destination, Rearranged.swap, List.foldl_append]
    rfl
  have hne : ∀ k, ls.isKnown k = false → destination r.swaps k ≠ p + 1 := by
    intro k hk heq
    rw [← h.known k, heq, hknown] at hk
    cases hk
  refine ⟨h.sortable.swapDiv (by omega) hp, fun k => ?_, fun i j hij hi hj => ?_⟩
  · rw [hdest, Rearranged.swap, h.sortable.isKnown_swapDiv (by omega) (by omega) hp,
      Equiv.swap_apply_self, h.known]
  · rw [hdest, hdest]
    exact swap_succ_mono _ _ (hne i hi) (hne j hj) (h.increasing i j hij hi hj)

theorem keepsUnknowns_sortDivs (h : ls.WellFormed) (hs : ls.Sortable) :
    KeepsUnknowns ls ls.sortDivs := by
  obtain ⟨hsinks, -⟩ := sorted_sortDivs (h.descends hs)
  rw [orderDivs_eq h] at hsinks
  generalize ls.sortDivs = sorted at hsinks ⊢
  induction hsinks with
  | refl => exact ⟨hs, fun _ => rfl, fun _ _ hij _ _ => hij⟩
  | tail _ hstep ih => exact ih.sinks hstep

end Unknowns

/-- Divisions of any row order that refer to each other in no circle can be sorted. Ordering comes to
an end, each division then refers only to earlier ones, replaying the exchanges gives the result, and
sorting again does nothing. From divisions that were in order, those without a definition do not
change places. -/
theorem sortDivs_of_acyclic (ls : LocalSpace) (hs : ls.Shaped) (ha : ls.Acyclic)
    (hz : ∀ r ∈ ls.divs.rows, Division.isKnown r = false → r.isZero = true)
    (hn : ∀ r ∈ ls.divs.rows, 0 ≤ r.entry 0) :
    (OrderRuns (0, ⟨ls, []⟩) (ls.divCount, ls.orderDivs) ∧
      orderStep? (ls.divCount, ls.orderDivs) = none) ∧
    ls.orderDivs.ls.WellFormed ∧ ls.sortDivs.ls.WellFormed ∧
    (ls.swapDivs ls.orderDivs.swaps = ls.orderDivs.ls ∧
      ls.swapDivs ls.sortDivs.swaps = ls.sortDivs.ls) ∧
    Rearranges ls ls.sortDivs.ls ((List.range ls.divCount).map (destination ls.sortDivs.swaps)) ∧
    ls.sortDivs.ls.sortDivs = ⟨ls.sortDivs.ls, []⟩ ∧
    (ls.WellFormed → ∀ i j, i < j → ls.isKnown i = false → ls.isKnown j = false →
      destination ls.sortDivs.swaps i < destination ls.sortDivs.swaps j) := by
  have hsortable : ls.Sortable := ⟨hs.columns, hs.rows,
    fun r hr hu => (Row.isZero_iff r).1 (hz r hr hu), fun _ _ _ s hs => hn s hs⟩
  have hdescends := hsortable.descends ha
  obtain ⟨hruns, ⟨f, hordered⟩, ho⟩ := orderDivs_spec hdescends
  obtain ⟨-, hsorted, hcount, ho', hin⟩ := sorted_sortDivs hdescends
  have horder := Rearranged.recorded_orderDivs hs.rows
  have hsort := Rearranged.recorded_sortDivs hs.rows
  have hwf := hsorted.wellFormed (hcount.symm ▸ ho')
  refine ⟨⟨hruns, if_neg ?_⟩, hordered.sortable.wellFormed (hordered.count.symm ▸ ho), hwf,
    ⟨horder.replay.symm, hsort.replay.symm⟩, ?_,
    sortDivs_eq_of_sortedBelow hwf hsorted (hcount.symm ▸ hin), fun h => ?_⟩
  · rw [← hordered.count]
    exact Nat.lt_irrefl _
  · have h := (Rearranges.refl hs.rows).swapDivs_destination
      (fun r hr => by rw [hs.rows r hr]; omega) ls.sortDivs.swaps hsort.bound
    rwa [← hsort.replay] at h
  · exact (keepsUnknowns_sortDivs h hsortable).increasing

/-- `⌊(x + d + e) / 3⌋` stands in front of `d`, which is any integer, and `e = ⌊d / 2⌋`. In the second
list, `⌊x / 2⌋` goes in front of both divisions without a definition. -/
theorem sortDivs_of_acyclic_nested :
    let ls := overOneVariable [[3, 0, 1, 0, 1, 1], [0, 0, 0, 0, 0, 0], [2, 0, 0, 0, 1, 0]]
    let ls' := overOneVariable [[0, 0, 0, 0, 0, 0], [2, 0, 1, 0, 0, 0], [0, 0, 0, 0, 0, 0]]
    (ls.Shaped ∧ ls.Acyclic ∧
      (∀ r ∈ ls.divs.rows, Division.isKnown r = false → r.isZero = true) ∧
      (∀ r ∈ ls.divs.rows, 0 ≤ r.entry 0) ∧
      ls.swapDivs [(0, 1), (1, 2)] = ls.sortDivs.ls ∧
      ls.sortDivs.ls.sortDivs = ⟨ls.sortDivs.ls, []⟩) ∧
    ls'.WellFormed ∧ destination ls'.sortDivs.swaps 0 < destination ls'.sortDivs.swaps 2 := by
  intro ls ls'
  have hs : ls.Shaped := ⟨rfl, by decide⟩
  have hrank : ∀ k < 3, ∀ j < 3, (ls.divs.row k).entry (3 + j) ≠ 0 →
      [2, 0, 1].getD j 0 < [2, 0, 1].getD k 0 := by decide
  have ha : ls.Acyclic := by
    refine acyclic_of_ranking (f := fun k => [2, 0, 1].getD k 0) fun k j hkj => ?_
    have hj := hs.lt_of_refers hkj
    obtain ⟨r, hr, hne⟩ := hkj
    refine hrank k (List.getElem?_eq_some_iff.1 hr).1 j hj ?_
    rwa [Matrix.row, List.getD_eq_getElem?_getD, hr]
  have hwf : ls'.WellFormed := wellFormed_overOneVariable (by decide) (by decide)
  obtain ⟨-, -, -, ⟨-, hreplay⟩, -, hagain, -⟩ :=
    sortDivs_of_acyclic ls hs ha (by decide) (by decide)
  obtain ⟨-, -, -, -, -, -, hkept⟩ :=
    sortDivs_of_acyclic ls' hwf.shaped hwf.acyclic (by decide) (by decide)
  rw [show ls.sortDivs.swaps = [(0, 1), (1, 2)] by cbv] at hreplay
  exact ⟨⟨hs, ha, by decide, by decide, hreplay, hagain⟩, hwf,
    hkept hwf 0 2 (by decide) (by decide) (by decide)⟩

end LocalSpace

end Quasiaffine

import Quasiaffine.Proofs.Division.Ordering

set_option autoImplicit false

namespace Quasiaffine

section Sorted

variable {base : LocalSpace} (hb : base.WellFormed)
  (hk : ∀ r ∈ base.divs.rows, Division.isKnown r = true)

include hb

/-- A division of a rearranged list refers only to divisions that came before it in the original
list. -/
theorem LocalSpace.Rearranges.idxOf_lt {ls : LocalSpace} {e : List Nat}
    (h : LocalSpace.Rearranges base ls e) {k j : Nat} {r : Row}
    (hr : ls.divs.rows[k]? = some r) (hne : r.entry (2 + ls.space.total + j) ≠ 0) :
    e.idxOf j < e.idxOf k := by
  have hwide : ∀ r ∈ base.divs.rows, 2 + base.space.total ≤ r.length :=
    fun r hr => hb.triangular.le_length hr
  rw [h.space] at hne
  obtain ⟨i, hi⟩ := List.mem_iff_getElem?.1 (h.mem_of_lt (List.getElem?_eq_some_iff.1 hr).1)
  have hs := List.getElem?_eq_getElem (h.embeds.getElem?_lt hi)
  have hje : j ∈ e := by
    by_contra hj
    exact hne (h.embeds.entry_of_notMem hwide hs hi hr hj)
  obtain ⟨t, ht⟩ := List.mem_iff_getElem?.1 hje
  rw [h.embeds.entry_of_index hwide (Nat.le_of_eq h.height) hs hi hr ht] at hne
  have hti : t < i := by
    by_contra hge
    exact hne (hb.triangular.zero_from i _ hs _ (by omega))
  rwa [idxOf_eq h.embeds.nodup hi, idxOf_eq h.embeds.nodup ht]

include hk

theorem LocalSpace.Rearranges.descends {ls : LocalSpace} {e : List Nat}
    (h : LocalSpace.Rearranges base ls e) : Descends base.divs.rows.length ls e.idxOf where
  sortable := by
    have hknown := h.isKnown (fun r hr => hb.triangular.le_length hr) hk
    have hunknown : ∀ r ∈ ls.divs.rows, ¬Division.isKnown r = false := fun r hr hu => by
      rw [hknown r hr] at hu
      cases hu
    refine ⟨?_, ?_, fun r hr hu => absurd hu (hunknown r hr),
      fun r hr hu => absurd hu (hunknown r hr)⟩
    · rw [h.columns, h.space, h.height]
      exact hb.columns
    · rw [h.space, h.height]
      exact h.width
  count := h.height
  lt := fun k hlt => by
    have := List.idxOf_lt_length_of_mem (h.mem_of_lt (h.height ▸ hlt))
    rwa [h.embeds.length] at this
  refers := fun _ _ _ hr hne => h.idxOf_lt hb hr hne

/-- Sorting rearranges the divisions so that they refer to earlier ones and are in order. -/
theorem LocalSpace.sortDivs_spec {ls : LocalSpace} {e : List Nat}
    (h : LocalSpace.Rearranges base ls e) :
    ∃ e', LocalSpace.Rearranges base ls.sortDivs.ls e' ∧
      OrderedBelow ls.sortDivs.ls base.divs.rows.length ∧
      ls.sortDivs.ls.divs.rows.Pairwise fun r s => Division.rank r ≤ Division.rank s := by
  have hwide : ∀ r ∈ base.divs.rows, 2 + base.space.total ≤ r.length :=
    fun r hr => hb.triangular.le_length hr
  have hdescends := h.descends hb hk
  obtain ⟨-, -, hn, ho, hs⟩ := sorted_sortDivs hdescends
  obtain ⟨hreplay, hbound⟩ := Rearranged.recorded_sortDivs hdescends.sortable.width
  rw [hdescends.count] at hbound
  obtain ⟨e', h'⟩ := h.swapDivs hwide ls.sortDivs.swaps hbound
  rw [← hreplay] at h'
  rw [← hn, sortedBelow_iff, marked, Division.markAll_of_known (h'.isKnown hwide hk)] at hs
  exact ⟨e', h', ho, hs⟩

omit hb hk in
theorem LocalSpace.Rearranges.canonical {ls : LocalSpace} {e : List Nat}
    (h : LocalSpace.Rearranges base ls e) (ho : OrderedBelow ls base.divs.rows.length)
    (hs : ls.divs.rows.Pairwise fun r s => Division.rank r ≤ Division.rank s)
    (hd : ls.divs.rows.Nodup) : Canonical (2 + base.space.total) ls.divs.rows := by
  refine ⟨⟨h.height ▸ h.width, fun k r hr c hc => ?_⟩, ?_⟩
  · have hk := (List.getElem?_eq_some_iff.1 hr).1
    exact ho k (h.height ▸ hk) r hr c (h.space ▸ hc)
  · refine List.pairwise_iff_getElem.2 fun i j hi hj hij => ?_
    refine lt_of_le_of_ne (List.pairwise_iff_getElem.1 hs i j hi hj hij) fun heq => ?_
    have hrows := Division.eq_of_rank_eq
      (by rw [h.width _ (List.getElem_mem hi), h.width _ (List.getElem_mem hj)]) heq
    exact absurd (hd.getElem_inj_iff.1 hrows) (by omega)

omit hk in
/-- Two divisions have equal rows just where they had before they were rearranged. -/
theorem LocalSpace.Rearranges.getElem?_eq_iff {ls : LocalSpace} {e : List Nat}
    (h : LocalSpace.Rearranges base ls e) {i j k l : Nat} (hi : e[i]? = some k)
    (hj : e[j]? = some l) :
    ls.divs.rows[k]? = ls.divs.rows[l]? ↔ base.divs.rows[i]? = base.divs.rows[j]? := by
  have hwide : ∀ r ∈ base.divs.rows, 2 + base.space.total ≤ r.length :=
    fun r hr => hb.triangular.le_length hr
  have hr := List.getElem?_eq_getElem (h.embeds.getElem?_lt hi)
  have hs := List.getElem?_eq_getElem (h.embeds.getElem?_lt hj)
  have hrk := h.embeds.row i _ k hr hi
  have hsl := h.embeds.row j _ l hs hj
  rw [hr, hs, Option.some.injEq]
  refine ⟨fun heq => ?_, fun heq => by rw [hrk, hsl, heq]⟩
  have hri := hb.triangular.length_row _ (List.mem_of_getElem? hr)
  have hsj := hb.triangular.length_row _ (List.mem_of_getElem? hs)
  refine Row.ext_entry (by rw [hri, hsj]) fun c => ?_
  -- Column by column; the column of a division is that of its place in `ls`.
  rcases Nat.lt_or_ge c (2 + base.space.total) with hc | hc
  · rw [← h.embeds.entry_of_lt hwide hr hi hrk hc,
      ← h.embeds.entry_of_lt hwide hs hj (heq ▸ hrk) hc]
  obtain ⟨t, rfl⟩ := Nat.exists_eq_add_of_le hc
  rcases Nat.lt_or_ge t base.divs.rows.length with ht | ht
  · obtain ⟨u, hu⟩ := h.embeds.exists_index ht
    rw [← h.embeds.entry_of_index hwide (Nat.le_of_eq h.height) hr hi hrk hu,
      ← h.embeds.entry_of_index hwide (Nat.le_of_eq h.height) hs hj (heq ▸ hrk) hu]
  · rw [Row.entry_eq_zero (by omega), Row.entry_eq_zero (by omega)]

omit hk in
theorem LocalSpace.Rearranges.nodup_iff {ls : LocalSpace} {e : List Nat}
    (h : LocalSpace.Rearranges base ls e) : ls.divs.rows.Nodup ↔ base.divs.rows.Nodup := by
  rw [List.nodup_iff_getElem?_ne_getElem?, List.nodup_iff_getElem?_ne_getElem?]
  constructor
  · intro hd i j hij hj heq
    obtain ⟨k, hk⟩ := h.embeds.exists_index (Nat.lt_trans hij hj)
    obtain ⟨l, hl⟩ := h.embeds.exists_index hj
    have hrows := (h.getElem?_eq_iff hb hk hl).2 heq
    have hkl : k ≠ l := by
      rintro rfl
      exact absurd ((List.getElem?_inj (by rw [h.embeds.length]; omega) h.embeds.nodup).1
        (hk.trans hl.symm)) (by omega)
    rcases Nat.lt_or_gt_of_ne hkl with hlt | hlt
    · exact hd k l hlt (h.embeds.lt l (List.mem_of_getElem? hl)) hrows
    · exact hd l k hlt (h.embeds.lt k (List.mem_of_getElem? hk)) hrows.symm
  · intro hd k l hkl hl heq
    obtain ⟨i, hi⟩ := List.mem_iff_getElem?.1 (h.mem_of_lt (Nat.lt_trans hkl hl))
    obtain ⟨j, hj⟩ := List.mem_iff_getElem?.1 (h.mem_of_lt hl)
    have hrows := (h.getElem?_eq_iff hb hi hj).1 heq
    have hij : i ≠ j := by
      rintro rfl
      rw [hi, Option.some.injEq] at hj
      omega
    rcases Nat.lt_or_gt_of_ne hij with hlt | hlt
    · exact hd i j hlt (h.embeds.getElem?_lt hj) hrows
    · exact hd j i hlt (h.embeds.getElem?_lt hi) hrows.symm

end Sorted

namespace LocalSpace

/-- The canonical order of divisions does not depend on the order in which they stand, not even on
whether each stands behind those that it refers to. -/
theorem sortDivs_swapDivs (ls : LocalSpace) (hwf : ls.WellFormed) (hk : ls.allKnown = true)
    (hd : ls.sortDivs.ls.divs.rows.Nodup) (swaps : List (Nat × Nat))
    (hs : ∀ s ∈ swaps, s.1 < ls.divCount ∧ s.2 < ls.divCount) :
    (ls.swapDivs swaps).sortDivs.ls = ls.sortDivs.ls := by
  have hknown : ∀ r ∈ ls.divs.rows, Division.isKnown r = true := List.all_eq_true.1 hk
  have hwide : ∀ r ∈ ls.divs.rows, 2 + ls.space.total ≤ r.length :=
    fun r hr => hwf.triangular.le_length hr
  have hrefl := Rearranges.refl hwf.triangular.length_row
  obtain ⟨f, hf⟩ := hrefl.swapDivs hwide swaps hs
  obtain ⟨e, he, ho, hsort⟩ := sortDivs_spec hwf hknown hrefl
  obtain ⟨e', he', ho', hsort'⟩ := sortDivs_spec hwf hknown hf
  have hd' : (ls.swapDivs swaps).sortDivs.ls.divs.rows.Nodup := by
    rw [he'.nodup_iff hwf, ← he.nodup_iff hwf]
    exact hd
  have hrows : (ls.swapDivs swaps).sortDivs.ls.divs.rows = ls.sortDivs.ls.divs.rows :=
    (he'.canonical ho' hsort' hd').unique (he.canonical ho hsort hd) (fun _ : Unit => hwide)
      (fun _ => he'.height ▸ he'.embeds) (fun _ => he.height ▸ he.embeds) he'.covers he.covers
  have hspace := he'.space.trans he.space.symm
  have hcolumns := he'.columns.trans he.columns.symm
  generalize (ls.swapDivs swaps).sortDivs.ls = x at *
  generalize ls.sortDivs.ls = y at *
  cases x with
  | mk space divs =>
    cases y with
    | mk space' divs' =>
      cases divs
      cases divs'
      simp_all

/-- A local space that sorting leaves alone has its divisions in canonical order. -/
theorem canonical_of_sortDivs {ls : LocalSpace} (hwf : ls.WellFormed) (hk : ls.allKnown = true)
    (hs : ls.sortDivs.swaps = []) (hd : ls.divs.rows.Nodup) :
    Canonical (2 + ls.space.total) ls.divs.rows := by
  have hrefl := Rearranges.refl hwf.triangular.length_row
  obtain ⟨e, he, ho, hsort⟩ := sortDivs_spec hwf (List.all_eq_true.1 hk) hrefl
  have hls := (Rearranged.recorded_sortDivs hwf.triangular.length_row).replay
  rw [hs] at hls
  rw [hls] at he ho hsort
  exact he.canonical ho hsort hd

def nestedFloors : LocalSpace :=
  ⟨.anonymousSet 0 1, ⟨6, [[2, 0, 1, 0, 0, 0], [3, 0, 1, 1, 0, 0], [5, 0, 1, 0, 0, 0]]⟩⟩

theorem wellFormed_nestedFloors : nestedFloors.WellFormed where
  columns := rfl
  rectangular := by simp [nestedFloors, Matrix.Rectangular]
  ordered := fun
    | 0 | 1 | 2 => by decide
    | _ + 3 => rfl

/-- The exchanges put the inner division behind the one that refers to it. -/
theorem sortDivs_swapDivs_nestedFloors :
    nestedFloors.WellFormed ∧ nestedFloors.allKnown = true ∧
      nestedFloors.sortDivs.ls.divs.rows.Nodup ∧
      (∀ s ∈ [(0, 1), (1, 2)], s.1 < nestedFloors.divCount ∧ s.2 < nestedFloors.divCount) ∧
      (nestedFloors.swapDivs [(0, 1), (1, 2)]).sortDivs.ls = nestedFloors.sortDivs.ls :=
  ⟨wellFormed_nestedFloors, by decide, by decide, by decide,
    sortDivs_swapDivs nestedFloors wellFormed_nestedFloors (by decide) (by decide) _ (by decide)⟩

end LocalSpace

end Quasiaffine

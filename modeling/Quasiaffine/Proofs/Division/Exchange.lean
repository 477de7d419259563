import Quasiaffine.Proofs.Division.Canonical

set_option autoImplicit false

namespace Quasiaffine

theorem Matrix.getElem?_exchange {α : Type} {i j : Nat} {xs : List α} (hi : i < xs.length)
    (hj : j < xs.length) (k : Nat) : (exchange i j xs)[k]? = xs[Equiv.swap i j k]? := by
  rw [exchange, List.getElem?_eq_getElem hi, List.getElem?_eq_getElem hj]
  simp only [List.getElem?_set, List.length_set]
  by_cases hkj : j = k
  · subst hkj
    rw [if_pos rfl, if_pos hj, Equiv.swap_apply_right, List.getElem?_eq_getElem hi]
  · rw [if_neg hkj]
    by_cases hki : i = k
    · subst hki
      rw [if_pos rfl, if_pos hi, Equiv.swap_apply_left, List.getElem?_eq_getElem hj]
    · rw [if_neg hki, Equiv.swap_apply_of_ne_of_ne (Ne.symm hki) (Ne.symm hkj)]

theorem Matrix.length_exchange {α : Type} (i j : Nat) (xs : List α) :
    (exchange i j xs).length = xs.length := by
  unfold exchange
  split <;> simp

theorem swap_lt {i j k n : Nat} (hi : i < n) (hj : j < n) (hk : k < n) : Equiv.swap i j k < n := by
  rw [Equiv.swap_apply_def]
  split
  · exact hj
  · split <;> assumption

theorem swap_add (w i j k : Nat) : Equiv.swap (w + i) (w + j) (w + k) = w + Equiv.swap i j k := by
  rw [Equiv.swap_apply_def, Equiv.swap_apply_def]
  split_ifs <;> omega

theorem Row.set_swap {r : Row} {i j : Nat} (hi : i < r.length) (hj : j < r.length) (c : Nat)
    (x : Int) : (r.swap i j).set (Equiv.swap i j c) x = Row.swap i j (r.set c x) := by
  refine ext_entry (by rw [List.length_set, length_swap, length_swap, List.length_set]) fun d => ?_
  rw [entry_swap _ (by rwa [List.length_set]) (by rwa [List.length_set]), entry_set, entry_set,
    length_swap, entry_swap _ hi hj]
  refine if_congr ?_ rfl rfl
  constructor
  · rintro ⟨rfl, hd⟩
    rw [Equiv.swap_apply_self]
    exact ⟨rfl, by simpa using swap_lt hi hj hd⟩
  · rintro ⟨rfl, hd⟩
    rw [Equiv.swap_apply_self]
    exact ⟨rfl, by simpa using swap_lt hi hj hd⟩

theorem Row.swap_eq_expand {r : Row} {w n i j : Nat} (hr : r.length = w + n) (hi : i < n)
    (hj : j < n) :
    r.swap (w + i) (w + j) = r.expand w ((List.range n).map (Equiv.swap i j)) n := by
  refine eq_expand (by omega) (by rw [length_swap, hr]) ?_ ?_ ?_ ?_ ?_
  · exact List.Nodup.map (Equiv.injective _) List.nodup_range
  · intro k hk
    obtain ⟨t, ht, rfl⟩ := List.mem_map.1 hk
    exact swap_lt hi hj (List.mem_range.1 ht)
  · intro c hc
    rw [entry_swap _ (by omega) (by omega), Equiv.swap_apply_of_ne_of_ne (by omega) (by omega)]
  · intro t k ht
    rw [List.getElem?_map, Option.map_eq_some_iff] at ht
    obtain ⟨u, hu, rfl⟩ := ht
    obtain ⟨-, rfl⟩ := List.getElem?_eq_some_iff.1 hu
    rw [entry_swap _ (by omega) (by omega), swap_add, Equiv.swap_apply_self, List.getElem_range]
  · intro k hk hmem
    refine absurd (List.mem_map.2 ⟨Equiv.swap i j k, ?_, Equiv.swap_apply_self i j k⟩) hmem
    exact List.mem_range.2 (swap_lt hi hj hk)

namespace LocalSpace

theorem getElem?_swapDiv {ls : LocalSpace} {i j : Nat} (hij : i ≠ j)
    (hi : i < ls.divs.rows.length) (hj : j < ls.divs.rows.length) (k : Nat) :
    (ls.swapDiv i j).divs.rows[k]? = (ls.divs.rows[Equiv.swap i j k]?).map
      (Row.swap (2 + ls.space.total + i) (2 + ls.space.total + j)) := by
  rw [swapDiv, if_neg hij]
  change ((Matrix.exchange i j ls.divs.rows).map _)[k]? = _
  rw [List.getElem?_map, Matrix.getElem?_exchange hi hj]
  rfl

theorem space_swapDiv (ls : LocalSpace) (i j : Nat) : (ls.swapDiv i j).space = ls.space := by
  unfold swapDiv
  split <;> rfl

theorem columns_swapDiv (ls : LocalSpace) (i j : Nat) :
    (ls.swapDiv i j).divs.columns = ls.divs.columns := by
  unfold swapDiv
  split <;> rfl

theorem length_rows_swapDiv (ls : LocalSpace) (i j : Nat) :
    (ls.swapDiv i j).divs.rows.length = ls.divs.rows.length := by
  unfold swapDiv
  split
  · rfl
  · change ((Matrix.exchange i j ls.divs.rows).map _).length = _
    rw [List.length_map, Matrix.length_exchange]

theorem exists_of_mem_swapDiv {ls : LocalSpace} {i j : Nat} (hi : i < ls.divs.rows.length)
    (hj : j < ls.divs.rows.length) {r' : Row} (hr' : r' ∈ (ls.swapDiv i j).divs.rows) :
    ∃ r ∈ ls.divs.rows, r' = r.swap (2 + ls.space.total + i) (2 + ls.space.total + j) := by
  by_cases hij : i = j
  · subst hij
    rw [swapDiv, if_pos rfl] at hr'
    exact ⟨r', hr', (Row.swap_self _ _).symm⟩
  · obtain ⟨k, hk⟩ := List.mem_iff_getElem?.1 hr'
    rw [getElem?_swapDiv hij hi hj, Option.map_eq_some_iff] at hk
    obtain ⟨r, hr, rfl⟩ := hk
    exact ⟨r, List.mem_of_getElem? hr, rfl⟩

/-- `ls` has the divisions of `base`, division `i` at index `e[i]`. -/
structure Rearranges (base ls : LocalSpace) (e : List Nat) : Prop where
  space : ls.space = base.space
  columns : ls.divs.columns = base.divs.columns
  height : ls.divs.rows.length = base.divs.rows.length
  width : ∀ r ∈ ls.divs.rows, r.length = 2 + base.space.total + base.divs.rows.length
  embeds : Embeds (2 + base.space.total) base.divs.rows.length base.divs.rows ls.divs.rows e

namespace Rearranges

variable {base ls : LocalSpace} {e : List Nat}

theorem refl (h : ∀ r ∈ base.divs.rows, r.length = 2 + base.space.total + base.divs.rows.length) :
    Rearranges base base (List.range base.divs.rows.length) :=
  ⟨rfl, rfl, rfl, h, Embeds.refl h⟩

theorem mem_of_lt (h : Rearranges base ls e) {k : Nat} (hk : k < ls.divs.rows.length) : k ∈ e := by
  have hsub : e ⊆ List.range base.divs.rows.length := fun j hj =>
    List.mem_range.2 (h.height ▸ h.embeds.lt j hj)
  have hperm := (List.subperm_of_subset h.embeds.nodup hsub).perm_of_length_le
    (by simp [h.embeds.length])
  exact hperm.mem_iff.2 (List.mem_range.2 (h.height ▸ hk))

theorem covers (h : Rearranges base ls e) :
    Covers ls.divs.rows (fun _ : Unit => e) := fun _ hk => ⟨(), h.mem_of_lt hk⟩

theorem swap (h : Rearranges base ls e)
    (hb : ∀ r ∈ base.divs.rows, 2 + base.space.total ≤ r.length) {i j : Nat}
    (hi : i < base.divs.rows.length) (hj : j < base.divs.rows.length) :
    Rearranges base (ls.swapDiv i j) (e.map (Equiv.swap i j)) := by
  by_cases hij : i = j
  · subst hij
    simpa [swapDiv] using h
  have hlt := h.height
  have hget := getElem?_swapDiv hij (hlt ▸ hi) (hlt ▸ hj)
  rw [h.space] at hget
  have hwidth : ∀ r ∈ (ls.swapDiv i j).divs.rows,
      r.length = 2 + base.space.total + base.divs.rows.length := by
    intro r hr
    obtain ⟨k, hk⟩ := List.mem_iff_getElem?.1 hr
    rw [hget, Option.map_eq_some_iff] at hk
    obtain ⟨s, hs, rfl⟩ := hk
    rw [Row.length_swap, h.width s (List.mem_of_getElem? hs)]
  -- One exchange embeds the divisions in their rearrangement, and embeddings compose.
  have hswap : Embeds (2 + base.space.total) ls.divs.rows.length ls.divs.rows
      (ls.swapDiv i j).divs.rows ((List.range ls.divs.rows.length).map (Equiv.swap i j)) := by
    refine ⟨by simp, List.Nodup.map (Equiv.injective _) List.nodup_range, ?_, ?_⟩
    · intro k hk
      obtain ⟨t, ht, rfl⟩ := List.mem_map.1 hk
      rw [length_rows_swapDiv]
      exact swap_lt (hlt ▸ hi) (hlt ▸ hj) (List.mem_range.1 ht)
    · intro t r k hr hk
      rw [List.getElem?_map, Option.map_eq_some_iff] at hk
      obtain ⟨u, hu, rfl⟩ := hk
      obtain ⟨-, rfl⟩ := List.getElem?_eq_some_iff.1 hu
      have hr' := h.width r (List.mem_of_getElem? hr)
      rw [List.getElem_range, hget, Equiv.swap_apply_self, hr, Option.map_some, hlt,
        Row.swap_eq_expand hr' hi hj]
  refine ⟨by rw [space_swapDiv, h.space], by rw [columns_swapDiv, h.columns],
    by rw [length_rows_swapDiv, h.height], hwidth, ?_⟩
  have htrans := Embeds.trans (hlt.symm ▸ h.embeds) hswap hb (by rw [length_rows_swapDiv])
  rw [hlt] at htrans
  have hmap : e.map (((List.range base.divs.rows.length).map (Equiv.swap i j)).getD · 0) =
      e.map (Equiv.swap i j) := by
    refine List.map_congr_left fun k hk => ?_
    have hk' := h.embeds.lt k hk
    rw [hlt] at hk'
    simp [List.getD_eq_getElem?_getD, List.getElem?_range hk']
  rwa [hmap] at htrans

theorem isKnown (h : Rearranges base ls e)
    (hb : ∀ r ∈ base.divs.rows, 2 + base.space.total ≤ r.length)
    (hk : ∀ r ∈ base.divs.rows, Division.isKnown r = true) :
    ∀ r ∈ ls.divs.rows, Division.isKnown r = true := by
  intro r hr
  obtain ⟨k, hk'⟩ := List.mem_iff_getElem?.1 hr
  obtain ⟨t, ht⟩ := List.mem_iff_getElem?.1
    (h.mem_of_lt (List.getElem?_eq_some_iff.1 hk').1)
  have hlt := h.embeds.getElem?_lt ht
  have hs := List.getElem?_eq_getElem hlt
  rw [Division.isKnown_iff, h.embeds.entry_of_lt hb hs ht hk' (by omega), ← Division.isKnown_iff]
  exact hk _ (List.getElem_mem hlt)

end Rearranges

end LocalSpace

def OrderedBelow (ls : LocalSpace) (i : Nat) : Prop :=
  ∀ k < i, ∀ r : Row, ls.divs.rows[k]? = some r →
    ∀ c, 2 + ls.space.total + k ≤ c → r.entry c = 0

theorem OrderedBelow.swapDiv {ls : LocalSpace} {i j : Nat} (h : OrderedBelow ls i)
    (hw : ∀ r ∈ ls.divs.rows, r.length = 2 + ls.space.total + ls.divs.rows.length)
    (hi : i < ls.divs.rows.length) (hj : j < ls.divs.rows.length) (hij : i < j) :
    OrderedBelow (ls.swapDiv i j) i := by
  intro k hk r hr c hc
  rw [LocalSpace.getElem?_swapDiv (by omega) hi hj,
    Equiv.swap_apply_of_ne_of_ne (by omega) (by omega), Option.map_eq_some_iff] at hr
  obtain ⟨s, hs, rfl⟩ := hr
  rw [LocalSpace.space_swapDiv] at hc
  have hsw := hw s (List.mem_of_getElem? hs)
  rw [Row.entry_swap _ (by omega) (by omega)]
  apply h k hk s hs
  rw [Equiv.swap_apply_def]
  split_ifs <;> omega

/-- A division may change places with the one in front of it if it does not refer to that one. -/
theorem OrderedBelow.swap_succ {ls : LocalSpace} {j : Nat} {y : Row}
    (h : OrderedBelow ls ls.divs.rows.length)
    (hw : ∀ r ∈ ls.divs.rows, r.length = 2 + ls.space.total + ls.divs.rows.length)
    (hy : ls.divs.rows[j + 1]? = some y) (hz : ∀ c, 2 + ls.space.total + j ≤ c → y.entry c = 0) :
    OrderedBelow (ls.swapDiv j (j + 1)) ls.divs.rows.length := by
  intro p hp r' hr' c hc
  have hj := (List.getElem?_eq_some_iff.1 hy).1
  rw [LocalSpace.getElem?_swapDiv (by omega) (by omega) hj, Option.map_eq_some_iff] at hr'
  obtain ⟨r, hr, rfl⟩ := hr'
  have hrw := hw r (List.mem_of_getElem? hr)
  rw [LocalSpace.space_swapDiv] at hc
  rw [Row.entry_swap _ (by omega) (by omega)]
  rcases Nat.lt_trichotomy p j with hpj | rfl | hpj
  · rw [Equiv.swap_apply_of_ne_of_ne (by omega) (by omega)] at hr
    refine h p (by omega) r hr _ ?_
    rw [Equiv.swap_apply_def]
    split_ifs <;> omega
  · rw [Equiv.swap_apply_left, hy, Option.some.injEq] at hr
    refine hr ▸ hz _ ?_
    rw [Equiv.swap_apply_def]
    split_ifs <;> omega
  · refine h _ (List.getElem?_eq_some_iff.1 hr).1 r hr _ ?_
    simp only [Equiv.swap_apply_def]
    split_ifs <;> omega

theorem foldl_range_induction {α : Type} {P : Nat → α → Prop} {f : α → Nat → α} {x : α} {n : Nat}
    (zero : P 0 x) (step : ∀ i < n, ∀ y, P i y → P (i + 1) (f y i)) :
    P n ((List.range n).foldl f x) := by
  induction n with
  | zero => exact zero
  | succ n ih =>
    rw [List.range_succ, List.foldl_append, List.foldl_cons, List.foldl_nil]
    exact step n (by omega) _ (ih fun i hi => step i (by omega))

theorem idxOf_eq {e : List Nat} (hd : e.Nodup) {t k : Nat} (ht : e[t]? = some k) :
    e.idxOf k = t := by
  obtain ⟨ht', rfl⟩ := List.getElem?_eq_some_iff.1 ht
  exact hd.idxOf_getElem t ht'

namespace Rearranged

variable {ls : LocalSpace} {i : Nat} {row : Row}

theorem dependency?_eq_some {j : Nat} (hrow : ls.divs.rows[i]? = some row)
    (h : dependency? ls i = some j) : i < j ∧ row.entry (2 + ls.space.total + j) ≠ 0 := by
  rw [dependency?] at h
  simp only [Matrix.row, List.getD_eq_getElem?_getD, hrow, Option.getD_some] at h
  split at h
  · split at h
    · rename_i pos hf
      obtain rfl := Option.some.inj h
      have hne := (Row.firstNonZero?_eq_some hf).1
      rw [Row.entry_drop] at hne
      exact ⟨by omega, by rwa [← Nat.add_assoc]⟩
    · cases h
  · cases h

theorem dependency?_eq_none (hrow : ls.divs.rows[i]? = some row)
    (hknown : Division.isKnown row = true) (hz : row.entry (2 + ls.space.total + i) = 0)
    (h : dependency? ls i = none) : ∀ c, 2 + ls.space.total + i ≤ c → row.entry c = 0 := by
  rw [dependency?] at h
  simp only [Matrix.row, List.getD_eq_getElem?_getD, hrow, Option.getD_some, hknown, if_true] at h
  intro c hc
  obtain ⟨d, rfl⟩ := Nat.exists_eq_add_of_le hc
  rw [← Row.entry_drop]
  split at h
  · cases h
  · rename_i hnot
    change ∀ pos, Row.firstNonZero? (row.drop (2 + ls.space.total + i)) = some (pos + 1) → False
      at hnot
    cases hf : Row.firstNonZero? (row.drop (2 + ls.space.total + i)) with
    | none => exact Row.firstNonZero?_eq_none hf d
    | some pos =>
      cases pos with
      | zero =>
        have hne := (Row.firstNonZero?_eq_some hf).1
        rw [Row.entry_drop, Nat.add_zero] at hne
        exact absurd hz hne
      | succ pos => exact (hnot pos hf).elim

end Rearranged

namespace LocalSpace

def swapDivs (ls : LocalSpace) (swaps : List (Nat × Nat)) : LocalSpace :=
  swaps.foldl (fun ls s => ls.swapDiv s.1 s.2) ls

/-- Where exchanges take what stands at place `k`. -/
def destination (swaps : List (Nat × Nat)) (k : Nat) : Nat :=
  swaps.foldl (fun k s => Equiv.swap s.1 s.2 k) k

theorem Rearranges.swapDivs_destination {base ls : LocalSpace} {e : List Nat}
    (h : Rearranges base ls e) (hb : ∀ r ∈ base.divs.rows, 2 + base.space.total ≤ r.length)
    (swaps : List (Nat × Nat)) (hs : ∀ s ∈ swaps, s.1 < base.divCount ∧ s.2 < base.divCount) :
    Rearranges base (ls.swapDivs swaps) (e.map (destination swaps)) := by
  induction swaps generalizing ls e with
  | nil => rwa [show destination [] = id from rfl, List.map_id]
  | cons s swaps ih =>
    obtain ⟨hi, hj⟩ := hs s List.mem_cons_self
    have hrest := ih (h.swap hb hi hj) fun t ht => hs t (List.mem_cons_of_mem s ht)
    rwa [List.map_map] at hrest

theorem Rearranges.swapDivs {base ls : LocalSpace} {e : List Nat} (h : Rearranges base ls e)
    (hb : ∀ r ∈ base.divs.rows, 2 + base.space.total ≤ r.length) (swaps : List (Nat × Nat))
    (hs : ∀ s ∈ swaps, s.1 < base.divCount ∧ s.2 < base.divCount) :
    ∃ e', Rearranges base (ls.swapDivs swaps) e' :=
  ⟨_, h.swapDivs_destination hb swaps hs⟩

end LocalSpace

namespace Rearranged

variable {ls : LocalSpace} {r : Rearranged}

/-- Replaying the recorded exchanges, all of them of divisions, leads from `ls` to the result. -/
structure Recorded (ls : LocalSpace) (r : Rearranged) : Prop where
  replay : r.ls = ls.swapDivs r.swaps
  bound : ∀ s ∈ r.swaps, s.1 < ls.divs.rows.length ∧ s.2 < ls.divs.rows.length

theorem Recorded.swap (h : Recorded ls r) {i j : Nat} (hi : i < ls.divs.rows.length)
    (hj : j < ls.divs.rows.length) : Recorded ls (r.swap i j) := by
  refine ⟨?_, ?_⟩
  · rw [Rearranged.swap, h.replay, LocalSpace.swapDivs, LocalSpace.swapDivs, List.foldl_append]
    rfl
  · simp only [Rearranged.swap, List.mem_append, List.mem_singleton, or_imp, forall_and, forall_eq]
    exact ⟨⟨fun s hs => (h.bound s hs).1, hi⟩, fun s hs => (h.bound s hs).2, hj⟩

section

variable (hw : ∀ r ∈ ls.divs.rows, r.length = 2 + ls.space.total + ls.divs.rows.length)

include hw

theorem Recorded.rearranges (h : Recorded ls r) : ∃ e, LocalSpace.Rearranges ls r.ls e := by
  rw [h.replay]
  refine (LocalSpace.Rearranges.refl hw).swapDivs (fun r hr => ?_) _ h.bound
  rw [hw r hr]
  omega

theorem Recorded.settle (h : Recorded ls r) {i : Nat} (hi : i < ls.divs.rows.length) (fuel : Nat) :
    Recorded ls (r.settle i fuel) := by
  induction fuel generalizing r with
  | zero => exact h
  | succ fuel ih =>
    rw [Rearranged.settle]
    split
    · rename_i j hdep
      obtain ⟨e, he⟩ := h.rearranges hw
      obtain ⟨row, hrow⟩ : ∃ row, r.ls.divs.rows[i]? = some row :=
        ⟨_, List.getElem?_eq_getElem (he.height ▸ hi)⟩
      obtain ⟨-, hne⟩ := dependency?_eq_some hrow hdep
      have hlt := Row.lt_length_of_entry_ne_zero hne
      rw [he.width row (List.mem_of_getElem? hrow), he.space] at hlt
      exact ih (h.swap hi (by omega))
    · exact h

omit hw in
theorem Recorded.sink (h : Recorded ls r) (rows columns : Nat) {i : Nat}
    (hi : i < ls.divs.rows.length) : Recorded ls (r.sink rows columns i) := by
  induction i generalizing r with
  | zero => exact h
  | succ j ih =>
    rw [Rearranged.sink]
    split
    · exact ih (h.swap (by omega) hi) (by omega)
    · exact h

theorem recorded_orderDivs : Recorded ls ls.orderDivs :=
  foldl_range_induction (P := fun _ => Recorded ls) ⟨rfl, by simp⟩ fun _ hi _ h => h.settle hw hi _

theorem recorded_sortDivs : Recorded ls ls.sortDivs :=
  foldl_range_induction (P := fun _ => Recorded ls) (recorded_orderDivs hw)
    fun _ hi _ h => h.sink _ _ hi

end

end Rearranged

end Quasiaffine

import Mathlib
import Quasiaffine.LocalSpace.Merge

set_option autoImplicit false

namespace Quasiaffine.Row

theorem entry_eq_zero {r : Row} {c : Nat} (h : r.length ≤ c) : r.entry c = 0 := by
  simp [entry, List.getD_eq_getElem?_getD, List.getElem?_eq_none h]

theorem lt_length_of_entry_ne_zero {r : Row} {c : Nat} (h : r.entry c ≠ 0) : c < r.length := by
  by_contra hc
  exact h (entry_eq_zero (by omega))

theorem entry_append (r s : Row) (c : Nat) :
    entry (r ++ s) c = if c < r.length then r.entry c else s.entry (c - r.length) := by
  simp only [entry, List.getD_eq_getElem?_getD, List.getElem?_append]
  split <;> rfl

theorem entry_append_left {r : Row} (s : Row) {c : Nat} (h : c < r.length) :
    entry (r ++ s) c = r.entry c := by
  rw [entry_append, if_pos h]

theorem entry_append_right (r s : Row) (c : Nat) : entry (r ++ s) (r.length + c) = s.entry c := by
  rw [entry_append, if_neg (by omega), Nat.add_sub_cancel_left]

theorem entry_take (r : Row) (n c : Nat) :
    entry (r.take n) c = if c < n then r.entry c else 0 := by
  simp only [entry, List.getD_eq_getElem?_getD, List.getElem?_take]
  split <;> rfl

theorem entry_drop (r : Row) (n c : Nat) : entry (r.drop n) c = r.entry (n + c) := by
  simp [entry, List.getD_eq_getElem?_getD]

@[simp] theorem entry_zeros (n c : Nat) : (zeros n).entry c = 0 := by
  simp only [entry, zeros, List.getD_eq_getElem?_getD, List.getElem?_replicate]
  split <;> rfl

@[simp] theorem entry_nil (c : Nat) : entry [] c = 0 := rfl

@[simp] theorem entry_cons_zero (x : Int) (r : Row) : entry (x :: r) 0 = x := rfl

@[simp] theorem entry_cons_succ (x : Int) (r : Row) (c : Nat) :
    entry (x :: r) (c + 1) = r.entry c := rfl

theorem entry_set (r : Row) (i : Nat) (x : Int) (c : Nat) :
    entry (r.set i x) c = if i = c ∧ c < r.length then x else r.entry c := by
  simp only [entry, List.getD_eq_getElem?_getD, List.getElem?_set]
  by_cases hi : i = c
  · subst hi
    by_cases hc : i < r.length <;> simp [hc]
  · simp [hi]

theorem entry_map {f : Int → Int} (hf : f 0 = 0) (r : Row) (c : Nat) :
    entry (r.map f) c = f (r.entry c) := by
  simp only [entry, List.getD_eq_getElem?_getD, List.getElem?_map]
  cases r[c]? with
  | none => exact hf.symm
  | some _ => rfl

@[simp] theorem length_zeros (n : Nat) : (zeros n).length = n := by simp [zeros]

theorem ext_entry {r s : Row} (hl : r.length = s.length) (h : ∀ c, r.entry c = s.entry c) :
    r = s := by
  apply List.ext_getElem hl
  intro c hr hs
  have hc := h c
  simpa [entry, List.getD_eq_getElem?_getD, List.getElem?_eq_getElem hr,
    List.getElem?_eq_getElem hs] using hc

theorem isZero_iff (r : Row) : r.isZero = true ↔ ∀ c, r.entry c = 0 := by
  constructor
  · intro h c
    rcases Nat.lt_or_ge c r.length with hc | hc
    · have hmem : r.entry c ∈ r := by
        simp [entry, List.getD_eq_getElem?_getD, List.getElem?_eq_getElem hc]
      exact by simpa using List.all_eq_true.1 h _ hmem
    · exact entry_eq_zero hc
  · intro h
    refine List.all_eq_true.2 fun x hx => ?_
    obtain ⟨c, hc, rfl⟩ := List.getElem_of_mem hx
    have := h c
    simpa [entry, List.getD_eq_getElem?_getD, List.getElem?_eq_getElem hc] using this

theorem isZero_drop_iff (r : Row) (n : Nat) :
    isZero (r.drop n) = true ↔ ∀ c, n ≤ c → r.entry c = 0 := by
  rw [isZero_iff]
  constructor
  · intro h c hc
    have := h (c - n)
    rwa [entry_drop, Nat.add_sub_cancel' hc] at this
  · intro h c
    rw [entry_drop]
    exact h _ (by omega)

theorem entry_swap (r : Row) {i j : Nat} (hi : i < r.length) (hj : j < r.length) (c : Nat) :
    (r.swap i j).entry c = r.entry (Equiv.swap i j c) := by
  rw [swap, entry_set, entry_set, List.length_set]
  by_cases hcj : j = c
  · subst hcj
    rw [if_pos ⟨rfl, hj⟩, Equiv.swap_apply_right]
  · rw [if_neg (by omega)]
    by_cases hci : i = c
    · subst hci
      rw [if_pos ⟨rfl, hi⟩, Equiv.swap_apply_left]
    · rw [if_neg (by omega), Equiv.swap_apply_of_ne_of_ne (Ne.symm hci) (Ne.symm hcj)]

theorem swap_self (i : Nat) (r : Row) : r.swap i i = r := by
  apply ext_entry (length_swap i i r)
  intro c
  simp only [swap, entry_set, List.length_set]
  split
  · rename_i h
    rw [h.1]
  · rfl

theorem swap_swap {i j : Nat} {r : Row} (hi : i < r.length) (hj : j < r.length) :
    (r.swap i j).swap i j = r := by
  apply ext_entry (by rw [length_swap, length_swap])
  intro c
  rw [entry_swap _ (by rwa [length_swap]) (by rwa [length_swap]), entry_swap r hi hj,
    Equiv.swap_apply_self]

theorem swap_cons (x : Int) (i j : Nat) (r : Row) :
    swap (i + 1) (j + 1) (x :: r) = x :: r.swap i j := rfl

theorem append_swap (u r : Row) (i j : Nat) :
    u ++ r.swap i j = swap (u.length + i) (u.length + j) (u ++ r) := by
  induction u with
  | nil => simp
  | cons x u ih =>
    rw [List.cons_append, ih, List.length_cons, Nat.add_right_comm, Nat.add_right_comm _ 1 j]
    rfl

theorem exists_split {r : Row} {n : Nat} (h : n ≤ r.length) :
    ∃ a s, a.length = n ∧ r = a ++ s :=
  ⟨r.take n, r.drop n, by simp [h], by simp⟩

theorem moveEntries_append (a b c d : Row) :
    (a ++ b ++ c ++ d).moveEntries a.length b.length (a.length + c.length) = a ++ c ++ b ++ d := by
  have h₁ : (a ++ b ++ c ++ d).drop a.length = b ++ (c ++ d) := by simp
  have h₂ : (a ++ b ++ c ++ d).dropEntries a.length b.length = (a ++ c) ++ d := by
    rw [dropEntries, ← List.drop_drop, h₁]
    simp
  have h₃ : a.length + c.length = (a ++ c).length := by simp
  rw [moveEntries, h₁, h₂, h₃]
  simp only [List.take_left, List.drop_left]

theorem moveEntries_cons (x : Int) (s n t : Nat) (r : Row) :
    moveEntries (s + 1) n (t + 1) (x :: r) = x :: moveEntries s n t r := by
  simp [moveEntries, dropEntries, Nat.add_right_comm]

theorem entry_moveEntries_zero {r : Row} {s n t : Nat} (hs : 0 < s) (ht : 0 < t)
    (hr : 0 < r.length) : (r.moveEntries s n t).entry 0 = r.entry 0 := by
  cases r with
  | nil => simp at hr
  | cons x r =>
    obtain ⟨s, rfl⟩ := Nat.exists_eq_succ_of_ne_zero (Nat.ne_of_gt hs)
    obtain ⟨t, rfl⟩ := Nat.exists_eq_succ_of_ne_zero (Nat.ne_of_gt ht)
    rw [moveEntries_cons]
    rfl

theorem entry_moveEntries_of_le {r : Row} {s n t k : Nat} (hs : s ≤ t) (hr : t + n ≤ r.length)
    (hk : t + n ≤ k) : (r.moveEntries s n t).entry k = r.entry k := by
  obtain ⟨A, r, hA, rfl⟩ := exists_split (by omega : s ≤ r.length)
  rw [List.length_append] at hr
  obtain ⟨B, r, hB, rfl⟩ := exists_split (by omega : n ≤ r.length)
  rw [List.length_append] at hr
  obtain ⟨C, D, hC, rfl⟩ := exists_split (by omega : t - s ≤ r.length)
  have hmove := moveEntries_append A B C D
  rw [hA, hB, hC, Nat.add_sub_cancel' hs, List.append_assoc, List.append_assoc] at hmove
  rw [hmove, entry_append, if_neg (by simp; omega), ← List.append_assoc, ← List.append_assoc,
    entry_append, if_neg (by simp; omega)]
  congr 1
  simp
  omega

theorem insertZeros_cons (x : Int) (pos n : Nat) (r : Row) :
    insertZeros (pos + 1) n (x :: r) = x :: insertZeros pos n r := by
  simp [insertZeros]

theorem entry_insertZeros {r : Row} {pos n : Nat} (h : pos ≤ r.length) (c : Nat) :
    (r.insertZeros pos n).entry c =
      if c < pos then r.entry c else if c < pos + n then 0 else r.entry (c - n) := by
  have hpos : (r.take pos).length = pos := by simp [h]
  rw [insertZeros, List.append_assoc, entry_append, hpos]
  split
  · rw [entry_take, if_pos ‹_›]
  · rw [entry_append, length_zeros]
    split
    · rw [entry_zeros, if_pos (by omega)]
    · rw [entry_drop, if_neg (by omega)]
      congr 1
      omega

theorem firstNonZero?_eq_some {r : Row} {k : Nat} (h : r.firstNonZero? = some k) :
    r.entry k ≠ 0 ∧ ∀ c < k, r.entry c = 0 := by
  induction r generalizing k with
  | nil => simp [firstNonZero?] at h
  | cons x r ih =>
    rw [firstNonZero?] at h
    split at h
    · rename_i hx
      obtain ⟨i, hi, rfl⟩ := Option.map_eq_some_iff.1 h
      refine ⟨(ih hi).1, fun c hc => ?_⟩
      cases c with
      | zero => exact hx
      | succ c => exact (ih hi).2 c (by omega)
    · obtain rfl := Option.some.inj h
      exact ⟨‹_›, by simp⟩

theorem firstNonZero?_eq_none {r : Row} (h : r.firstNonZero? = none) (c : Nat) :
    r.entry c = 0 := by
  induction r generalizing c with
  | nil => rfl
  | cons x r ih =>
    rw [firstNonZero?] at h
    split at h
    · rename_i hx
      cases c with
      | zero => exact hx
      | succ c => exact ih (by simpa using h) c
    · cases h

section Scatter

variable {n : Nat} {indices : List Nat} {values : Row}

theorem length_foldl_set (places : List (Nat × Int)) (row : Row) :
    (places.foldl (fun row place => row.set place.1 place.2) row).length = row.length := by
  induction places generalizing row with
  | nil => rfl
  | cons place places ih => simp [ih]

@[simp] theorem length_scatter (n : Nat) (indices : List Nat) (values : Row) :
    (scatter n indices values).length = n := by
  simp [scatter, length_foldl_set]

theorem entry_foldl_set_of_notMem (row : Row) {k : Nat} (h : k ∉ indices) :
    entry ((indices.zip values).foldl (fun row place => row.set place.1 place.2) row) k =
      row.entry k := by
  induction indices generalizing values row with
  | nil => rfl
  | cons i indices ih =>
    cases values with
    | nil => rfl
    | cons v values =>
      simp only [List.mem_cons, not_or] at h
      simp only [List.zip_cons_cons, List.foldl_cons]
      rw [ih _ h.2, entry_set, if_neg (by omega)]

theorem entry_scatter_of_notMem {k : Nat} (h : k ∉ indices) :
    (scatter n indices values).entry k = 0 := by
  rw [scatter, entry_foldl_set_of_notMem _ h, entry_zeros]

theorem entry_foldl_set {row : Row} {t k : Nat} (hd : indices.Nodup) (ht : indices[t]? = some k)
    (hk : k < row.length) (hz : ∀ j ∈ indices, row.entry j = 0) :
    entry ((indices.zip values).foldl (fun row place => row.set place.1 place.2) row) k =
      values.entry t := by
  induction indices generalizing values row t with
  | nil => simp at ht
  | cons i indices ih =>
    rw [List.nodup_cons] at hd
    cases values with
    | nil => simpa using hz k (List.mem_of_getElem? ht)
    | cons v values =>
      simp only [List.zip_cons_cons, List.foldl_cons]
      cases t with
      | zero =>
        simp only [List.getElem?_cons_zero, Option.some.injEq] at ht
        subst ht
        rw [entry_foldl_set_of_notMem _ hd.1, entry_set, if_pos ⟨rfl, hk⟩, entry_cons_zero]
      | succ t =>
        rw [List.getElem?_cons_succ] at ht
        rw [entry_cons_succ]
        refine ih hd.2 ht (by simpa using hk) fun j hj => ?_
        rw [entry_set, if_neg, hz j (List.mem_cons_of_mem i hj)]
        rintro ⟨rfl, -⟩
        exact hd.1 hj

theorem entry_scatter {t k : Nat} (hd : indices.Nodup) (ht : indices[t]? = some k) (hk : k < n) :
    (scatter n indices values).entry k = values.entry t :=
  entry_foldl_set hd ht (by simpa using hk) (by simp)

end Scatter

section Expand

variable {r : Row} {w n : Nat} {e : List Nat}

theorem length_expand (hw : w ≤ r.length) : (r.expand w e n).length = w + n := by
  simp [expand, hw]

theorem entry_expand_of_lt (hw : w ≤ r.length) {c : Nat} (hc : c < w) :
    (r.expand w e n).entry c = r.entry c := by
  rw [expand, entry_append_left _ (by simp; omega), entry_take, if_pos hc]

theorem entry_expand_add (hw : w ≤ r.length) (k : Nat) :
    (r.expand w e n).entry (w + k) = (scatter n e (r.drop w)).entry k := by
  have hl : (r.take w).length = w := by simp [hw]
  rw [expand, entry_append, if_neg (by omega), hl, Nat.add_sub_cancel_left]

theorem entry_expand (hw : w ≤ r.length) (hd : e.Nodup) {t k : Nat} (ht : e[t]? = some k)
    (hk : k < n) : (r.expand w e n).entry (w + k) = r.entry (w + t) := by
  rw [entry_expand_add hw, entry_scatter hd ht hk, entry_drop]

theorem entry_expand_of_notMem (hw : w ≤ r.length) {k : Nat} (hk : k ∉ e) :
    (r.expand w e n).entry (w + k) = 0 := by
  rw [entry_expand_add hw, entry_scatter_of_notMem hk]

theorem expand_eq_zero (hw : w ≤ r.length) (hd : e.Nodup) (hlt : ∀ k ∈ e, k < n)
    (hz : ∀ c, r.entry c = 0) : ∀ c, (r.expand w e n).entry c = 0 := by
  intro c
  rcases Nat.lt_or_ge c w with hc | hc
  · rw [entry_expand_of_lt hw hc, hz]
  obtain ⟨k, rfl⟩ := Nat.exists_eq_add_of_le hc
  by_cases hk : k ∈ e
  · obtain ⟨t, ht⟩ := List.mem_iff_getElem?.1 hk
    rw [entry_expand hw hd ht (hlt k hk), hz]
  · exact entry_expand_of_notMem hw hk

/-- The expanded row is the only one with these entries. -/
theorem eq_expand {s : Row} (hw : w ≤ r.length) (hs : s.length = w + n) (hd : e.Nodup)
    (hlt : ∀ k ∈ e, k < n) (head : ∀ c < w, s.entry c = r.entry c)
    (moved : ∀ t k, e[t]? = some k → s.entry (w + k) = r.entry (w + t))
    (other : ∀ k < n, k ∉ e → s.entry (w + k) = 0) : s = r.expand w e n := by
  apply ext_entry (by rw [hs, length_expand hw])
  intro c
  rcases Nat.lt_or_ge c w with hc | hc
  · rw [head c hc, entry_expand_of_lt hw hc]
  obtain ⟨k, rfl⟩ := Nat.exists_eq_add_of_le hc
  by_cases hk : k ∈ e
  · obtain ⟨t, ht⟩ := List.mem_iff_getElem?.1 hk
    rw [moved t k ht, entry_expand hw hd ht (hlt k hk)]
  · rw [entry_expand_of_notMem hw hk]
    rcases Nat.lt_or_ge k n with hn | hn
    · exact other k hn hk
    · exact entry_eq_zero (by omega)

theorem expand_range (hr : r.length = w + n) : r.expand w (List.range n) n = r := by
  symm
  refine eq_expand (by omega) hr List.nodup_range (by simp) (fun _ _ => rfl) ?_ ?_
  · intro t k ht
    obtain ⟨-, rfl⟩ := List.getElem?_eq_some_iff.1 ht
    simp
  · intro k hk hmem
    exact absurd (List.mem_range.2 hk) hmem

/-- An index behind the others does not matter to a row without a coefficient for it. -/
theorem expand_concat (hw : w ≤ r.length) (hd : e.Nodup) (hlt : ∀ j ∈ e, j < n) {k : Nat}
    (hk : k ∉ e) (hkn : k < n) (hz : r.entry (w + e.length) = 0) :
    r.expand w (e ++ [k]) n = r.expand w e n := by
  symm
  refine eq_expand hw (length_expand hw) ?_ ?_ (fun _ h => entry_expand_of_lt hw h) ?_ ?_
  · exact List.nodup_append_comm.1 (List.nodup_cons.2 ⟨hk, hd⟩)
  · simpa [or_imp, forall_and, hkn] using hlt
  · intro t j ht
    rcases List.mem_append.1 (List.mem_of_getElem? ht) with hj | hj
    · have hte : t < e.length := by
        by_contra h
        rw [List.getElem?_append_right (by omega)] at ht
        simp only [List.mem_of_getElem? ht |> List.mem_singleton.1] at hj
        exact hk hj
      rw [List.getElem?_append_left hte] at ht
      exact entry_expand hw hd ht (hlt j hj)
    · rw [List.mem_singleton] at hj
      subst hj
      have hte : t = e.length := by
        by_contra h
        obtain ⟨hl, -⟩ := List.getElem?_eq_some_iff.1 ht
        simp only [List.length_append, List.length_singleton] at hl
        rw [List.getElem?_append_left (by omega)] at ht
        exact hk (List.mem_of_getElem? ht)
      rw [entry_expand_of_notMem hw hk, hte, hz]
  · intro j _ hj
    rw [List.mem_append, not_or] at hj
    exact entry_expand_of_notMem hw hj.1

theorem expand_expand {f : List Nat} {p : Nat} (hw : w ≤ r.length) (hd : e.Nodup)
    (hlt : ∀ j ∈ e, j < n) (hf : f.Nodup) (hfn : f.length = n) (hfp : ∀ k ∈ f, k < p) :
    (r.expand w e n).expand w f p = r.expand w (e.map (f.getD · 0)) p := by
  have hlen : w ≤ (r.expand w e n).length := by rw [length_expand hw]; omega
  have hget : ∀ j ∈ e, f[j]? = some (f.getD j 0) := by
    intro j hj
    have : j < f.length := by rw [hfn]; exact hlt j hj
    simp [List.getD_eq_getElem?_getD, List.getElem?_eq_getElem this]
  have hinj : ∀ i ∈ e, ∀ j ∈ e, f.getD i 0 = f.getD j 0 → i = j := by
    intro i hi j hj hij
    obtain ⟨hi', hi''⟩ := List.getElem?_eq_some_iff.1 (hget i hi)
    obtain ⟨hj', hj''⟩ := List.getElem?_eq_some_iff.1 (hget j hj)
    exact (hf.getElem_inj_iff).1 (by rw [hi'', hj'', hij])
  -- An expanded row is the only one with its entries, so it is enough to look at these.
  refine eq_expand hw (length_expand hlen) ?_ ?_ ?_ ?_ ?_
  · exact List.Nodup.map_on hinj hd
  · intro k hk
    obtain ⟨j, hj, rfl⟩ := List.mem_map.1 hk
    exact hfp _ (List.mem_of_getElem? (hget j hj))
  · intro c hc
    rw [entry_expand_of_lt hlen hc, entry_expand_of_lt hw hc]
  · intro t k ht
    rw [List.getElem?_map, Option.map_eq_some_iff] at ht
    obtain ⟨j, hj, rfl⟩ := ht
    have hj' := List.mem_of_getElem? hj
    rw [entry_expand hlen hf (hget j hj') (hfp _ (List.mem_of_getElem? (hget j hj'))),
      entry_expand hw hd hj (hlt j hj')]
  · intro k _ hk
    by_cases hkf : k ∈ f
    · obtain ⟨j, hj⟩ := List.mem_iff_getElem?.1 hkf
      obtain ⟨hjl, hjk⟩ := List.getElem?_eq_some_iff.1 hj
      rw [entry_expand hlen hf hj (hfp k hkf), entry_expand_of_notMem hw]
      intro hje
      refine hk (List.mem_map.2 ⟨j, hje, ?_⟩)
      simp [List.getD_eq_getElem?_getD, hj]
    · exact entry_expand_of_notMem hlen hkf

theorem take_expand {p : Nat} (hw : w ≤ r.length) (hd : e.Nodup) (hlt : ∀ j ∈ e, j < p)
    (hp : p ≤ n) : (r.expand w e n).take (w + p) = r.expand w e p := by
  refine eq_expand hw (by simp [length_expand hw, hp]) hd hlt ?_ ?_ ?_
  · intro c hc
    rw [entry_take, if_pos (by omega), entry_expand_of_lt hw hc]
  · intro t k ht
    have hk := hlt k (List.mem_of_getElem? ht)
    rw [entry_take, if_pos (by omega), entry_expand hw hd ht (by omega)]
  · intro k hk hke
    rw [entry_take, if_pos (by omega), entry_expand_of_notMem hw hke]

end Expand

end Quasiaffine.Row

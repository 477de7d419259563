import Quasiaffine.Proofs.Division.Canonical

/-!
Divisions without a definition in the canonical order. Each counts as a division that ends in its
own column, in front of all others that end there. So rows can be marked with the place where they
stand, and the comparison of two divisions, known or not, is the comparison of marked rows.
-/

set_option autoImplicit false

namespace Quasiaffine

namespace Division

variable {r s : Row} {w n i j k : Nat}

/-- The row that counts for division `k` in the canonical order. -/
def mark (w k : Nat) (r : Row) : Row :=
  if isKnown r then r else (r.set 0 (-1)).set (w + k) 1

theorem mark_of_isKnown (h : isKnown r = true) : mark w k r = r := if_pos h

@[simp] theorem length_mark (w k : Nat) (r : Row) : (mark w k r).length = r.length := by
  unfold mark
  split <;> simp

theorem entry_mark_of_ne {c : Nat} (h0 : c ≠ 0) (hc : c ≠ w + k) :
    (mark w k r).entry c = r.entry c := by
  unfold mark
  split
  · rfl
  · rw [Row.entry_set, if_neg (by omega), Row.entry_set, if_neg (by omega)]

section Unknown

variable (hu : isKnown r = false)

include hu

theorem entry_mark_self (hk : w + k < r.length) : (mark w k r).entry (w + k) = 1 := by
  rw [mark, if_neg (by simp [hu]), Row.entry_set, if_pos ⟨rfl, by simpa using hk⟩]

theorem entry_mark_zero (hw : 0 < w) (hk : w + k < r.length) : (mark w k r).entry 0 = -1 := by
  rw [mark, if_neg (by simp [hu]), Row.entry_set, if_neg (by omega), Row.entry_set,
    if_pos ⟨rfl, by omega⟩]

theorem lastColumn_mark (hz : ∀ c, r.entry c = 0) (hk : w + k < r.length) :
    lastColumn (mark w k r) = w + k := by
  refine lastColumn_eq (by rw [entry_mark_self hu hk]; decide) fun c hc => ?_
  rw [entry_mark_of_ne (by omega) (by omega), hz]

end Unknown

theorem isKnown_mark (hw : 0 < w) (hk : w + k < r.length) : isKnown (mark w k r) = true := by
  cases hr : isKnown r with
  | true => rw [mark_of_isKnown hr, hr]
  | false =>
    rw [isKnown_iff, entry_mark_zero hr hw hk]
    decide

theorem entry_mark_eq_zero {c : Nat} (hz : ∀ c, w + k ≤ c → r.entry c = 0) (hc : w + k < c) :
    (mark w k r).entry c = 0 := by
  rw [entry_mark_of_ne (by omega) (by omega), hz c (by omega)]

theorem lastColumn_mark_le (hw : 0 < w) (hk : w + k < r.length)
    (hz : ∀ c, w + k ≤ c → r.entry c = 0) : lastColumn (mark w k r) ≤ w + k := by
  by_contra hgt
  exact (lastColumn_spec (isKnown_mark hw hk)).1 (entry_mark_eq_zero hz (by omega))

/-- A division with a definition ends in front of its own column. -/
theorem lastColumn_lt (hr : isKnown r = true) (hz : ∀ c, w ≤ c → r.entry c = 0) :
    lastColumn r < w := by
  by_contra hge
  exact (lastColumn_spec hr).1 (hz _ (by omega))

theorem orderKey_of_unknown (hr : isKnown r = false) : orderKey r i n (w + n) = w + i := by
  simp [orderKey, hr]

theorem orderKey_of_known {columns : Nat} (hr : isKnown r = true) (hl : r.length = columns) :
    orderKey r i n columns = lastColumn r := by
  rw [orderKey, if_pos hr, List.take_of_length_le (Nat.le_of_eq hl)]
  rfl

theorem rank_lt_of_entry_zero_lt (hl : lastColumn r = lastColumn s) (h : r.entry 0 < s.entry 0) :
    rank r < rank s :=
  rank_lt_iff.2 (.inr ⟨hl, 0, fun _ hd => absurd hd (Nat.not_lt_zero _), h⟩)

theorem rank_lt_of_lastColumn_lt (h : lastColumn r < lastColumn s) : rank r < rank s :=
  rank_lt_iff.2 (.inl h)

theorem lastColumn_le_of_rank_lt (h : rank r < rank s) : lastColumn r ≤ lastColumn s := by
  rcases rank_lt_iff.1 h with h | ⟨h, -⟩ <;> omega

theorem mark_congr {w' k' : Nat} (h : w + k = w' + k') : mark w k r = mark w' k' r := by
  rw [mark, h, mark]

theorem isKnown_expand {e : List Nat} (hw : w ≤ r.length) (h0 : 0 < w) :
    isKnown (r.expand w e n) = isKnown r := by
  rw [isKnown, isKnown, Row.entry_expand_of_lt hw h0]

/-- An expanded row counts for the place to which its division goes. -/
theorem mark_expand {t : Nat} {e : List Nat} (hw : 0 < w) (hl : w + t < r.length)
    (hd : e.Nodup) (hlt : ∀ k ∈ e, k < n) (ht : e[t]? = some k) :
    mark w k (r.expand w e n) = (mark w t r).expand w e n := by
  have hwr : w ≤ r.length := by omega
  have hkn : k < n := hlt k (List.mem_of_getElem? ht)
  have hknown := isKnown_expand (n := n) (e := e) hwr hw
  cases hr : isKnown r with
  | true => rw [mark_of_isKnown (hknown.trans hr), mark_of_isKnown hr]
  | false =>
    have hlen : (r.expand w e n).length = w + n := Row.length_expand hwr
    refine Row.eq_expand (by simpa using hwr) (by simpa using hlen) hd hlt (fun c hc => ?_)
      (fun t' k' ht' => ?_) fun k' hk' hne => ?_
    · rcases Nat.eq_zero_or_pos c with rfl | hpos
      · rw [entry_mark_zero (hknown.trans hr) hw (by omega), entry_mark_zero hr hw hl]
      · rw [entry_mark_of_ne (by omega) (by omega), entry_mark_of_ne (by omega) (by omega),
          Row.entry_expand_of_lt hwr hc]
    · by_cases htt : t' = t
      · subst htt
        obtain rfl := Option.some.inj (ht.symm.trans ht')
        rw [entry_mark_self (hknown.trans hr) (by omega), entry_mark_self hr hl]
      · have hkk : k' ≠ k := by
          rintro rfl
          have htl := (List.getElem?_eq_some_iff.1 ht').1
          exact htt ((List.getElem?_inj htl hd).1 (ht'.trans ht.symm))
        rw [entry_mark_of_ne (by omega) (by omega), entry_mark_of_ne (by omega) (by omega),
          Row.entry_expand hwr hd ht' (hlt k' (List.mem_of_getElem? ht'))]
    · have hkk : k' ≠ k := by
        rintro rfl
        exact hne (List.mem_of_getElem? ht)
      rw [entry_mark_of_ne (by omega) (by omega), Row.entry_expand_of_notMem hwr hne]

theorem rank_take (hz : ∀ c, n ≤ c → r.entry c = 0) : rank (r.take n) = rank r := by
  refine rank_eq_iff.2 fun c => ?_
  rw [Row.entry_take]
  split_ifs with hc
  · rfl
  · exact (hz c (by omega)).symm

section All

variable {rows : List Row}

def markAll (w : Nat) (rows : List Row) : List Row := rows.mapIdx (mark w)

theorem getElem?_markAll (w : Nat) (rows : List Row) (k : Nat) :
    (markAll w rows)[k]? = rows[k]?.map (mark w k) := by
  rw [markAll, List.getElem?_mapIdx]

theorem markAll_concat (w : Nat) (rows : List Row) (r : Row) :
    markAll w (rows ++ [r]) = markAll w rows ++ [mark w rows.length r] := by
  rw [markAll, List.mapIdx_concat, markAll]

theorem exists_of_mem_markAll {m : Row} (h : m ∈ markAll w rows) :
    ∃ (k : Nat) (r : Row), rows[k]? = some r ∧ m = mark w k r := by
  obtain ⟨k, hk⟩ := List.mem_iff_getElem?.1 h
  rw [getElem?_markAll, Option.map_eq_some_iff] at hk
  obtain ⟨r, hr, rfl⟩ := hk
  exact ⟨k, r, hr, rfl⟩

theorem markAll_of_known (h : ∀ r ∈ rows, isKnown r = true) : markAll w rows = rows := by
  apply List.ext_getElem?
  intro k
  rw [getElem?_markAll]
  cases hr : rows[k]? with
  | none => rfl
  | some r => rw [Option.map_some, mark_of_isKnown (h r (List.mem_of_getElem? hr))]

theorem of_pairwise_markAll {R : Row → Row → Prop} (h : (markAll w rows).Pairwise R)
    (hr : rows[i]? = some r) (hs : rows[j]? = some s) (hij : i < j) :
    R (mark w i r) (mark w j s) := by
  have hi : (markAll w rows)[i]? = some (mark w i r) := by rw [getElem?_markAll, hr, Option.map_some]
  have hj : (markAll w rows)[j]? = some (mark w j s) := by rw [getElem?_markAll, hs, Option.map_some]
  obtain ⟨hi, hri⟩ := List.getElem?_eq_some_iff.1 hi
  obtain ⟨hj, hsj⟩ := List.getElem?_eq_some_iff.1 hj
  rw [← hri, ← hsj]
  exact List.pairwise_iff_getElem.1 h i j hi hj hij

theorem forall_mem_markAll_concat {P : Row → Prop} : (∀ s ∈ markAll w (rows ++ [r]), P s) ↔
    (∀ s ∈ markAll w rows, P s) ∧ P (mark w rows.length r) := by
  simp [markAll_concat, or_imp, forall_and]

theorem pairwise_markAll_concat {R : Row → Row → Prop} (h : (markAll w rows).Pairwise R)
    (hr : ∀ s ∈ markAll w rows, R s (mark w rows.length r)) :
    (markAll w (rows ++ [r])).Pairwise R := by
  rw [markAll_concat]
  refine List.pairwise_append.2 ⟨h, List.pairwise_singleton _ _, fun s hs t ht => ?_⟩
  rw [List.mem_singleton.1 ht]
  exact hr s hs

theorem mark_take {m : Nat} (hw : 0 < w) (hk : w + k < m) :
    mark w k (r.take m) = (mark w k r).take m := by
  have hknown : isKnown (r.take m) = isKnown r := by
    rw [isKnown, Row.entry_take, if_pos (by omega), isKnown]
  rw [mark, hknown, mark]
  split
  · rfl
  · rw [List.take_set, List.take_set]

theorem markAll_map_take {m : Nat} (hw : 0 < w) (hm : w + rows.length ≤ m) :
    markAll w (rows.map (·.take m)) = (markAll w rows).map (·.take m) := by
  apply List.ext_getElem?
  intro k
  rw [getElem?_markAll, List.getElem?_map, List.getElem?_map, getElem?_markAll]
  cases hr : rows[k]? with
  | none => rfl
  | some r =>
    have hk := (List.getElem?_eq_some_iff.1 hr).1
    simp only [Option.map_some, mark_take hw (by omega : w + k < m)]

end All

section Order

theorem order_of_entry_zero_lt (hr : 0 < r.length) (hs : 0 < s.length)
    (h : r.entry 0 < s.entry 0) : Row.order r s = .lt ∧ Row.order s r = .gt := by
  obtain ⟨x, r, rfl⟩ := List.exists_cons_of_length_pos hr
  obtain ⟨y, s, rfl⟩ := List.exists_cons_of_length_pos hs
  simp only [Row.entry_cons_zero] at h
  rw [Row.order, if_pos h, Row.order, if_neg (by omega), if_neg (by omega)]
  exact ⟨rfl, rfl⟩

variable (hrl : r.length = w + n) (hsl : s.length = w + n) (hw : 0 < w)

include hrl hsl hw

theorem order_unknown_known (hi : i < n) (hr : isKnown r = false) (hrz : ∀ c, r.entry c = 0)
    (hs : isKnown s = true) (hsn : 0 ≤ s.entry 0) :
    order r s i j n (w + n) = .gt ↔ rank s < rank (mark w i r) := by
  have hri : w + i < r.length := by omega
  have hlast := lastColumn_mark hr hrz hri
  have hne := (isKnown_iff s).1 hs
  rw [order]
  simp only [hr, hs, orderKey_of_unknown hr, orderKey_of_known hs hsl]
  rw [if_neg (by simp)]
  by_cases heq : w + i = lastColumn s
  · rw [if_pos heq, List.take_of_length_le (by omega), List.take_of_length_le (by omega),
      (order_of_entry_zero_lt (by omega) (by omega) (by rw [hrz]; omega)).1]
    refine iff_of_false (by decide) (lt_asymm (rank_lt_of_entry_zero_lt (by rw [hlast, heq]) ?_))
    rw [entry_mark_zero hr hw hri]
    omega
  · rw [if_neg heq, Nat.compare_eq_gt, rank_lt_iff, hlast]
    simp [Ne.symm heq]

theorem order_known_unknown (hj : j < n) (hr : isKnown r = true) (hrn : 0 ≤ r.entry 0)
    (hs : isKnown s = false) (hsz : ∀ c, s.entry c = 0) :
    order r s i j n (w + n) = .gt ↔ rank (mark w j s) < rank r := by
  have hsj : w + j < s.length := by omega
  have hlast := lastColumn_mark hs hsz hsj
  have hne := (isKnown_iff r).1 hr
  rw [order]
  simp only [hr, hs, orderKey_of_unknown hs, orderKey_of_known hr hrl]
  rw [if_neg (by simp)]
  by_cases heq : lastColumn r = w + j
  · rw [if_pos heq, List.take_of_length_le (by omega), List.take_of_length_le (by omega),
      (order_of_entry_zero_lt (by omega) (by omega) (by rw [hsz]; omega)).2]
    refine iff_of_true rfl (rank_lt_of_entry_zero_lt (by rw [hlast, heq]) ?_)
    rw [entry_mark_zero hs hw hsj]
    omega
  · rw [if_neg heq, Nat.compare_eq_gt, rank_lt_iff, hlast]
    simp [Ne.symm heq]

omit hw in
theorem order_unknown_unknown (hi : i < n) (hj : j < n) (hr : isKnown r = false)
    (hrz : ∀ c, r.entry c = 0) (hs : isKnown s = false) (hsz : ∀ c, s.entry c = 0) :
    order r s i j n (w + n) = .gt ↔ rank (mark w j s) < rank (mark w i r) := by
  obtain rfl : r = s := Row.ext_entry (by omega) fun c => by rw [hrz, hsz]
  have hlast := lastColumn_mark hr hrz (k := i) (w := w) (by omega)
  have hlast' := lastColumn_mark hr hrz (k := j) (w := w) (by omega)
  rw [order]
  simp only [hr, Bool.not_false, Bool.and_self, if_true]
  rw [Nat.compare_eq_gt]
  constructor
  · intro hij
    exact rank_lt_of_lastColumn_lt (by omega)
  · intro hlt
    have hle := lastColumn_le_of_rank_lt hlt
    refine lt_of_le_of_ne (by omega) fun heq => ?_
    rw [heq] at hlt
    exact lt_irrefl _ hlt

/-- The comparison of divisions, known or not, is that of marked rows. -/
theorem order_eq_gt_iff_mark (hi : i < n) (hj : j < n)
    (hrz : isKnown r = false → ∀ c, r.entry c = 0)
    (hsz : isKnown s = false → ∀ c, s.entry c = 0)
    (hrn : isKnown s = false → 0 ≤ r.entry 0) (hsn : isKnown r = false → 0 ≤ s.entry 0) :
    order r s i j n (w + n) = .gt ↔ rank (mark w j s) < rank (mark w i r) := by
  cases hr : isKnown r with
  | true =>
    rw [mark_of_isKnown hr]
    cases hs : isKnown s with
    | true =>
      rw [mark_of_isKnown hs]
      exact order_eq_gt_iff hr hs hrl hsl
    | false => exact order_known_unknown hrl hsl hw hj hr (hrn hs) hs (hsz hs)
  | false =>
    cases hs : isKnown s with
    | true =>
      rw [mark_of_isKnown hs]
      exact order_unknown_known hrl hsl hw hi hr (hrz hr) hs (hsn hr)
    | false => exact order_unknown_unknown hrl hsl hi hj hr (hrz hr) hs (hsz hs)

end Order

end Division

end Quasiaffine

import Quasiaffine.Proofs.Division.Value
import Quasiaffine.Proofs.Space

set_option autoImplicit false

namespace Quasiaffine

namespace Division

variable {r u v w d : Row}

theorem value_insertZeros {p n : Nat} (hu : u.length = p) (hv : v.length = n)
    (hr : 2 + p ≤ r.length) :
    value (r.insertZeros (2 + p) n) (1 :: (u ++ v ++ w ++ d)) = value r (1 :: (u ++ w ++ d)) := by
  cases r with
  | nil => simp at hr
  | cons m r =>
    have hr' : 1 + p ≤ r.length := by simp at hr; omega
    have hdot := Row.dot_insertZeros (u := 1 :: u) (v := v) (w := w ++ d) (by simp; omega) hr' hv
    rw [show 2 + p = 1 + p + 1 by omega, Row.insertZeros_cons, value, value]
    simp only [List.drop_one, List.tail_cons, Row.entry_cons_zero]
    rw [← List.cons_append, ← List.cons_append, ← List.cons_append, List.append_assoc _ w d, hdot]
    simp

theorem value_moveEntries {p n t : Nat} (hu : u.length = p) (hv : v.length = n)
    (ht : p + w.length = t) (hr : 2 + t + n ≤ r.length) :
    value (r.moveEntries (2 + p) n (2 + t)) (1 :: (u ++ w ++ (v ++ d))) =
      value r (1 :: (u ++ v ++ w ++ d)) := by
  cases r with
  | nil => simp at hr
  | cons m r =>
    have hr' : 1 + t + n ≤ r.length := by simp at hr; omega
    have hdot := Row.dot_moveEntries (a := 1 :: u) (s := 1 + p) (t := 1 + t) d (by simp; omega) hv
      (by omega : 1 + p + w.length = 1 + t) hr'
    rw [show 2 + p = 1 + p + 1 by omega, show 2 + t = 1 + t + 1 by omega, Row.moveEntries_cons,
      value, value]
    simp only [List.drop_one, List.tail_cons, Row.entry_cons_zero, List.append_assoc,
      List.cons_append] at hdot ⊢
    rw [hdot]

end Division

namespace LocalSpace

variable {ls : LocalSpace} {kind : DimKind} {first n : Nat} {u v w d : Row}

def inserted (ls : LocalSpace) (kind : DimKind) (first n : Nat) : LocalSpace :=
  ⟨ls.space.insertUnchecked first n kind, ls.divs.insertColumns (ls.column kind first) n⟩

theorem insertDims_eq_ok (ls : LocalSpace) (hk : kind ≠ .div) (hf : first ≤ ls.space.dim kind)
    (ht : kind = .param ∨ ls.space.hasTuple kind = true) (hn : 0 < n) :
    ls.insertDims kind first n = .ok (ls.inserted kind first n) := by
  have hdim : ls.dim kind = ls.space.dim kind := by cases kind <;> simp [dim] at hk ⊢
  have hspace : ls.space.insertDims kind first n = .ok (ls.space.insertUnchecked first n kind) := by
    simp [Space.insertDims, require, hf, ht, bind, Except.bind, pure, Except.pure]
  simp [insertDims, require, hdim, hf, hk, Nat.ne_of_gt hn, hspace, bind, Except.bind, pure,
    Except.pure, inserted]

theorem getElem?_inserted (k : Nat) : (ls.inserted kind first n).divs.rows[k]? =
    (ls.divs.rows[k]?).map (Row.insertZeros (ls.column kind first) n) := by
  simp [inserted, Matrix.insertColumns, Matrix.mapRows]

theorem column_le_length (h : ls.WellFormed) (hk : kind ≠ .div) (hf : first ≤ ls.space.dim kind)
    {r : Row} (hr : r ∈ ls.divs.rows) : ls.column kind first ≤ r.length := by
  have hlen := h.triangular.length_row r hr
  have hoff := Space.offset_add_dim_le (s := ls.space) hk
  simp only [column, offset]
  omega

theorem wellFormed_inserted (h : ls.WellFormed) (hk : kind ≠ .div)
    (hf : first ≤ ls.space.dim kind) : (ls.inserted kind first n).WellFormed := by
  have htotal := Space.total_insertUnchecked (n := n) hk hf
  have hrows : (ls.inserted kind first n).divs.rows.length = ls.divs.rows.length := by
    simp [inserted, Matrix.insertColumns, Matrix.mapRows]
  have hoff := Space.offset_add_dim_le (s := ls.space) hk
  rw [wellFormed_iff, hrows]
  have hcolumns := h.columns
  simp only [Matrix.height] at hcolumns
  refine ⟨?_, ?_, ?_⟩
  · simp only [inserted, Matrix.insertColumns, Matrix.mapRows, htotal, hcolumns]
    omega
  · intro r hr
    obtain ⟨k, hkr⟩ := List.mem_iff_getElem?.1 hr
    rw [getElem?_inserted, Option.map_eq_some_iff] at hkr
    obtain ⟨s, hs, rfl⟩ := hkr
    rw [Row.length_insertZeros, h.triangular.length_row s (List.mem_of_getElem? hs)]
    simp only [inserted, htotal]
    omega
  · intro k r hr c hc
    rw [getElem?_inserted, Option.map_eq_some_iff] at hr
    obtain ⟨s, hs, rfl⟩ := hr
    simp only [inserted, htotal] at hc
    have hcol : ls.column kind first = 2 + ls.space.offset kind + first := rfl
    rw [Row.entry_insertZeros (column_le_length h hk hf (List.mem_of_getElem? hs)), hcol,
      if_neg (by omega), if_neg (by omega)]
    exact h.triangular.zero_from k s hs _ (by omega)

/-- New coordinates do not change the values of the divisions. -/
theorem assigns_inserted_iff (h : ls.WellFormed) (hk : kind ≠ .div)
    (hf : first ≤ ls.space.dim kind) (hu : u.length = ls.space.offset kind + first)
    (hv : v.length = n) :
    (ls.inserted kind first n).Assigns (u ++ v ++ w) d ↔ ls.Assigns (u ++ w) d := by
  have hrows : (ls.inserted kind first n).divs.rows.length = ls.divs.rows.length := by
    simp [inserted, Matrix.insertColumns, Matrix.mapRows]
  have hcol : ls.column kind first = 2 + u.length := by simp [column, offset, hu]; omega
  have hstep : ∀ r ∈ ls.divs.rows,
      Division.isKnown (r.insertZeros (ls.column kind first) n) = Division.isKnown r ∧
      Division.value (r.insertZeros (ls.column kind first) n) (1 :: (u ++ v ++ w ++ d)) =
        Division.value r (1 :: (u ++ w ++ d)) := by
    intro r hr
    have hle := column_le_length h hk hf hr
    rw [Division.isKnown, Division.isKnown, Row.entry_insertZeros hle, if_pos (by rw [hcol]; omega)]
    rw [hcol] at hle ⊢
    exact ⟨rfl, Division.value_insertZeros rfl hv hle⟩
  constructor
  · rintro ⟨hl, hval⟩
    refine ⟨hl.trans hrows, fun k r hr hkn => ?_⟩
    obtain ⟨hknown, hvalue⟩ := hstep r (List.mem_of_getElem? hr)
    rw [← hvalue]
    exact hval k _ (by rw [getElem?_inserted, hr]; rfl) (hknown.trans hkn)
  · rintro ⟨hl, hval⟩
    refine ⟨hl.trans hrows.symm, fun k r hr hkn => ?_⟩
    rw [getElem?_inserted, Option.map_eq_some_iff] at hr
    obtain ⟨s, hs, rfl⟩ := hr
    obtain ⟨hknown, hvalue⟩ := hstep s (List.mem_of_getElem? hs)
    rw [hvalue]
    exact hval k s hs (hknown.symm.trans hkn)

def projected (ls : LocalSpace) (kind : DimKind) (first n : Nat) : LocalSpace :=
  ⟨ls.space.dropUnchecked first n kind,
    (ls.divs.moveColumns (ls.column kind first) n (2 + ls.space.total - n)).insertRows 0 n⟩

theorem dimsToDivs_eq_ok (ls : LocalSpace) (hk : kind ≠ .div) (hf : first + n ≤ ls.space.dim kind)
    (ht : kind = .param ∨ ls.space.hasTuple kind = true) (hn : 0 < n) :
    ls.dimsToDivs kind first n = .ok (ls.projected kind first n) := by
  have hdim : ls.dim kind = ls.space.dim kind := by cases kind <;> simp [dim] at hk ⊢
  have hspace : ls.space.dropDims kind first n = .ok (ls.space.dropUnchecked first n kind) := by
    simp [Space.dropDims, require, hf, ht, bind, Except.bind, pure, Except.pure]
  simp [dimsToDivs, require, hdim, hf, hk, Nat.ne_of_gt hn, hspace, bind, Except.bind, pure,
    Except.pure, projected]

theorem rows_projected : (ls.projected kind first n).divs.rows =
    List.replicate n (Row.zeros ls.divs.columns) ++
      ls.divs.rows.map (Row.moveEntries (ls.column kind first) n (2 + ls.space.total - n)) := by
  simp [projected, Matrix.insertRows, Matrix.moveColumns, Matrix.mapRows]

theorem length_rows_projected (ls : LocalSpace) (kind : DimKind) (first n : Nat) :
    (ls.projected kind first n).divs.rows.length = n + ls.divs.rows.length := by
  simp [rows_projected]

theorem getElem?_projected (k : Nat) : (ls.projected kind first n).divs.rows[n + k]? =
    (ls.divs.rows[k]?).map
      (Row.moveEntries (ls.column kind first) n (2 + ls.space.total - n)) := by
  rw [rows_projected, List.getElem?_append_right (by simp)]
  simp

theorem not_isKnown_zeros (k : Nat) : Division.isKnown (Row.zeros k) = false := by
  simp [Division.isKnown]

theorem wellFormed_projected (h : ls.WellFormed) (hk : kind ≠ .div)
    (hf : first + n ≤ ls.space.dim kind) : (ls.projected kind first n).WellFormed := by
  have htotal := Space.total_dropUnchecked (n := n) hk hf
  have hoff := Space.offset_add_dim_le (s := ls.space) hk
  have hcolumns := h.columns
  have hspace : (ls.projected kind first n).space.total + n = ls.space.total := htotal
  simp only [Matrix.height] at hcolumns
  rw [wellFormed_iff, length_rows_projected]
  refine ⟨?_, ?_, ?_⟩
  · change ls.divs.columns = _
    omega
  · intro r hr
    rw [rows_projected, List.mem_append, List.mem_replicate, List.mem_map] at hr
    rcases hr with ⟨-, rfl⟩ | ⟨s, hs, rfl⟩
    · rw [Row.length_zeros]
      omega
    · have hlen := h.triangular.length_row s hs
      rw [Row.length_moveEntries _ _ _ _ (by simp only [column, offset]; omega)]
      omega
  · intro k r hr c hc
    rcases Nat.lt_or_ge k n with hkn | hkn
    · rw [rows_projected, List.getElem?_append_left (by simpa using hkn),
        List.getElem?_replicate, if_pos hkn] at hr
      obtain rfl := Option.some.inj hr
      exact Row.entry_zeros _ _
    · obtain ⟨j, rfl⟩ := Nat.exists_eq_add_of_le hkn
      rw [getElem?_projected, Option.map_eq_some_iff] at hr
      obtain ⟨s, hs, rfl⟩ := hr
      have hlen := h.triangular.length_row s (List.mem_of_getElem? hs)
      rw [Row.entry_moveEntries_of_le (by simp only [column, offset]; omega) (by omega) (by omega)]
      exact h.triangular.zero_from j s hs _ (by omega)

/-- The coordinates of the dimensions become the values of the new divisions. -/
theorem assigns_projected_iff (h : ls.WellFormed)
    (hu : u.length = ls.space.offset kind + first) (hv : v.length = n)
    (hw : (u ++ v ++ w).length = ls.space.total) :
    (ls.projected kind first n).Assigns (u ++ w) (v ++ d) ↔ ls.Assigns (u ++ v ++ w) d := by
  have hcol : ls.column kind first = 2 + u.length := by simp [column, offset, hu]; omega
  have hlen : u.length + n + w.length = ls.space.total := by simpa [hv, Nat.add_assoc] using hw
  have htarget : 2 + ls.space.total - n = 2 + (ls.space.total - n) := by omega
  -- Moving the columns of a row moves the coordinates that it is multiplied with in the same way.
  have hstep : ∀ r ∈ ls.divs.rows,
      Division.isKnown (r.moveEntries (ls.column kind first) n (2 + ls.space.total - n)) =
        Division.isKnown r ∧
      Division.value (r.moveEntries (ls.column kind first) n (2 + ls.space.total - n))
        (1 :: (u ++ w ++ (v ++ d))) = Division.value r (1 :: (u ++ v ++ w ++ d)) := by
    intro r hr
    have hr' := h.triangular.length_row r hr
    rw [hcol, htarget]
    refine ⟨?_, Division.value_moveEntries rfl hv (by omega) (by omega)⟩
    rw [Division.isKnown, Division.isKnown,
      Row.entry_moveEntries_zero (by omega) (by omega) (by omega)]
  constructor
  · rintro ⟨hl, hval⟩
    rw [length_rows_projected, List.length_append, hv] at hl
    refine ⟨by omega, fun k r hr hkn => ?_⟩
    obtain ⟨hknown, hvalue⟩ := hstep r (List.mem_of_getElem? hr)
    rw [← hvalue, ← hval (n + k) _ (by rw [getElem?_projected, hr]; rfl) (hknown.trans hkn), ← hv,
      Row.entry_append_right]
  · rintro ⟨hl, hval⟩
    refine ⟨by rw [length_rows_projected, List.length_append, hv, hl], fun k r hr hkn => ?_⟩
    rcases Nat.lt_or_ge k n with hlt | hge
    · rw [rows_projected, List.getElem?_append_left (by simpa using hlt),
        List.getElem?_replicate, if_pos hlt] at hr
      obtain rfl := Option.some.inj hr
      rw [not_isKnown_zeros] at hkn
      cases hkn
    · obtain ⟨j, rfl⟩ := Nat.exists_eq_add_of_le hge
      rw [getElem?_projected, Option.map_eq_some_iff] at hr
      obtain ⟨s, hs, rfl⟩ := hr
      obtain ⟨hknown, hvalue⟩ := hstep s (List.mem_of_getElem? hs)
      rw [hvalue, ← hval j s hs (hknown.symm.trans hkn), ← hv, Row.entry_append_right]

end LocalSpace

end Quasiaffine

import Quasiaffine.Proofs.Division.Editing
import Quasiaffine.Proofs.Division.Merging

set_option autoImplicit false

namespace Quasiaffine

namespace MergedRows

variable {w n : Nat}

theorem length_concat_expand {rows : List Row} {x : Row} {e : List Nat}
    (hrows : ∀ r ∈ rows, r.length = w + n) (hx : w ≤ x.length) :
    ∀ r ∈ rows ++ [x.expand w e n], r.length = w + n := by
  rw [List.forall_mem_append, List.forall_mem_singleton]
  exact ⟨hrows, Row.length_expand hx⟩

theorem length_rows_addLeft (m : MergedRows) (x : Row) :
    (m.addLeft x).rows.length = m.rows.length + 1 := List.length_append

theorem length_rows_addRight (m : MergedRows) (x : Row) :
    (m.addRight x).rows.length = m.rows.length + 1 := List.length_append

theorem length_rows_addBoth (m : MergedRows) (x : Row) :
    (m.addBoth x).rows.length = m.rows.length + 1 := List.length_append

/-- Merging does not lose track of widths, and keeps no more rows than it is given. -/
theorem shaped_extend (as bs : List Row) (m : MergedRows) (ha : ∀ r ∈ as, w ≤ r.length)
    (hb : ∀ r ∈ bs, w ≤ r.length) (hm : ∀ r ∈ m.rows, r.length = w + n) :
    (∀ r ∈ (extend w n as bs m).rows, r.length = w + n) ∧
      (extend w n as bs m).rows.length ≤ m.rows.length + as.length + bs.length := by
  induction as, bs, m using MergedRows.extend.induct w n with
  | case1 m =>
    rw [extend]
    exact ⟨hm, by simp⟩
  | case2 m x as ih =>
    rw [List.forall_mem_cons] at ha
    obtain ⟨hrows, hcount⟩ := ih ha.2 hb (length_concat_expand hm ha.1)
    rw [length_rows_addLeft] at hcount
    rw [extend, List.length_cons]
    exact ⟨hrows, by omega⟩
  | case3 m y bs ih =>
    rw [List.forall_mem_cons] at hb
    obtain ⟨hrows, hcount⟩ := ih ha hb.2 (length_concat_expand hm hb.1)
    rw [length_rows_addRight] at hcount
    rw [extend, List.length_cons]
    exact ⟨hrows, by omega⟩
  | case4 m x as y bs x' y' ho ih =>
    rw [List.forall_mem_cons] at ha hb
    obtain ⟨hrows, hcount⟩ := ih ha.2 hb.2 (length_concat_expand hm ha.1)
    rw [length_rows_addBoth] at hcount
    rw [extend, ho, List.length_cons, List.length_cons]
    exact ⟨hrows, hcount.trans (by omega)⟩
  | case5 m x as y bs x' y' ho ih =>
    have hx := List.forall_mem_cons.1 ha
    obtain ⟨hrows, hcount⟩ := ih hx.2 hb (length_concat_expand hm hx.1)
    rw [length_rows_addLeft] at hcount
    rw [extend, ho, List.length_cons]
    exact ⟨hrows, hcount.trans (by omega)⟩
  | case6 m x as y bs x' y' ho ih =>
    have hy := List.forall_mem_cons.1 hb
    obtain ⟨hrows, hcount⟩ := ih ha hy.2 (length_concat_expand hm hy.1)
    rw [length_rows_addRight] at hcount
    rw [extend, ho, List.length_cons, List.length_cons]
    rw [List.length_cons] at hcount
    exact ⟨hrows, hcount.trans (by omega)⟩

end MergedRows

namespace LocalSpace

structure Shaped (ls : LocalSpace) : Prop where
  columns : ls.divs.columns = 2 + ls.space.total + ls.divs.rows.length
  rows : ∀ r ∈ ls.divs.rows, r.length = 2 + ls.space.total + ls.divs.rows.length

variable {a b ls ls' : LocalSpace} {kind : DimKind} {first n : Nat}

theorem WellFormed.shaped (h : ls.WellFormed) : ls.Shaped :=
  ⟨h.columns, h.triangular.length_row⟩

theorem shaped_ofSpace (s : Space) : (ofSpace s).Shaped := (wellFormed_ofSpace s).shaped

namespace Shaped

theorem row_ne_nil (h : ls.Shaped) {r : Row} (hr : r ∈ ls.divs.rows) : ∃ x s, r = x :: s :=
  List.exists_cons_of_length_pos (by rw [h.rows r hr]; omega)

theorem resetSpace {s : Space} (h : ls.Shaped) (hok : ls.resetSpace s = .ok ls') :
    ls'.Shaped ∧ ls' = { ls with space := s } ∧ s.total = ls.space.total := by
  simp only [LocalSpace.resetSpace, bind_eq_ok_iff, require_eq_ok_iff, exists_const, beq_iff_eq]
    at hok
  obtain ⟨htotal, hok⟩ := hok
  obtain rfl := Except.ok.inj hok
  exact ⟨⟨by rw [htotal]; exact h.columns, by rw [htotal]; exact h.rows⟩, rfl, htotal⟩

theorem setDiv {k : Nat} {row : Row} (h : ls.Shaped) (hok : ls.setDiv k row = .ok ls') :
    ls'.Shaped ∧ ls'.space = ls.space ∧
      ls'.divs.rows = ls.divs.rows.set k (Division.normalize row) := by
  simp only [LocalSpace.setDiv, bind_eq_ok_iff, require_eq_ok_iff, exists_const,
    Bool.and_eq_true, beq_iff_eq] at hok
  obtain ⟨⟨⟨-, hlen⟩, -⟩, hok⟩ := hok
  obtain rfl := Except.ok.inj hok
  refine ⟨⟨?_, fun r hr => ?_⟩, rfl, rfl⟩
  · simpa [Matrix.setRow] using h.columns
  · simp only [Matrix.setRow, List.length_set] at hr ⊢
    rcases List.mem_or_eq_of_mem_set hr with hr | rfl
    · exact h.rows r hr
    · rw [Division.length_normalize, hlen, h.columns]

theorem merge {m : MergedSpace} (ha : a.Shaped) (hb : b.Shaped)
    (ht : a.space.total = b.space.total) (hok : a.merge b = .ok m) :
    m.ls.Shaped ∧ m.ls.space = a.space := by
  simp only [LocalSpace.merge, bind_eq_ok_iff, require_eq_ok_iff, exists_const] at hok
  obtain ⟨-, hok⟩ := hok
  split_ifs at hok <;> obtain rfl := Except.ok.inj hok
  · exact ⟨ha, rfl⟩
  · exact ⟨⟨by rw [ht]; exact hb.columns, by rw [ht]; exact hb.rows⟩, rfl⟩
  · have hwidth : a.divs.columns - a.divs.height = 2 + a.space.total := by
      rw [ha.columns, Matrix.height]
      omega
    have hext := MergedRows.shaped_extend (w := 2 + a.space.total)
      (n := a.divs.height + b.divs.height) a.divs.rows b.divs.rows ⟨[], [], []⟩
      (fun r hr => by rw [ha.rows r hr]; omega) (fun r hr => by rw [hb.rows r hr]; omega)
      (by simp)
    refine ⟨⟨?_, ?_⟩, rfl⟩ <;> simp only [Matrix.mergeDivs, hwidth, List.length_map]
    · rfl
    · intro r hr
      obtain ⟨s, hs, rfl⟩ := List.mem_map.1 hr
      generalize MergedRows.extend (2 + a.space.total) (a.divs.height + b.divs.height) a.divs.rows
        b.divs.rows ⟨[], [], []⟩ = m at hext hs ⊢
      have hcount : m.rows.length ≤ 0 + a.divs.height + b.divs.height := hext.2
      rw [List.length_take, hext.1 s hs, MergedRows.count]
      omega

theorem insertDivs (h : ls.Shaped) (hfirst : first ≤ ls.divs.rows.length) : Shaped
    { ls with divs := (ls.divs.insertRows first n).insertColumns (ls.column .div first) n } := by
  have hrows : (ls.divs.insertRows first n).rows.length = ls.divs.rows.length + n := by
    simp only [Matrix.insertRows, List.length_append, List.length_take, List.length_replicate,
      List.length_drop]
    omega
  have hcolumns := h.columns
  refine ⟨?_, fun r hr => ?_⟩
  · simp only [Matrix.insertColumns, Matrix.mapRows, List.length_map, hrows]
    rw [Matrix.insertRows, hcolumns]
    omega
  · simp only [Matrix.insertColumns, Matrix.mapRows, List.length_map, hrows] at hr ⊢
    obtain ⟨s, hs, rfl⟩ := List.mem_map.1 hr
    have hlen : s.length = ls.divs.columns := by
      simp only [Matrix.insertRows, List.mem_append, List.mem_replicate] at hs
      rcases hs with (hs | ⟨-, rfl⟩) | hs
      · exact (h.rows s (List.mem_of_mem_take hs)).trans hcolumns.symm
      · exact Row.length_zeros _
      · exact (h.rows s (List.mem_of_mem_drop hs)).trans hcolumns.symm
    rw [Row.length_insertZeros, hlen]
    omega

theorem inserted (h : ls.Shaped) (hk : kind ≠ .div) (hfirst : first ≤ ls.space.dim kind) :
    (ls.inserted kind first n).Shaped := by
  have htotal : (ls.inserted kind first n).space.total = ls.space.total + n :=
    Space.total_insertUnchecked hk hfirst
  refine ⟨?_, fun r hr => ?_⟩ <;> simp only [htotal]
  · simp only [LocalSpace.inserted, Matrix.insertColumns, Matrix.mapRows, List.length_map, h.columns]
    omega
  · simp only [LocalSpace.inserted, Matrix.insertColumns, Matrix.mapRows, List.length_map] at hr ⊢
    obtain ⟨s, hs, rfl⟩ := List.mem_map.1 hr
    rw [Row.length_insertZeros, h.rows s hs]
    omega

end Shaped

theorem exists_row_of_insertDivs (hfirst : first ≤ ls.divs.rows.length) {k : Nat} {r' : Row}
    (hr' : ((ls.divs.insertRows first n).insertColumns (ls.column .div first) n).rows[k]? = some r')
    (hk : Division.isKnown r' = true) :
    ∃ i r, ls.divs.rows[i]? = some r ∧ r' = r.insertZeros (ls.column .div first) n ∧
      k = if i < first then i else i + n := by
  simp only [Matrix.insertColumns, Matrix.mapRows, List.getElem?_map, Option.map_eq_some_iff] at hr'
  obtain ⟨s, hs, rfl⟩ := hr'
  rw [Division.isKnown_iff, Row.entry_zero_insertZeros (by simp [column])] at hk
  have htake : (ls.divs.rows.take first).length = first := by
    rw [List.length_take]
    omega
  simp only [Matrix.insertRows] at hs
  rcases Nat.lt_or_ge k first with hlt | hge
  · rw [List.append_assoc, List.getElem?_append_left (by omega), List.getElem?_take,
      if_pos hlt] at hs
    exact ⟨k, s, hs, rfl, (if_pos hlt).symm⟩
  · rw [List.append_assoc, List.getElem?_append_right (by omega), htake] at hs
    rcases Nat.lt_or_ge (k - first) n with hlt | hge'
    · rw [List.getElem?_append_left (by simpa using hlt)] at hs
      obtain rfl := (List.mem_replicate.1 (List.mem_of_getElem? hs)).2
      exact absurd (Row.entry_zeros _ _) hk
    · rw [List.getElem?_append_right (by simpa using hge'), List.length_replicate,
        List.getElem?_drop] at hs
      refine ⟨_, s, hs, rfl, ?_⟩
      rw [if_neg (by omega)]
      omega

namespace Shaped

theorem insertDims (h : ls.Shaped) (hs : ls.space.Proper)
    (hok : ls.insertDims kind first n = .ok ls') :
    ls'.Shaped ∧ ls'.space.Proper ∧ ls'.total = ls.total + n ∧
      ∀ k r', ls'.divs.rows[k]? = some r' → Division.isKnown r' = true →
        ∃ i r, ls.divs.rows[i]? = some r ∧ r' = r.insertZeros (ls.column kind first) n ∧
          ls'.space.total + k = if ls.space.total + i < ls.offset kind + first
            then ls.space.total + i else ls.space.total + i + n := by
  obtain ⟨hproper, hsum⟩ := total_insertDims hs hok
  obtain ⟨hfirst, ⟨rfl, rfl⟩ | ⟨-, rfl, rfl⟩ | ⟨-, hk, -, rfl⟩⟩ := insertDims_cases hok
  · refine ⟨h, hproper, hsum, fun k r' hr' _ => ⟨k, r', hr', ?_, by split_ifs <;> rfl⟩⟩
    simp [Row.insertZeros, Row.zeros]
  · have hfirst : first ≤ ls.divs.rows.length := hfirst
    have hoffset : ls.offset .div = ls.space.total := rfl
    refine ⟨h.insertDivs hfirst, hproper, hsum, fun k r' hr' hk => ?_⟩
    obtain ⟨i, r, hr, rfl, rfl⟩ := exists_row_of_insertDivs hfirst hr' hk
    refine ⟨i, r, hr, rfl, ?_⟩
    simp only [hoffset, Nat.add_lt_add_iff_left]
    split_ifs <;> omega
  · rw [dim_eq hk] at hfirst
    have htotal : (ls.inserted kind first n).space.total = ls.space.total + n :=
      Space.total_insertUnchecked hk hfirst
    have hoff := Space.offset_add_dim_le (s := ls.space) hk
    refine ⟨h.inserted hk hfirst, hproper, hsum, fun k r' hr' _ => ?_⟩
    rw [getElem?_inserted, Option.map_eq_some_iff] at hr'
    obtain ⟨r, hr, rfl⟩ := hr'
    exact ⟨k, r, hr, rfl, by rw [offset, if_neg (by omega), htotal]; omega⟩

theorem projected (h : ls.Shaped) (hk : kind ≠ .div) (hfirst : first + n ≤ ls.space.dim kind) :
    (ls.projected kind first n).Shaped := by
  have htotal : (ls.projected kind first n).space.total + n = ls.space.total :=
    Space.total_dropUnchecked hk hfirst
  have hoff := Space.offset_add_dim_le (s := ls.space) hk
  have hrows := length_rows_projected ls kind first n
  have hcolumns := h.columns
  refine ⟨?_, fun r hr => ?_⟩
  · change ls.divs.columns = _
    omega
  · rw [rows_projected, List.mem_append, List.mem_replicate, List.mem_map] at hr
    rcases hr with ⟨-, rfl⟩ | ⟨s, hs, rfl⟩
    · rw [Row.length_zeros]
      omega
    · have hlen := h.rows s hs
      have hcol : ls.column kind first = 2 + ls.space.offset kind + first := rfl
      rw [Row.length_moveEntries _ _ _ _ (by omega)]
      omega

theorem dimsToDivs (h : ls.Shaped) (hs : ls.space.Proper)
    (hok : ls.dimsToDivs kind first n = .ok ls') :
    ls'.Shaped ∧ ls'.space.Proper ∧ ls'.total = ls.total ∧
      ls.offset kind + first + n ≤ ls.space.total ∧
      ∀ k r', ls'.divs.rows[k]? = some r' → Division.isKnown r' = true →
        ∃ i r, ls.divs.rows[i]? = some r ∧
          r' = r.moveEntries (ls.column kind first) n (2 + ls.space.total - n) ∧
          ls'.space.total + k = ls.space.total + i := by
  simp only [LocalSpace.dimsToDivs, Space.dropDims, bind_eq_ok_iff, require_eq_ok_iff,
    exists_const, Bool.and_eq_true, decide_eq_true_eq] at hok
  obtain ⟨⟨hk, hfirst⟩, hok⟩ := hok
  have hfirst : first + n ≤ ls.space.dim kind := by
    cases kind <;> first | exact hfirst | exact absurd rfl hk
  have hoff := Space.offset_add_dim_le (s := ls.space) hk
  have hle : ls.offset kind + first + n ≤ ls.space.total := by
    rw [offset]
    omega
  split_ifs at hok with hn
  · obtain rfl := Except.ok.inj hok
    subst hn
    refine ⟨h, hs, rfl, hle, fun k r' hr' _ => ⟨k, r', hr', ?_, rfl⟩⟩
    simp [Row.moveEntries, Row.dropEntries]
  · simp only [bind_eq_ok_iff, require_eq_ok_iff, exists_const, decide_eq_true_eq] at hok
    obtain ⟨s, ⟨-, htuple, hspace⟩, hok⟩ := hok
    obtain rfl := Except.ok.inj hspace
    obtain rfl := Except.ok.inj hok
    change (ls.projected kind first n).Shaped ∧ _
    have htotal : (ls.projected kind first n).space.total + n = ls.space.total :=
      Space.total_dropUnchecked hk hfirst
    have hrows := length_rows_projected ls kind first n
    refine ⟨h.projected hk hfirst, hs.dropUnchecked (by simpa using htuple), ?_, hle,
      fun k r' hr' hk' => ?_⟩
    · change (ls.projected kind first n).space.total + (ls.projected kind first n).divs.rows.length
        = ls.space.total + ls.divs.rows.length
      omega
    · change (ls.projected kind first n).divs.rows[k]? = some r' at hr'
      -- The first `n` divisions are the former dimensions, and these have no definition.
      rcases Nat.lt_or_ge k n with hlt | hge
      · rw [rows_projected, List.getElem?_append_left (by simpa using hlt)] at hr'
        obtain rfl := (List.mem_replicate.1 (List.mem_of_getElem? hr')).2
        rw [not_isKnown_zeros] at hk'
        cases hk'
      · obtain ⟨k, rfl⟩ := Nat.exists_eq_add_of_le hge
        rw [getElem?_projected, Option.map_eq_some_iff] at hr'
        obtain ⟨r, hr, rfl⟩ := hr'
        refine ⟨k, r, hr, rfl, ?_⟩
        change (ls.projected kind first n).space.total + (n + k) = ls.space.total + k
        omega

end Shaped

end LocalSpace

end Quasiaffine

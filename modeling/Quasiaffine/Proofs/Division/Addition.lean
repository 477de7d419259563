import Quasiaffine.Proofs.Division.Value

set_option autoImplicit false

namespace Quasiaffine.LocalSpace

variable {ls : LocalSpace} {row x d : Row} {v : Int}

def extended (ls : LocalSpace) (row : Row) : LocalSpace :=
  ⟨ls.space, ls.divs.columns + 1,
    ls.divs.rows.map (· ++ [0]) ++ [Division.normalize (row ++ [0])]⟩

theorem length_rows_extended (ls : LocalSpace) (row : Row) :
    (ls.extended row).divs.rows.length = ls.divs.rows.length + 1 := by
  simp [extended]

theorem getElem?_extended_of_lt {k : Nat} (hk : k < ls.divs.rows.length) :
    (ls.extended row).divs.rows[k]? = (ls.divs.rows[k]?).map (· ++ [0]) := by
  simp [extended, List.getElem?_append_left, hk]

theorem getElem?_extended_self (ls : LocalSpace) (row : Row) :
    (ls.extended row).divs.rows[ls.divs.rows.length]? =
      some (Division.normalize (row ++ [0])) := by
  simp [extended]

theorem rows_appendColumns (h : ls.WellFormed) :
    (ls.divs.appendColumns 1).rows = ls.divs.rows.map (· ++ [0]) := by
  simp only [Matrix.appendColumns, Matrix.insertColumns, Matrix.mapRows]
  refine List.map_congr_left fun r hr => ?_
  rw [Row.insertZeros, ← h.rectangular r hr, List.take_length, List.drop_length]
  simp [Row.zeros]

theorem addDiv_eq_ok (h : ls.WellFormed) (hr : row.length = ls.divs.columns) :
    ls.addDiv row =
      .ok ⟨ls.space, ls.divs.columns + 1, ls.divs.rows.map (· ++ [0]) ++ [row ++ [0]]⟩ := by
  simp only [addDiv, require, hr, beq_self_eq_true, if_true, bind, Except.bind, pure, Except.pure,
    rows_appendColumns h]
  rfl

theorem addDiv_normalizeDiv (h : ls.WellFormed) (hr : row.length = ls.divs.columns) :
    ∃ wider, ls.addDiv row = .ok wider ∧ wider.normalizeDiv ls.divCount = ls.extended row := by
  refine ⟨_, addDiv_eq_ok h hr, ?_⟩
  simp [normalizeDiv, extended, Matrix.setRow, Matrix.row, divCount, Matrix.height,
    List.getD_eq_getElem?_getD]

theorem entry_concat_zero (r : Row) (c : Nat) : Row.entry (r ++ [0]) c = r.entry c := by
  rw [Row.entry_append]
  split
  · rfl
  · rw [Row.entry_eq_zero (r := r) (by omega)]
    cases c - r.length <;> simp

theorem triangular_widened (h : ls.WellFormed) :
    Triangular (2 + ls.space.total) (ls.divs.rows.length + 1) (ls.divs.rows.map (· ++ [0])) := by
  refine ⟨fun r hr => ?_, fun k r hr c hc => ?_⟩
  · obtain ⟨s, hs, rfl⟩ := List.mem_map.1 hr
    simp [h.triangular.length_row s hs]
    omega
  · rw [List.getElem?_map, Option.map_eq_some_iff] at hr
    obtain ⟨s, hs, rfl⟩ := hr
    rw [entry_concat_zero]
    exact h.triangular.zero_from k s hs c hc

theorem triangular_extended (h : ls.WellFormed) (hr : row.length = ls.divs.columns) :
    Triangular (2 + ls.space.total) (ls.divs.rows.length + 1) (ls.extended row).divs.rows := by
  have hcolumns : ls.divs.columns = 2 + ls.space.total + ls.divs.rows.length := h.columns
  refine (triangular_widened h).concat ?_ fun c hc => ?_
  · rw [Division.length_normalize, List.length_append, hr, hcolumns]
    simp
    omega
  · rw [List.length_map] at hc
    refine Division.entry_normalize_eq_zero (by omega) ?_
    rw [entry_concat_zero, Row.entry_eq_zero (by omega)]

theorem wellFormed_extended (h : ls.WellFormed) (hr : row.length = ls.divs.columns) :
    (ls.extended row).WellFormed := by
  have hcolumns : ls.divs.columns = 2 + ls.space.total + ls.divs.rows.length := h.columns
  rw [wellFormed_iff, length_rows_extended]
  refine ⟨?_, triangular_extended h hr⟩
  simp only [extended, hcolumns]
  omega

theorem positive_extended (h : ∀ r ∈ ls.divs.rows, 0 < r.entry 0) (hm : 0 < row.entry 0) :
    ∀ r ∈ (ls.extended row).divs.rows, 0 < r.entry 0 := by
  intro r hr
  rcases List.mem_append.1 hr with hr | hr
  · obtain ⟨s, hs, rfl⟩ := List.mem_map.1 hr
    rw [entry_concat_zero]
    exact h s hs
  · obtain rfl := List.mem_singleton.1 hr
    have hm' : 0 < Row.entry (row ++ [0]) 0 := by rwa [entry_concat_zero]
    obtain ⟨-, hk, hn⟩ := Division.normalize_spec (Int.le_of_lt hm')
    rw [Division.isKnown, Division.isKnown, bne_iff_ne.2 (Int.ne_of_gt hm'), bne_iff_ne] at hk
    omega

theorem value_concat (hr : row.length = 2 + x.length + d.length) :
    Division.value (row ++ [0]) (1 :: (x ++ (d ++ [v]))) = Division.value row (1 :: (x ++ d)) := by
  have hdrop : (row ++ [0]).drop 1 = row.drop 1 ++ [0] := List.drop_append_of_le_length (by omega)
  have hpoint : (1 : Int) :: (x ++ (d ++ [v])) = (1 :: (x ++ d)) ++ [v] := by simp
  rw [Division.value, Division.value, entry_concat_zero, hdrop, hpoint,
    Row.dot_append (by simp; omega)]
  simp [Row.dot]

/-- The new division has the value of its definition. -/
theorem assigns_extended_iff (h : ls.WellFormed) (hr : row.length = ls.divs.columns)
    (hm : 0 < row.entry 0) (hx : x.length = ls.space.total) :
    (ls.extended row).Assigns x (d ++ [v]) ↔
      ls.Assigns x d ∧ v = Division.value row (1 :: (x ++ d)) := by
  have hcolumns : ls.divs.columns = 2 + ls.space.total + ls.divs.rows.length := h.columns
  have hrows := length_rows_extended ls row
  have hnew := getElem?_extended_self ls row
  have hm' : 0 < Row.entry (row ++ [0]) 0 := by rwa [entry_concat_zero]
  obtain ⟨hvalue, hk, -⟩ := Division.normalize_spec (Int.le_of_lt hm')
  have hkr : Division.isKnown (Division.normalize (row ++ [0])) = true := by
    rw [hk, Division.isKnown, bne_iff_ne]
    omega
  -- Old rows get a zero for the new column, so they do not see the new value.
  have hrow : ∀ (k : Nat) (r : Row), ls.divs.rows[k]? = some r → d.length = ls.divs.rows.length →
      Division.value (r ++ [0]) (1 :: (x ++ (d ++ [v]))) = Division.value r (1 :: (x ++ d)) :=
    fun k r hr hd => value_concat (by
      rw [h.triangular.length_row r (List.mem_of_getElem? hr), hx, hd])
  constructor
  · intro ha
    have hd : d.length = ls.divs.rows.length := by
      have := ha.length
      rw [hrows, List.length_append] at this
      simpa using this
    refine ⟨⟨hd, fun k r hkr hkn => ?_⟩, ?_⟩
    · have hlt := (List.getElem?_eq_some_iff.1 hkr).1
      have hval := ha.value k (r ++ [0]) (by rw [getElem?_extended_of_lt hlt, hkr]; rfl)
        (by rwa [Division.isKnown, entry_concat_zero])
      rw [hrow k r hkr hd, Row.entry_append_left _ (by omega)] at hval
      exact hval
    · have hval := ha.value _ _ hnew hkr
      rw [hvalue, value_concat (by omega), ← hd, ← Nat.add_zero d.length,
        Row.entry_append_right] at hval
      exact hval
  · rintro ⟨ha, rfl⟩
    have hd := ha.length
    refine ⟨by simp [hrows, hd], fun k r hkr' hkn => ?_⟩
    rcases Nat.lt_trichotomy k ls.divs.rows.length with hlt | rfl | hgt
    · rw [getElem?_extended_of_lt hlt, Option.map_eq_some_iff] at hkr'
      obtain ⟨s, hs, rfl⟩ := hkr'
      rw [hrow k s hs hd, Row.entry_append_left _ (by omega)]
      exact ha.value k s hs (by rwa [Division.isKnown, entry_concat_zero] at hkn)
    · obtain rfl := Option.some.inj (hnew.symm.trans hkr')
      rw [hvalue, value_concat (by omega), ← hd, ← Nat.add_zero d.length, Row.entry_append_right]
      rfl
    · rw [List.getElem?_eq_none (by omega)] at hkr'
      cases hkr'

end Quasiaffine.LocalSpace

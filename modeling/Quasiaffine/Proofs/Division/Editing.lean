import Quasiaffine.Affine.Substitution
import Quasiaffine.Proofs.Division.Addition
import Quasiaffine.Proofs.Division.Dimensions
import Quasiaffine.Proofs.Except

set_option autoImplicit false

namespace Quasiaffine

namespace Row

variable {r s : Row} {pos n : Nat}

theorem entry_dropEntries (h : pos ≤ r.length) (c : Nat) :
    (r.dropEntries pos n).entry c = if c < pos then r.entry c else r.entry (c + n) := by
  rw [dropEntries, entry_append, List.length_take, Nat.min_eq_left h]
  split_ifs with hc
  · rw [entry_take, if_pos hc]
  · rw [entry_drop]
    congr 1
    omega

theorem entry_zero_insertZeros (h : 0 < pos) : (r.insertZeros pos n).entry 0 = r.entry 0 := by
  obtain ⟨q, rfl⟩ := Nat.exists_eq_succ_of_ne_zero (Nat.ne_of_gt h)
  cases r with
  | nil => simp [insertZeros]
  | cons x r => rfl

theorem entry_zero_dropEntries (h : 0 < pos) : (r.dropEntries pos n).entry 0 = r.entry 0 := by
  obtain ⟨q, rfl⟩ := Nat.exists_eq_succ_of_ne_zero (Nat.ne_of_gt h)
  cases r with
  | nil => simp [dropEntries]
  | cons x r => rfl

theorem entry_combine_of_le {m₁ m₂ : Int} {c : Nat} (h : s.length ≤ c) :
    (combine m₁ m₂ r s).entry c = r.entry c := by
  induction r generalizing s c with
  | nil => simp [combine]
  | cons x r ih =>
    cases s with
    | nil => rfl
    | cons y s =>
      cases c with
      | zero => simp at h
      | succ c =>
        simp only [combine, entry_cons_succ]
        exact ih (by simpa using h)

theorem entry_combine {m₁ m₂ : Int} {c : Nat} (hr : r.entry c = 0) (hs : s.entry c = 0) :
    (combine m₁ m₂ r s).entry c = 0 := by
  induction r generalizing s c with
  | nil => simp [combine]
  | cons x r ih =>
    cases s with
    | nil => exact hr
    | cons y s =>
      cases c with
      | zero =>
        simp only [entry_cons_zero] at hr hs
        simp [combine, hr, hs]
      | succ c => exact ih hr hs

end Row

namespace Triangular

variable {w first n : Nat} {rows : List Row}

theorem insert (h : Triangular w rows.length rows) (n : Nat) (hf : first ≤ rows.length) :
    Triangular w (rows.length + n) ((rows.take first ++
      List.replicate n (Row.zeros (w + rows.length)) ++ rows.drop first).map
        (Row.insertZeros (w + first) n)) := by
  refine ⟨fun r hr => ?_, fun k r hr c hc => ?_⟩
  · obtain ⟨s, hs, rfl⟩ := List.mem_map.1 hr
    have hlen : s.length = w + rows.length := by
      simp only [List.mem_append, List.mem_replicate] at hs
      rcases hs with (hs | ⟨-, rfl⟩) | hs
      · exact h.length_row s (List.mem_of_mem_take hs)
      · exact Row.length_zeros _
      · exact h.length_row s (List.mem_of_mem_drop hs)
    rw [Row.length_insertZeros, hlen]
    omega
  · rw [List.getElem?_map, Option.map_eq_some_iff] at hr
    obtain ⟨s, hs, rfl⟩ := hr
    have htake : (rows.take first).length = first := by
      rw [List.length_take]
      omega
    rcases Nat.lt_or_ge k first with hlt | hge
    · rw [List.append_assoc, List.getElem?_append_left (by omega), List.getElem?_take,
        if_pos hlt] at hs
      have hz := h.zero_from k s hs
      have hlen := h.length_row s (List.mem_of_getElem? hs)
      rw [Row.entry_insertZeros (by omega)]
      split_ifs
      · exact hz c hc
      · rfl
      · exact hz _ (by omega)
    · rcases Nat.lt_or_ge k (first + n) with hlt | hge'
      · rw [List.append_assoc, List.getElem?_append_right (by omega),
          List.getElem?_append_left (by rw [List.length_replicate]; omega),
          List.getElem?_replicate, htake, if_pos (by omega)] at hs
        obtain rfl := Option.some.inj hs
        rw [Row.entry_insertZeros (by rw [Row.length_zeros]; omega)]
        simp
      · rw [List.getElem?_append_right (by simp; omega), List.getElem?_drop] at hs
        have hz := h.zero_from _ s hs
        have hlen := h.length_row s (List.mem_of_getElem? hs)
        rw [List.length_append, htake, List.length_replicate] at hz
        rw [Row.entry_insertZeros (by omega), if_neg (by omega), if_neg (by omega)]
        exact hz _ (by omega)

theorem drop (h : Triangular w rows.length rows) (hf : first + n ≤ rows.length) :
    Triangular w (rows.length - n)
      ((rows.take first ++ rows.drop (first + n)).map (Row.dropEntries (w + first) n)) := by
  refine ⟨fun r hr => ?_, fun k r hr c hc => ?_⟩
  · obtain ⟨s, hs, rfl⟩ := List.mem_map.1 hr
    have hlen : s.length = w + rows.length := h.length_row s ((List.mem_append.1 hs).elim
      List.mem_of_mem_take List.mem_of_mem_drop)
    rw [Row.length_dropEntries _ _ _ (by omega), hlen]
    omega
  · rw [List.getElem?_map, Option.map_eq_some_iff] at hr
    obtain ⟨s, hs, rfl⟩ := hr
    have htake : (rows.take first).length = first := by
      rw [List.length_take]
      omega
    rcases Nat.lt_or_ge k first with hlt | hge
    · rw [List.getElem?_append_left (by omega), List.getElem?_take, if_pos hlt] at hs
      have hz := h.zero_from k s hs
      have hlen := h.length_row s (List.mem_of_getElem? hs)
      rw [Row.entry_dropEntries (by omega)]
      split_ifs
      · exact hz c hc
      · exact hz _ (by omega)
    · rw [List.getElem?_append_right (by omega), List.getElem?_drop, htake] at hs
      have hz := h.zero_from _ s hs
      have hlen := h.length_row s (List.mem_of_getElem? hs)
      rw [Row.entry_dropEntries (by omega), if_neg (by omega)]
      exact hz _ (by omega)

end Triangular

namespace LocalSpace

section Replacing

variable {equality replacement r : Row} {j m c : Nat}

theorem clearColumn_cons (x : Int) (rest : Row) : clearColumn equality j (x :: rest) =
    if Row.entry rest j = 0 then x :: rest
    else Division.normalize
      (x * (rest.eliminate equality j).factor :: (rest.eliminate equality j).row) := rfl

theorem length_clearColumn (r : Row) : (clearColumn equality j r).length = r.length := by
  cases r with
  | nil => rfl
  | cons x rest =>
    rw [clearColumn_cons]
    split_ifs
    · rfl
    · rw [Division.length_normalize, List.length_cons, Row.length_eliminate, List.length_cons]

theorem entry_clearColumn_eq_zero (he : ∀ c, j < c → equality.entry c = 0)
    (hz : ∀ c, m ≤ c → r.entry c = 0) (hc : m ≤ c) : (clearColumn equality j r).entry c = 0 := by
  cases r with
  | nil => rfl
  | cons x rest =>
    rw [clearColumn_cons]
    split_ifs with hj
    · exact hz c hc
    · have hjm : j + 1 < m := by
        by_contra hge
        exact hj (hz (j + 1) (by omega))
      obtain ⟨d, rfl⟩ : ∃ d, c = d + 1 := ⟨c - 1, by omega⟩
      refine Division.entry_normalize_eq_zero (by omega) ?_
      rw [Row.entry_cons_succ, Row.eliminate, if_neg hj]
      exact Row.entry_combine (hz (d + 1) hc) (he d (by omega))

theorem entry_zero_clearColumn (h : 0 ≤ r.entry 0) : 0 ≤ (clearColumn equality j r).entry 0 := by
  cases r with
  | nil => exact h
  | cons x rest =>
    rw [clearColumn_cons]
    split_ifs with hj
    · exact h
    · refine (Division.normalize_spec ?_).2.2
      rw [Row.entry_cons_zero, Row.eliminate, if_neg hj]
      exact Int.mul_nonneg h (Int.natCast_nonneg _)

theorem length_replaceColumn (hr : r ≠ []) : (replaceColumn replacement j r).length = r.length := by
  have hpos := List.length_pos_iff.2 hr
  unfold replaceColumn
  simp only
  split_ifs
  · rfl
  · rw [Division.length_normalize, List.length_cons, Row.length_combine, Row.length_scale,
      List.length_drop, List.length_set]
    omega

theorem entry_replaceColumn_eq_zero (hl : replacement.length ≤ m) (hm : 2 ≤ m)
    (hz : ∀ c, m ≤ c → r.entry c = 0) (hc : m ≤ c) :
    (replaceColumn replacement j r).entry c = 0 := by
  unfold replaceColumn
  simp only
  split_ifs with hj
  · exact hz c hc
  · obtain ⟨d, rfl⟩ : ∃ d, c = d + 1 := ⟨c - 1, by omega⟩
    refine Division.entry_normalize_eq_zero (by omega) ?_
    rw [Row.entry_cons_succ, Row.entry_combine_of_le (by rw [List.length_drop]; omega), Row.scale,
      Row.entry_map (by simp), Row.entry_drop, Row.entry_set, hz _ (by omega)]
    simp

theorem entry_zero_replaceColumn (hs : 0 < replacement.entry 0) (h : 0 ≤ r.entry 0) :
    0 ≤ (replaceColumn replacement j r).entry 0 := by
  unfold replaceColumn
  simp only
  split_ifs
  · exact h
  · refine (Division.normalize_spec ?_).2.2
    rw [Row.entry_cons_zero]
    exact Int.mul_nonneg h (Int.le_of_lt hs)

end Replacing

section Dimensions

variable {ls : LocalSpace} {kind : DimKind} {first n : Nat}

theorem dim_eq (hk : kind ≠ .div) : ls.dim kind = ls.space.dim kind := by
  cases kind with
  | div => exact absurd rfl hk
  | _ => rfl

theorem insertDims_cases {ls' : LocalSpace} (hok : ls.insertDims kind first n = .ok ls') :
    first ≤ ls.dim kind ∧ (n = 0 ∧ ls' = ls ∨
      0 < n ∧ kind = .div ∧ ls' =
        { ls with divs := (ls.divs.insertRows first n).insertColumns (ls.column kind first) n } ∨
      0 < n ∧ kind ≠ .div ∧ (kind = .param ∨ ls.space.hasTuple kind = true) ∧
        ls' = ls.inserted kind first n) := by
  simp only [insertDims, Space.insertDims, bind_eq_ok_iff, require_eq_ok_iff, exists_const,
    decide_eq_true_eq] at hok
  obtain ⟨hfirst, hok⟩ := hok
  refine ⟨hfirst, ?_⟩
  split_ifs at hok with hn hk
  · exact .inl ⟨hn, (Except.ok.inj hok).symm⟩
  · exact .inr (.inl ⟨Nat.pos_of_ne_zero hn, hk, (Except.ok.inj hok).symm⟩)
  · simp only [bind_eq_ok_iff, require_eq_ok_iff, exists_const, decide_eq_true_eq] at hok
    obtain ⟨s, ⟨-, htuple, hs⟩, hok⟩ := hok
    obtain rfl := Except.ok.inj hs
    exact .inr (.inr ⟨Nat.pos_of_ne_zero hn, hk, by simpa using htuple,
      (Except.ok.inj hok).symm⟩)

theorem total_insertDims {ls' : LocalSpace} (hs : ls.space.Proper)
    (hok : ls.insertDims kind first n = .ok ls') :
    ls'.space.Proper ∧ ls'.total = ls.total + n := by
  obtain ⟨hfirst, ⟨rfl, rfl⟩ | ⟨-, rfl, rfl⟩ | ⟨-, hk, htuple, rfl⟩⟩ := insertDims_cases hok
  · exact ⟨hs, rfl⟩
  · have hfirst : first ≤ ls.divs.rows.length := hfirst
    refine ⟨hs, ?_⟩
    simp only [total, divCount, Matrix.height, Matrix.insertColumns, Matrix.mapRows,
      Matrix.insertRows, List.length_map, List.length_append, List.length_take,
      List.length_replicate, List.length_drop]
    omega
  · rw [dim_eq hk] at hfirst
    refine ⟨hs.insertUnchecked htuple, ?_⟩
    simp only [total, inserted, Space.total_insertUnchecked hk hfirst, divCount, Matrix.height,
      Matrix.insertColumns, Matrix.mapRows, List.length_map]
    omega

theorem wellFormed_insertDivs (h : ls.WellFormed) (hf : first ≤ ls.divCount) : WellFormed
    { ls with divs := (ls.divs.insertRows first n).insertColumns (ls.column .div first) n } := by
  have hcolumns : ls.divs.columns = 2 + ls.space.total + ls.divs.rows.length := h.columns
  have hrows := h.triangular.insert n hf
  rw [← hcolumns] at hrows
  refine (wellFormed_iff _).2 ?_
  simp only [Matrix.insertColumns, Matrix.mapRows, Matrix.insertRows]
  have hlength : ((ls.divs.rows.take first ++ List.replicate n (Row.zeros ls.divs.columns) ++
      ls.divs.rows.drop first).map (Row.insertZeros (ls.column .div first) n)).length =
      ls.divs.rows.length + n := by
    rw [divCount, Matrix.height] at hf
    simp
    omega
  rw [hlength]
  exact ⟨by omega, hrows⟩

theorem wellFormed_dropDivs (h : ls.WellFormed) (hf : first + n ≤ ls.divCount) : WellFormed
    { ls with divs := (ls.divs.dropRows first n).dropColumns (ls.column .div first) n } := by
  have hcolumns : ls.divs.columns = 2 + ls.space.total + ls.divs.rows.length := h.columns
  have hrows := h.triangular.drop hf
  refine (wellFormed_iff _).2 ?_
  simp only [Matrix.dropColumns, Matrix.mapRows, Matrix.dropRows]
  rw [divCount, Matrix.height] at hf
  have hlength : ((ls.divs.rows.take first ++ ls.divs.rows.drop (first + n)).map
      (Row.dropEntries (ls.column .div first) n)).length = ls.divs.rows.length - n := by
    simp
    omega
  rw [hlength]
  exact ⟨by omega, hrows⟩

theorem wellFormed_dropDims (h : ls.WellFormed) (hk : kind ≠ .div)
    (hf : first + n ≤ ls.space.dim kind) : WellFormed
      ⟨ls.space.dropUnchecked first n kind, ls.divs.dropColumns (ls.column kind first) n⟩ := by
  have hcolumns : ls.divs.columns = 2 + ls.space.total + ls.divs.rows.length := h.columns
  have htotal := Space.total_dropUnchecked (n := n) hk hf
  have hoff := Space.offset_add_dim_le (s := ls.space) hk
  have hcol : ls.column kind first = 2 + ls.space.offset kind + first := rfl
  refine (wellFormed_iff _).2 ?_
  simp only [Matrix.dropColumns, Matrix.mapRows, List.length_map]
  refine ⟨by omega, fun r hr => ?_, fun k r hr c hc => ?_⟩
  · obtain ⟨s, hs, rfl⟩ := List.mem_map.1 hr
    have hlen := h.triangular.length_row s hs
    rw [Row.length_dropEntries _ _ _ (by omega), hlen]
    omega
  · rw [List.getElem?_map, Option.map_eq_some_iff] at hr
    obtain ⟨s, hs, rfl⟩ := hr
    have hlen := h.triangular.length_row s (List.mem_of_getElem? hs)
    rw [Row.entry_dropEntries (by omega), if_neg (by omega)]
    exact h.triangular.zero_from k s hs _ (by omega)

end Dimensions

/-- The same change may be made to every row if it lets no division refer to a later one. -/
theorem WellFormed.mapRows {ls : LocalSpace} {f : Row → Row} (h : ls.WellFormed)
    (hl : ∀ r ≠ [], (f r).length = r.length)
    (hz : ∀ (r : Row) (m c : Nat), 2 + ls.space.total ≤ m → (∀ c, m ≤ c → r.entry c = 0) →
      m ≤ c → (f r).entry c = 0) :
    WellFormed { ls with divs := ls.divs.mapRows ls.divs.columns f } := by
  have hrows : (ls.divs.mapRows ls.divs.columns f).rows = ls.divs.rows.map f := rfl
  refine (wellFormed_iff _).2 ⟨?_, fun r hr => ?_, fun j r hj c hc => ?_⟩
  · rw [hrows, List.length_map]
    exact h.columns
  · rw [hrows, List.length_map]
    obtain ⟨s, hs, rfl⟩ := List.mem_map.1 hr
    have hlen := h.triangular.length_row s hs
    rw [hl s (List.ne_nil_of_length_pos (by omega)), hlen]
  · rw [hrows, List.getElem?_map, Option.map_eq_some_iff] at hj
    obtain ⟨s, hs, rfl⟩ := hj
    exact hz s _ c (by omega) (h.triangular.zero_from j s hs) hc

structure Coherent (p : Prop) (ls : LocalSpace) : Prop where
  wellFormed : ls.WellFormed
  proper : ls.space.Proper
  nonNegative : p → ∀ r ∈ ls.divs.rows, 0 ≤ r.entry 0

namespace Coherent

variable {p : Prop} {ls ls' other : LocalSpace} {s : Space} {kind : DimKind} {first k n : Nat}
  {row : Row}

section Start

theorem ofSpace (hs : s.Proper) : (ofSpace s).Coherent p :=
  ⟨wellFormed_ofSpace s, hs, by simp [LocalSpace.ofSpace, Matrix.empty]⟩

theorem withUnknowns (hs : s.Proper) (n : Nat) : (withUnknowns s n).Coherent p := by
  refine ⟨(wellFormed_iff _).2 ⟨?_, fun r hr => ?_, fun k r hr c _ => ?_⟩, hs, fun _ r hr => ?_⟩
  · simp [LocalSpace.withUnknowns, Matrix.zeros]
  · simp [LocalSpace.withUnknowns, Matrix.zeros, (List.mem_replicate.1 hr).2]
  · rw [(List.mem_replicate.1 (List.mem_of_getElem? hr)).2, Row.entry_zeros]
  · rw [(List.mem_replicate.1 hr).2, Row.entry_zeros]

theorem ofDivisions {m : Matrix} (hs : s.Proper) (hm : m.Rectangular)
    (hn : p → ∀ r ∈ m.rows, 0 ≤ r.entry 0) (hok : ofDivisions s m = .ok ls) : ls.Coherent p := by
  simp only [LocalSpace.ofDivisions, bind_eq_ok_iff, require_eq_ok_iff, exists_const,
    beq_iff_eq] at hok
  obtain ⟨hcolumns, hok⟩ := hok
  split at hok
  · cases hok
  · rename_i horder
    obtain rfl := Except.ok.inj hok
    refine ⟨⟨hcolumns, hm, fun k => ?_⟩, hs, hn⟩
    rcases Nat.lt_or_ge k m.height with hlt | hge
    · simpa using List.find?_eq_none.1 horder k (List.mem_range.2 hlt)
    · simp [Matrix.row, List.getD_eq_getElem?_getD, List.getElem?_eq_none hge, Row.isZero]

end Start

section Rows

theorem addDiv (h : ls.Coherent p) (hr : p → 0 ≤ row.entry 0) (hok : ls.addDiv row = .ok ls') :
    ls'.Coherent p := by
  have hwidth : row.length = ls.divs.columns := by
    simp only [LocalSpace.addDiv, bind_eq_ok_iff, require_eq_ok_iff, beq_iff_eq] at hok
    exact hok.elim fun _ h => h.1
  rw [addDiv_eq_ok h.wellFormed hwidth] at hok
  obtain rfl := Except.ok.inj hok
  have hcolumns : ls.divs.columns = 2 + ls.space.total + ls.divs.rows.length :=
    h.wellFormed.columns
  refine ⟨(wellFormed_iff _).2 ⟨?_, ?_⟩, h.proper, fun hp r hr' => ?_⟩
  · simp only [List.length_append, List.length_map, List.length_singleton]
    omega
  · simp only [List.length_append, List.length_map, List.length_singleton]
    refine (triangular_widened h.wellFormed).concat ?_ fun c hc => ?_
    · rw [List.length_append, hwidth, hcolumns]
      rfl
    · rw [List.length_map] at hc
      rw [entry_concat_zero, Row.entry_eq_zero (by omega)]
  · rcases List.mem_append.1 hr' with hr' | hr'
    · obtain ⟨s, hs, rfl⟩ := List.mem_map.1 hr'
      rw [entry_concat_zero]
      exact h.nonNegative hp s hs
    · obtain rfl := List.mem_singleton.1 hr'
      rw [entry_concat_zero]
      exact hr hp

theorem setRow (h : ls.Coherent p) (hw : row.length = ls.divs.columns)
    (hz : ∀ c, 2 + ls.space.total + k ≤ c → row.entry c = 0) (hr : p → 0 ≤ row.entry 0) :
    Coherent p { ls with divs := ls.divs.setRow k row } := by
  have hrows : (ls.divs.setRow k row).rows = ls.divs.rows.set k row := rfl
  refine ⟨(wellFormed_iff _).2 ⟨?_, fun r hr' => ?_, fun j r hj c hc => ?_⟩, h.proper,
    fun hp r hr' => ?_⟩
  · rw [hrows, List.length_set]
    exact h.wellFormed.columns
  · simp only [hrows, List.length_set] at hr' ⊢
    rcases List.mem_or_eq_of_mem_set hr' with hr' | rfl
    · exact h.wellFormed.triangular.length_row r hr'
    · exact hw.trans h.wellFormed.columns
  · rw [hrows, List.getElem?_set] at hj
    split_ifs at hj with hjk hlt
    · obtain rfl := Option.some.inj hj
      exact hz c (hjk ▸ hc)
    · exact h.wellFormed.triangular.zero_from j r hj c hc
  · rcases List.mem_or_eq_of_mem_set hr' with hr' | rfl
    · exact h.nonNegative hp r hr'
    · exact hr hp

theorem row_eq (ls : LocalSpace) {r : Row} (hr : ls.divs.rows[k]? = some r) :
    ls.divs.row k = r := by
  rw [Matrix.row, List.getD_eq_getElem?_getD, hr, Option.getD_some]

theorem normalizeDiv (h : ls.Coherent p) (k : Nat) : (ls.normalizeDiv k).Coherent p := by
  cases hr : ls.divs.rows[k]? with
  | none =>
    have : ls.normalizeDiv k = ls := by
      rw [LocalSpace.normalizeDiv, Matrix.setRow,
        List.set_eq_of_length_le (List.getElem?_eq_none_iff.1 hr)]
    rwa [this]
  | some r =>
    have hmem := List.mem_of_getElem? hr
    rw [LocalSpace.normalizeDiv, row_eq ls hr]
    refine h.setRow ?_ (fun c hc => ?_) fun hp => ?_
    · rw [Division.length_normalize, h.wellFormed.rectangular r hmem]
    · exact Division.entry_normalize_eq_zero (by omega)
        (h.wellFormed.triangular.zero_from k r hr c hc)
    · exact (Division.normalize_spec (h.nonNegative hp r hmem)).2.2

theorem setDiv (h : ls.Coherent p) (hr : p → 0 ≤ row.entry 0) (hok : ls.setDiv k row = .ok ls') :
    ls'.Coherent p := by
  simp only [LocalSpace.setDiv, bind_eq_ok_iff, require_eq_ok_iff, exists_const,
    Bool.and_eq_true, beq_iff_eq, Row.isZero_drop_iff] at hok
  obtain ⟨⟨⟨-, hw⟩, hz⟩, hok⟩ := hok
  obtain rfl := Except.ok.inj hok
  refine h.setRow ((Division.length_normalize row).trans hw) (fun c hc => ?_) fun hp => ?_
  · exact Division.entry_normalize_eq_zero (by omega) (hz c hc)
  · exact (Division.normalize_spec (hr hp)).2.2

theorem mapRows {f : Row → Row} (h : ls.Coherent p) (hl : ∀ r ≠ [], (f r).length = r.length)
    (hz : ∀ (r : Row) (m c : Nat), 2 + ls.space.total ≤ m → (∀ c, m ≤ c → r.entry c = 0) →
      m ≤ c → (f r).entry c = 0)
    (hn : ∀ r : Row, 0 ≤ r.entry 0 → 0 ≤ (f r).entry 0) :
    Coherent p { ls with divs := ls.divs.mapRows ls.divs.columns f } := by
  refine ⟨h.wellFormed.mapRows hl hz, h.proper, fun hp r hr => ?_⟩
  obtain ⟨s, hs, rfl⟩ := List.mem_map.1 hr
  exact hn s (h.nonNegative hp s hs)

theorem substituteEquality {equality : Row} (h : ls.Coherent p)
    (hok : ls.substituteEquality equality = .ok ls') : ls'.Coherent p := by
  simp only [LocalSpace.substituteEquality, bind_eq_ok_iff, require_eq_ok_iff, exists_const] at hok
  obtain ⟨-, hok⟩ := hok
  cases hlast : equality.lastNonZero? with
  | none =>
    rw [hlast] at hok
    exact Except.ok.inj hok ▸ h
  | some j =>
    simp only [hlast] at hok
    split_ifs at hok with hj
    · obtain rfl := Except.ok.inj hok
      have hzero : ∀ c, j < c → Row.entry (equality.take (1 + ls.total)) c = 0 := fun c hc => by
        rw [Row.entry_take, (Row.lastNonZero?_eq_some hlast).2 c hc, ite_self]
      exact h.mapRows (fun r _ => length_clearColumn r)
        (fun r m c _ hz hc => entry_clearColumn_eq_zero hzero hz hc)
        fun r => entry_zero_clearColumn
    · exact Except.ok.inj hok ▸ h

theorem substituteEqualities {equalities : List Row} (h : ls.Coherent p)
    (hok : ls.substituteEqualities equalities = .ok ls') : ls'.Coherent p :=
  foldlM_induction (fun _ _ _ _ hok h => substituteEquality h hok) h hok

theorem substitute {pos : Nat} {a : Affine} (h : ls.Coherent p) (ha : a.space.Proper)
    (hl : a.row.length = 2 + a.ls.total) (hd : 0 < a.denominator)
    (hok : ls.substitute kind pos a = .ok ls') : ls'.Coherent p := by
  simp only [LocalSpace.substitute, bind_eq_ok_iff, require_eq_ok_iff, exists_const] at hok
  obtain ⟨hagrees, hok⟩ := hok
  split_ifs at hok with hdivs
  · simp [throw, throwThe, MonadExceptOf.throw, bind, Except.bind] at hok
  · simp only [bind_eq_ok_iff, require_eq_ok_iff, exists_const] at hok
    obtain rfl := Except.ok.inj hok.2
    have htotal : ls.space.total = a.ls.space.total :=
      Space.total_eq_of_agrees hagrees h.proper ha
    rw [LocalSpace.total, not_not.1 hdivs, ← htotal] at hl
    exact h.mapRows (fun r hr => length_replaceColumn hr)
      (fun r m c hm hz hc => entry_replaceColumn_eq_zero (by omega) (by omega) hz hc)
      fun r => entry_zero_replaceColumn hd

end Rows

section Space

theorem resetSpace (h : ls.Coherent p) (hs : s.Proper) (hok : ls.resetSpace s = .ok ls') :
    ls'.Coherent p := by
  simp only [LocalSpace.resetSpace, bind_eq_ok_iff, require_eq_ok_iff, exists_const,
    beq_iff_eq] at hok
  obtain ⟨htotal, hok⟩ := hok
  obtain rfl := Except.ok.inj hok
  refine ⟨⟨?_, h.wellFormed.rectangular, fun k => ?_⟩, hs, h.nonNegative⟩
  · exact h.wellFormed.columns.trans (by rw [htotal])
  · change Row.isZero ((ls.divs.row k).drop (2 + s.total + k)) = true
    rw [htotal]
    exact h.wellFormed.ordered k

theorem setLabel {pos : Nat} {label : Label} (h : ls.Coherent p)
    (hok : ls.setLabel kind pos label = .ok ls') : ls'.Coherent p := by
  simp only [LocalSpace.setLabel, Space.setLabel, bind_eq_ok_iff, require_eq_ok_iff,
    exists_const] at hok
  obtain ⟨s, ⟨hset, -, -, hs⟩, hok⟩ := hok
  obtain rfl := Except.ok.inj hok
  obtain rfl := Except.ok.inj hs
  have hlength : ((ls.space.labels kind).set pos label).length = ls.space.dim kind :=
    List.length_set
  exact h.resetSpace (h.proper.setLabels hlength) (by
    simp [LocalSpace.resetSpace, require, Space.total_setLabels hlength, bind, Except.bind, pure,
      Except.pure])

theorem two_le_column (ls : LocalSpace) (kind : DimKind) (pos : Nat) : 2 ≤ ls.column kind pos := by
  rw [column]
  omega

theorem insertDims (h : ls.Coherent p) (hok : ls.insertDims kind first n = .ok ls') :
    ls'.Coherent p := by
  have hcol := two_le_column ls kind first
  obtain ⟨hfirst, ⟨-, rfl⟩ | ⟨-, rfl, rfl⟩ | ⟨-, hk, htuple, rfl⟩⟩ := insertDims_cases hok
  · exact h
  · refine ⟨wellFormed_insertDivs h.wellFormed hfirst, h.proper, fun hp r hr => ?_⟩
    obtain ⟨s, hs, rfl⟩ := List.mem_map.1 hr
    rw [Row.entry_zero_insertZeros (by omega)]
    simp only [Matrix.insertRows, List.mem_append, List.mem_replicate] at hs
    rcases hs with (hs | ⟨-, rfl⟩) | hs
    · exact h.nonNegative hp s (List.mem_of_mem_take hs)
    · rw [Row.entry_zeros]
    · exact h.nonNegative hp s (List.mem_of_mem_drop hs)
  · rw [dim_eq hk] at hfirst
    refine ⟨wellFormed_inserted h.wellFormed hk hfirst, h.proper.insertUnchecked htuple,
      fun hp r hr => ?_⟩
    obtain ⟨s, hs, rfl⟩ := List.mem_map.1 hr
    rw [Row.entry_zero_insertZeros (by omega)]
    exact h.nonNegative hp s hs

theorem dropDims (h : ls.Coherent p) (hok : ls.dropDims kind first n = .ok ls') :
    ls'.Coherent p := by
  simp only [LocalSpace.dropDims, Space.dropDims, bind_eq_ok_iff, require_eq_ok_iff,
    exists_const, decide_eq_true_eq] at hok
  obtain ⟨hfirst, hok⟩ := hok
  have hcol := two_le_column ls kind first
  split_ifs at hok with hn hk
  · exact Except.ok.inj hok ▸ h
  · obtain rfl := Except.ok.inj hok
    subst hk
    refine ⟨wellFormed_dropDivs h.wellFormed hfirst, h.proper, fun hp r hr => ?_⟩
    obtain ⟨s, hs, rfl⟩ := List.mem_map.1 hr
    rw [Row.entry_zero_dropEntries (by omega)]
    exact h.nonNegative hp s
      ((List.mem_append.1 hs).elim List.mem_of_mem_take List.mem_of_mem_drop)
  · simp only [bind_eq_ok_iff, require_eq_ok_iff, exists_const, decide_eq_true_eq] at hok
    obtain ⟨s, ⟨hfirst', htuple, hs⟩, hok⟩ := hok
    obtain rfl := Except.ok.inj hs
    obtain rfl := Except.ok.inj hok
    refine ⟨wellFormed_dropDims h.wellFormed hk hfirst',
      h.proper.dropUnchecked (by simpa using htuple), fun hp r hr => ?_⟩
    obtain ⟨s, hs, rfl⟩ := List.mem_map.1 hr
    rw [Row.entry_zero_dropEntries (by omega)]
    exact h.nonNegative hp s hs

theorem dimsToDivs (h : ls.Coherent p) (hok : ls.dimsToDivs kind first n = .ok ls') :
    ls'.Coherent p := by
  simp only [LocalSpace.dimsToDivs, Space.dropDims, bind_eq_ok_iff, require_eq_ok_iff,
    exists_const] at hok
  obtain ⟨hfirst, hok⟩ := hok
  split_ifs at hok with hn
  · exact Except.ok.inj hok ▸ h
  · simp only [bind_eq_ok_iff, require_eq_ok_iff, exists_const, decide_eq_true_eq] at hok
    obtain ⟨s, ⟨hfirst', htuple, hs⟩, hok⟩ := hok
    obtain rfl := Except.ok.inj hs
    obtain rfl := Except.ok.inj hok
    have hk : kind ≠ .div := by simp_all
    refine ⟨wellFormed_projected h.wellFormed hk hfirst',
      h.proper.dropUnchecked (by simpa using htuple), fun hp r hr => ?_⟩
    change r ∈ (ls.projected kind first n).divs.rows at hr
    rw [rows_projected] at hr
    rcases List.mem_append.1 hr with hr | hr
    · rw [(List.mem_replicate.1 hr).2, Row.entry_zeros]
    · obtain ⟨s, hs, rfl⟩ := List.mem_map.1 hr
      have hlen := h.wellFormed.triangular.length_row s hs
      have hoff := Space.offset_add_dim_le (s := ls.space) hk
      rw [Row.entry_moveEntries_zero (by simp only [column]; omega) (by omega) (by omega)]
      exact h.nonNegative hp s hs

theorem domain (h : ls.Coherent p) (hok : ls.domain = .ok ls') : ls'.Coherent p := by
  simp only [LocalSpace.domain, bind_eq_ok_iff, require_eq_ok_iff, exists_const] at hok
  obtain ⟨-, rest, hdrop, hreset⟩ := hok
  exact (h.dropDims hdrop).resetSpace (Space.proper_ofSet _ _) hreset

theorem range (h : ls.Coherent p) (hok : ls.range = .ok ls') : ls'.Coherent p := by
  unfold LocalSpace.range at hok
  split_ifs at hok
  · exact Except.ok.inj hok ▸ h
  · simp only [bind_eq_ok_iff, require_eq_ok_iff, exists_const] at hok
    obtain ⟨-, rest, hdrop, hreset⟩ := hok
    exact (h.dropDims hdrop).resetSpace (Space.proper_ofSet _ _) hreset

theorem relationFrom (h : ls.Coherent p) (hok : ls.relationFrom = .ok ls') : ls'.Coherent p := by
  simp only [LocalSpace.relationFrom, Space.relationFrom, bind_eq_ok_iff, require_eq_ok_iff,
    exists_const] at hok
  obtain ⟨s, ⟨-, hs⟩, hreset⟩ := hok
  obtain rfl := Except.ok.inj hs
  exact h.resetSpace (Space.proper_ofRelation _ _ _) hreset

end Space

end Coherent

end LocalSpace

end Quasiaffine

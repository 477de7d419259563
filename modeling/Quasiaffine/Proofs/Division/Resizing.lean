import Quasiaffine.Proofs.Division.Dimensions
import Quasiaffine.Proofs.Division.Editing

set_option autoImplicit false

namespace Quasiaffine

namespace Row

variable {r u v w : Row} {pos n : Nat}

theorem dropEntries_zero (pos : Nat) (r : Row) : r.dropEntries pos 0 = r := by simp [dropEntries]

theorem dropEntries_append (hu : u.length = pos) (hv : v.length = n) :
    (u ++ v ++ w).dropEntries pos n = u ++ w := by
  subst hu hv
  simp [dropEntries]

theorem exists_window (h : pos + n ≤ r.length) :
    ∃ u v w, u.length = pos ∧ v.length = n ∧ r = u ++ v ++ w := by
  obtain ⟨u, s, hu, rfl⟩ := exists_split (r := r) (by omega : pos ≤ r.length)
  rw [List.length_append] at h
  obtain ⟨v, w, hv, rfl⟩ := exists_split (r := s) (by omega : n ≤ s.length)
  exact ⟨u, v, w, hu, hv, by rw [List.append_assoc]⟩

theorem insertZeros_dropEntries (h : pos + n ≤ r.length)
    (hz : Row.isZero ((r.drop pos).take n) = true) :
    (r.dropEntries pos n).insertZeros pos n = r := by
  obtain ⟨u, v, w, rfl, rfl, rfl⟩ := exists_window h
  have hv : v = zeros v.length := by
    rw [isZero, List.append_assoc, List.drop_left, List.take_left] at hz
    exact List.eq_replicate_iff.2 ⟨rfl, fun b hb => by simpa using List.all_eq_true.1 hz b hb⟩
  rw [dropEntries_append rfl rfl, insertZeros, List.take_left, List.drop_left, ← hv]

end Row

namespace Matrix

theorem dropColumns_zero (m : Matrix) (pos : Nat) : m.dropColumns pos 0 = m := by
  have hid : Row.dropEntries pos 0 = id := funext (Row.dropEntries_zero pos)
  rw [dropColumns, mapRows, hid, List.map_id, Nat.sub_zero]

end Matrix

namespace LocalSpace

variable {ls a b : LocalSpace} {kind : DimKind} {first n : Nat} {x d : Row} {f : Row → Row}

/-- At every integer point `x` the divisions have the values `f x` and no others. -/
def HasValues (ls : LocalSpace) (f : Row → Row) : Prop :=
  ∀ x, x.length = ls.space.total → ∀ d, ls.Assigns x d ↔ d = f x

theorem exists_hasValues (hwf : ls.WellFormed) (hk : ls.allKnown = true) :
    ∃ f, ls.HasValues f := by
  have hvalues : ∀ x : Row, ∃ d, x.length = ls.space.total → ls.Assigns x d := fun x =>
    if hx : x.length = ls.space.total then (exists_assigns hwf hx).imp fun _ h _ => h
    else ⟨[], fun h => absurd h hx⟩
  refine ⟨fun x => (hvalues x).choose, fun x hx d => ⟨fun h => ?_, ?_⟩⟩
  · exact h.unique ((hvalues x).choose_spec hx) hwf hk hx
  · rintro rfl
    exact (hvalues x).choose_spec hx

theorem assigns_congr (h : a.divs.rows = b.divs.rows) : a.Assigns x d ↔ b.Assigns x d :=
  ⟨fun ⟨hl, hv⟩ => ⟨h ▸ hl, h ▸ hv⟩, fun ⟨hl, hv⟩ => ⟨h ▸ hl, h ▸ hv⟩⟩

section Insertion

theorem HasValues.inserted (h : ls.HasValues f) (hwf : ls.WellFormed) (hk : kind ≠ .div)
    (hf : first ≤ ls.space.dim kind) :
    (ls.inserted kind first n).HasValues
      fun x => f (x.dropEntries (ls.offset kind + first) n) := by
  intro x hx d
  have htotal : (ls.inserted kind first n).space.total = ls.space.total + n :=
    Space.total_insertUnchecked hk hf
  have hoff := Space.offset_add_dim_le (s := ls.space) hk
  have hwindow : ls.offset kind + first + n ≤ x.length := by
    rw [offset]
    omega
  obtain ⟨u, v, w, hu, hv, rfl⟩ := Row.exists_window hwindow
  dsimp only
  rw [Row.dropEntries_append hu hv, assigns_inserted_iff hwf hk hf hu hv]
  refine h _ ?_ d
  simp only [List.length_append] at hx ⊢
  omega

end Insertion

section Removal

def dropped (ls : LocalSpace) (kind : DimKind) (first n : Nat) : LocalSpace :=
  ⟨ls.space.dropUnchecked first n kind, ls.divs.dropColumns (ls.column kind first) n⟩

theorem dropDims_eq_ok (hk : kind ≠ .div) (hf : first + n ≤ ls.space.dim kind)
    (ht : n = 0 ∨ kind = .param ∨ ls.space.hasTuple kind = true) :
    ls.dropDims kind first n = .ok ⟨if n = 0 then ls.space else ls.space.dropUnchecked first n kind,
      ls.divs.dropColumns (ls.column kind first) n⟩ := by
  rcases Nat.eq_zero_or_pos n with rfl | hn
  · simp [dropDims, require, dim_eq hk, show first ≤ _ from hf, Matrix.dropColumns_zero, bind,
      Except.bind, pure, Except.pure]
  · have hne := Nat.ne_of_gt hn
    have hspace : ls.space.dropDims kind first n = .ok (ls.space.dropUnchecked first n kind) := by
      simp [Space.dropDims, require, hf, ht.resolve_left hne, bind, Except.bind, pure, Except.pure]
    simp [dropDims, require, dim_eq hk, hf, hk, hne, hspace, bind, Except.bind, pure, Except.pure]

theorem column_dropped : (ls.dropped kind first n).column kind first = ls.column kind first := by
  cases kind <;> rfl

/-- Divisions that do not refer to some dimensions have the same values without these. -/
theorem assigns_dropped_iff {u v w : Row} (hwf : ls.WellFormed) (hk : kind ≠ .div)
    (hf : first + n ≤ ls.space.dim kind)
    (hz : ∀ r ∈ ls.divs.rows, Row.isZero ((r.drop (ls.column kind first)).take n) = true)
    (hu : u.length = ls.offset kind + first) (hv : v.length = n) :
    (ls.dropped kind first n).Assigns (u ++ w) d ↔ ls.Assigns (u ++ v ++ w) d := by
  have hoff := Space.offset_add_dim_le (s := ls.space) hk
  have hrows : ((ls.dropped kind first n).inserted kind first n).divs.rows = ls.divs.rows := by
    rw [inserted, column_dropped]
    simp only [dropped, Matrix.insertColumns, Matrix.dropColumns, Matrix.mapRows, List.map_map]
    refine (List.map_congr_left fun r hr => ?_).trans (List.map_id _)
    refine Row.insertZeros_dropEntries ?_ (hz r hr)
    rw [hwf.triangular.length_row r hr, column, offset]
    omega
  have hfirst : first ≤ (ls.dropped kind first n).space.dim kind := by
    cases kind <;> simp [dropped, Space.dropUnchecked, Space.dim, Space.labels, Tuple.remove,
      Tuple.ids] at hk hf ⊢ <;> omega
  have hoffset : (ls.dropped kind first n).space.offset kind = ls.offset kind := by
    cases kind <;> rfl
  have hwf' : (ls.dropped kind first n).WellFormed := wellFormed_dropDims hwf hk hf
  rw [← assigns_congr hrows, assigns_inserted_iff hwf' hk hfirst (by rw [hu, hoffset]) hv]

end Removal

section Sides

def narrowed (ls : LocalSpace) (kind : DimKind) (s : Space) : LocalSpace :=
  ⟨s, ls.divs.dropColumns (ls.column kind 0) (ls.dim kind)⟩

/-- The narrowed local space, if no division refers to the dimensions of the kind. -/
def narrow (ls : LocalSpace) (kind : DimKind) (s : Space) : Except Error LocalSpace :=
  if ls.isUnused kind then .ok (ls.narrowed kind s) else .error (.argument (.stillInUse kind))

theorem relationFrom_eq_ok (hset : ls.space.isSet = true) (hs : ls.space.input.size = 0) :
    ls.relationFrom =
      .ok { ls with space := .ofRelation ls.space.params ls.space.output .unit } := by
  have htotal :
      (Space.ofRelation ls.space.params ls.space.output .unit).total = ls.space.total := by
    rw [Space.total, Space.total, hs]
    rfl
  simp [relationFrom, Space.relationFrom, resetSpace, require, hset, htotal, bind, Except.bind,
    pure, Except.pure]

/-- Where no division refers to the dimensions of a kind, its value is a function of the other
coordinates. -/
theorem HasValues.narrowed {s : Space} (h : ls.HasValues f) (hwf : ls.WellFormed)
    (hknown : ls.allKnown = true) (hk : kind ≠ .div) (hu : ls.isUnused kind = true)
    (hs : s.total + ls.dim kind = ls.space.total) :
    ∃ g, (ls.narrowed kind s).HasValues g ∧ ∀ x : Row, x.length = ls.space.total →
      f x = g (x.dropEntries (ls.offset kind) (ls.dim kind)) := by
  have hdim : 0 + ls.dim kind ≤ ls.space.dim kind := by rw [Nat.zero_add, dim_eq hk]
  have hoff := Space.offset_add_dim_le (s := ls.space) hk
  have hwf' : (ls.dropped kind 0 (ls.dim kind)).WellFormed := wellFormed_dropDims hwf hk hdim
  have htotal : (ls.dropped kind 0 (ls.dim kind)).space.total = s.total := by
    have : (ls.dropped kind 0 (ls.dim kind)).space.total + ls.dim kind = ls.space.total :=
      Space.total_dropUnchecked hk hdim
    omega
  have hknown' : (ls.dropped kind 0 (ls.dim kind)).allKnown = true := by
    refine List.all_eq_true.2 fun r hr => ?_
    obtain ⟨t, ht, rfl⟩ := List.mem_map.1 hr
    rw [Division.isKnown, Row.entry_zero_dropEntries (by rw [column]; omega)]
    exact List.all_eq_true.1 hknown t ht
  obtain ⟨g, hg⟩ := exists_hasValues hwf' hknown'
  refine ⟨g, fun x hx d => ?_, fun x hx => ?_⟩
  · rw [← hg x (hx.trans htotal.symm) d]
    exact assigns_congr rfl
  have hwindow : ls.offset kind + ls.dim kind ≤ x.length := by
    rw [offset, dim_eq hk]
    omega
  obtain ⟨u, v, w, hul, hvl, rfl⟩ := Row.exists_window hwindow
  have hvalues := (h _ hx _).2 rfl
  rw [← assigns_dropped_iff hwf hk hdim (List.all_eq_true.1 hu) hul hvl] at hvalues
  rw [Row.dropEntries_append hul hvl]
  refine (hg (u ++ w) ?_ _).1 hvalues
  simp only [List.length_append] at hx ⊢
  omega

end Sides

end LocalSpace

end Quasiaffine

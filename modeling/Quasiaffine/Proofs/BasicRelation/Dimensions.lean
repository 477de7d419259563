import Quasiaffine.Proofs.BasicRelation.Points
import Quasiaffine.Proofs.Division.Dimensions

set_option autoImplicit false

namespace Quasiaffine.BasicRelation

variable {b : BasicRelation} {kind : DimKind} {first n : Nat} {x : Row}

theorem resetSpace_eq_ok {space : Space} (ht : space.total = b.space.total) :
    ∃ b', b.resetSpace space = .ok b' ∧ b'.space = space ∧ (b.WellFormed → b'.WellFormed) ∧
      b'.constraints = b.constraints ∧ b'.contradictory = b.contradictory ∧
      b'.ls.allKnown = b.ls.allKnown ∧ ∀ x, x ∈ b' ↔ x ∈ b := by
  have ht' : space.total = b.ls.space.total := ht
  have hls : b.ls.resetSpace space = .ok { b.ls with space } := by
    simp [LocalSpace.resetSpace, require, ht', bind, Except.bind, pure, Except.pure]
  refine ⟨{ b with ls := { b.ls with space } }, by rw [resetSpace, hls]; rfl, rfl, fun h => ?_, rfl,
    rfl, rfl, fun x => ?_⟩
  · refine ⟨?_, h.positive, fun c hc => ?_⟩
    · have := (wellFormed_iff _).1 h.divisions
      rw [← ht'] at this
      exact (wellFormed_iff _).2 this
    · rw [h.width c hc, width, width, LocalSpace.total, LocalSpace.total, ht']
      rfl
  · rw [mem_iff, mem_iff]
    refine and_congr (by rw [← ht]; rfl) (exists_congr fun d => ?_)
    exact ⟨fun hd => ⟨⟨hd.assigns.length, hd.assigns.value⟩, hd.admits.consistent,
      hd.admits.satisfied⟩, fun hd => ⟨⟨hd.assigns.length, hd.assigns.value⟩, hd.admits.consistent,
      hd.admits.satisfied⟩⟩

theorem isSatisfied_insertZeros {c : Constraint} {p : Nat} {u v w : Row} (hu : u.length = p)
    (hv : v.length = n) (hp : 1 + p ≤ c.width) :
    (c.insertZeros (1 + p) n).isSatisfied (1 :: (u ++ v ++ w)) =
      c.isSatisfied (1 :: (u ++ w)) := by
  have hdot := Row.dot_insertZeros (u := 1 :: u) (v := v) (w := w) (r := c.row)
    (by simp; omega : (1 :: u).length = 1 + p) hp hv
  simp only [List.cons_append] at hdot ⊢
  rw [Constraint.isSatisfied, Constraint.isSatisfied, Constraint.insertZeros, hdot]

theorem isSatisfied_moveEntries {c : Constraint} {p t : Nat} {u v w d : Row} (hu : u.length = p)
    (hv : v.length = n) (ht : p + w.length = t) (hp : 1 + t + n ≤ c.width) :
    (c.moveEntries (1 + p) n (1 + t)).isSatisfied (1 :: (u ++ w ++ (v ++ d))) =
      c.isSatisfied (1 :: (u ++ v ++ w ++ d)) := by
  have hdot := Row.dot_moveEntries (a := 1 :: u) (b := v) (c := w) d (r := c.row)
    (by simp; omega : (1 :: u).length = 1 + p) hv (by omega : 1 + p + w.length = 1 + t) hp
  rw [Constraint.isSatisfied, Constraint.isSatisfied, Constraint.moveEntries]
  simp only [List.append_assoc, List.cons_append] at hdot ⊢
  rw [hdot]

def inserted (b : BasicRelation) (kind : DimKind) (first n : Nat) : BasicRelation :=
  b.mapConstraints (b.ls.inserted kind first n)
    (·.insertZeros (1 + (b.space.offset kind + first)) n)

def projected (b : BasicRelation) (kind : DimKind) (first n : Nat) : BasicRelation :=
  b.mapConstraints (b.ls.projected kind first n)
    (·.moveEntries (1 + (b.space.offset kind + first)) n (1 + (b.space.total - n)))

theorem start_eq (b : BasicRelation) (kind : DimKind) (first : Nat) :
    1 + b.ls.offset kind + first = 1 + (b.space.offset kind + first) := by
  simp only [LocalSpace.offset, space]
  omega

theorem WellFormed.width_eq (h : b.WellFormed) {c : Constraint} (hc : c ∈ b.constraints) :
    c.width = 1 + b.space.total + b.ls.divs.rows.length := by
  rw [h.width c hc, BasicRelation.width, LocalSpace.total, LocalSpace.divCount, Matrix.height,
    space]
  omega

section Inserted

variable (h : b.WellFormed) (hk : kind ≠ .div) (hf : first ≤ b.space.dim kind)
include h hk hf

theorem start_le_width {c : Constraint} (hc : c ∈ b.constraints) :
    1 + (b.space.offset kind + first) ≤ c.width := by
  have hoff := Space.offset_add_dim_le (s := b.space) hk
  rw [h.width_eq hc]
  omega

theorem entry_zero_insertZeros {r : Row} (hr : r ∈ b.ls.divs.rows) :
    (r.insertZeros (b.ls.column kind first) n).entry 0 = r.entry 0 := by
  rw [Row.entry_insertZeros (LocalSpace.column_le_length h.divisions hk hf hr),
    if_pos (by simp only [LocalSpace.column]; omega)]

theorem wellFormed_inserted : (b.inserted kind first n).WellFormed := by
  refine ⟨LocalSpace.wellFormed_inserted h.divisions hk hf, fun r hr => ?_, fun c hc => ?_⟩
  · obtain ⟨s, hs, rfl⟩ := List.mem_map.1 hr
    rw [entry_zero_insertZeros h hk hf hs]
    exact h.positive s hs
  · have hspace : (b.ls.inserted kind first n).space.total = b.space.total + n :=
      Space.total_insertUnchecked hk hf
    obtain ⟨c', hc', rfl⟩ := List.mem_map.1 hc
    have hw := h.width c' hc'
    simp only [Constraint.width, width, LocalSpace.total] at hw
    simp only [Constraint.width, Constraint.insertZeros, Row.length_insertZeros, hw, width,
      inserted, mapConstraints, LocalSpace.total, hspace]
    simp only [LocalSpace.inserted, LocalSpace.divCount, Matrix.height, Matrix.insertColumns,
      Matrix.mapRows, List.length_map, space]
    omega

theorem eachSolvable_inserted (hs : b.EachSolvable) : (b.inserted kind first n).EachSolvable := by
  have hoff := Space.offset_add_dim_le (s := b.space) hk
  intro c hc
  obtain ⟨c', hc', rfl⟩ := List.mem_map.1 hc
  obtain ⟨v, hvl, hv⟩ := Constraint.exists_isSatisfied_of_length (n := b.ls.total)
    (by rw [h.width c' hc', width]) (hs c' hc')
  obtain ⟨u, w, hu, rfl⟩ := Row.exists_split (r := v) (n := b.space.offset kind + first) (by
    rw [hvl, LocalSpace.total]
    simp only [space] at hoff hf ⊢
    omega)
  refine ⟨u ++ Row.zeros n ++ w, ?_⟩
  rw [isSatisfied_insertZeros hu (Row.length_zeros n) (start_le_width h hk hf hc'), hv]

theorem allKnown_inserted (hknown : b.ls.allKnown = true) :
    (b.inserted kind first n).ls.allKnown = true := by
  refine List.all_eq_true.2 fun r hr => ?_
  obtain ⟨s, hs, rfl⟩ := List.mem_map.1 hr
  rw [Division.isKnown, entry_zero_insertZeros h hk hf hs]
  exact List.all_eq_true.1 hknown s hs

theorem mem_inserted_iff {u v w : Row} (hu : u.length = b.space.offset kind + first)
    (hv : v.length = n) : u ++ v ++ w ∈ b.inserted kind first n ↔ u ++ w ∈ b := by
  have hspace : (b.ls.inserted kind first n).space.total = b.space.total + n :=
    Space.total_insertUnchecked hk hf
  rw [mem_iff, mem_iff]
  refine and_congr ?_ (exists_congr fun d => ?_)
  · change (u ++ v ++ w).length = (b.ls.inserted kind first n).space.total ↔ _
    rw [hspace]
    simp only [List.length_append, hv]
    omega
  · have hassign := LocalSpace.assigns_inserted_iff (w := w) (d := d) h.divisions hk hf hu hv
    have hadm : ∀ c ∈ b.constraints,
        (c.insertZeros (1 + (b.space.offset kind + first)) n).isSatisfied
          (1 :: (u ++ v ++ w ++ d)) = c.isSatisfied (1 :: (u ++ w ++ d)) := by
      intro c hc
      have := isSatisfied_insertZeros (w := w ++ d) hu hv (start_le_width h hk hf hc)
      simpa only [List.append_assoc] using this
    exact ⟨fun hd => ⟨hassign.1 hd.assigns, (admits_map_iff hadm).1 hd.admits⟩,
      fun hd => ⟨hassign.2 hd.assigns, (admits_map_iff hadm).2 hd.admits⟩⟩

end Inserted

theorem insertDims_eq_ok (h : b.WellFormed) (hk : kind ≠ .div) (hf : first ≤ b.space.dim kind)
    (ht : kind = .param ∨ b.space.hasTuple kind = true) (hn : 0 < n) :
    ∃ b', b.insertDims kind first n = .ok b' ∧
      b'.space = b.space.insertUnchecked first n kind ∧ b'.WellFormed ∧
      (b.EachSolvable → b'.EachSolvable) ∧ b'.contradictory = b.contradictory ∧
      (b.ls.allKnown = true → b'.ls.allKnown = true) ∧
      ∀ u v w, u.length = b.space.offset kind + first → v.length = n →
        (u ++ v ++ w ∈ b' ↔ u ++ w ∈ b) := by
  refine ⟨b.inserted kind first n, ?_, rfl, wellFormed_inserted h hk hf,
    eachSolvable_inserted h hk hf, rfl, allKnown_inserted h hk hf,
    fun u v w => mem_inserted_iff h hk hf⟩
  rw [insertDims, LocalSpace.insertDims_eq_ok b.ls hk hf ht hn, start_eq]
  rfl

theorem total_projected (hk : kind ≠ .div) (hf : first + n ≤ b.space.dim kind) :
    (b.ls.projected kind first n).space.total + n = b.space.total :=
  Space.total_dropUnchecked hk hf

section Projected

variable (h : b.WellFormed) (hk : kind ≠ .div) (hf : first + n ≤ b.space.dim kind)
include h

theorem isSatisfied_projected {c : Constraint} (hc : c ∈ b.constraints) {u v w d : Row}
    (hu : u.length = b.space.offset kind + first) (hv : v.length = n)
    (hw : (u ++ v ++ w).length = b.space.total) :
    (c.moveEntries (1 + (b.space.offset kind + first)) n (1 + (b.space.total - n))).isSatisfied
      (1 :: (u ++ w ++ (v ++ d))) = c.isSatisfied (1 :: (u ++ v ++ w ++ d)) := by
  simp only [List.length_append] at hw
  exact isSatisfied_moveEntries hu hv (by omega) (by rw [h.width_eq hc]; omega)

include hk hf

theorem wellFormed_projected : (b.projected kind first n).WellFormed := by
  have hspace := total_projected hk hf
  have hoff := Space.offset_add_dim_le (s := b.space) hk
  refine ⟨LocalSpace.wellFormed_projected h.divisions hk hf, fun r hr => ?_, fun c hc => ?_⟩
  · change r ∈ (b.ls.projected kind first n).divs.rows at hr
    rw [LocalSpace.rows_projected, List.mem_append, List.mem_replicate, List.mem_map] at hr
    rcases hr with ⟨-, rfl⟩ | ⟨s, hs, rfl⟩
    · simp
    · have hlen := h.divisions.triangular.length_row s hs
      simp only [space] at hspace
      rw [Row.entry_moveEntries_zero (by simp only [LocalSpace.column]; omega) (by omega)
        (by omega)]
      exact h.positive s hs
  · obtain ⟨c', hc', rfl⟩ := List.mem_map.1 hc
    have hw := h.width_eq hc'
    have hrows := LocalSpace.length_rows_projected b.ls kind first n
    rw [Constraint.width] at hw
    rw [Constraint.width, Constraint.moveEntries, Row.length_moveEntries _ _ _ _ (by omega), hw]
    change _ = 1 + ((b.ls.projected kind first n).space.total +
      (b.ls.projected kind first n).divs.rows.length)
    omega

theorem eachSolvable_projected (hs : b.EachSolvable) : (b.projected kind first n).EachSolvable := by
  have hoff := Space.offset_add_dim_le (s := b.space) hk
  intro c hc
  obtain ⟨c', hc', rfl⟩ := List.mem_map.1 hc
  obtain ⟨z, hzl, hz⟩ := Constraint.exists_isSatisfied_of_length
    (n := b.space.total + b.ls.divs.rows.length) (by rw [h.width_eq hc', Nat.add_assoc])
    (hs c' hc')
  obtain ⟨u, z, hu, rfl⟩ := Row.exists_split (r := z) (n := b.space.offset kind + first) (by omega)
  rw [List.length_append] at hzl
  obtain ⟨v, z, hv, rfl⟩ := Row.exists_split (r := z) (n := n) (by omega)
  rw [List.length_append] at hzl
  obtain ⟨w, d, hw, rfl⟩ := Row.exists_split (r := z)
    (n := b.space.total - n - (b.space.offset kind + first)) (by omega)
  refine ⟨u ++ w ++ (v ++ d), ?_⟩
  rw [isSatisfied_projected h hc' hu hv (by simp only [List.length_append]; omega), ← hz]
  simp only [List.append_assoc]

omit h in
theorem mem_projected {u w : Row} : u ++ w ∈ b.projected kind first n ↔
    (u ++ w).length + n = b.space.total ∧ ∃ z, (b.ls.projected kind first n).Assigns (u ++ w) z ∧
      (b.projected kind first n).Admits (1 :: (u ++ w ++ z)) := by
  rw [mem_iff, ← total_projected hk hf, Nat.add_right_cancel_iff]
  exact and_congr_right fun _ => exists_congr fun z => ⟨fun h => ⟨h.assigns, h.admits⟩,
    fun h => ⟨h.1, h.2⟩⟩

theorem mem_projected_iff {u w : Row} (hu : u.length = b.space.offset kind + first) :
    u ++ w ∈ b.projected kind first n ↔ ∃ v, v.length = n ∧ u ++ v ++ w ∈ b := by
  rw [mem_projected hk hf]
  constructor
  · rintro ⟨hl, z, hassign, hadm⟩
    have hzl := hassign.length
    rw [LocalSpace.length_rows_projected] at hzl
    obtain ⟨v, d, hv, rfl⟩ := Row.exists_split (r := z) (n := n) (by omega)
    have hl' : (u ++ v ++ w).length = b.space.total := by
      simp only [List.length_append] at hl ⊢
      omega
    exact ⟨v, hv, hl', d,
      (LocalSpace.assigns_projected_iff h.divisions hu hv hl').1 hassign,
      (admits_map_iff fun c hc => isSatisfied_projected h hc hu hv hl').1 hadm⟩
  · rintro ⟨v, hv, hl, d, hd⟩
    refine ⟨by simp only [List.length_append] at hl ⊢; omega, v ++ d,
      (LocalSpace.assigns_projected_iff h.divisions hu hv hl).2 hd.assigns,
      (admits_map_iff fun c hc => isSatisfied_projected h hc hu hv hl).2 hd.admits⟩

end Projected

theorem projectOut_eq_ok (h : b.WellFormed) (hk : kind ≠ .div)
    (hf : first + n ≤ b.space.dim kind) (ht : kind = .param ∨ b.space.hasTuple kind = true)
    (hn : 0 < n) :
    ∃ b', b.projectOut kind first n = .ok b' ∧
      b'.space = b.space.dropUnchecked first n kind ∧ b'.WellFormed ∧
      (b.EachSolvable → b'.EachSolvable) ∧ b'.contradictory = b.contradictory ∧
      ∀ u w, u.length = b.space.offset kind + first →
        (u ++ w ∈ b' ↔ ∃ v, v.length = n ∧ u ++ v ++ w ∈ b) := by
  refine ⟨b.projected kind first n, ?_, rfl, wellFormed_projected h hk hf,
    eachSolvable_projected h hk hf, rfl, fun u w => mem_projected_iff h hk hf⟩
  have hoff := Space.offset_add_dim_le (s := b.space) hk
  have htarget : 1 + b.space.total - n = 1 + (b.space.total - n) := by omega
  rw [projectOut, LocalSpace.dimsToDivs_eq_ok b.ls hk hf ht hn, start_eq, htarget]
  rfl

end Quasiaffine.BasicRelation

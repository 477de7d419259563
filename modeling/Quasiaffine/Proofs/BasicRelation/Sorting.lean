import Quasiaffine.Proofs.BasicRelation.Points

set_option autoImplicit false

namespace Quasiaffine.BasicRelation

structure Wide (b : BasicRelation) : Prop where
  divisions : ∀ r ∈ b.ls.divs.rows, r.length = 2 + b.ls.space.total + b.ls.divs.rows.length
  constraints : ∀ c ∈ b.constraints, c.width = 1 + b.ls.space.total + b.ls.divs.rows.length

theorem WellFormed.wide {b : BasicRelation} (h : b.WellFormed) : b.Wide := by
  refine ⟨h.divisions.triangular.length_row, fun c hc => ?_⟩
  rw [h.width c hc, BasicRelation.width, LocalSpace.total, LocalSpace.divCount, Matrix.height,
    Nat.add_assoc]

def swapDiv (b : BasicRelation) (i j : Nat) : BasicRelation :=
  b.mapConstraints (b.ls.swapDiv i j) fun c =>
    { c with row := c.row.swap (1 + b.space.total + i) (1 + b.space.total + j) }

variable {b : BasicRelation} {i j : Nat} {x d : Row}

theorem Wide.swapDiv (h : b.Wide) : (b.swapDiv i j).Wide := by
  have hrows := LocalSpace.length_rows_swapDiv b.ls i j
  have hspace := LocalSpace.space_swapDiv b.ls i j
  refine ⟨fun r hr => ?_, fun c hc => ?_⟩
  · change r ∈ (b.ls.swapDiv i j).divs.rows at hr
    change r.length = 2 + (b.ls.swapDiv i j).space.total + (b.ls.swapDiv i j).divs.rows.length
    rw [hrows, hspace]
    unfold LocalSpace.swapDiv at hr
    split at hr
    · exact h.divisions r hr
    · simp only [Matrix.swapColumns, Matrix.swapRows, Matrix.mapRows, List.mem_map] at hr
      obtain ⟨s, hs, rfl⟩ := hr
      rw [Row.length_swap]
      refine h.divisions s ?_
      unfold Matrix.exchange at hs
      split at hs
      · rename_i a b ha hb
        rcases List.mem_or_eq_of_mem_set hs with hs | rfl
        · rcases List.mem_or_eq_of_mem_set hs with hs | rfl
          · exact hs
          · exact List.mem_of_getElem? hb
        · exact List.mem_of_getElem? ha
      · exact hs
  · obtain ⟨c', hc', rfl⟩ := List.mem_map.1 hc
    change _ = 1 + (b.ls.swapDiv i j).space.total + (b.ls.swapDiv i j).divs.rows.length
    rw [Constraint.width, Row.length_swap, hrows, hspace]
    exact h.constraints c' hc'

theorem holds_swapDiv_iff (h : b.Wide) (hi : i < b.ls.divs.rows.length)
    (hj : j < b.ls.divs.rows.length) (hx : x.length = b.space.total)
    (hd : d.length = b.ls.divs.rows.length) :
    (b.swapDiv i j).Holds x (d.swap i j) ↔ b.Holds x d := by
  have hassign := LocalSpace.assigns_swapDiv_iff hx h.divisions hi hj hd
  have hadm : (b.swapDiv i j).Admits (1 :: (x ++ d.swap i j)) ↔ b.Admits (1 :: (x ++ d)) := by
    refine admits_map_iff fun c hc => ?_
    have hw : c.row.length = 1 + b.space.total + b.ls.divs.rows.length := h.constraints c hc
    have hi' : 1 + b.space.total + i = x.length + i + 1 := by omega
    have hj' : 1 + b.space.total + j = x.length + j + 1 := by omega
    rw [Constraint.isSatisfied, Constraint.isSatisfied, hi', hj', Row.append_swap,
      ← Row.swap_cons 1, Row.dot_swap (by omega) (by omega) (by simp; omega)]
  exact ⟨fun hd => ⟨hassign.1 hd.assigns, hadm.1 hd.admits⟩,
    fun hd => ⟨hassign.2 hd.assigns, hadm.2 hd.admits⟩⟩

theorem mem_swapDiv_iff (h : b.Wide) (hi : i < b.ls.divs.rows.length)
    (hj : j < b.ls.divs.rows.length) : x ∈ b.swapDiv i j ↔ x ∈ b := by
  have hspace : (b.swapDiv i j).space = b.space := LocalSpace.space_swapDiv b.ls i j
  rw [mem_iff, mem_iff, hspace]
  refine and_congr_right fun hx => ?_
  constructor
  · rintro ⟨d, hd⟩
    have hl : d.length = b.ls.divs.rows.length :=
      hd.assigns.length.trans (LocalSpace.length_rows_swapDiv b.ls i j)
    refine ⟨d.swap i j, (holds_swapDiv_iff h hi hj hx (by rw [Row.length_swap, hl])).1 ?_⟩
    rwa [Row.swap_swap (hl ▸ hi) (hl ▸ hj)]
  · rintro ⟨d, hd⟩
    exact ⟨_, (holds_swapDiv_iff h hi hj hx hd.assigns.length).2 hd⟩

/-- The exchanges that sorting records, made one after the other. -/
theorem sortDivs_eq_foldl (h : b.Wide) :
    b.sortDivs = b.ls.sortDivs.swaps.foldl (fun b s => b.swapDiv s.1 s.2) b := by
  have hreplay := (Rearranged.recorded_sortDivs h.divisions).replay
  rw [sortDivs, hreplay]
  generalize b.ls.sortDivs.swaps = swaps
  clear hreplay h
  induction swaps generalizing b with
  | nil => simp [mapConstraints, LocalSpace.swapDivs]
  | cons s swaps ih =>
    rw [List.foldl_cons, ← ih]
    have hspace : (b.swapDiv s.1 s.2).space = b.space := LocalSpace.space_swapDiv b.ls s.1 s.2
    simp only [hspace]
    simp only [mapConstraints, LocalSpace.swapDivs, List.foldl_cons, swapDiv, List.map_map]
    rfl

/-- What every exchange of two of its divisions keeps, sorting keeps. -/
theorem sortDivs_induction {P : BasicRelation → Prop} (h : b.Wide) (hb : P b)
    (step : ∀ c i j, c.Wide → i < c.ls.divs.rows.length → j < c.ls.divs.rows.length → P c →
      P (c.swapDiv i j)) : P b.sortDivs := by
  have hbound := (Rearranged.recorded_sortDivs h.divisions).bound
  rw [sortDivs_eq_foldl h]
  generalize b.ls.sortDivs.swaps = swaps at hbound
  induction swaps generalizing b with
  | nil => exact hb
  | cons s swaps ih =>
    rw [List.forall_mem_cons] at hbound
    have hrows : (b.swapDiv s.1 s.2).ls.divs.rows.length = b.ls.divs.rows.length :=
      LocalSpace.length_rows_swapDiv b.ls s.1 s.2
    exact ih h.swapDiv (step b s.1 s.2 h hbound.1.1 hbound.1.2 hb) (hrows ▸ hbound.2)

theorem sortDivs_spec (h : b.Wide) : b.sortDivs.space = b.space ∧
    b.sortDivs.contradictory = b.contradictory ∧ ∀ x, x ∈ b.sortDivs ↔ x ∈ b := by
  refine sortDivs_induction (P := fun c => c.space = b.space ∧
    c.contradictory = b.contradictory ∧ ∀ x, x ∈ c ↔ x ∈ b) h ⟨rfl, rfl, fun _ => Iff.rfl⟩ ?_
  rintro c i j hc hi hj ⟨hspace, hcon, hmem⟩
  exact ⟨(LocalSpace.space_swapDiv c.ls i j).trans hspace, hcon,
    fun x => (mem_swapDiv_iff hc hi hj).trans (hmem x)⟩

end Quasiaffine.BasicRelation

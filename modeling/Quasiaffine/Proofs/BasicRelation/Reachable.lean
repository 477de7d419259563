import Quasiaffine.Proofs.BasicRelation.Coupled

set_option autoImplicit false

namespace Quasiaffine.BasicRelation

variable {a b b' : BasicRelation} {c : Constraint} {kind : DimKind} {first n : Nat}

namespace Coupled

theorem insertDims (h : b.Coupled) (hok : b.insertDims kind first n = .ok b') : b'.Coupled := by
  have hfirst : b.ls.offset kind + first ≤ b.ls.total := by
    simp only [BasicRelation.insertDims, LocalSpace.insertDims, bind_eq_ok_iff, require_eq_ok_iff,
      exists_const, decide_eq_true_eq] at hok
    obtain ⟨-, ⟨hfirst, -⟩, -⟩ := hok
    cases kind <;> simp [LocalSpace.offset, LocalSpace.total, LocalSpace.dim, Space.offset,
      Space.total, Space.dim, Space.labels, Tuple.size] at hfirst ⊢ <;> omega
  simp only [BasicRelation.insertDims, bind_eq_ok_iff] at hok
  obtain ⟨ls, hls, hok⟩ := hok
  obtain rfl := Except.ok.inj hok
  obtain ⟨hshaped, hproper, htotal, hdiv⟩ := h.shaped.insertDims h.proper hls
  have hwidth : b.width = 1 + b.ls.total := rfl
  refine h.mapConstraints hshaped hproper (fun s hs => ?_) (fun s hs hspeaks => ?_)
    fun k r' hr' hk => ?_
  · rw [Row.length_insertZeros, hs, hwidth, htotal]
    omega
  · exact hspeaks.insertZeros (by omega)
  · obtain ⟨i, r, hr, rfl, hcolumn⟩ := hdiv k r' hr' hk
    obtain ⟨x, s, rfl⟩ := h.shaped.row_ne_nil (List.mem_of_getElem? hr)
    have hcol : b.ls.column kind first = 1 + b.ls.offset kind + first + 1 := by
      rw [LocalSpace.column]
      omega
    have hto : 1 + ls.space.total + k = if 1 + b.space.total + i < 1 + b.ls.offset kind + first
        then 1 + b.space.total + i else 1 + b.space.total + i + n := by
      rw [Nat.add_assoc, hcolumn]
      split_ifs <;> simp only [space] at * <;> omega
    refine ⟨i, _, hr, Row.entry_zero_insertZeros (by omega), by rw [hcol]; rfl, ?_⟩
    rw [hto]
    exact Row.carries_insertZeros (by omega) (by omega)

theorem projectOut (h : b.Coupled) (hok : b.projectOut kind first n = .ok b') : b'.Coupled := by
  simp only [BasicRelation.projectOut, bind_eq_ok_iff] at hok
  obtain ⟨ls, hls, hok⟩ := hok
  obtain rfl := Except.ok.inj hok
  obtain ⟨hshaped, hproper, htotal, hle, hdiv⟩ := h.shaped.dimsToDivs h.proper hls
  have hwidth : b.width = 1 + b.ls.total := rfl
  have hsum : b.ls.total = b.space.total + b.ls.divs.rows.length := rfl
  have hspace : b.space.total = b.ls.space.total := rfl
  refine h.mapConstraints hshaped hproper (fun s hs => ?_) (fun s hs hspeaks => ?_)
    fun k r' hr' hk => ?_
  · rw [Row.length_moveEntries _ _ _ _ (by omega), hs, hwidth, htotal]
  · exact hspeaks.moveEntries (by omega) (by omega)
  · obtain ⟨i, r, hr, rfl, hcolumn⟩ := hdiv k r' hr' hk
    have hi := (List.getElem?_eq_some_iff.1 hr).1
    obtain ⟨x, s, rfl⟩ := h.shaped.row_ne_nil (List.mem_of_getElem? hr)
    have hcol : b.ls.column kind first = 1 + b.ls.offset kind + first + 1 := by
      rw [LocalSpace.column]
      omega
    have htarget : 2 + b.ls.space.total - n = 1 + b.space.total - n + 1 := by omega
    refine ⟨i, _, hr, Row.entry_moveEntries_zero (by omega) (by omega) (by simp), ?_, ?_⟩
    · rw [hcol, htarget, Row.moveEntries_cons]
      rfl
    · rw [Nat.add_assoc 1 ls.space.total, hcolumn, Nat.add_assoc 1 b.space.total]
      exact Row.carries_moveEntries (by omega) (by omega) (by omega) (by omega)

theorem wide (h : b.Coupled) : b.Wide := by
  refine ⟨h.shaped.rows, fun c hc => ?_⟩
  rw [h.width c hc, Nat.add_assoc]
  rfl

theorem swapDiv {i j : Nat} (h : b.Coupled) (hi : i < b.ls.divs.rows.length)
    (hj : j < b.ls.divs.rows.length) : (b.swapDiv i j).Coupled := by
  have hspace := LocalSpace.space_swapDiv b.ls i j
  have hrows := LocalSpace.length_rows_swapDiv b.ls i j
  have hwidth : b.width = 1 + b.space.total + b.ls.divs.rows.length := by
    rw [Nat.add_assoc]
    rfl
  refine h.mapConstraints ⟨?_, h.wide.swapDiv.divisions⟩ (by rw [hspace]; exact h.proper)
    (fun s hs => ?_) (fun s hs hspeaks => ?_) fun k r' hr' hk => ?_
  · rw [LocalSpace.columns_swapDiv, hspace, hrows]
    exact h.shaped.columns
  · rw [Row.length_swap, hs, hwidth, LocalSpace.total, LocalSpace.divCount, Matrix.height, hspace,
      hrows, Nat.add_assoc]
    rfl
  · exact hspeaks.swap (by omega) (by omega) (by omega) (by omega)
  · by_cases hij : i = j
    · subst hij
      rw [LocalSpace.swapDiv, if_pos rfl] at hr' ⊢
      have hcarries := Row.carries_swap (n := b.width) (p := 1 + b.space.total + k)
        (i := 1 + b.space.total + i) (j := 1 + b.space.total + i) (by omega) (by omega) (by omega)
        (by omega)
      rw [Equiv.swap_self, Equiv.refl_apply] at hcarries
      exact ⟨k, r', hr', rfl, (Row.swap_self _ _).symm, hcarries⟩
    · rw [LocalSpace.getElem?_swapDiv hij hi hj, Option.map_eq_some_iff] at hr'
      obtain ⟨r, hr, rfl⟩ := hr'
      obtain ⟨x, s, rfl⟩ := h.shaped.row_ne_nil (List.mem_of_getElem? hr)
      have hcol (t : Nat) : 2 + b.ls.space.total + t = 1 + b.space.total + t + 1 := by
        simp only [space]
        omega
      refine ⟨_, _, hr, ?_, ?_, ?_⟩
      · rw [hcol, hcol, Row.swap_cons]
        rfl
      · rw [hcol, hcol, Row.swap_cons]
        rfl
      · have hcarries := Row.carries_swap (n := b.width)
          (p := 1 + b.space.total + Equiv.swap i j k) (i := 1 + b.space.total + i)
          (j := 1 + b.space.total + j) (by omega) (by omega) (by omega) (by omega)
        rw [swap_add, Equiv.swap_apply_self] at hcarries
        rw [hspace]
        exact hcarries

theorem sortDivs (h : b.Coupled) : b.sortDivs.Coupled :=
  sortDivs_induction (P := Coupled) h.wide h fun _ _ _ _ hi hj hc => hc.swapDiv hi hj

theorem intersect (ha : a.Coupled) (hb : b.Coupled) (hok : a.intersect b = .ok b') :
    b'.Coupled := by
  -- The relation is built anew over the merged divisions, so all their bounds are added
  -- first.
  simp only [BasicRelation.intersect, expandInto, bind_eq_ok_iff] at hok
  obtain ⟨m, hm, expanded, hexpanded, both, hboth, hok⟩ := hok
  obtain rfl := Except.ok.inj hok
  have hagrees : a.ls.space.agrees b.ls.space = true := by
    simp only [LocalSpace.merge, bind_eq_ok_iff, require_eq_ok_iff] at hm
    exact hm.elim fun _ h => h.1
  obtain ⟨hshaped, hspace⟩ := ha.shaped.merge hb.shaped
    (Space.total_eq_of_agrees hagrees ha.proper hb.proper) hm
  have hstart := coupled_ofLocalSpace hshaped (hspace ▸ ha.proper)
  exact (((hstart.setContradictory a.contradictory).addConstraints hexpanded).addConstraints
    hboth).setContradictory _

theorem recoverDiv {r r' : Recovery} {k : Nat} (h : r.relation.Coupled)
    (hok : BasicRelation.recoverDiv r k = .ok r') : r'.relation.Coupled := by
  -- Before its bounds are added, the bounds of all other divisions are there.
  unfold BasicRelation.recoverDiv at hok
  simp only [] at hok
  split_ifs at hok with hknown
  · exact Except.ok.inj hok ▸ h
  · split at hok
    · exact Except.ok.inj hok ▸ h
    · rename_i row hrow
      simp only [bind_eq_ok_iff] at hok
      obtain ⟨ls, hls, hok⟩ := hok
      obtain rfl := Except.ok.inj hok
      obtain ⟨hshaped, hspace, hrows⟩ := h.shaped.setDiv hls
      have hset : CoupledOn (· ≠ k) { r.relation with ls } := by
        refine ⟨hshaped, (congrArg Space.Proper hspace).mpr h.proper, fun c hc => ?_, h.speaks,
          fun i hi lower upper hb => ?_⟩
        · rw [h.width c hc, BasicRelation.width, BasicRelation.width, LocalSpace.total,
            LocalSpace.total, hspace, LocalSpace.divCount, LocalSpace.divCount, Matrix.height,
            Matrix.height, hrows, List.length_set]
        · obtain ⟨s, hs, hk, rfl, rfl⟩ := divBounds?_eq_some_iff.1 hb
          rw [hrows, List.getElem?_set_ne (Ne.symm hi)] at hs
          refine h.bounds i trivial _ _ (divBounds?_eq_some_iff.2 ⟨s, hs, hk, ?_, ?_⟩) <;>
            simp only [lowerBound, space, hspace]
      have hins := hset.insertDivBounds k
      exact ⟨hins.shaped, hins.proper, hins.width, hins.speaks,
        fun i _ => hins.bounds i (Decidable.em _).symm⟩

theorem recoverDefinitions {r : Recovery} (h : b.Coupled) (hok : b.recoverDefinitions = .ok r) :
    r.relation.Coupled :=
  foldlM_induction (P := fun r : Recovery => r.relation.Coupled)
    (fun _ _ _ _ hstep hr => hr.recoverDiv hstep) h hok

theorem resetSpace {s : Space} (h : b.Coupled) (hs : s.Proper) (hok : b.resetSpace s = .ok b') :
    b'.Coupled := by
  simp only [BasicRelation.resetSpace, bind_eq_ok_iff] at hok
  obtain ⟨ls, hls, hok⟩ := hok
  obtain rfl := Except.ok.inj hok
  obtain ⟨hshaped, rfl, htotal⟩ := h.shaped.resetSpace hls
  refine ⟨hshaped, hs, fun c hc => ?_, h.speaks, fun k hk lower upper hb => ?_⟩
  · rw [h.width c hc, BasicRelation.width, BasicRelation.width, LocalSpace.total, LocalSpace.total,
      htotal]
    rfl
  · obtain ⟨r, hr, hknown, rfl, rfl⟩ := divBounds?_eq_some_iff.1 hb
    refine h.bounds k hk _ _ (divBounds?_eq_some_iff.2 ⟨r, hr, hknown, ?_, ?_⟩) <;>
      simp only [lowerBound, space, htotal]

end Coupled

/-- The basic relations that operations lead to. Of a local space that is handed in, only the shape
matters. -/
inductive Reachable : BasicRelation → Prop
  | full {s : Space} : s.Proper → Reachable (full s)
  | empty {s : Space} : s.Proper → Reachable (empty s)
  | ofLocalSpace {ls : LocalSpace} : ls.Shaped → ls.space.Proper → Reachable (ofLocalSpace ls)
  | ofAffine {a : Affine} {kind : ConstraintKind} {b : BasicRelation} : a.ls.Shaped →
      a.ls.space.Proper → ofAffine a kind = .ok b → Reachable b
  | ofConstraint {ls : LocalSpace} {c : Constraint} {b : BasicRelation} : ls.Shaped →
      ls.space.Proper → ofConstraint ls c = .ok b → Reachable b
  | addConstraint {b b' : BasicRelation} {c : Constraint} : Reachable b →
      b.addConstraint c = .ok b' → Reachable b'
  | insertDims {b b' : BasicRelation} {kind : DimKind} {first n : Nat} : Reachable b →
      b.insertDims kind first n = .ok b' → Reachable b'
  | addDims {b b' : BasicRelation} {kind : DimKind} {n : Nat} : Reachable b →
      b.addDims kind n = .ok b' → Reachable b'
  | projectOut {b b' : BasicRelation} {kind : DimKind} {first n : Nat} : Reachable b →
      b.projectOut kind first n = .ok b' → Reachable b'
  | sortDivs {b : BasicRelation} : Reachable b → Reachable b.sortDivs
  | intersect {a b b' : BasicRelation} : Reachable a → Reachable b → a.intersect b = .ok b' →
      Reachable b'
  | recoverDefinitions {b : BasicRelation} {r : Recovery} : Reachable b →
      b.recoverDefinitions = .ok r → Reachable r.relation
  | resetSpace {b b' : BasicRelation} {s : Space} : Reachable b → s.Proper →
      b.resetSpace s = .ok b' → Reachable b'

theorem Reachable.coupled (h : Reachable b) : b.Coupled := by
  induction h with
  | full hs => exact coupled_ofLocalSpace (LocalSpace.shaped_ofSpace _) hs
  | empty hs => exact ⟨LocalSpace.shaped_ofSpace _, hs, by simp [BasicRelation.empty],
      by simp [BasicRelation.empty], fun k _ lower upper hb => by
        simp [divBounds?, LocalSpace.div?, BasicRelation.empty, LocalSpace.ofSpace,
          Matrix.empty] at hb⟩
  | ofLocalSpace hls hs => exact coupled_ofLocalSpace hls hs
  | ofAffine hls hs hok => exact ((coupled_ofLocalSpace hls hs).addConstraint hok).1
  | ofConstraint hls hs hok => exact ((coupled_ofLocalSpace hls hs).addConstraint hok).1
  | addConstraint _ hok ih => exact (ih.addConstraint hok).1
  | insertDims _ hok ih => exact ih.insertDims hok
  | addDims _ hok ih => exact ih.insertDims hok
  | projectOut _ hok ih => exact ih.projectOut hok
  | sortDivs _ ih => exact ih.sortDivs
  | intersect _ _ hok iha ihb => exact iha.intersect ihb hok
  | recoverDefinitions _ hok ih => exact ih.recoverDefinitions hok
  | resetSpace _ hs hok ih => exact ih.resetSpace hs hok

/-- Over whole runs, every constraint is as wide as the local space asks for and has a coefficient
that is not zero, and the two bounds of every division with a definition are among the
constraints. -/
theorem constraints_of_reachable (b : BasicRelation) (h : Reachable b) :
    (∀ c ∈ b.constraints, c.width = 1 + b.space.total + b.ls.divCount ∧
      ∃ i, 0 < i ∧ c.row.entry i ≠ 0) ∧
    ∀ k, b.ls.isKnown k = true → ∃ lower upper, b.divBounds? k = some (lower, upper) ∧
      lower ∈ b.constraints ∧ upper ∈ b.constraints := by
  have hb := h.coupled
  refine ⟨fun c hc => ⟨?_, hb.speaks c hc⟩, fun k hk => ?_⟩
  · rw [hb.width c hc, Nat.add_assoc]
    rfl
  · obtain ⟨r, hr, hknown⟩ : ∃ r, b.ls.divs.rows[k]? = some r ∧ Division.isKnown r = true := by
      simpa [LocalSpace.isKnown, LocalSpace.div?, Option.any_eq_true] using hk
    have hbounds := divBounds?_eq_some_iff.2 ⟨r, hr, hknown, rfl, rfl⟩
    exact ⟨_, _, hbounds, hb.bounds k trivial _ _ hbounds⟩

/-- `⌊x/2⌋` and `⌊(x + ⌊x/2⌋)/3⌋` over one variable. A second variable goes in front of it, the old
one is quantified away, and the divisions are sorted. -/
theorem constraints_of_reachable_nestedFloors :
    ∃ b, Reachable b ∧
      b.ls.divs.rows = [[0, 0, 0, 0, 0, 0], [2, 0, 0, 1, 0, 0], [3, 0, 0, 1, 1, 0]] ∧
      (∀ c ∈ b.constraints, c.width = 5 ∧ ∃ i, 0 < i ∧ c.row.entry i ≠ 0) ∧
      ∃ lower upper, b.divBounds? 2 = some (lower, upper) ∧ lower ∈ b.constraints ∧
        upper ∈ b.constraints := by
  have hfloors : (LocalSpace.overOneVariable [[2, 0, 1, 0, 0], [3, 0, 1, 1, 0]]).WellFormed :=
    LocalSpace.wellFormed_overOneVariable (by decide) (by decide)
  have hstart := Reachable.ofLocalSpace hfloors.shaped (Space.proper_ofSet _ _)
  have hwide := hstart.insertDims (show BasicRelation.insertDims _ .output 0 1 = .ok _ from rfl)
  have hprojected := hwide.projectOut
    (show BasicRelation.projectOut _ .output 1 1 = .ok _ from rfl)
  obtain ⟨hrows, hbounds⟩ := constraints_of_reachable _ hprojected.sortDivs
  exact ⟨_, hprojected.sortDivs, by decide, hrows, hbounds 2 (by decide)⟩

end Quasiaffine.BasicRelation

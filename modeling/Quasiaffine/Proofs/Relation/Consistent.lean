import Quasiaffine.Proofs.Constraint.Canonical
import Quasiaffine.Proofs.Relation.Points

/-!
The mark of a contradiction. It is set for a constraint that no point satisfies, which is then lost,
so the constraints of a marked basic relation do not tell its points. Relations leave out marked
basic relations, and what is done to those that they have sets no mark.
-/

set_option autoImplicit false

namespace Quasiaffine

namespace BasicRelation

variable {b b' : BasicRelation} {c : Constraint} {kind : DimKind} {first n : Nat} {s : Space}

theorem contradictory_of_addConstraint (h : b.addConstraint c = .ok b') :
    b'.contradictory = true ↔ b.contradictory = true ∨
      ∀ v : Row, v.length = b.ls.total → c.isSatisfied (1 :: v) = false := by
  obtain ⟨_, hw, h⟩ := bind_eq_ok_iff.1 h
  have hwidth : c.width = 1 + b.ls.total := by simpa [width] using hw
  have hinfeasible := Constraint.normalize_eq_infeasible_iff (c := c) (by omega)
  have hlength : ∀ v : Row, v.length + 1 = c.width ↔ v.length = b.ls.total := by omega
  simp only [hlength] at hinfeasible
  rw [← hinfeasible]
  cases hn : c.normalize with
  | trivial =>
    rw [hn] at h
    obtain rfl := Except.ok.inj h
    simp
  | infeasible =>
    rw [hn] at h
    obtain rfl := Except.ok.inj h
    simp
  | kept k =>
    rw [hn] at h
    obtain rfl := Except.ok.inj h
    simp

theorem contradictory_resetSpace (h : b.resetSpace s = .ok b') :
    b'.contradictory = b.contradictory := by
  obtain ⟨ls, -, h⟩ := bind_eq_ok_iff.1 h
  exact Except.ok.inj h ▸ rfl

theorem contradictory_addDims (h : b.addDims kind n = .ok b') :
    b'.contradictory = b.contradictory := by
  obtain ⟨ls, -, h⟩ := bind_eq_ok_iff.1 h
  exact Except.ok.inj h ▸ rfl

theorem contradictory_projectOut (h : b.projectOut kind first n = .ok b') :
    b'.contradictory = b.contradictory := by
  obtain ⟨ls, -, h⟩ := bind_eq_ok_iff.1 h
  exact Except.ok.inj h ▸ rfl

theorem contradictory_recoverDefinitions {r : Recovery} (h : b.recoverDefinitions = .ok r) :
    r.relation.contradictory = b.contradictory := by
  refine foldlM_induction (P := fun r => r.relation.contradictory = b.contradictory)
    (fun r k _ r' hr' hr => ?_) rfl h
  simp only [recoverDiv] at hr'
  split at hr'
  · exact Except.ok.inj hr' ▸ hr
  · split at hr'
    · exact Except.ok.inj hr' ▸ hr
    · obtain ⟨ls, -, hr'⟩ := bind_eq_ok_iff.1 hr'
      obtain rfl := Except.ok.inj hr'
      exact (contradictory_insertDivBounds _ k).trans hr

end BasicRelation

namespace Relation

def Consistent (r : Relation) : Prop := ∀ b ∈ r.basics, b.contradictory = false

variable {a b r r' : Relation} {kind : DimKind} {first n : Nat} {s : Space}

namespace Consistent

theorem mem_iff (h : r.Consistent) {x : Row} : x ∈ r ↔ ∃ b ∈ r.basics,
    x.length = b.space.total ∧ ∃ d, b.ls.Assigns x d ∧
      ∀ c ∈ b.constraints, c.isSatisfied (1 :: (x ++ d)) = true := by
  refine exists_congr fun b => and_congr_right fun hb => and_congr_right fun _ =>
    exists_congr fun d => ?_
  exact ⟨fun hd => ⟨hd.assigns, hd.admits.satisfied⟩, fun hd => ⟨hd.1, h b hb, hd.2⟩⟩

theorem insertAll (h : r.Consistent) (bs : List BasicRelation) : (r.insertAll bs).Consistent :=
  fun c hc => (mem_basics_insertAll hc).elim (h c) And.right

theorem empty (s : Space) : (Relation.empty s).Consistent := nofun

theorem ofBasic (b : BasicRelation) : (Relation.ofBasic b).Consistent := (empty b.space).insertAll [b]

theorem full (s : Space) : (Relation.full s).Consistent := fun b hb => ((tidy_full s) b hb).consistent

theorem mapBasics {f : BasicRelation → Except Error BasicRelation} (h : r.Consistent)
    (step : ∀ b b', f b = .ok b' → b'.contradictory = b.contradictory)
    (hok : r.mapBasics s f = .ok r') : r'.Consistent := by
  obtain ⟨bs, hbs, hok⟩ := bind_eq_ok_iff.1 hok
  obtain rfl := Except.ok.inj hok
  exact forall_mem_of_forall₂ (forall₂_of_mapM_eq_ok hbs) fun b hb b' hb' =>
    (step b b' hb').trans (h b hb)

theorem intersect (hok : a.intersect b = .ok r) : r.Consistent := by
  obtain ⟨_, -, hok⟩ := bind_eq_ok_iff.1 hok
  obtain ⟨pieces, -, hok⟩ := bind_eq_ok_iff.1 hok
  exact Except.ok.inj hok ▸ (empty a.space).insertAll _

theorem union (ha : a.Consistent) (hok : a.union b = .ok r) : r.Consistent := by
  obtain ⟨_, -, hok⟩ := bind_eq_ok_iff.1 hok
  obtain ⟨bs, -, hok⟩ := bind_eq_ok_iff.1 hok
  exact Except.ok.inj hok ▸ ha.insertAll bs

theorem subtract (hok : a.subtract b = .ok r) : r.Consistent := by
  obtain ⟨_, -, hok⟩ := bind_eq_ok_iff.1 hok
  obtain ⟨bs, -, hok⟩ := bind_eq_ok_iff.1 hok
  exact Except.ok.inj hok ▸ (empty a.space).insertAll bs

theorem addDims (h : r.Consistent) (hok : r.addDims kind n = .ok r') : r'.Consistent := by
  obtain ⟨s, -, hok⟩ := bind_eq_ok_iff.1 hok
  exact h.mapBasics (fun _ _ => BasicRelation.contradictory_addDims) hok

theorem projectOut (h : r.Consistent) (hok : r.projectOut kind first n = .ok r') :
    r'.Consistent := by
  obtain ⟨s, -, hok⟩ := bind_eq_ok_iff.1 hok
  exact h.mapBasics (fun _ _ => BasicRelation.contradictory_projectOut) hok

theorem resetSpace (h : r.Consistent) (hok : r.resetSpace s = .ok r') : r'.Consistent := by
  obtain ⟨_, -, hok⟩ := bind_eq_ok_iff.1 hok
  exact h.mapBasics (fun _ _ => BasicRelation.contradictory_resetSpace) hok

theorem sortDivs (h : r.Consistent) : r.sortDivs.Consistent := by
  intro b hb
  obtain ⟨c, hc, rfl⟩ := List.mem_map.1 hb
  exact h c hc

theorem recoverDefinitions (h : r.Consistent) {recovery : Recovery}
    (hok : r.recoverDefinitions = .ok recovery) : recovery.relation.Consistent := by
  obtain ⟨rs, hrs, hok⟩ := bind_eq_ok_iff.1 hok
  obtain rfl := Except.ok.inj hok
  intro b hb
  obtain ⟨c, hc, rfl⟩ := List.mem_map.1 hb
  obtain ⟨b, hb, hbc⟩ := exists_mem_of_forall₂_right (forall₂_of_mapM_eq_ok hrs) hc
  exact (BasicRelation.contradictory_recoverDefinitions hbc).trans (h b hb)

end Consistent

end Relation

end Quasiaffine

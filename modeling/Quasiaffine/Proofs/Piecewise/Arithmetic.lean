import Quasiaffine.Proofs.Piecewise.Pointwise

set_option autoImplicit false

namespace Quasiaffine.Piecewise

variable {f g c : Piecewise} {set : Relation}

open Classical in
/-- Sum, difference, minimum and maximum are defined where both operands are, the united sum where
one of them is, and choices where the function is that they choose. United sums and choices by a set
take sets away, which is the only thing that may fail, and for which these sets have to be tidy. -/
theorem valueAt_operations (hc : c.Separate) (hf : f.Separate) (hg : g.Separate)
    (hset : set.WellFormed) (hs : f.space.agrees g.space = true)
    (hsc : f.space.agrees c.space = true) (hss : f.space.agrees set.space = true) :
    (∃ h, f.add g = .ok h ∧
      ∀ x, h.valueAt x = Option.map₂ (· + ·) (f.valueAt x) (g.valueAt x)) ∧
    (∃ h, f.sub g = .ok h ∧
      ∀ x, h.valueAt x = Option.map₂ (· - ·) (f.valueAt x) (g.valueAt x)) ∧
    (∃ h, f.min g = .ok h ∧
      ∀ x, h.valueAt x = Option.map₂ Min.min (f.valueAt x) (g.valueAt x)) ∧
    (∃ h, f.max g = .ok h ∧
      ∀ x, h.valueAt x = Option.map₂ Max.max (f.valueAt x) (g.valueAt x)) ∧
    (f.Tidy → g.Tidy →
      (∀ h, f.unionAdd g = .ok h →
        ∀ x, h.valueAt x = Option.merge (· + ·) (f.valueAt x) (g.valueAt x)) ∧
      ∀ h h', f.unionAdd g = .ok h → g.unionAdd f = .ok h' → ∀ x, h.valueAt x = h'.valueAt x) ∧
    (∃ h, c.cond f g = .ok h ∧
      ∀ x, h.valueAt x = (c.valueAt x).bind fun q => if q ≠ 0 then f.valueAt x else g.valueAt x) ∧
    (set.Tidy → ∀ h, select set f g = .ok h →
      ∀ x, h.valueAt x = if x ∈ set then f.valueAt x else g.valueAt x) := by
  have hunion : ∀ {f g : Piecewise}, f.Separate → g.Separate → f.Tidy → g.Tidy →
      f.space.agrees g.space = true → ∀ h, f.unionAdd g = .ok h →
        ∀ x, h.valueAt x = Option.merge (· + ·) (f.valueAt x) (g.valueAt x) := by
    intro f g hf hg hft hgt hs h hok
    rcases hf.maps.unionAdd_spec hg.maps hft hgt hs with ⟨h', hok', -, -, hm⟩ | herr
    · obtain rfl := Except.ok.inj (hok'.symm.trans hok)
      exact congrFun hm.valueAt_eq
    · rw [herr] at hok
      cases hok
  refine ⟨?add, ?sub, ?min, ?max,
    fun hft hgt => ⟨hunion hf hg hft hgt hs, fun h h' hok hok' x => ?comm⟩, ?cond,
    fun ht h hok => ?select⟩
  case add =>
    obtain ⟨h, hok, -, -, hm⟩ := hf.maps.add_eq_ok hg.maps hs
    exact ⟨h, hok, congrFun hm.valueAt_eq⟩
  case sub =>
    obtain ⟨h, hok, -, -, hm⟩ := hf.maps.sub_eq_ok hg.maps hs
    exact ⟨h, hok, congrFun hm.valueAt_eq⟩
  case min =>
    obtain ⟨h, hok, -, -, hm⟩ := hf.maps.min_eq_ok hg.maps hs
    exact ⟨h, hok, congrFun hm.valueAt_eq⟩
  case max =>
    obtain ⟨h, hok, -, -, hm⟩ := hf.maps.max_eq_ok hg.maps hs
    exact ⟨h, hok, congrFun hm.valueAt_eq⟩
  case comm =>
    rw [hunion hf hg hft hgt hs h hok, hunion hg hf hgt hft (Space.agrees_symm hs) h' hok',
      (Option.commutative_merge fun p q : ℚ => p + q).comm]
  case cond =>
    obtain ⟨h, hok, -, -, hm⟩ := hc.maps.cond_eq_ok hf.maps hg.maps hs hsc
    exact ⟨h, hok, congrFun hm.valueAt_eq⟩
  case select =>
    rcases select_spec hset ht hf.maps hg.maps hs hss with ⟨h', hok', -, -, hm⟩ | herr
    · obtain rfl := Except.ok.inj (hok'.symm.trans hok)
      exact congrFun hm.valueAt_eq
    · rw [herr] at hok
      cases hok

def half : Affine := ⟨.overOneVariable [[2, 0, 1, 0]], [1, 0, 0, 1]⟩

def third : Affine := ⟨.overOneVariable [], [3, 1, 1]⟩

def nonNegative : Relation :=
  ⟨.anonymousSet 0 1, [⟨.overOneVariable [], [⟨[0, 1], .inequality⟩], false⟩]⟩

theorem wellFormed_half : half.WellFormed :=
  ⟨LocalSpace.wellFormed_overOneVariable (by decide) (by decide), by decide, by decide, by decide⟩

theorem wellFormed_third : third.WellFormed :=
  ⟨LocalSpace.wellFormed_overOneVariable (by decide) (by decide), by decide, by decide, by decide⟩

theorem proper_line : (LocalSpace.overOneVariable []).space.Proper := Relation.proper_anonymousSet

theorem separate_half : (ofAffine half).Separate := separate_ofAffine wellFormed_half proper_line

theorem separate_third : (ofAffine third).Separate := separate_ofAffine wellFormed_third proper_line

theorem mem_nonNegative {n : Int} : [n] ∈ nonNegative ↔ 0 ≤ n := by
  simp only [Relation.mem_iff, nonNegative, List.mem_singleton, exists_eq_left]
  constructor
  · rintro ⟨-, d, -, hd⟩
    simpa [Constraint.isSatisfied, ConstraintKind.admits] using
      hd.satisfied _ (List.mem_singleton_self _)
  · intro h
    exact ⟨rfl, [], LocalSpace.Assigns.nil _ _, rfl, List.forall_mem_singleton.2
      (by simpa [Constraint.isSatisfied, ConstraintKind.admits] using h)⟩

theorem valueAt_operations_halfThird :
    (ofAffine half).Separate ∧ (ofAffine third).Separate ∧ (ofAffine half).Tidy ∧
      (ofAffine third).Tidy ∧ nonNegative.WellFormed ∧ nonNegative.Tidy ∧
      half.space.agrees third.space = true ∧ half.space.agrees nonNegative.space = true ∧
      ∃ h, select nonNegative (ofAffine half) (ofAffine third) = .ok h ∧
        h.valueAt [5] = some 2 ∧ h.valueAt [-5] = some (-4 / 3) := by
  have hset : nonNegative.WellFormed := ⟨proper_line, List.forall_mem_singleton.2
    ⟨⟨LocalSpace.wellFormed_overOneVariable (by decide) (by decide), by decide, by decide⟩,
      proper_line, rfl⟩⟩
  have ht : nonNegative.Tidy :=
    List.forall_mem_singleton.2 ⟨rfl, List.forall_mem_singleton.2 ⟨[0], by decide⟩⟩
  have hf := separate_half
  have hg := separate_third
  have hft := tidy_ofAffine half
  have hgt := tidy_ofAffine third
  refine ⟨hf, hg, hft, hgt, hset, ht, rfl, rfl, ?_⟩
  obtain ⟨-, -, -, -, -, -, hselect⟩ := valueAt_operations hf hf hg hset rfl rfl rfl
  have hvalue := hselect ht
  have hisOk : (select nonNegative (ofAffine half) (ofAffine third)).isOk = true := by
    decide +kernel
  cases hok : select nonNegative (ofAffine half) (ofAffine third) with
  | error e =>
    rw [hok] at hisOk
    cases hisOk
  | ok h =>
    refine ⟨h, rfl, ?_, ?_⟩
    · rw [hvalue h hok, if_pos (mem_nonNegative.2 (by decide))]
      exact valueAt_ofAffine wellFormed_half proper_line (by decide +kernel) rfl
    · rw [hvalue h hok, if_neg (mt mem_nonNegative.1 (by decide))]
      exact valueAt_ofAffine wellFormed_third proper_line (by decide +kernel) rfl

def atFive : BasicRelation := ⟨.overOneVariable [], [⟨[-5, 1], .equality⟩], false⟩

theorem liesIn_atFive : atFive.LiesIn (.anonymousSet 0 1) :=
  ⟨⟨LocalSpace.wellFormed_overOneVariable (by decide) (by decide), by decide, by decide⟩,
    proper_line, rfl⟩

theorem notMem_atFive : [0] ∉ atFive := by
  rintro ⟨-, d, -, hd⟩
  have hsat := hd.satisfied _ (List.mem_singleton_self _)
  simp [Constraint.isSatisfied, ConstraintKind.admits] at hsat

def thirdAtFive : Piecewise :=
  ⟨.anonymousSet 0 1, [⟨⟨.anonymousSet 0 1, atFive :: Relation.unsolvable.basics⟩, third⟩]⟩

theorem separate_thirdAtFive : thirdAtFive.Separate :=
  ⟨proper_line, List.forall_mem_singleton.2 ⟨⟨proper_line, List.forall_mem_cons.2
    ⟨liesIn_atFive, Relation.wellFormed_unsolvable.basics⟩⟩, rfl, wellFormed_third, proper_line,
      rfl⟩, List.pairwise_singleton _ _⟩

/-- Where a stored constraint has no solution, a choice by the set with it misses all points outside,
and a united sum misses points where only one operand is defined. -/
theorem valueAt_operations_unsolvable :
    (ofAffine third).Separate ∧ thirdAtFive.Separate ∧ Relation.unsolvable.WellFormed ∧
      third.space.agrees thirdAtFive.space = true ∧
      third.space.agrees Relation.unsolvable.space = true ∧
      (∀ p ∈ (ofAffine third).pieces ++ thirdAtFive.pieces, ∀ q ∈ p.domain.basics,
        q.contradictory = false) ∧
      (∀ q ∈ Relation.unsolvable.basics, q.contradictory = false) ∧
      (ofAffine third).valueAt [0] = some (1 / 3) ∧
      (∃ h, (ofAffine third).unionAdd thirdAtFive = .ok h ∧ h.valueAt [0] = none) ∧
      [0] ∉ Relation.unsolvable ∧
      ∃ h, select Relation.unsolvable (ofAffine third) (ofAffine third) = .ok h ∧
        h.valueAt [0] = none := by
  refine ⟨separate_third, separate_thirdAtFive, Relation.wellFormed_unsolvable, rfl, rfl, by decide,
    by decide, valueAt_ofAffine wellFormed_third proper_line (by decide +kernel) rfl, ?union,
    Relation.notMem_unsolvable _, ?select⟩
  case union =>
    refine ⟨⟨.anonymousSet 0 1, [⟨⟨.anonymousSet 0 1, [atFive]⟩, ⟨.overOneVariable [], [3, 2, 2]⟩⟩]⟩,
      by cbv, ?_⟩
    simpa [valueAt, Relation.mem_iff] using notMem_atFive
  case select => exact ⟨⟨.anonymousSet 0 1, []⟩, by cbv, rfl⟩

end Quasiaffine.Piecewise

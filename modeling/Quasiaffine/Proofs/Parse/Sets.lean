import Quasiaffine.Proofs.Parse.Derivation
import Quasiaffine.Proofs.Reader.Tuples

set_option autoImplicit false

namespace Quasiaffine

namespace Relation

variable {F G : Frame} {a b r : Relation} {P : Row → Prop}

theorem Describes.liesOver (h : r.Describes F.space P) :
    r.LiesOver F ∧ r.points = {x | x.length = F.size ∧ P x} := by
  refine ⟨h.congr fun x hx => ?_, Set.ext fun x => ?_⟩
  · rw [h.points]
    exact ⟨fun hP => ⟨hx, hP⟩, fun hP => hP.2⟩
  · exact (h.points x).trans (by rw [F.total_space]; rfl)

theorem liesOver_full (F : Frame) :
    (full F.space).LiesOver F ∧ (full F.space).points = Parse.everywhere F.size := by
  obtain ⟨h, hp⟩ := (describes_full F.proper_space).liesOver
  exact ⟨h, hp.trans (Set.ext fun x => and_iff_left trivial)⟩

theorem liesOver_empty (F : Frame) : (empty F.space).LiesOver F ∧ (empty F.space).points = ∅ := by
  obtain ⟨h, hp⟩ := (describes_empty F.proper_space).liesOver
  exact ⟨h, by simpa using hp⟩

theorem LiesOver.length_of_mem (h : a.LiesOver F) {x : Row} (hx : x ∈ a) : x.length = F.size := by
  rw [← F.total_space]
  exact ((h.points x).1 hx).1

theorem LiesOver.intersect (ha : a.LiesOver F) (hb : b.WellFormed) (hok : a.intersect b = .ok r) :
    r.LiesOver F ∧ r.points = a.points ∩ b.points := by
  obtain ⟨_, hs, -⟩ := bind_eq_ok_iff.1 hok
  obtain ⟨r', hok', hspace, hwf, ht, -, hmem⟩ :=
    intersect_eq_ok ha.wellFormed hb (agrees_of_requireSameSpace hs)
  obtain rfl := Except.ok.inj (hok'.symm.trans hok)
  refine ⟨⟨hspace.trans ha.space, hwf, ht, fun x => ?_⟩, Set.ext hmem⟩
  rw [iff_and_self, F.total_space]
  exact fun hx => ha.length_of_mem ((hmem x).1 hx).1

theorem LiesOver.union (ha : a.LiesOver F) (hb : b.LiesOver F) (hok : a.union b = .ok r) :
    r.LiesOver F ∧ r.points = a.points ∪ b.points := by
  obtain ⟨r', hok', hr, -⟩ := Describes.union_eq_ok ha hb
  obtain rfl := Except.ok.inj (hok'.symm.trans hok)
  refine ⟨hr.liesOver.1, hr.liesOver.2.trans (Set.ext fun x => and_iff_right_of_imp ?_)⟩
  exact Or.rec ha.length_of_mem hb.length_of_mem

theorem LiesOver.subtract (ha : a.LiesOver F) (hb : b.LiesOver F) (hok : a.subtract b = .ok r) :
    r.LiesOver F ∧ r.points = a.points \ b.points := by
  rcases Describes.subtract_spec ha hb with ⟨r', hok', hr, -⟩ | ⟨herr, -⟩
  · obtain rfl := Except.ok.inj (hok'.symm.trans hok)
    exact ⟨hr.liesOver.1, hr.liesOver.2.trans
      (Set.ext fun x => and_iff_right_of_imp fun h => ha.length_of_mem h.1)⟩
  · rw [herr] at hok
    cases hok

theorem LiesOver.recoverDefinitions {r : Recovery} (ha : a.LiesOver F)
    (hok : a.recoverDefinitions = .ok r) :
    r.relation.LiesOver F ∧ r.relation.points = a.points := by
  obtain ⟨r', hok', hr, -⟩ := Describes.recoverDefinitions_eq_ok ha
  obtain rfl := Except.ok.inj (hok'.symm.trans hok)
  exact ⟨hr.liesOver.1, hr.liesOver.2.trans
    (Set.ext fun x => and_iff_right_of_imp ha.length_of_mem)⟩

theorem LiesOver.addOutput (ha : a.LiesOver F) (label : Label) (hok : a.addDims .output 1 = .ok r) :
    r.LiesOver (F.declare label) ∧ r.points = Parse.extend F.size a.points := by
  obtain ⟨r', hok', hr, -⟩ := Describes.addOutput_eq_ok ha
  obtain rfl := Except.ok.inj (hok'.symm.trans hok)
  have hext := F.extends_declare label
  have hspace : (F.declare label).space = .anonymousSet F.params (F.size - F.params + 1) := by
    rw [hext.space, Frame.size_declare, Nat.add_sub_cancel_left]
  have hwithin : F.params ≤ F.size := F.within
  rw [← hspace, Nat.add_sub_of_le hwithin] at hr
  exact hr.liesOver.imp_right fun h => h.trans (by rw [Frame.size_declare]; rfl)

theorem LiesOver.addParam (ha : a.LiesOver F) (hF : F.params = F.size) (label : Label)
    (hok : a.addDims .param 1 = .ok r) :
    r.LiesOver (F.declareParam label) ∧ r.points = Parse.extend F.size a.points := by
  have hspace : F.space = .anonymousSet F.size 0 := by rw [Frame.space, hF, Nat.sub_self]
  have hspace' : (F.declareParam label).space = .anonymousSet (F.size + 1) 0 := by
    rw [Frame.space, Frame.size_declareParam]
    exact congrArg _ (Nat.sub_self _)
  rw [LiesOver, hspace] at ha
  obtain ⟨r', hok', hr, -⟩ := Describes.addParam_eq_ok ha
  obtain rfl := Except.ok.inj (hok'.symm.trans hok)
  rw [← hspace'] at hr
  exact hr.liesOver.imp_right fun h => h.trans (by rw [Frame.size_declareParam]; rfl)

theorem LiesOver.addDim {kind : DimKind} (ha : a.LiesOver F) (hF : F.Admits kind) (label : Label)
    (hok : a.addDims kind 1 = .ok r) :
    r.LiesOver (F.declareAs kind label) ∧ r.points = Parse.extend F.size a.points := by
  rcases hF with rfl | ⟨rfl, hF⟩
  · exact ha.addOutput label hok
  · exact ha.addParam hF label hok

theorem LiesOver.projectOut (ha : a.LiesOver G) (hFG : F.Extends G)
    (hok : a.projectOut .output (F.size - F.params) (G.size - F.size) = .ok r) :
    r.LiesOver F ∧ r.points = Parse.project F.size a.points := by
  rw [LiesOver, hFG.space] at ha
  obtain ⟨r', hok', hr⟩ := Describes.projectOut_eq_ok ha
  obtain rfl := Except.ok.inj (hok'.symm.trans hok)
  refine ⟨hr.liesOver.1, hr.liesOver.2.trans (Set.ext fun x => and_congr_right fun hx => ?_)⟩
  refine exists_congr fun y => and_iff_right_of_imp fun hxy => ?_
  have hlen := ((ha.points _).1 hxy).1
  have hF : F.params ≤ F.size := F.within
  have hG := hFG.size_le
  rw [List.length_append, hx, total_anonymousSet] at hlen
  omega

end Relation

theorem Frame.regular_variableAt {F : Frame} {pos : Nat} {f : Piecewise} (h : pos < F.size)
    (hok : Grammar.variableAt F.space pos = .ok f) :
    f.Regular ∧ f.valueAt = Value.coordinate F.size pos := by
  obtain ⟨kind, i, a, hk, hi, hoff, ha, rfl⟩ : ∃ kind i a, kind ≠ .div ∧ i < F.space.dim kind ∧
      F.space.offset kind + i = pos ∧ Affine.var (.ofSpace F.space) kind i = .ok a ∧
        f = .ofAffine a := by
    have hwithin : F.params ≤ F.size := F.within
    have hparam : F.space.dim .param = F.params := Relation.dim_anonymousSet_param
    have houtput : F.space.dim .output = F.size - F.params := Relation.dim_anonymousSet_output
    have hoffset : F.space.offset .output = F.params := Relation.offset_anonymousSet_output
    rw [Grammar.variableAt, hparam] at hok
    by_cases hpos : pos < F.params
    · simp only [if_pos hpos] at hok
      obtain ⟨a, ha, hok⟩ := bind_eq_ok_iff.1 hok
      exact ⟨.param, pos, a, by decide, hparam ▸ hpos, Nat.zero_add _, ha,
        (Except.ok.inj hok).symm⟩
    · simp only [if_neg hpos] at hok
      obtain ⟨a, ha, hok⟩ := bind_eq_ok_iff.1 hok
      exact ⟨.output, pos - F.params, a, by decide, by omega, by omega, ha,
        (Except.ok.inj hok).symm⟩
  obtain ⟨a', ha', hvalue⟩ := Affine.var_eq_ok (s := F.space) kind i hk hi
  obtain rfl := Except.ok.inj (ha'.symm.trans ha)
  obtain ⟨hreg, hv⟩ := Piecewise.regular_ofAffine hvalue F.proper_space
  rw [hv, F.total_space, hoff]
  exact ⟨hreg, rfl⟩

end Quasiaffine

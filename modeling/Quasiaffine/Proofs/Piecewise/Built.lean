import Quasiaffine.Proofs.Piecewise.Order
import Quasiaffine.Proofs.Reader.Separation

set_option autoImplicit false

namespace Quasiaffine.Piecewise

/-- The functions that one starts with, and all that operations make of them where they succeed. -/
inductive Built : Piecewise → Prop
  | ofAffine {a : Affine} (ha : a.WellFormed) (hs : a.space.Proper) : Built (ofAffine a)
  | ofPiece {set : Relation} {a : Affine} {f : Piecewise} (hset : set.WellFormed)
      (ha : a.WellFormed) (hs : a.space.Proper) (hok : ofPiece set a = .ok f) : Built f
  | const {s : Space} (hs : s.Proper) (c : Int) : Built (const s c)
  | empty {s : Space} (hs : s.Proper) : Built (empty s)
  | indicator {set : Relation} {f : Piecewise} (hset : set.WellFormed)
      (hok : indicator set = .ok f) : Built f
  | read {source : String} {f : Piecewise} (hok : (Reader.piecewise source).result = .ok f) : Built f
  | neg {f : Piecewise} (hf : Built f) : Built f.neg
  | scale {f : Piecewise} (hf : Built f) (c : Int) : Built (f.scale c)
  | addConstant {f : Piecewise} (hf : Built f) (c : Int) : Built (f.addConstant c)
  | scaleDown {f g : Piecewise} {d : Int} (hf : Built f) (hok : f.scaleDown d = .ok g) : Built g
  | floor {f g : Piecewise} (hf : Built f) (hok : f.floor = .ok g) : Built g
  | ceil {f g : Piecewise} (hf : Built f) (hok : f.ceil = .ok g) : Built g
  | mod {f g : Piecewise} {m : Int} (hf : Built f) (hok : f.mod m = .ok g) : Built g
  | intersectDomain {f g : Piecewise} {set : Relation} (hf : Built f) (hset : set.WellFormed)
      (hok : f.intersectDomain set = .ok g) : Built g
  | resetSpace {f g : Piecewise} {s : Space} (hf : Built f) (hs : s.Proper)
      (hok : f.resetSpace s = .ok g) : Built g
  | add {f g h : Piecewise} (hf : Built f) (hg : Built g) (hok : f.add g = .ok h) : Built h
  | sub {f g h : Piecewise} (hf : Built f) (hg : Built g) (hok : f.sub g = .ok h) : Built h
  | unionAdd {f g h : Piecewise} (hf : Built f) (hg : Built g) (hok : f.unionAdd g = .ok h) : Built h
  | min {f g h : Piecewise} (hf : Built f) (hg : Built g) (hok : f.min g = .ok h) : Built h
  | max {f g h : Piecewise} (hf : Built f) (hg : Built g) (hok : f.max g = .ok h) : Built h
  | minList {fs : List Piecewise} {h : Piecewise} (hfs : ∀ f ∈ fs, Built f)
      (hok : minList fs = .ok h) : Built h
  | maxList {fs : List Piecewise} {h : Piecewise} (hfs : ∀ f ∈ fs, Built f)
      (hok : maxList fs = .ok h) : Built h
  | cond {c f g h : Piecewise} (hc : Built c) (hf : Built f) (hg : Built g)
      (hok : c.cond f g = .ok h) : Built h
  | select {set : Relation} {f g h : Piecewise} (hset : set.WellFormed) (hf : Built f)
      (hg : Built g) (hok : select set f g = .ok h) : Built h

variable {f : Piecewise}

/-- Every start has separate pieces, and every operation keeps them so. -/
theorem Built.separate (h : Built f) : f.Separate := by
  induction h with
  | ofAffine ha hs => exact separate_ofAffine ha hs
  | ofPiece hset ha hs hok => exact separate_ofPiece ha hs hset hok
  | const hs c => exact separate_const hs c
  | empty hs => exact separate_empty hs
  | indicator hset hok => exact separate_indicator hset hok
  | read hok => exact Reader.separate_piecewise hok
  | neg _ ih => exact ih.neg
  | scale _ c ih => exact ih.scale c
  | addConstant _ c ih => exact ih.addConstant c
  | scaleDown _ hok ih => exact ih.scaleDown hok
  | floor _ hok ih => exact ih.floor hok
  | ceil _ hok ih => exact ih.ceil hok
  | mod _ hok ih => exact ih.mod hok
  | intersectDomain _ hset hok ih => exact (ih.intersectDomain hset hok).1
  | resetSpace _ hs hok ih => exact ih.resetSpace hs hok
  | add _ _ hok ihf ihg => exact (ihf.add ihg hok).1
  | sub _ _ hok ihf ihg => exact ihf.sub ihg hok
  | unionAdd _ _ hok ihf ihg => exact ihf.unionAdd ihg hok
  | min _ _ hok ihf ihg => exact ihf.min ihg hok
  | max _ _ hok ihf ihg => exact ihf.max ihg hok
  | minList _ hok ih => exact separate_of_minList ih hok
  | maxList _ hok ih => exact separate_of_maxList ih hok
  | cond _ _ _ hok ihc ihf ihg => exact ihc.cond ihf ihg hok
  | select hset _ _ hok ihf ihg => exact ihf.select hset ihg hok

/-- No point lies in two pieces, and the pieces may be asked in any order. -/
theorem apart_of_built (h : Built f) :
    (f.pieces.Pairwise fun p q => ∀ x : Row, x ∈ p.domain → x ∉ q.domain) ∧
      ∀ ps : List Piece, ps.Perm f.pieces → ∀ x, eval ⟨f.space, ps⟩ x = f.eval x :=
  ⟨h.separate.apart, fun _ hps x => h.separate.eval_perm hps x⟩

def coordinate : Piecewise := ofAffine ⟨.ofSpace (.anonymousSet 0 1), [1, 0, 1]⟩

theorem built_coordinate : Built coordinate := by
  refine .ofAffine (Affine.wellFormed_of_ofSpace (by decide) (by decide)) ?_
  exact Relation.proper_anonymousSet

/-- The greater of a coordinate and its negative has two pieces, which lie apart. -/
theorem apart_of_built_magnitude : ∃ f, coordinate.max coordinate.neg = .ok f ∧
    f.pieces.length = 2 ∧
      (f.pieces.Pairwise fun p q => ∀ x : Row, x ∈ p.domain → x ∉ q.domain) ∧
      ∀ ps : List Piece, ps.Perm f.pieces → ∀ x, eval ⟨f.space, ps⟩ x = f.eval x := by
  have hlength : (coordinate.max coordinate.neg).map (·.pieces.length) = .ok 2 := by decide +kernel
  cases hok : coordinate.max coordinate.neg with
  | error e =>
    rw [hok] at hlength
    cases hlength
  | ok f =>
    rw [hok] at hlength
    exact ⟨f, rfl, Except.ok.inj hlength,
      apart_of_built (.max built_coordinate built_coordinate.neg hok)⟩

end Quasiaffine.Piecewise

import Mathlib
import Quasiaffine.Object
import Quasiaffine.Reader.Grammar

set_option autoImplicit false

namespace Quasiaffine

def Unplaced {α : Type} (r : Except Error α) : Prop := ∀ e, r = .error e → e.span? = none

section Closure

variable {α β : Type} {r : Except Error α} {k : α → Except Error β}

@[simp] theorem unplaced_ok (a : α) : Unplaced (.ok a) := nofun

@[simp] theorem unplaced_pure (a : α) : Unplaced (pure a) := nofun

@[simp] theorem unplaced_argument (fault : ArgumentFault) :
    Unplaced (.error (.argument fault) : Except Error α) := by
  rintro _ ⟨⟩
  rfl

@[simp] theorem unplaced_throw_argument (fault : ArgumentFault) :
    Unplaced (throw (.argument fault) : Except Error α) := unplaced_argument fault

@[simp] theorem unplaced_throw_unsupported (fault : Unsupported) :
    Unplaced (throw (.unsupported fault) : Except Error α) := by
  rintro _ ⟨⟩
  rfl

@[simp] theorem unplaced_require (condition : Bool) (fault : ArgumentFault) :
    Unplaced (require condition fault) := by
  cases condition <;> simp [require]

@[simp] theorem unplaced_bind_iff :
    Unplaced (r >>= k) ↔ Unplaced r ∧ ∀ a, r = .ok a → Unplaced (k a) := by
  cases r with
  | ok a =>
    have hbind : (Except.ok a >>= k) = k a := rfl
    simp [hbind]
  | error e =>
    have hbind : (Except.error e >>= k) = .error e := rfl
    simp [Unplaced, hbind]

@[simp] theorem unplaced_map_iff {f : α → β} : Unplaced (f <$> r) ↔ Unplaced r := by
  rw [map_eq_pure_bind, unplaced_bind_iff]
  simp

@[simp] theorem unplaced_ite_iff {c : Prop} [Decidable c] {r' : Except Error α} :
    Unplaced (if c then r else r') ↔ (c → Unplaced r) ∧ (¬c → Unplaced r') := by
  split <;> simp [*]

@[simp] theorem unplaced_mapM {f : α → Except Error β} (h : ∀ a, Unplaced (f a)) (l : List α) :
    Unplaced (l.mapM f) := by
  induction l with
  | nil => simp
  | cons a l ih => simp [List.mapM_cons, h, ih]

@[simp] theorem unplaced_foldlM {f : β → α → Except Error β} (h : ∀ b a, Unplaced (f b a))
    (l : List α) (b : β) : Unplaced (l.foldlM f b) := by
  induction l generalizing b with
  | nil => simp
  | cons a l ih => simp [List.foldlM_cons, h, ih]

end Closure

namespace Space

variable (s : Space) (kind : DimKind) (pos n : Nat)

@[simp] theorem unplaced_insertDims : Unplaced (s.insertDims kind pos n) := by simp [insertDims]

@[simp] theorem unplaced_addDims : Unplaced (s.addDims kind n) := by simp [addDims]

@[simp] theorem unplaced_dropDims : Unplaced (s.dropDims kind pos n) := by simp [dropDims]

end Space

namespace LocalSpace

variable (ls ls' : LocalSpace) (kind : DimKind) (first n : Nat)

@[simp] theorem unplaced_resetSpace (s : Space) : Unplaced (ls.resetSpace s) := by
  simp [resetSpace]

@[simp] theorem unplaced_addDiv (row : Row) : Unplaced (ls.addDiv row) := by simp [addDiv]

@[simp] theorem unplaced_setDiv (k : Nat) (row : Row) : Unplaced (ls.setDiv k row) := by
  simp [setDiv]

@[simp] theorem unplaced_insertDims : Unplaced (ls.insertDims kind first n) := by
  simp [insertDims]

@[simp] theorem unplaced_dimsToDivs : Unplaced (ls.dimsToDivs kind first n) := by
  simp [dimsToDivs]

@[simp] theorem unplaced_merge : Unplaced (ls.merge ls') := by simp [merge]

end LocalSpace

namespace Affine

variable (a b : Affine)

@[simp] theorem unplaced_var (ls : LocalSpace) (kind : DimKind) (pos : Nat) :
    Unplaced (var ls kind pos) := by
  simp [var]

@[simp] theorem unplaced_ofRow (ls : LocalSpace) (row : Row) : Unplaced (ofRow ls row) := by
  simp [ofRow]

@[simp] theorem unplaced_resetSpace (s : Space) : Unplaced (a.resetSpace s) := by
  simp [resetSpace]

@[simp] theorem unplaced_add : Unplaced (a.add b) := by simp [add]

@[simp] theorem unplaced_sub : Unplaced (a.sub b) := by simp [sub]

@[simp] theorem unplaced_scaleDown (d : Int) : Unplaced (a.scaleDown d) := by simp [scaleDown]

@[simp] theorem unplaced_floor : Unplaced a.floor := by simp [floor]

@[simp] theorem unplaced_ceil : Unplaced a.ceil := by simp [ceil]

@[simp] theorem unplaced_mod (d : Int) : Unplaced (a.mod d) := by simp [mod, floorDiv]

end Affine

namespace BasicRelation

variable (b b' : BasicRelation)

@[simp] theorem unplaced_addConstraint (c : Constraint) : Unplaced (b.addConstraint c) := by
  refine unplaced_bind_iff.2 ⟨by simp, fun _ _ => ?_⟩
  split <;> simp

@[simp] theorem unplaced_addConstraints (cs : List Constraint) :
    Unplaced (b.addConstraints cs) := by
  simp [addConstraints]

@[simp] theorem unplaced_ofAffine (a : Affine) (kind : ConstraintKind) :
    Unplaced (ofAffine a kind) := by
  simp [ofAffine, ofConstraint]

@[simp] theorem unplaced_resetSpace (s : Space) : Unplaced (b.resetSpace s) := by
  simp [resetSpace]

@[simp] theorem unplaced_addDims (kind : DimKind) (n : Nat) : Unplaced (b.addDims kind n) := by
  simp [addDims, insertDims]

@[simp] theorem unplaced_projectOut (kind : DimKind) (first n : Nat) :
    Unplaced (b.projectOut kind first n) := by
  simp [projectOut]

@[simp] theorem unplaced_expandInto (ls : LocalSpace) (indices : List Nat) :
    Unplaced (b.expandInto ls indices) := by
  simp [expandInto]

@[simp] theorem unplaced_intersect : Unplaced (b.intersect b') := by simp [intersect]

@[simp] theorem unplaced_recoverDefinitions : Unplaced b.recoverDefinitions := by
  refine unplaced_foldlM (fun r k => ?_) _ _
  refine unplaced_ite_iff.2 ⟨by simp, fun _ => ?_⟩
  split <;> simp

end BasicRelation

namespace Relation

variable (a b : Relation)

@[simp] theorem unplaced_requireSameSpace : Unplaced (a.requireSameSpace b) := by
  simp [requireSameSpace]

@[simp] theorem unplaced_intersect : Unplaced (a.intersect b) := by simp [intersect]

@[simp] theorem unplaced_union : Unplaced (a.union b) := by simp [union]

@[simp] theorem unplaced_cutOff (pieces : List BasicRelation) (inside : BasicRelation)
    (cs : List Constraint) : Unplaced (cutOff pieces inside cs) := by
  induction cs generalizing pieces inside with
  | nil => simp [cutOff]
  | cons c cs ih => simp [cutOff, ih]

@[simp] theorem unplaced_subtract : Unplaced (a.subtract b) := by
  simp [subtract, subtractFrom, subtractBasic]

@[simp] theorem unplaced_recoverDefinitions : Unplaced a.recoverDefinitions := by
  simp [recoverDefinitions]

@[simp] theorem unplaced_resetSpace (s : Space) : Unplaced (a.resetSpace s) := by
  simp [resetSpace, mapBasics]

@[simp] theorem unplaced_addDims (kind : DimKind) (n : Nat) : Unplaced (a.addDims kind n) := by
  simp [addDims, mapBasics]

@[simp] theorem unplaced_projectOut (kind : DimKind) (first n : Nat) :
    Unplaced (a.projectOut kind first n) := by
  simp [projectOut, mapBasics]

end Relation

namespace Piecewise

variable (f g : Piecewise) (set : Relation)

@[simp] theorem unplaced_requireSameSpace : Unplaced (f.requireSameSpace g) := by
  simp [requireSameSpace]

@[simp] theorem unplaced_mapValuesM {op : Affine → Except Error Affine} (h : ∀ a, Unplaced (op a)) :
    Unplaced (f.mapValuesM op) := by
  simp [mapValuesM, h]

@[simp] theorem unplaced_overlap {make : Relation → Affine → Affine → Except Error (List Piece)}
    (h : ∀ r a b, Unplaced (make r a b)) (pair : Piece × Piece) : Unplaced (overlap make pair) := by
  simp [overlap, h]

@[simp] theorem unplaced_combine {make : Relation → Affine → Affine → Except Error (List Piece)}
    (h : ∀ r a b, Unplaced (make r a b)) : Unplaced (f.combine g make) := by
  simp [combine, h]

@[simp] theorem unplaced_add : Unplaced (f.add g) := by simp [add]

@[simp] theorem unplaced_sub : Unplaced (f.sub g) := by simp [sub]

@[simp] theorem unplaced_scaleDown (d : Int) : Unplaced (f.scaleDown d) := by simp [scaleDown]

@[simp] theorem unplaced_floor : Unplaced f.floor := by simp [floor]

@[simp] theorem unplaced_ceil : Unplaced f.ceil := by simp [ceil]

@[simp] theorem unplaced_mod (d : Int) : Unplaced (f.mod d) := by simp [mod]

@[simp] theorem unplaced_intersectDomain : Unplaced (f.intersectDomain set) := by
  simp [intersectDomain]

@[simp] theorem unplaced_resetSpace (s : Space) : Unplaced (f.resetSpace s) := by
  simp [resetSpace]

@[simp] theorem unplaced_unionAdd : Unplaced (f.unionAdd g) := by
  simp [unionAdd, domain, piecesOutside]

end Piecewise

@[simp] theorem Affine.unplaced_compareZero (a : Affine) (op : Comparison) :
    Unplaced (a.compareZero op) := by
  cases op <;> simp [compareZero, signSet, shrink]

namespace Piecewise

variable (f g : Piecewise) (set : Relation)

@[simp] theorem unplaced_addComparison (op : Comparison) (pair : Piece × Piece) :
    Unplaced (addComparison op set pair) := by
  simp [addComparison]

@[simp] theorem unplaced_compareSet (op : Comparison) : Unplaced (f.compareSet g op) := by
  simp [compareSet]

@[simp] theorem unplaced_choose (op : Comparison) : Unplaced (f.choose g op) := by simp [choose]

@[simp] theorem unplaced_min : Unplaced (f.min g) := by simp [Piecewise.min]

@[simp] theorem unplaced_max : Unplaced (f.max g) := by simp [Piecewise.max]

@[simp] theorem unplaced_select : Unplaced (select set f g) := by
  simp [select, indicator, cond, nonZeroSet, zeroSet, valueSet]

@[simp] theorem unplaced_foldList {op : Piecewise → Piecewise → Except Error Piecewise}
    (h : ∀ f g, Unplaced (op f g)) (fs : List Piecewise) : Unplaced (foldList op fs) := by
  cases fs <;> simp [foldList, h]

@[simp] theorem unplaced_minList (fs : List Piecewise) : Unplaced (minList fs) := by
  simp [minList]

@[simp] theorem unplaced_maxList (fs : List Piecewise) : Unplaced (maxList fs) := by
  simp [maxList]

@[simp] theorem unplaced_compareListSet (fs gs : List Piecewise) (op : Comparison) :
    Unplaced (compareListSet fs gs op) := by
  unfold compareListSet
  split <;> simp

end Piecewise

@[simp] theorem Grammar.unplaced_variableAt (space : Space) (pos : Nat) :
    Unplaced (variableAt space pos) := by
  simp [variableAt]

namespace RelationUnion

@[simp] theorem unplaced_insertMember (r : Relation) (members : List Relation) :
    Unplaced (insertMember r members) := by
  induction members with
  | nil => simp [insertMember]
  | cons m members ih => simp [insertMember, ih]

@[simp] theorem unplaced_insert (u : RelationUnion) (r : Relation) : Unplaced (u.insert r) := by
  unfold insert
  split <;> simp

end RelationUnion

/-- An error of adding a relation to an object lies nowhere, or at the place of the relation. -/
theorem Object.span?_insert {o : Object} {r : Relation} {span : Span} {e : Error}
    (h : o.insert r span = .error e) : e.span? = none ∨ e.span? = some span := by
  unfold insert at h
  by_cases hkinds : o.isSet?.any (· != r.isSet) = true
  · simp only [hkinds, if_true] at h
    cases o <;> cases h <;> exact .inr rfl
  · refine .inl ?_
    revert h
    simp only [hkinds]
    refine (?_ : Unplaced _) e
    cases o <;> simp

end Quasiaffine

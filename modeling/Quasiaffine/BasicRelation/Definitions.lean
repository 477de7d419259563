import Quasiaffine.BasicRelation.Basic

/-!
Recovering the definitions of divisions from the constraints on them. A division that an equality
fixes, or that two opposite inequalities hold between `f / m` and `(f - m + 1) / m`, is `⌊f / m⌋`.
-/

set_option autoImplicit false

namespace Quasiaffine.BasicRelation

def boundsLast (pos : Nat) (c : Constraint) : Bool :=
  c.row.entry pos != 0 && c.isZeroFrom (pos + 1)

/-- The definition `[m, f]` that an equality `a d + g = 0` gives, for `d` at `pos`. -/
def definitionOfEquality (pos : Nat) (c : Constraint) : Row :=
  let a := c.row.entry pos
  (a.natAbs : Int) :: (if 0 < a then c.row.neg else c.row).set pos 0

/-- Whether `upper` is `-f + m d + m - 1 ≥ 0` where `lower` is `f - m d ≥ 0`. -/
def closes (pos : Nat) (lower upper : Constraint) : Bool :=
  let m := -lower.row.entry pos
  upper.row.entry pos == m && upper.isOpposite lower
    && upper.constant + lower.constant == m - 1

/-- A definition of the division at `pos` of constraint rows. Equalities go first. -/
def definition? (constraints : List Constraint) (pos : Nat) : Option Row :=
  let usable := constraints.filter (boundsLast pos)
  match usable.find? Constraint.isEquality with
  | some c => some (definitionOfEquality pos c)
  | none =>
    let inequalities := usable.filter Constraint.isInequality
    -- One inequality leaves many values; with the opposite one beside it, there is one left.
    let lower? := inequalities.find? fun lower =>
      decide (lower.row.entry pos < 0) && inequalities.any (closes pos lower)
    lower?.map fun lower => -lower.row.entry pos :: lower.row.set pos 0

structure Recovery where
  relation : BasicRelation
  found : Nat
  deriving Repr

def recoverDiv (r : Recovery) (k : Nat) : Except Error Recovery := do
  let b := r.relation
  if b.ls.isKnown k then return r
  match definition? b.constraints (1 + b.space.total + k) with
  | none => return r
  | some row =>
    let ls ← b.ls.setDiv k row
    return ⟨{ b with ls }.insertDivBounds k, r.found + 1⟩

def recoverDefinitions (b : BasicRelation) : Except Error Recovery :=
  (List.range b.ls.divCount).foldlM recoverDiv ⟨b, 0⟩

end Quasiaffine.BasicRelation

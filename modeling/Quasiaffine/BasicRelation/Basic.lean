import Quasiaffine.Affine.Basic
import Quasiaffine.Constraint

/-!
Basic relations: conjunctions of constraints over a local space. A point belongs to the relation if
there are values of the divisions that satisfy all constraints. A division with a definition comes
with the two inequalities that define it, so definition and inequalities may stand for each other.
-/

set_option autoImplicit false

namespace Quasiaffine

structure BasicRelation where
  ls : LocalSpace
  constraints : List Constraint
  /-- A constraint that nothing satisfies was added. It is not among the constraints. -/
  contradictory : Bool
  deriving DecidableEq, Repr, Inhabited

namespace BasicRelation

def space (b : BasicRelation) : Space := b.ls.space

def width (b : BasicRelation) : Nat := 1 + b.ls.total

def equalityCount (b : BasicRelation) : Nat := b.constraints.countP Constraint.isEquality

def inequalityCount (b : BasicRelation) : Nat := b.constraints.countP Constraint.isInequality

/-- Puts a constraint behind the others unless it is there already. -/
def insert (b : BasicRelation) (c : Constraint) : BasicRelation :=
  if b.constraints.any (·.isSame c) then b else { b with constraints := b.constraints ++ [c] }

/-- The inequalities `f - m d ≥ 0` and `-f + m d + m - 1 ≥ 0` of a division `d = ⌊f / m⌋`. -/
def divBounds? (b : BasicRelation) (k : Nat) : Option (Constraint × Constraint) :=
  match b.ls.div? k with
  | none => none
  | some row =>
    let m := row.entry 0
    if m = 0 then none
    else
      let lower := (row.drop 1).set (1 + b.space.total + k) (-m)
      let upper := Row.neg lower
      some (⟨lower, .inequality⟩, ⟨upper.set 0 (upper.entry 0 + (m - 1)), .inequality⟩)

def insertDivBounds (b : BasicRelation) (k : Nat) : BasicRelation :=
  match b.divBounds? k with
  | some (lower, upper) => (b.insert lower).insert upper
  | none => b

def ofLocalSpace (ls : LocalSpace) : BasicRelation :=
  (List.range ls.divCount).foldl insertDivBounds ⟨ls, [], false⟩

def full (space : Space) : BasicRelation := ofLocalSpace (.ofSpace space)

def empty (space : Space) : BasicRelation := ⟨.ofSpace space, [], true⟩

def isPlainlyFull (b : BasicRelation) : Bool :=
  !b.contradictory && b.constraints.isEmpty && b.ls.divCount == 0

def addConstraint (b : BasicRelation) (c : Constraint) : Except Error BasicRelation := do
  require (c.width == b.width) (.constraintWidth c.width b.width)
  match c.normalize with
  | .trivial => return b
  | .infeasible => return { b with contradictory := true }
  | .kept c => return b.insert c

def addConstraints (b : BasicRelation) (cs : List Constraint) : Except Error BasicRelation :=
  cs.foldlM addConstraint b

def ofConstraint (ls : LocalSpace) (c : Constraint) : Except Error BasicRelation :=
  (ofLocalSpace ls).addConstraint c

def ofAffine (a : Affine) (kind : ConstraintKind) : Except Error BasicRelation :=
  ofConstraint a.ls ⟨a.numerator, kind⟩

def isDivBound (b : BasicRelation) (c : Constraint) : Bool :=
  c.isInequality && (List.range b.ls.divCount).any (b.ls.isDivBound c.row)

def mapConstraints (b : BasicRelation) (ls : LocalSpace) (f : Constraint → Constraint) :
    BasicRelation :=
  { b with ls, constraints := b.constraints.map f }

def resetSpace (b : BasicRelation) (space : Space) : Except Error BasicRelation := do
  return { b with ls := ← b.ls.resetSpace space }

def insertDims (b : BasicRelation) (kind : DimKind) (first n : Nat) :
    Except Error BasicRelation := do
  let ls ← b.ls.insertDims kind first n
  return b.mapConstraints ls (·.insertZeros (1 + b.ls.offset kind + first) n)

def addDims (b : BasicRelation) (kind : DimKind) (n : Nat) : Except Error BasicRelation :=
  b.insertDims kind (b.ls.dim kind) n

/-- Quantifies dimensions existentially. They become divisions without a definition, in front of
all other divisions. -/
def projectOut (b : BasicRelation) (kind : DimKind) (first n : Nat) :
    Except Error BasicRelation := do
  let ls ← b.ls.dimsToDivs kind first n
  return b.mapConstraints ls
    (·.moveEntries (1 + b.ls.offset kind + first) n (1 + b.space.total - n))

def sortDivs (b : BasicRelation) : BasicRelation :=
  let sorted := b.ls.sortDivs
  let start := 1 + b.space.total
  b.mapConstraints sorted.ls fun c =>
    { c with row := sorted.swaps.foldl (fun r s => Row.swap (start + s.1) (start + s.2) r) c.row }

/-- The constraints over a local space with `n` divisions, to which the divisions of this relation
went as `indices` say. -/
def expandedConstraints (b : BasicRelation) (indices : List Nat) (n : Nat) : List Constraint :=
  b.constraints.map fun c => { c with row := c.row.expand (1 + b.space.total) indices n }

def expandInto (b : BasicRelation) (ls : LocalSpace) (indices : List Nat) :
    Except Error BasicRelation :=
  -- The bounds of all divisions come first, so those of this relation are not added twice.
  { ofLocalSpace ls with contradictory := b.contradictory }.addConstraints
    (b.expandedConstraints indices ls.divCount)

def intersect (a b : BasicRelation) : Except Error BasicRelation := do
  let merged ← a.ls.merge b.ls
  let expanded ← a.expandInto merged.ls merged.left
  let both ← expanded.addConstraints (b.expandedConstraints merged.right merged.ls.divCount)
  return { both with contradictory := both.contradictory || b.contradictory }

def leavesNoRoom (a b : Constraint) : Bool := a.isOpposite b && a.constant + b.constant < 0

def anyPair {α : Type} (r : α → α → Bool) : List α → Bool
  | [] => false
  | x :: xs => xs.any (r x) || anyPair r xs

/-- A quick test for emptiness. It finds a contradiction of one constraint or of two opposite ones
and misses all others. -/
def isObviouslyEmpty (b : BasicRelation) : Bool :=
  b.contradictory || anyPair leavesNoRoom (b.constraints.flatMap Constraint.asInequalities)

end BasicRelation

end Quasiaffine

import Quasiaffine.Comparison
import Quasiaffine.Relation

/-!
Piecewise quasi-affine functions: expressions, each with the set on which it is the value. The sets
are disjoint, and outside of them the function is undefined. Pieces whose set is obviously empty
are left out.
-/

set_option autoImplicit false

namespace Quasiaffine

structure Piece where
  domain : Relation
  value : Affine
  deriving DecidableEq, Repr, Inhabited

structure Piecewise where
  space : Space
  pieces : List Piece
  deriving DecidableEq, Repr, Inhabited

namespace Affine

/-- The expression with one unit less in its numerator. At integer points `n / d > 0` says the same
as `n - 1 ≥ 0`. -/
def shrink (a : Affine) : Except Error Affine :=
  ofRow a.ls (a.row.set 1 (a.constant - 1))

def signSet (a : Affine) (kind : ConstraintKind) : Except Error Relation := do
  return Relation.ofBasic (← BasicRelation.ofAffine a kind)

def compareZero (a : Affine) : Comparison → Except Error Relation
  | .eq => a.signSet .equality
  | .ge => a.signSet .inequality
  | .le => a.neg.signSet .inequality
  | .gt => do (← a.shrink).signSet .inequality
  | .lt => do (← a.neg.shrink).signSet .inequality
  | .ne => do
    let above ← (← a.shrink).signSet .inequality
    let below ← (← a.neg.shrink).signSet .inequality
    above.union below

end Affine

namespace Piecewise

def empty (space : Space) : Piecewise := ⟨space, []⟩

def insert (f : Piecewise) (p : Piece) : Piecewise :=
  if p.domain.isObviouslyEmpty then f else { f with pieces := f.pieces ++ [p] }

def insertAll (f : Piecewise) (ps : List Piece) : Piecewise := ps.foldl insert f

def ofAffine (a : Affine) : Piecewise := ⟨a.space, [⟨.full a.space, a⟩]⟩

def ofPiece (domain : Relation) (a : Affine) : Except Error Piecewise := do
  require (domain.space.agrees a.space) (.domainElsewhere domain.space a.space)
  return (empty domain.space).insert ⟨domain, a⟩

def const (space : Space) (value : Int) : Piecewise := ofAffine (.const (.ofSpace space) value)

def isEmpty (f : Piecewise) : Bool := f.pieces.isEmpty

def domain (f : Piecewise) : Except Error Relation :=
  f.pieces.foldlM (fun dom p => dom.union p.domain) (Relation.empty f.space)

def requireSameSpace (f g : Piecewise) : Except Error Unit :=
  require (f.space.agrees g.space) (.spacesDiffer f.space g.space)

def mapValues (f : Piecewise) (op : Affine → Affine) : Piecewise :=
  { f with pieces := f.pieces.map fun p => { p with value := op p.value } }

def mapValuesM (f : Piecewise) (op : Affine → Except Error Affine) : Except Error Piecewise := do
  return { f with pieces := ← f.pieces.mapM fun p => do return { p with value := ← op p.value } }

def pairs (f g : Piecewise) : List (Piece × Piece) :=
  f.pieces.flatMap fun p => g.pieces.map fun q => (p, q)

/-- The pieces that come from a pair of overlapping pieces. -/
def overlap (make : Relation → Affine → Affine → Except Error (List Piece)) (pair : Piece × Piece) :
    Except Error (List Piece) := do
  let shared ← pair.1.domain.intersect pair.2.domain
  if shared.isObviouslyEmpty then return [] else make shared pair.1.value pair.2.value

def combine (f g : Piecewise) (make : Relation → Affine → Affine → Except Error (List Piece)) :
    Except Error Piecewise := do
  f.requireSameSpace g
  return (empty f.space).insertAll (← (pairs f g).mapM (overlap make)).flatten

def add (f g : Piecewise) : Except Error Piecewise :=
  f.combine g fun shared a b => do return [⟨shared, ← a.add b⟩]

def sub (f g : Piecewise) : Except Error Piecewise :=
  f.combine g fun shared a b => do return [⟨shared, ← a.sub b⟩]

def neg (f : Piecewise) : Piecewise := f.mapValues Affine.neg

def scale (f : Piecewise) (factor : Int) : Piecewise := f.mapValues (·.scale factor)

def scaleDown (f : Piecewise) (divisor : Int) : Except Error Piecewise :=
  f.mapValuesM (·.scaleDown divisor)

def addConstant (f : Piecewise) (c : Int) : Piecewise := f.mapValues (·.addConstant c)

def floor (f : Piecewise) : Except Error Piecewise := f.mapValuesM Affine.floor

def ceil (f : Piecewise) : Except Error Piecewise := f.mapValuesM Affine.ceil

def mod (f : Piecewise) (m : Int) : Except Error Piecewise := f.mapValuesM (·.mod m)

def intersectDomain (f : Piecewise) (set : Relation) : Except Error Piecewise := do
  return (empty f.space).insertAll
    (← f.pieces.mapM fun p => do return { p with domain := ← p.domain.intersect set })

def resetSpace (f : Piecewise) (space : Space) : Except Error Piecewise := do
  return ⟨space, ← f.pieces.mapM fun p => do
    return ⟨← p.domain.resetSpace space, ← p.value.resetSpace space⟩⟩

def piecesOutside (f : Piecewise) (set : Relation) : Except Error (List Piece) :=
  f.pieces.mapM fun p => do return { p with domain := ← p.domain.subtract set }

/-- The sum where both functions are defined, and whichever is defined elsewhere. Where no pieces
overlap the pieces of both are taken as they are. -/
def unionAdd (f g : Piecewise) : Except Error Piecewise := do
  f.requireSameSpace g
  let both ← f.add g
  if both.isEmpty then
    return f.insertAll
      (← g.pieces.mapM fun p => do return { p with domain := ← p.domain.resetSpace f.space })
  else
    -- The parts outside are disjoint from `both` and from each other.
    let domF ← f.domain
    let domG ← g.domain
    return (both.insertAll (← f.piecesOutside domG)).insertAll (← g.piecesOutside domF)

end Piecewise

end Quasiaffine

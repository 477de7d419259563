import Quasiaffine.Piecewise.Basic

set_option autoImplicit false

namespace Quasiaffine.Piecewise

/-- Adds to a set the part of two overlapping pieces on which the first compares with the second. -/
def addComparison (op : Comparison) (set : Relation) (pair : Piece × Piece) :
    Except Error Relation := do
  let shared ← pair.1.domain.intersect pair.2.domain
  if shared.isObviouslyEmpty then return set
  let holds ← (← pair.1.value.sub pair.2.value).compareZero op
  set.union (← shared.intersect holds)

def compareSet (f g : Piecewise) (op : Comparison) : Except Error Relation := do
  f.requireSameSpace g
  (pairs f g).foldlM (addComparison op) (Relation.empty f.space)

def choose (f g : Piecewise) (op : Comparison) : Except Error Piecewise :=
  f.combine g fun shared a b => do
    let difference ← a.sub b
    let first ← shared.intersect (← difference.compareZero op)
    let second ← shared.intersect (← difference.compareZero op.negate)
    return [⟨first, a⟩, ⟨second, b⟩]

def min (f g : Piecewise) : Except Error Piecewise := f.choose g .le

def max (f g : Piecewise) : Except Error Piecewise := f.choose g .ge

def valueSet (f : Piecewise) (op : Comparison) : Except Error Relation :=
  f.pieces.foldlM
    (fun set p => do set.union (← p.domain.intersect (← p.value.compareZero op)))
    (Relation.empty f.space)

def zeroSet (f : Piecewise) : Except Error Relation := f.valueSet .eq

def nonZeroSet (f : Piecewise) : Except Error Relation := f.valueSet .ne

def indicator (set : Relation) : Except Error Piecewise := do
  let ls := LocalSpace.ofSpace set.space
  let complement ← (Relation.full set.space).subtract set
  return ((empty set.space).insert ⟨set, .const ls 1⟩).insert ⟨complement, .zero ls⟩

/-- One function where the condition is not zero, and another where it is zero. The result is
undefined where the one chosen is; nothing checks that the two are defined where they are needed. -/
def cond (condition ifTrue ifFalse : Piecewise) : Except Error Piecewise := do
  ifTrue.requireSameSpace ifFalse
  ifTrue.requireSameSpace condition
  let nonZero ← condition.nonZeroSet
  let zero ← condition.zeroSet
  let taken ← ifTrue.intersectDomain nonZero
  let skipped ← ifFalse.intersectDomain zero
  return taken.insertAll skipped.pieces

def select (set : Relation) (ifTrue ifFalse : Piecewise) : Except Error Piecewise := do
  cond (← indicator set) ifTrue ifFalse

def foldList (op : Piecewise → Piecewise → Except Error Piecewise) :
    List Piecewise → Except Error Piecewise
  | [] => .error (.argument .emptyList)
  | f :: fs => fs.foldlM op f

def minList : List Piecewise → Except Error Piecewise := foldList min

def maxList : List Piecewise → Except Error Piecewise := foldList max

def compareListSet (fs gs : List Piecewise) (op : Comparison) : Except Error Relation := do
  match (fs ++ gs).head? with
  | none => throw (.argument .emptyList)
  | some first =>
    (fs.flatMap fun f => gs.map fun g => (f, g)).foldlM
      (fun set pair => do set.intersect (← pair.1.compareSet pair.2 op))
      (Relation.full first.space)

def evalPieces (point : Row) : List Piece → Except Error (Option Rat)
  | [] => .ok none
  | p :: ps => do
    if ← p.domain.contains point BasicRelation.defaultRadius then
      return some (← p.value.eval point)
    else evalPieces point ps

def eval (f : Piecewise) (point : Row) : Except Error (Option Rat) := evalPieces point f.pieces

end Quasiaffine.Piecewise

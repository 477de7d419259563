import Quasiaffine.BasicRelation.Membership

set_option autoImplicit false

namespace Quasiaffine

structure Relation where
  space : Space
  basics : List BasicRelation
  deriving DecidableEq, Repr, Inhabited

namespace Relation

def empty (space : Space) : Relation := ⟨space, []⟩

def full (space : Space) : Relation := ⟨space, [.full space]⟩

def insert (r : Relation) (b : BasicRelation) : Relation :=
  if b.isObviouslyEmpty then r else { r with basics := r.basics ++ [b] }

def insertAll (r : Relation) (bs : List BasicRelation) : Relation := bs.foldl insert r

def ofBasic (b : BasicRelation) : Relation := (empty b.space).insert b

def isSet (r : Relation) : Bool := r.space.isSet

def dim (r : Relation) (kind : DimKind) : Nat := r.space.dim kind

def isObviouslyEmpty (r : Relation) : Bool := r.basics.all (·.isObviouslyEmpty)

def isPlainlyFull (r : Relation) : Bool := r.basics.any (·.isPlainlyFull)

def requireSameSpace (a b : Relation) : Except Error Unit :=
  require (a.space.agrees b.space) (.spacesDiffer a.space b.space)

def mapBasics (r : Relation) (space : Space) (f : BasicRelation → Except Error BasicRelation) :
    Except Error Relation := do
  return ⟨space, ← r.basics.mapM f⟩

def intersect (a b : Relation) : Except Error Relation := do
  a.requireSameSpace b
  let pieces ← a.basics.mapM fun p => b.basics.mapM p.intersect
  return (empty a.space).insertAll pieces.flatten

def union (a b : Relation) : Except Error Relation := do
  a.requireSameSpace b
  return a.insertAll (← b.basics.mapM (·.resetSpace a.space))

/-- The rest of the work of a subtraction: `inside` satisfies all earlier constraints, and `pieces`
are the parts cut off so far. For each constraint the parts of `inside` that break it are cut off,
which keeps all parts disjoint. -/
def cutOff (pieces : List BasicRelation) (inside : BasicRelation) :
    List Constraint → Except Error (List BasicRelation)
  | [] => .ok pieces
  | c :: cs => do
    let cut ← c.complements.mapM inside.addConstraint
    let pieces := pieces ++ cut.filter (fun piece => !piece.isObviouslyEmpty)
    let inside ← inside.addConstraint c
    if inside.isObviouslyEmpty then return pieces else cutOff pieces inside cs

def subtractBasic (p q : BasicRelation) : Except Error (List BasicRelation) := do
  let merged ← p.ls.merge q.ls
  let inside ← p.expandInto merged.ls merged.left
  let other ← q.expandInto merged.ls merged.right
  -- A bound of a division holds by itself, so nothing breaks it.
  cutOff [] inside (other.constraints.filter (fun c => !other.isDivBound c))

/-- Takes one basic relation away from a list of them. Its divisions need definitions, which may
have to be recovered from its constraints. -/
def subtractFrom (pieces : List BasicRelation) (q : BasicRelation) :
    Except Error (List BasicRelation) := do
  let q := (← q.recoverDefinitions).relation
  if !q.ls.allKnown then throw (.unsupported .subtractingQuantified)
  return (← pieces.mapM (subtractBasic · q)).flatten

def subtract (a b : Relation) : Except Error Relation := do
  a.requireSameSpace b
  return (empty a.space).insertAll (← b.basics.foldlM subtractFrom a.basics)

def sortDivs (r : Relation) : Relation := { r with basics := r.basics.map (·.sortDivs) }

structure Recovery where
  relation : Relation
  found : Nat
  deriving Repr

def recoverDefinitions (r : Relation) : Except Error Recovery := do
  let recovered ← r.basics.mapM (·.recoverDefinitions)
  return ⟨{ r with basics := recovered.map (·.relation) },
    recovered.foldl (fun found basic => found + basic.found) 0⟩

def resetSpace (r : Relation) (space : Space) : Except Error Relation := do
  require (space.total == r.space.total) (.spaceMisfit space r.space)
  r.mapBasics space (·.resetSpace space)

def addDims (r : Relation) (kind : DimKind) (n : Nat) : Except Error Relation := do
  r.mapBasics (← r.space.addDims kind n) (·.addDims kind n)

def projectOut (r : Relation) (kind : DimKind) (first n : Nat) : Except Error Relation := do
  r.mapBasics (← r.space.dropDims kind first n) (·.projectOut kind first n)

def anyContains (point : Row) (radius : Nat) : List BasicRelation → Except Error Bool
  | [] => .ok false
  | b :: bs => do if ← b.contains point radius then return true else anyContains point radius bs

def contains (r : Relation) (point : Row) (radius : Nat) : Except Error Bool := do
  if ← anyContains point radius r.basics then return true
  -- Without basic relations nothing has looked at the size of the point.
  require (point.length == r.space.total) (.pointSize point.length r.space.total)
  return false

end Relation

end Quasiaffine

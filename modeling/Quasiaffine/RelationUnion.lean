import Quasiaffine.Relation

set_option autoImplicit false

namespace Quasiaffine

structure RelationUnion where
  members : List Relation
  deriving DecidableEq, Repr, Inhabited

namespace RelationUnion

def empty : RelationUnion := ⟨[]⟩

def ofRelation (r : Relation) : RelationUnion := ⟨[r]⟩

def size (u : RelationUnion) : Nat := u.members.length

def isObviouslyEmpty (u : RelationUnion) : Bool := u.members.all (·.isObviouslyEmpty)

def get? (u : RelationUnion) (space : Space) : Option Relation :=
  u.members.find? (·.space.agrees space)

def insertMember (r : Relation) : List Relation → Except Error (List Relation)
  | [] => .ok [r]
  | m :: ms => do
    if m.space.agrees r.space then return (← m.union r) :: ms
    else return m :: (← insertMember r ms)

def insert (u : RelationUnion) (r : Relation) : Except Error RelationUnion := do
  match u.members.head? with
  | none => pure ()
  | some first =>
    require (first.space.params == r.space.params) (.parametersDiffer r.space first.space)
  return ⟨← insertMember r u.members⟩

def union (u v : RelationUnion) : Except Error RelationUnion := v.members.foldlM insert u

end RelationUnion

end Quasiaffine

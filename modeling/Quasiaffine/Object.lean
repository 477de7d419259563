import Quasiaffine.RelationUnion

set_option autoImplicit false

namespace Quasiaffine

inductive Object where
  | relation (value : Relation)
  | union (value : RelationUnion)
  deriving DecidableEq, Repr

namespace Object

def isSet? : Object → Option Bool
  | relation r => some r.isSet
  | union u => u.members.head?.map Relation.isSet

def toUnion : Object → RelationUnion
  | relation r => .ofRelation r
  | union u => u

def insert (o : Object) (r : Relation) (span : Span) : Except Error Object := do
  if o.isSet?.any (· != r.isSet) then throw (.semantic .setsAndRelations span)
  match o with
  | relation s =>
    if s.space.agrees r.space then return relation (← s.union r)
    else return union (← (RelationUnion.ofRelation s).insert r)
  | union u => return union (← u.insert r)

end Object

end Quasiaffine

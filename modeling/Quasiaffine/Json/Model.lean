import Quasiaffine.Json.Parser
import Quasiaffine.Json.Space
import Quasiaffine.Json.Writer
import Quasiaffine.Reader.Body

set_option autoImplicit false

namespace Quasiaffine

namespace Affine

def json (a : Affine) : Json := .object [("ls", a.ls.json), ("v", a.row.json)]

def ofJson? (j : Json) : Option Affine := do
  let [some ls, some row] ← j.fields? ["ls", "v"] | none
  return ⟨← LocalSpace.ofJson? ls, ← Row.ofJson? row⟩

end Affine

namespace ConstraintKind

def json : ConstraintKind → Json
  | inequality => .text "Inequality"
  | equality => .text "Equality"

def ofJson? : Json → Option ConstraintKind
  | .text "Inequality" | .object [("Inequality", .null)] => some inequality
  | .text "Equality" | .object [("Equality", .null)] => some equality
  | _ => none

end ConstraintKind

namespace Constraint

def json (c : Constraint) : Json := .object [("row", c.row.json), ("kind", c.kind.json)]

def ofJson? (j : Json) : Option Constraint := do
  let [some row, some kind] ← j.fields? ["row", "kind"] | none
  return ⟨← Row.ofJson? row, ← ConstraintKind.ofJson? kind⟩

end Constraint

namespace BasicRelation

def json (b : BasicRelation) : Json :=
  .object [("ls", b.ls.json), ("constraints", .list (b.constraints.map Constraint.json)),
    ("empty", .boolean b.contradictory)]

def ofJson? (j : Json) : Option BasicRelation := do
  let [some ls, some constraints, some contradictory] ←
    j.fields? ["ls", "constraints", "empty"] | none
  return ⟨← LocalSpace.ofJson? ls, ← constraints.elements? Constraint.ofJson?,
    ← contradictory.boolean?⟩

end BasicRelation

namespace Relation

def json (r : Relation) : Json :=
  .object [("space", r.space.json), ("basics", .list (r.basics.map BasicRelation.json))]

def ofJson? (j : Json) : Option Relation := do
  let [some space, some basics] ← j.fields? ["space", "basics"] | none
  return ⟨← Space.ofJson? space, ← basics.elements? BasicRelation.ofJson?⟩

end Relation

namespace RelationUnion

def json (u : RelationUnion) : Json := .object [("maps", .list (u.members.map Relation.json))]

def ofJson? (j : Json) : Option RelationUnion := do
  let [some members] ← j.fields? ["maps"] | none
  return ⟨← members.elements? Relation.ofJson?⟩

end RelationUnion

namespace Piece

def json (p : Piece) : Json := .list [p.domain.json, p.value.json]

def ofJson? : Json → Option Piece
  | .list [domain, value] => do return ⟨← Relation.ofJson? domain, ← Affine.ofJson? value⟩
  | _ => none

end Piece

namespace Piecewise

def json (f : Piecewise) : Json :=
  .object [("space", f.space.json), ("pieces", .list (f.pieces.map Piece.json))]

def ofJson? (j : Json) : Option Piecewise := do
  let [some space, some pieces] ← j.fields? ["space", "pieces"] | none
  return ⟨← Space.ofJson? space, ← pieces.elements? Piece.ofJson?⟩

end Piecewise

namespace Object

def json : Object → Json
  | relation r => .object [("Map", r.json)]
  | union u => .object [("Union", u.json)]

def ofJson? : Json → Option Object
  | .object [("Map", j)] => relation <$> Relation.ofJson? j
  | .object [("Union", j)] => union <$> RelationUnion.ofJson? j
  | _ => none

end Object

namespace Config

def radiusBound : Nat := 4294967296

def json (c : Config) : Json :=
  .object [("search_radius", .integer c.searchRadius), ("sort_divs", .boolean c.sortDivs)]

def ofJson? (j : Json) : Option Config := do
  let [radius, sortDivs] ← j.fieldsFrom? 0 ["search_radius", "sort_divs"] | none
  let defaults : Config := {}
  return ⟨← radius.elim (some defaults.searchRadius) (·.natural? radiusBound),
    ← sortDivs.elim (some defaults.sortDivs) (·.boolean?)⟩

end Config

end Quasiaffine

import Quasiaffine.Json.Integer
import Quasiaffine.LocalSpace.Basic

set_option autoImplicit false

namespace Quasiaffine

def Label.json : Label → Json
  | some name => .text name
  | none => .null

def Label.ofJson? : Json → Option Label
  | .text name => some (some name)
  | .null => some none
  | _ => none

theorem Label.ofJson?_json (l : Label) : Label.ofJson? l.json = some l := by cases l <;> rfl

def Label.listJson (labels : List Label) : Json := .list (labels.map Label.json)

def Label.listOfJson? (j : Json) : Option (List Label) := j.elements? Label.ofJson?

theorem Label.listOfJson?_listJson (labels : List Label) :
    Label.listOfJson? (Label.listJson labels) = some labels :=
  Json.elements?_map fun l _ => Label.ofJson?_json l

namespace Tuple

def json : Tuple → Json
  | flat name ids =>
    .object [("name", Label.json name), ("ids", Label.listJson ids), ("nested", .null)]
  | wrapping name ids domain range =>
    .object [("name", Label.json name), ("ids", Label.listJson ids),
      ("nested", .list [domain.json, range.json])]

def ofJsonWithin? : (depth : Nat) → Json → Option Tuple
  | 0, _ => none
  | depth + 1, j => do
    let [name, some ids, nested] ← j.fields? ["name", "ids", "nested"] | none
    let name ← Label.ofJson? (name.getD .null)
    let ids ← Label.listOfJson? ids
    match nested.getD .null with
    | .null => return flat name ids
    | .list [domain, range] =>
      return wrapping name ids (← ofJsonWithin? depth domain) (← ofJsonWithin? depth range)
    | _ => none

def ofJson? (j : Json) : Option Tuple := ofJsonWithin? j.depth j

theorem ofJsonWithin?_json {t : Tuple} {depth : Nat} (h : t.json.depth ≤ depth) :
    ofJsonWithin? depth t.json = some t := by
  induction t generalizing depth with
  | flat name ids =>
    cases depth with
    | zero => simp [json, Json.depth] at h
    | succ depth =>
      simp [json, ofJsonWithin?, Json.fields?, Json.fieldsFrom?, List.lookup_cons, Label.ofJson?_json,
        Label.listOfJson?_listJson]
  | wrapping name ids domain range ihDomain ihRange =>
    cases depth with
    | zero => simp [json, Json.depth] at h
    | succ depth =>
      simp only [json, Json.depth, Json.depthOfFields, Json.depthOfElements] at h
      have hDomain := @ihDomain depth (by omega)
      have hRange := @ihRange depth (by omega)
      simp [json, ofJsonWithin?, Json.fields?, Json.fieldsFrom?, List.lookup_cons, Label.ofJson?_json,
        Label.listOfJson?_listJson, hDomain, hRange]

theorem ofJson?_json (t : Tuple) : ofJson? t.json = some t := ofJsonWithin?_json (Nat.le_refl _)

end Tuple

namespace Space

def json (s : Space) : Json :=
  .object [("params", Label.listJson s.params), ("input", s.input.json),
    ("output", s.output.json), ("is_set", .boolean s.isSet)]

def ofJson? (j : Json) : Option Space := do
  let [some params, some input, some output, some isSet] ←
    j.fields? ["params", "input", "output", "is_set"] | none
  return ⟨← Label.listOfJson? params, ← Tuple.ofJson? input, ← Tuple.ofJson? output,
    ← isSet.boolean?⟩

theorem ofJson?_json (s : Space) : ofJson? s.json = some s := by
  simp [json, ofJson?, Json.fields?, Json.fieldsFrom?, List.lookup_cons, Label.listOfJson?_listJson,
    Tuple.ofJson?_json, Json.boolean?]

end Space

def Row.json (r : Row) : Json := .list (r.map Json.ofInt)

def Row.ofJson? (j : Json) : Option Row := j.elements? Json.int?

theorem Row.ofJson?_json (r : Row) : Row.ofJson? r.json = some r :=
  Json.elements?_map fun n _ => Json.int?_ofInt n

namespace Matrix

def columnBound : Nat := 18446744073709551616

def json (m : Matrix) : Json :=
  .object [("n_col", .integer m.columns), ("rows", .list (m.rows.map Row.json))]

def ofJson? (j : Json) : Option Matrix := do
  let [some columns, some rows] ← j.fields? ["n_col", "rows"] | none
  return ⟨← columns.natural? columnBound, ← rows.elements? Row.ofJson?⟩

end Matrix

namespace LocalSpace

def json (ls : LocalSpace) : Json := .object [("space", ls.space.json), ("div", ls.divs.json)]

def ofJson? (j : Json) : Option LocalSpace := do
  let [some space, some divs] ← j.fields? ["space", "div"] | none
  return ⟨← Space.ofJson? space, ← Matrix.ofJson? divs⟩

end LocalSpace

end Quasiaffine

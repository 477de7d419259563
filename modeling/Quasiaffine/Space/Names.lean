import Quasiaffine.Space.Basic

/-!
How spaces are written. Every dimension is written under a name of its own: the first dimension
that asks for a name keeps it, and all others get a letter and a number, `p0` for parameters, `i0`
for set and input dimensions and `o0` for output dimensions.
-/

set_option autoImplicit false

namespace Quasiaffine

def freshFrom (taken : List String) (stem : String) : (fuel n : Nat) → String
  | 0, n => stem ++ toString n
  | fuel + 1, n =>
    if taken.contains (stem ++ toString n) then freshFrom taken stem fuel (n + 1)
    else stem ++ toString n

/-- The first of `stem n`, `stem (n + 1)`, … that is not taken. As many attempts as there are names
taken are always enough. -/
def fresh (taken : List String) (stem : String) (n : Nat) : String :=
  freshFrom taken stem taken.length n

def Tuple.text : Tuple → List String → String
  | .flat name _, names => name.getD "" ++ "[" ++ ", ".intercalate names ++ "]"
  | .wrapping name _ domain range, names =>
    name.getD "" ++ "[" ++ domain.text (names.take domain.size) ++ " -> "
      ++ range.text (names.drop domain.size) ++ "]"

/-- A dimension that waits for a name: the name it asks for, and where its number starts. -/
structure NameRequest where
  stem : String
  number : Nat
  label : Label

namespace NameRequest

/-- The requests that stand: of equal names only the first. -/
def settle (taken : List String) : List NameRequest → List NameRequest
  | [] => []
  | request :: requests =>
    match request.label with
    | none => request :: settle taken requests
    | some name =>
      if taken.contains name then { request with label := none } :: settle taken requests
      else request :: settle (name :: taken) requests

def names (taken : List String) : List NameRequest → List String
  | [] => []
  | request :: requests =>
    match request.label with
    | some name => name :: names taken requests
    | none =>
      let name := fresh taken request.stem request.number
      name :: names (name :: taken) requests

end NameRequest

namespace Space

def stem (s : Space) : DimKind → String
  | .param => "p"
  | .output => if s.isSet then "i" else "o"
  | _ => "i"

def nameRequests (s : Space) (kind : DimKind) : List NameRequest :=
  (s.labels kind).mapIdx fun pos label => ⟨s.stem kind, pos, label⟩

def names (s : Space) : List String :=
  let requests := NameRequest.settle []
    (s.nameRequests .param ++ s.nameRequests .input ++ s.nameRequests .output)
  NameRequest.names (requests.filterMap NameRequest.label) requests

def namesOf (s : Space) (names : List String) (kind : DimKind) : List String :=
  (names.drop (s.offset kind)).take (s.dim kind)

def paramsText (s : Space) (names : List String) : String :=
  if s.params.isEmpty then "" else "[" ++ ", ".intercalate (s.namesOf names .param) ++ "] -> "

def tuplesText (s : Space) (names : List String) : String :=
  let output := s.output.text (s.namesOf names .output)
  if s.isSet then output else s.input.text (s.namesOf names .input) ++ " -> " ++ output

def headText (s : Space) (names : List String) : String :=
  if s.isParams then "" else s.tuplesText names

def braced (s : Space) (names : List String) (body : String) : String :=
  s.paramsText names ++ "\x7b " ++ body ++ " \x7d"

def text (s : Space) : String := s.braced s.names (s.tuplesText s.names)

end Space

end Quasiaffine

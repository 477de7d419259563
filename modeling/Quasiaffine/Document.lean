import Quasiaffine.Json.Model
import Quasiaffine.Piecewise.Choice
import Quasiaffine.Printer.Object
import Quasiaffine.Reader.Basic

set_option autoImplicit false

namespace Quasiaffine

inductive DocumentKind where
  | relation
  | set
  | union
  | piecewise
  deriving DecidableEq, Repr

inductive Document where
  | relation (value : Relation)
  | union (value : RelationUnion)
  | piecewise (value : Piecewise)
  deriving DecidableEq, Repr

namespace Document

def ofObject : Object → Document
  | .relation r => relation r
  | .union u => union u

/-- Reads a document of a kind, or without one a relation or union, as the text has it. -/
def read (config : Config) (source : String) : Option DocumentKind → Reader.Outcome Document
  | none => (Reader.object config source).andThen (.ok <| ofObject ·)
  | some .relation => (Reader.relation config source).andThen (.ok <| relation ·)
  | some .set => (Reader.set config source).andThen (.ok <| relation ·)
  | some .union => (Reader.union config source).andThen (.ok <| union ·)
  | some .piecewise => (Reader.piecewise source).andThen (.ok <| piecewise ·)

def kind? : Document → Option DocumentKind
  | relation _ => none
  | union _ => some .union
  | piecewise _ => some .piecewise

def text : Document → String
  | relation r => r.text
  | union u => u.text
  | piecewise f => f.text

def json : Document → Json
  | relation r => r.json
  | union u => u.json
  | piecewise f => f.json

end Document

end Quasiaffine

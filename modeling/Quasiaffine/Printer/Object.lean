import Quasiaffine.Piecewise.Basic
import Quasiaffine.Printer.Expression
import Quasiaffine.RelationUnion

set_option autoImplicit false

namespace Quasiaffine.Printer

def basicText (b : BasicRelation) (dims : List String) : String :=
  let names := ColumnNames.ofLocalSpace dims b.ls
  let parts := (b.constraints.filter fun c => !b.isDivBound c).map fun c =>
    constraintText c.row c.isEquality names.columns
  let body := if parts.isEmpty then "true" else " and ".intercalate parts
  if names.quantified.isEmpty then body
  else "exists (" ++ ", ".intercalate names.quantified ++ " : " ++ body ++ ")"

def disjunctionText (basics : List BasicRelation) (dims : List String) : String :=
  if basics.isEmpty then "false" else " or ".intercalate (basics.map (basicText · dims))

def relationBody (r : Relation) (dims : List String) : String :=
  let head := r.space.headText dims
  let isFull := r.basics.length == 1 && r.isPlainlyFull
  if isFull && !head.isEmpty then head
  else
    let condition := if isFull then "true" else disjunctionText r.basics dims
    if head.isEmpty then s!": {condition}" else s!"{head} : {condition}"

def pieceText (space : Space) (p : Piece) (dims : List String) : String :=
  space.mappedText dims (valueText p.value dims)
    ++ if p.domain.isPlainlyFull then "" else " : " ++ disjunctionText p.domain.basics dims

end Quasiaffine.Printer

namespace Quasiaffine

def Relation.text (r : Relation) : String :=
  let names := r.space.names
  r.space.braced names (Printer.relationBody r names)

def BasicRelation.text (b : BasicRelation) : String := (Relation.ofBasic b).text

def Piecewise.text (f : Piecewise) : String :=
  let names := f.space.names
  let pieces :=
    if f.isEmpty then
      [Printer.pieceText f.space ⟨.empty f.space, .zero (.ofSpace f.space)⟩ names]
    else f.pieces.map (Printer.pieceText f.space · names)
  f.space.braced names ("; ".intercalate pieces)

/-- The parameters are those of the first member. -/
def RelationUnion.text (u : RelationUnion) : String :=
  match u.members with
  | [] => "\x7b \x7d"
  | first :: _ =>
    first.space.braced first.space.names
      ("; ".intercalate (u.members.map fun m => Printer.relationBody m m.space.names))

end Quasiaffine

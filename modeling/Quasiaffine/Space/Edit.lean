import Quasiaffine.Error

set_option autoImplicit false

namespace Quasiaffine.Space

def setLabels (s : Space) (labels : List Label) : DimKind → Space
  | .param => { s with params := labels }
  | .input => { s with input := s.input.setIds labels }
  | .output => { s with output := s.output.setIds labels }
  | .div => s

def setLabel (s : Space) (kind : DimKind) (pos : Nat) (label : Label) : Except Error Space := do
  require (kind ≠ .input || !s.isSet) .setWithoutInput
  require (kind ≠ .div) .divisionsOutsideSpace
  require (pos < s.dim kind) (.dimensionOutOfBounds pos)
  return s.setLabels ((s.labels kind).set pos label) kind

def hasTuple (s : Space) : DimKind → Bool
  | .input => !s.isSet
  | .output => true
  | _ => false

def putTuple (s : Space) (tuple : Tuple) : DimKind → Space
  | .input => { s with input := tuple }
  | .output => { s with output := tuple }
  | _ => s

def setTuple (s : Space) (kind : DimKind) (tuple : Tuple) : Except Error Space := do
  require (s.hasTuple kind) (.noTupleOf kind)
  require (s.dim kind == tuple.size) (.tupleSize tuple.size (s.dim kind))
  return s.putTuple tuple kind

def insertUnchecked (s : Space) (pos n : Nat) : DimKind → Space
  | .param => { s with params := s.params.take pos ++ List.replicate n none ++ s.params.drop pos }
  | .input => { s with input := s.input.insert pos n }
  | .output => { s with output := s.output.insert pos n }
  | .div => s

def insertDims (s : Space) (kind : DimKind) (pos n : Nat) : Except Error Space := do
  require (pos ≤ s.dim kind) (.insertionBeyond pos (s.dim kind))
  require (kind = .param || s.hasTuple kind) (.notInsertable kind)
  return s.insertUnchecked pos n kind

def addDims (s : Space) (kind : DimKind) (n : Nat) : Except Error Space :=
  s.insertDims kind (s.dim kind) n

def dropUnchecked (s : Space) (first n : Nat) : DimKind → Space
  | .param => { s with params := s.params.take first ++ s.params.drop (first + n) }
  | .input => { s with input := s.input.remove first n }
  | .output => { s with output := s.output.remove first n }
  | .div => s

def dropDims (s : Space) (kind : DimKind) (first n : Nat) : Except Error Space := do
  require (first + n ≤ s.dim kind) (.rangeBeyond first (first + n))
  require (kind = .param || s.hasTuple kind) (.notDroppable kind)
  return s.dropUnchecked first n kind

def relationFrom (s : Space) : Except Error Space := do
  require s.isSet .notASetSpace
  return ofRelation s.params s.output Tuple.unit

end Quasiaffine.Space

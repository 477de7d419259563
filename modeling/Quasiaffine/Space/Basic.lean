/-!
Spaces: which dimensions a set or a relation has, in which order, and what they are called.

The dimensions of a space stand in the order parameters, input tuple, output tuple. A set has the
output tuple alone. A tuple may wrap a relation, `[[a] -> [b]]`; its dimensions are then those of
the two parts, one after the other.
-/

set_option autoImplicit false

namespace Quasiaffine

inductive DimKind where
  | param
  | input
  | output
  | div
  deriving DecidableEq, Repr, Inhabited

def DimKind.text : DimKind → String
  | .param => "Param"
  | .input => "In"
  | .output => "Out"
  | .div => "Div"

abbrev Label := Option String

/-- A tuple with its name and the names of its dimensions. A wrapping tuple lists the names of all
its dimensions, and its parts list their own again. -/
inductive Tuple where
  | flat (name : Label) (ids : List Label)
  | wrapping (name : Label) (ids : List Label) (domain range : Tuple)
  deriving DecidableEq, Repr

namespace Tuple

def name : Tuple → Label
  | flat name _ => name
  | wrapping name _ _ _ => name

def ids : Tuple → List Label
  | flat _ ids => ids
  | wrapping _ ids _ _ => ids

def parts? : Tuple → Option (Tuple × Tuple)
  | flat _ _ => none
  | wrapping _ _ domain range => some (domain, range)

def size (t : Tuple) : Nat := t.ids.length

def unit : Tuple := flat none []

instance : Inhabited Tuple := ⟨unit⟩

def anonymous (n : Nat) : Tuple := flat none (List.replicate n none)

def wrap (name : Label) (domain range : Tuple) : Tuple :=
  wrapping name (domain.ids ++ range.ids) domain range

def rename (name : Label) : Tuple → Tuple
  | flat _ ids => flat name ids
  | wrapping _ ids domain range => wrapping name ids domain range

def setIds (ids : List Label) : Tuple → Tuple
  | flat name _ => flat name ids
  | wrapping name _ domain range => wrapping name ids domain range

/-- Equal names, sizes and wrapping; the names of the dimensions do not matter. -/
def sameShape : Tuple → Tuple → Bool
  | flat n ids, flat n' ids' => n == n' && ids.length == ids'.length
  | wrapping n ids d r, wrapping n' ids' d' r' =>
    n == n' && ids.length == ids'.length && (sameShape d d' && sameShape r r')
  | _, _ => false

def insert (pos n : Nat) (t : Tuple) : Tuple :=
  flat t.name (t.ids.take pos ++ List.replicate n none ++ t.ids.drop pos)

def remove (first n : Nat) (t : Tuple) : Tuple :=
  flat t.name (t.ids.take first ++ t.ids.drop (first + n))

/-- Each wrapping tuple has the dimensions of its two parts. -/
def Consistent : Tuple → Prop
  | flat _ _ => True
  | wrapping _ ids domain range =>
    ids = domain.ids ++ range.ids ∧ domain.Consistent ∧ range.Consistent

theorem sameShape_refl (t : Tuple) : t.sameShape t = true := by
  induction t with
  | flat _ _ => simp [sameShape]
  | wrapping _ _ _ _ hd hr => simp [sameShape, hd, hr]

theorem size_eq_of_sameShape {s t : Tuple} (h : s.sameShape t = true) : s.size = t.size := by
  cases s <;> cases t <;> simp_all [sameShape, size, ids]

theorem name_eq_of_sameShape {s t : Tuple} (h : s.sameShape t = true) : s.name = t.name := by
  cases s <;> cases t <;> simp_all [sameShape, name]

end Tuple

/-- The dimensions of a set or relation. The input tuple of a set means nothing. -/
structure Space where
  params : List Label
  input : Tuple
  output : Tuple
  isSet : Bool
  deriving DecidableEq, Repr, Inhabited

namespace Space

def ofParams (params : List Label) : Space := ⟨params, Tuple.unit, Tuple.unit, true⟩

def ofSet (params : List Label) (tuple : Tuple) : Space := ⟨params, Tuple.unit, tuple, true⟩

def ofRelation (params : List Label) (input output : Tuple) : Space := ⟨params, input, output, false⟩

def anonymousSet (params n : Nat) : Space :=
  ofSet (List.replicate params none) (Tuple.anonymous n)

def anonymousRelation (params nIn nOut : Nat) : Space :=
  ofRelation (List.replicate params none) (Tuple.anonymous nIn) (Tuple.anonymous nOut)

def isParams (s : Space) : Bool := s.isSet && s.output.ids.isEmpty && s.output.name.isNone

def labels (s : Space) : DimKind → List Label
  | .param => s.params
  | .input => s.input.ids
  | .output => s.output.ids
  | .div => []

def dim (s : Space) (kind : DimKind) : Nat := (s.labels kind).length

def total (s : Space) : Nat := s.params.length + s.input.size + s.output.size

/-- The position of the first dimension of a kind among all dimensions. Divisions come last. -/
def offset (s : Space) : DimKind → Nat
  | .param => 0
  | .input => s.params.length
  | .output => s.params.length + s.input.size
  | .div => s.total

def tuple? (s : Space) : DimKind → Option Tuple
  | .input => some s.input
  | .output => some s.output
  | _ => none

def label (s : Space) (kind : DimKind) (pos : Nat) : Label := ((s.labels kind)[pos]?).join

def tupleName (s : Space) (kind : DimKind) : Label := (s.tuple? kind).bind Tuple.name

/-- The same kind of object, equal parameters and tuples of the same shape. -/
def agrees (s t : Space) : Bool :=
  s.isSet == t.isSet && s.params == t.params && s.output.sameShape t.output
    && (s.isSet || s.input.sameShape t.input)

def domain (s : Space) : Space := ofSet s.params s.input

def range (s : Space) : Space := ofSet s.params s.output

def flatten (s : Space) : Space :=
  if s.isSet then s else ofSet s.params (.flat none (s.input.ids ++ s.output.ids))

theorem agrees_refl (s : Space) : s.agrees s = true := by
  simp [Space.agrees, Tuple.sameShape_refl]

end Space

end Quasiaffine

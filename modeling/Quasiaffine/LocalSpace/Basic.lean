import Quasiaffine.Matrix
import Quasiaffine.Space.Edit

/-!
Local spaces: a space together with integer divisions.

A division is a row `[m, c, a₁, …]` and stands for `⌊(c + a₁ x₁ + …) / m⌋`, where the `x` are the
dimensions of the space followed by the divisions. A division of denominator zero has no known
definition and is a variable of its own. Division `k` refers only to divisions before it, so its
row is zero from its own column on.
-/

set_option autoImplicit false

namespace Quasiaffine

namespace Division

/-- The row divided by the greatest common divisor of its denominator and coefficients. The
constant is rounded down, which no floor can notice. -/
def normalize : Row → Row
  | m :: c :: coeffs =>
    let g := Nat.gcd (Row.gcd coeffs) m.natAbs
    if g ≤ 1 then m :: c :: coeffs
    else m.tdiv g :: c.fdiv g :: Row.divide g coeffs
  | row => row

def isKnown (row : Row) : Bool := row.entry 0 != 0

def value (row values : Row) : Int := (Row.dot (row.drop 1) values).fdiv (row.entry 0)

theorem length_normalize (row : Row) : (normalize row).length = row.length := by
  unfold normalize
  split
  · simp only []
    split <;> simp [Row.length_divide]
  · rfl

end Division

structure LocalSpace where
  space : Space
  divs : Matrix
  deriving DecidableEq, Repr, Inhabited

namespace LocalSpace

/-- The matrix has a column for the denominator, the constant and every dimension and division, and
every division refers only to divisions before it. -/
structure WellFormed (ls : LocalSpace) : Prop where
  columns : ls.divs.columns = 2 + ls.space.total + ls.divs.height
  rectangular : ls.divs.Rectangular
  ordered : ∀ k, Row.isZero ((ls.divs.row k).drop (2 + ls.space.total + k)) = true

def ofSpace (space : Space) : LocalSpace := ⟨space, Matrix.empty (2 + space.total)⟩

def withUnknowns (space : Space) (n : Nat) : LocalSpace :=
  ⟨space, Matrix.zeros n (2 + space.total + n)⟩

def outOfOrder? (space : Space) (divs : Matrix) : Option Nat :=
  (List.range divs.height).find? fun k =>
    !Row.isZero ((divs.row k).drop (2 + space.total + k))

def ofDivisions (space : Space) (divs : Matrix) : Except Error LocalSpace := do
  require (divs.columns == 2 + space.total + divs.height)
    (.divisionMatrixShape divs.columns space.total divs.height)
  match outOfOrder? space divs with
  | some k => .error (.argument (.divisionOutOfOrder k))
  | none => .ok ⟨space, divs⟩

def divCount (ls : LocalSpace) : Nat := ls.divs.height

def dim (ls : LocalSpace) : DimKind → Nat
  | .div => ls.divCount
  | kind => ls.space.dim kind

def total (ls : LocalSpace) : Nat := ls.space.total + ls.divCount

def offset (ls : LocalSpace) (kind : DimKind) : Nat := ls.space.offset kind

def column (ls : LocalSpace) (kind : DimKind) (pos : Nat) : Nat := 2 + ls.offset kind + pos

def div? (ls : LocalSpace) (k : Nat) : Option Row := ls.divs.rows[k]?

def isKnown (ls : LocalSpace) (k : Nat) : Bool := (ls.div? k).any Division.isKnown

def allKnown (ls : LocalSpace) : Bool := ls.divs.rows.all Division.isKnown

def agrees (a b : LocalSpace) : Bool := a.space.agrees b.space && a.divs == b.divs

def resetSpace (ls : LocalSpace) (space : Space) : Except Error LocalSpace := do
  require (space.total == ls.space.total) (.spaceSize space.total ls.space.total)
  return { ls with space }

def setLabel (ls : LocalSpace) (kind : DimKind) (pos : Nat) (label : Label) :
    Except Error LocalSpace := do
  return { ls with space := ← ls.space.setLabel kind pos label }

def addDiv (ls : LocalSpace) (row : Row) : Except Error LocalSpace := do
  require (row.length == ls.divs.columns) (.divisionWidth row.length ls.divs.columns)
  -- No division refers to the new one, so its column is zero so far.
  let wider := ls.divs.appendColumns 1
  return { ls with divs := { wider with rows := wider.rows ++ [row ++ [0]] } }

def normalizeDiv (ls : LocalSpace) (k : Nat) : LocalSpace :=
  { ls with divs := ls.divs.setRow k (Division.normalize (ls.divs.row k)) }

def setDiv (ls : LocalSpace) (k : Nat) (row : Row) : Except Error LocalSpace := do
  require (k < ls.divCount && row.length == ls.divs.columns
    && Row.isZero (row.drop (ls.column .div k))) (.invalidDivision k)
  return { ls with divs := ls.divs.setRow k (Division.normalize row) }

/-- Puts new dimensions in front of dimension `first` of a kind; no division refers to them. New
divisions have no definition. -/
def insertDims (ls : LocalSpace) (kind : DimKind) (first n : Nat) : Except Error LocalSpace := do
  require (first ≤ ls.dim kind) (.localInsertionBeyond first (ls.dim kind) kind)
  if n = 0 then return ls
  let column := ls.column kind first
  if kind = .div then
    return { ls with divs := (ls.divs.insertRows first n).insertColumns column n }
  else
    let space ← ls.space.insertDims kind first n
    return ⟨space, ls.divs.insertColumns column n⟩

def addDims (ls : LocalSpace) (kind : DimKind) (n : Nat) : Except Error LocalSpace :=
  ls.insertDims kind (ls.dim kind) n

def dropDims (ls : LocalSpace) (kind : DimKind) (first n : Nat) : Except Error LocalSpace := do
  require (first + n ≤ ls.dim kind) (.localRangeBeyond first (first + n) kind)
  if n = 0 then return ls
  let column := ls.column kind first
  if kind = .div then
    return { ls with divs := (ls.divs.dropRows first n).dropColumns column n }
  else
    let space ← ls.space.dropDims kind first n
    return ⟨space, ls.divs.dropColumns column n⟩

def isUnused (ls : LocalSpace) (kind : DimKind) : Bool :=
  ls.divs.rows.all fun row => Row.isZero ((row.drop (ls.column kind 0)).take (ls.dim kind))

/-- Turns dimensions of the space into divisions without a definition, in front of all others.
Divisions that referred to the dimensions refer to the new divisions. -/
def dimsToDivs (ls : LocalSpace) (kind : DimKind) (first n : Nat) : Except Error LocalSpace := do
  require (kind ≠ .div && first + n ≤ ls.dim kind) (.notProjectable kind first (first + n))
  if n = 0 then return ls
  let space ← ls.space.dropDims kind first n
  let moved := ls.divs.moveColumns (ls.column kind first) n (2 + ls.space.total - n)
  return ⟨space, moved.insertRows 0 n⟩

def domain (ls : LocalSpace) : Except Error LocalSpace := do
  require (ls.isUnused .output) (.stillInUse .output)
  let rest ← ls.dropDims .output 0 (ls.dim .output)
  rest.resetSpace rest.space.domain

def range (ls : LocalSpace) : Except Error LocalSpace := do
  if ls.space.isSet then return ls
  require (ls.isUnused .input) (.stillInUse .input)
  let rest ← ls.dropDims .input 0 (ls.dim .input)
  rest.resetSpace rest.space.range

def relationFrom (ls : LocalSpace) : Except Error LocalSpace := do
  ls.resetSpace (← ls.space.relationFrom)

def clearColumn (equality : Row) (j : Nat) : Row → Row
  | [] => []
  | m :: rest =>
    if Row.entry rest j = 0 then m :: rest
    else
      let cleared := Row.eliminate rest equality j
      Division.normalize (m * cleared.factor :: cleared.row)

/-- Uses one equality `[c, a₁, …]` on all divisions: its last dimension or division is cleared
from them, unless it lies beyond this local space. -/
def substituteEquality (ls : LocalSpace) (equality : Row) : Except Error LocalSpace := do
  require (1 + ls.total ≤ equality.length) (.equalityWidth equality.length (1 + ls.total))
  match equality.lastNonZero? with
  | none => return ls
  | some j =>
    if 0 < j && j < 1 + ls.total then
      return { ls with
        divs := ls.divs.mapRows ls.divs.columns (clearColumn (equality.take (1 + ls.total)) j) }
    else return ls

def substituteEqualities (ls : LocalSpace) (equalities : List Row) : Except Error LocalSpace :=
  equalities.foldlM substituteEquality ls

/-- Whether `[c, a₁, …]` is one of the two bounds `f - m d ≥ 0` and `-f + m d + m - 1 ≥ 0` that
define division `d = ⌊f / m⌋`. -/
def isDivBound (ls : LocalSpace) (bound : Row) (k : Nat) : Bool :=
  match ls.div? k with
  | none => false
  | some row =>
    let m := row.entry 0
    let pos := 1 + ls.space.total + k
    let c := bound.entry pos
    let agreesWithRow :=
      -- The upper bound has the coefficient `m`, the lower one `-m`.
      if c = m then
        bound.entry 0 == -(row.entry 1 - m + 1)
          && (bound.take pos).drop 1 == Row.neg ((row.drop 2).take (pos - 1))
      else if c.natAbs = m then bound.take pos == (row.drop 1).take pos
      else false
    m != 0 && pos < bound.length && agreesWithRow && Row.isZero (bound.drop (pos + 1))

theorem wellFormed_ofSpace (space : Space) : (ofSpace space).WellFormed where
  columns := by simp [ofSpace, Matrix.empty, Matrix.height]
  rectangular := by simp [ofSpace, Matrix.empty, Matrix.Rectangular]
  ordered := by simp [ofSpace, Matrix.empty, Matrix.row, Row.isZero]

end LocalSpace

end Quasiaffine

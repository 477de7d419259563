import Quasiaffine.LocalSpace.Merge

/-!
Quasi-affine expressions: a row `[m, c, a₁, …]` over a local space, with value
`(c + a₁ x₁ + …) / m` at a point. The denominator is positive. Rounding adds a division to the
local space.
-/

set_option autoImplicit false

namespace Quasiaffine

structure Affine where
  ls : LocalSpace
  row : Row
  deriving DecidableEq, Repr, Inhabited

def rationalText (q : Rat) : String :=
  if q.den = 1 then toString q.num else s!"{q.num}/{q.den}"

namespace Affine

def lowestTerms (row : Row) : Row := if row.gcd ≤ 1 then row else row.divide row.gcd

def zero (ls : LocalSpace) : Affine := ⟨ls, 1 :: Row.zeros (1 + ls.total)⟩

def const (ls : LocalSpace) (value : Int) : Affine := ⟨ls, 1 :: value :: Row.zeros ls.total⟩

def var (ls : LocalSpace) (kind : DimKind) (pos : Nat) : Except Error Affine := do
  require (pos < ls.dim kind) (.positionBeyond pos kind)
  return ⟨ls, (zero ls).row.set (ls.column kind pos) 1⟩

def ofRow (ls : LocalSpace) (row : Row) : Except Error Affine := do
  require (row.length == 2 + ls.total) (.affineWidth row.length (2 + ls.total))
  require (0 < row.entry 0) .denominatorNotPositive
  return ⟨ls, lowestTerms row⟩

def space (a : Affine) : Space := a.ls.space

def denominator (a : Affine) : Int := a.row.entry 0

def constant (a : Affine) : Int := a.row.entry 1

def numerator (a : Affine) : Row := a.row.drop 1

def isConstant (a : Affine) : Bool := Row.isZero (a.row.drop 2)

def resetSpace (a : Affine) (space : Space) : Except Error Affine := do
  return { a with ls := ← a.ls.resetSpace space }

def insertDims (a : Affine) (kind : DimKind) (first n : Nat) : Except Error Affine := do
  let ls ← a.ls.insertDims kind first n
  return ⟨ls, a.row.insertZeros (a.ls.column kind first) n⟩

def addDims (a : Affine) (kind : DimKind) (n : Nat) : Except Error Affine :=
  a.insertDims kind (a.ls.dim kind) n

def mapNumerator (f : Row → Row) (a : Affine) : Affine :=
  { a with row := a.row.take 1 ++ f a.numerator }

def neg (a : Affine) : Affine := a.mapNumerator Row.neg

def addRows (a b : Row) : Row :=
  let l : Int := Int.lcm (a.entry 0) (b.entry 0)
  let f := l.tdiv (a.entry 0)
  let g := l.tdiv (b.entry 0)
  lowestTerms (l :: List.zipWith (fun x y => f * x + g * y) (a.drop 1) (b.drop 1))

def add (a b : Affine) : Except Error Affine := do
  let merged ← a.ls.merge b.ls
  let width := 2 + a.space.total
  let n := merged.ls.divCount
  return ⟨merged.ls, addRows (a.row.expand width merged.left n) (b.row.expand width merged.right n)⟩

def sub (a b : Affine) : Except Error Affine := a.add b.neg

def addConstant (a : Affine) (c : Int) : Affine :=
  { a with row := a.row.set 1 (a.constant + c * a.denominator) }

def scale (a : Affine) (f : Int) : Affine :=
  if f = 0 then zero a.ls
  else { a with row := lowestTerms (a.mapNumerator (Row.scale f)).row }

def scaleDown (a : Affine) (f : Int) : Except Error Affine := do
  require (0 < f) (.divisorNotPositive f)
  let g : Int := Nat.gcd (Row.gcd a.numerator) f.natAbs
  let reduced := a.mapNumerator (Row.divide g)
  return { reduced with row := reduced.row.set 0 (a.denominator * f.tdiv g) }

/-- The quotient and the remainder of a coefficient, the remainder in `(-m/2, m/2]`. -/
def splitCoefficient (m e : Int) : Int × Int :=
  if Int.fdiv m 2 < e.fmod m then (e.fdiv m + 1, e.fmod m - m) else (e.fdiv m, e.fmod m)

/-- The greatest integer not above the expression. Whole parts of the coefficients stay in the
expression and the remainders become a new division. -/
def floor (a : Affine) : Except Error Affine := do
  let m := a.denominator
  if m = 1 then return a
  -- A constant needs no division.
  if a.isConstant then
    return { a with row := (a.row.set 0 1).set 1 (a.constant.fdiv m) }
  let parts := a.numerator.map (splitCoefficient m)
  let ls ← a.ls.addDiv (m :: parts.map Prod.snd)
  return ⟨ls.normalizeDiv a.ls.divCount, (1 :: parts.map Prod.fst) ++ [1]⟩

def ceil (a : Affine) : Except Error Affine := do
  return (← a.neg.floor).neg

def floorDiv (a : Affine) (d : Int) : Except Error Affine := do
  (← a.scaleDown d).floor

def ceilDiv (a : Affine) (d : Int) : Except Error Affine := do
  (← a.scaleDown d).ceil

def mod (a : Affine) (m : Int) : Except Error Affine := do
  a.sub ((← a.floorDiv m).scale m)

/-- Adds the values of divisions to `[1, x₁, …]`, from division `k` on. A division without a
definition counts as zero if the expression has no coefficient for it. -/
def divValues (a : Affine) (k : Nat) (values : Row) : List Row → Except Error Row
  | [] => .ok values
  | div :: divs =>
    if Division.isKnown div then a.divValues (k + 1) (values ++ [Division.value div values]) divs
    -- Another division may still mention this one, and is then computed as if it were zero.
    else if a.row.entry (a.ls.column .div k) = 0 then a.divValues (k + 1) (values ++ [0]) divs
    else .error (.unsupported .evaluatingUnknown)

/-- The value at a point, which gives a value to every dimension of the space. -/
def eval (a : Affine) (point : Row) : Except Error Rat := do
  require (point.length == a.space.total) (.pointSize point.length a.space.total)
  let values ← a.divValues 0 (1 :: point) a.ls.divs.rows
  return Rat.divInt (Row.dot a.numerator values) a.denominator

end Affine

end Quasiaffine

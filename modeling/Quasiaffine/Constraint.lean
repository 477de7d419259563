import Quasiaffine.Row

/-!
Linear constraints. A row `[c, a₁, …]` says `c + a₁ x₁ + … ≥ 0` as an inequality and
`c + a₁ x₁ + … = 0` as an equality.
-/

set_option autoImplicit false

namespace Quasiaffine

inductive ConstraintKind where
  | inequality
  | equality
  deriving DecidableEq, Repr, Inhabited

def ConstraintKind.admits : ConstraintKind → Int → Bool
  | .inequality, value => decide (0 ≤ value)
  | .equality, value => decide (value = 0)

structure Constraint where
  row : Row
  kind : ConstraintKind
  deriving DecidableEq, Repr, Inhabited

/-- A constraint in lowest terms, or the verdict on one that every point or no point satisfies. -/
inductive Normalized where
  | kept (constraint : Constraint)
  | trivial
  | infeasible
  deriving DecidableEq, Repr

def Row.isNegation : Row → Row → Bool
  | x :: r, y :: s => x == -y && isNegation r s
  | _, _ => true

namespace Constraint

def isEquality (c : Constraint) : Bool := c.kind == .equality

def isInequality (c : Constraint) : Bool := c.kind == .inequality

def width (c : Constraint) : Nat := c.row.length

def constant (c : Constraint) : Int := c.row.entry 0

def isSatisfied (c : Constraint) (values : Row) : Bool := c.kind.admits (c.row.dot values)

/-- The inequality `e - 1 ≥ 0` for a row `e`: over the integers, `e > 0`. -/
def positive (row : Row) : Constraint := ⟨row.set 0 (row.entry 0 - 1), .inequality⟩

/-- Constraints of which one holds just where this one does not. -/
def complements (c : Constraint) : List Constraint :=
  match c.kind with
  | .inequality => [positive c.row.neg]
  | .equality => [positive c.row, positive c.row.neg]

def asInequalities (c : Constraint) : List Constraint :=
  match c.kind with
  | .inequality => [c]
  | .equality => [⟨c.row, .inequality⟩, ⟨c.row.neg, .inequality⟩]

/-- Divides by the greatest common divisor of the coefficients and rounds the constant of an
inequality down. An equality whose constant is not divisible has no solution. -/
def normalize (c : Constraint) : Normalized :=
  match c.row with
  | [] => .trivial
  | constant :: coeffs =>
    let g : Int := Row.gcd coeffs
    if g = 0 then if c.kind.admits constant then .trivial else .infeasible
    else if c.isEquality && constant.emod g != 0 then .infeasible
    else if g = 1 then .kept c
    else .kept { c with row := constant.fdiv g :: Row.divide g coeffs }

def isSame (a b : Constraint) : Bool :=
  a.kind == b.kind && (a.row == b.row || a.isEquality && Row.isNegation a.row b.row)

/-- Equal widths and opposite coefficients; the constants do not matter. -/
def isOpposite (a b : Constraint) : Bool :=
  a.row.length == b.row.length && Row.isNegation (a.row.drop 1) (b.row.drop 1)

def insertZeros (c : Constraint) (pos n : Nat) : Constraint :=
  { c with row := c.row.insertZeros pos n }

def moveEntries (c : Constraint) (start n target : Nat) : Constraint :=
  { c with row := c.row.moveEntries start n target }

def isZeroFrom (c : Constraint) (start : Nat) : Bool := Row.isZero (c.row.drop start)

theorem isSame_refl (c : Constraint) : c.isSame c = true := by simp [isSame]

end Constraint

end Quasiaffine

set_option autoImplicit false

namespace Quasiaffine

inductive Comparison where
  | eq
  | ne
  | le
  | lt
  | ge
  | gt
  deriving DecidableEq, Repr, Inhabited

def Comparison.holds : Comparison → Rat → Rat → Bool
  | .eq, x, y => decide (x = y)
  | .ne, x, y => decide (x ≠ y)
  | .le, x, y => decide (x ≤ y)
  | .lt, x, y => decide (x < y)
  | .ge, x, y => decide (y ≤ x)
  | .gt, x, y => decide (y < x)

def Comparison.negate : Comparison → Comparison
  | .eq => .ne
  | .ne => .eq
  | .le => .gt
  | .lt => .ge
  | .ge => .lt
  | .gt => .le

end Quasiaffine

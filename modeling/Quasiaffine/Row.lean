/-!
Rows of integers. Constraints, affine expressions and division definitions are all rows; this
module has the row operations that the rest of the library is built from.

Positions count from zero, and an entry beyond the end of a row reads as zero. Floor division is
`Int.fdiv` with remainder `Int.fmod`.
-/

set_option autoImplicit false

namespace Quasiaffine

def ceilDiv (a b : Int) : Int := -(Int.fdiv (-a) b)

abbrev Row := List Int

namespace Row

def entry (r : Row) (i : Nat) : Int := r.getD i 0

def isZero (r : Row) : Bool := r.all (· == 0)

def firstNonZero? : Row → Option Nat
  | [] => none
  | x :: r => if x = 0 then (firstNonZero? r).map (· + 1) else some 0

def lastNonZero? : Row → Option Nat
  | [] => none
  | x :: r =>
    match lastNonZero? r with
    | some i => some (i + 1)
    | none => if x = 0 then none else some 0

def gcd : Row → Nat
  | [] => 0
  | x :: r => Nat.gcd x.natAbs (gcd r)

def neg (r : Row) : Row := r.map (fun x => -x)

def scale (f : Int) (r : Row) : Row := r.map (· * f)

/-- Every entry divided by `f`, cut toward zero. The library calls it with a common divisor only. -/
def divide (f : Int) (r : Row) : Row := r.map (Int.tdiv · f)

/-- `m₁ · dst + m₂ · src`, entry by entry. Entries of `dst` beyond the end of `src` stay. -/
def combine (m₁ m₂ : Int) : Row → Row → Row
  | d :: dst, s :: src => (m₁ * d + m₂ * s) :: combine m₁ m₂ dst src
  | dst, _ => dst

/-- A row with one entry cleared, and the positive factor its other multiples carry. -/
structure Elimination where
  row : Row
  factor : Int
  deriving DecidableEq, Repr

/-- Clears the entry of `dst` at `pos`: a positive multiple of `dst` plus a multiple of `src`. -/
def eliminate (dst src : Row) (pos : Nat) : Elimination :=
  if dst.entry pos = 0 then ⟨dst, 1⟩
  else
    let g : Int := Int.gcd (src.entry pos) (dst.entry pos)
    let quotient := (dst.entry pos).tdiv g
    let b := if 0 < src.entry pos then -quotient else quotient
    let a : Int := ((src.entry pos).tdiv g).natAbs
    ⟨combine a b dst src, a⟩

/-- Lexicographic order; of two rows that agree, the shorter is the smaller. -/
def order : Row → Row → Ordering
  | [], [] => .eq
  | [], _ :: _ => .lt
  | _ :: _, [] => .gt
  | x :: r, y :: s => if x < y then .lt else if x = y then order r s else .gt

def dot : Row → Row → Int
  | x :: r, y :: s => x * y + dot r s
  | _, _ => 0

def zeros (n : Nat) : Row := List.replicate n 0

def insertZeros (pos n : Nat) (r : Row) : Row := r.take pos ++ zeros n ++ r.drop pos

def dropEntries (pos n : Nat) (r : Row) : Row := r.take pos ++ r.drop (pos + n)

/-- Takes the entries `start, …, start + n - 1` out and puts them back so that they begin at
`target`. -/
def moveEntries (start n target : Nat) (r : Row) : Row :=
  let moved := (r.drop start).take n
  let others := r.dropEntries start n
  others.take target ++ moved ++ others.drop target

def swap (i j : Nat) (r : Row) : Row := (r.set i (r.entry j)).set j (r.entry i)

def text (r : Row) : String := " ".intercalate (r.map toString)

theorem length_neg (r : Row) : r.neg.length = r.length := by simp [neg]

theorem length_scale (f : Int) (r : Row) : (r.scale f).length = r.length := by simp [scale]

theorem length_divide (f : Int) (r : Row) : (r.divide f).length = r.length := by simp [divide]

theorem length_combine (m₁ m₂ : Int) (dst src : Row) :
    (combine m₁ m₂ dst src).length = dst.length := by
  fun_induction combine m₁ m₂ dst src <;> simp_all

theorem length_eliminate (dst src : Row) (pos : Nat) :
    (dst.eliminate src pos).row.length = dst.length := by
  unfold eliminate
  split <;> simp [length_combine]

theorem length_insertZeros (pos n : Nat) (r : Row) :
    (r.insertZeros pos n).length = r.length + n := by
  simp [insertZeros, zeros]; omega

theorem length_dropEntries (pos n : Nat) (r : Row) (h : pos + n ≤ r.length) :
    (r.dropEntries pos n).length = r.length - n := by
  simp [dropEntries]; omega

theorem length_moveEntries (start n target : Nat) (r : Row) (h : start + n ≤ r.length) :
    (r.moveEntries start n target).length = r.length := by
  simp [moveEntries, dropEntries]; omega

theorem length_swap (i j : Nat) (r : Row) : (r.swap i j).length = r.length := by simp [swap]

end Row

end Quasiaffine

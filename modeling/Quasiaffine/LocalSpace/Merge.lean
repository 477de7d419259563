import Quasiaffine.LocalSpace.Order

set_option autoImplicit false

namespace Quasiaffine

def Row.scatter (n : Nat) (indices : List Nat) (values : Row) : Row :=
  (indices.zip values).foldl (fun row place => row.set place.1 place.2) (Row.zeros n)

/-- Carries a row over to other divisions: the first `width` entries stay, and the coefficient of
division `i` moves to division `indices[i]` of `n`. -/
def Row.expand (row : Row) (width : Nat) (indices : List Nat) (n : Nat) : Row :=
  row.take width ++ Row.scatter n indices (row.drop width)

structure MergedRows where
  rows : List Row
  left : List Nat
  right : List Nat
  deriving DecidableEq, Repr

namespace MergedRows

def count (m : MergedRows) : Nat := m.rows.length

def addLeft (m : MergedRows) (row : Row) : MergedRows :=
  { m with rows := m.rows ++ [row], left := m.left ++ [m.count] }

def addRight (m : MergedRows) (row : Row) : MergedRows :=
  { m with rows := m.rows ++ [row], right := m.right ++ [m.count] }

def addBoth (m : MergedRows) (row : Row) : MergedRows :=
  ⟨m.rows ++ [row], m.left ++ [m.count], m.right ++ [m.count]⟩

/-- Takes the smaller of the two next divisions, each written over the divisions merged so far, and
takes both if they are equal. A row has `width` entries in front of its divisions, and there are
`n` divisions in both operands. -/
def extend (width n : Nat) (as bs : List Row) (m : MergedRows) : MergedRows :=
  match as, bs with
  | [], [] => m
  | a :: as, [] => extend width n as [] (m.addLeft (a.expand width m.left n))
  | [], b :: bs => extend width n [] bs (m.addRight (b.expand width m.right n))
  | a :: as, b :: bs =>
    let a' := a.expand width m.left n
    let b' := b.expand width m.right n
    -- Both are compared as they will stand if they come next.
    match Division.order a' b' m.count (m.count + 1) (1 + n) (width + n) with
    | .eq => extend width n as bs (m.addBoth a')
    | .lt => extend width n as (b :: bs) (m.addLeft a')
    | .gt => extend width n (a :: as) bs (m.addRight b')
  termination_by as.length + bs.length

end MergedRows

/-- A division matrix that holds those of two operands, with the new indices. -/
structure MergedMatrix where
  matrix : Matrix
  left : List Nat
  right : List Nat
  deriving DecidableEq, Repr

def Matrix.mergeDivs (a b : Matrix) : MergedMatrix :=
  let width := a.columns - a.height
  let merged := MergedRows.extend width (a.height + b.height) a.rows b.rows ⟨[], [], []⟩
  let columns := width + merged.count
  ⟨⟨columns, merged.rows.map (·.take columns)⟩, merged.left, merged.right⟩

structure MergedSpace where
  ls : LocalSpace
  left : List Nat
  right : List Nat
  deriving Repr

namespace LocalSpace

def merge (a b : LocalSpace) : Except Error MergedSpace := do
  require (a.space.agrees b.space) (.mergedSpaces a.space b.space)
  if b.divCount = 0 then return ⟨a, List.range a.divCount, []⟩
  if a.divCount = 0 then return ⟨{ a with divs := b.divs }, [], List.range b.divCount⟩
  let merged := a.divs.mergeDivs b.divs
  return ⟨{ a with divs := merged.matrix }, merged.left, merged.right⟩

def intersect (a b : LocalSpace) : Except Error LocalSpace := do
  return (← a.merge b).ls

end LocalSpace

end Quasiaffine

import Quasiaffine.LocalSpace.Basic

/-!
The canonical order of divisions. A division comes after those that it refers to; among divisions
free to change places, the one whose last non-zero column is smaller comes first, and then the
lexicographically smaller row. Divisions without a definition keep their order.
-/

set_option autoImplicit false

namespace Quasiaffine

namespace Division

/-- The last non-zero column of a division; its own column if it has no definition. -/
def orderKey (row : Row) (index rows columns : Nat) : Nat :=
  if isKnown row then (Row.lastNonZero? (row.take columns)).getD 0 else columns - rows + index

def order (a b : Row) (i j rows columns : Nat) : Ordering :=
  if !isKnown a && !isKnown b then compare i j
  else
    let keyA := orderKey a i rows columns
    let keyB := orderKey b j rows columns
    if keyA = keyB then Row.order (a.take columns) (b.take columns) else compare keyA keyB

end Division

/-- A local space with its divisions rearranged, and the exchanges that led there. -/
structure Rearranged where
  ls : LocalSpace
  swaps : List (Nat × Nat)
  deriving Repr

namespace LocalSpace

def swapDiv (ls : LocalSpace) (i j : Nat) : LocalSpace :=
  if i = j then ls
  else
    { ls with
      divs := (ls.divs.swapRows i j).swapColumns (ls.column .div i) (ls.column .div j) }

end LocalSpace

namespace Rearranged

def swap (r : Rearranged) (i j : Nat) : Rearranged := ⟨r.ls.swapDiv i j, r.swaps ++ [(i, j)]⟩

def dependency? (ls : LocalSpace) (i : Nat) : Option Nat :=
  let row := ls.divs.row i
  if Division.isKnown row then
    match Row.firstNonZero? (row.drop (ls.column .div i)) with
    | some (pos + 1) => some (i + (pos + 1))
    | _ => none
  else none

/-- Brings to place `i` a division that refers to no later one. Unless divisions refer to each other
in a circle, fewer exchanges are needed than there are divisions. -/
def settle (i : Nat) : (fuel : Nat) → Rearranged → Rearranged
  | 0, r => r
  | fuel + 1, r =>
    match dependency? r.ls i with
    | some j => settle i fuel (r.swap i j)
    | none => r

def sink (rows columns : Nat) : (i : Nat) → Rearranged → Rearranged
  | 0, r => r
  | j + 1, r =>
    if Division.order (r.ls.divs.row j) (r.ls.divs.row (j + 1)) j (j + 1) rows columns = .gt then
      sink rows columns j (r.swap j (j + 1))
    else r

end Rearranged

namespace LocalSpace

/-- Moves every division behind those that it refers to. -/
def orderDivs (ls : LocalSpace) : Rearranged :=
  (List.range ls.divCount).foldl (fun r i => r.settle i ls.divCount) ⟨ls, []⟩

def sortDivs (ls : LocalSpace) : Rearranged :=
  (List.range ls.divCount).foldl (fun r i => r.sink ls.divCount ls.divs.columns i) ls.orderDivs

end LocalSpace

end Quasiaffine

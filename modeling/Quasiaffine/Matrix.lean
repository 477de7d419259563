import Quasiaffine.Row

set_option autoImplicit false

namespace Quasiaffine

structure Matrix where
  columns : Nat
  rows : List Row
  deriving DecidableEq, Repr, Inhabited

namespace Matrix

/-- Exchanges two members of a list; a position beyond its end changes nothing. -/
def exchange {α : Type} (i j : Nat) (xs : List α) : List α :=
  match xs[i]?, xs[j]? with
  | some x, some y => (xs.set i y).set j x
  | _, _ => xs

def Rectangular (m : Matrix) : Prop := ∀ r ∈ m.rows, r.length = m.columns

def empty (columns : Nat) : Matrix := ⟨columns, []⟩

def zeros (rows columns : Nat) : Matrix := ⟨columns, List.replicate rows (Row.zeros columns)⟩

def height (m : Matrix) : Nat := m.rows.length

def row (m : Matrix) (i : Nat) : Row := m.rows.getD i []

def setRow (m : Matrix) (i : Nat) (r : Row) : Matrix := { m with rows := m.rows.set i r }

def misfit? (columns : Nat) (rows : List Row) : Option Row :=
  rows.find? (fun r => r.length ≠ columns)

def mapRows (m : Matrix) (columns : Nat) (f : Row → Row) : Matrix := ⟨columns, m.rows.map f⟩

def insertColumns (m : Matrix) (pos n : Nat) : Matrix :=
  m.mapRows (m.columns + n) (Row.insertZeros pos n)

def appendColumns (m : Matrix) (n : Nat) : Matrix := m.insertColumns m.columns n

def dropColumns (m : Matrix) (pos n : Nat) : Matrix :=
  m.mapRows (m.columns - n) (Row.dropEntries pos n)

def moveColumns (m : Matrix) (start n target : Nat) : Matrix :=
  m.mapRows m.columns (Row.moveEntries start n target)

def swapColumns (m : Matrix) (i j : Nat) : Matrix := m.mapRows m.columns (Row.swap i j)

def insertRows (m : Matrix) (pos n : Nat) : Matrix :=
  { m with rows := m.rows.take pos ++ List.replicate n (Row.zeros m.columns) ++ m.rows.drop pos }

def dropRows (m : Matrix) (pos n : Nat) : Matrix :=
  { m with rows := m.rows.take pos ++ m.rows.drop (pos + n) }

def swapRows (m : Matrix) (i j : Nat) : Matrix := { m with rows := exchange i j m.rows }

def text (m : Matrix) : String :=
  "[" ++ ", ".intercalate (m.rows.map fun r => "[" ++ r.text ++ "]") ++ "]"

end Matrix

end Quasiaffine

import Quasiaffine.Affine.Basic

/-!
How expressions and constraints are written. Dimensions go by the names of their space. A division
with a definition is written out, `[(expression)/m]`, wherever it appears; one without gets a name
`e0`, `e1`, … that no dimension has.
-/

set_option autoImplicit false

namespace Quasiaffine.Printer

/-- A coefficient, without its sign, in front of a name: `i`, `2i`, `2*[(i)/3]`. -/
def termText (coefficient : Int) (name : String) : String :=
  if coefficient.natAbs = 1 then name
  else if name.toList.head? = some '[' then s!"{coefficient.natAbs}*{name}"
  else s!"{coefficient.natAbs}{name}"

def addTerm (text : String) (term : Int × String) : String :=
  let sign :=
    if text.isEmpty then (if term.1 < 0 then "-" else "")
    else if term.1 < 0 then " - " else " + "
  text ++ sign ++ termText term.1 term.2

/-- A sum of terms with its constant at the end. The constant zero stands only where no term does. -/
def sumText (terms : List (Int × String)) (constant : Int) : String :=
  let text := terms.foldl addTerm ""
  if text.isEmpty then toString constant
  else if 0 < constant then s!"{text} + {constant}"
  else if constant < 0 then s!"{text} - {constant.natAbs}"
  else text

def affineText (row : Row) (names : List String) : String :=
  sumText (((row.drop 1).zip names).filter fun term => term.1 ≠ 0) (row.entry 0)

/-- A constraint with its negative terms moved to the right side. -/
def constraintText (row : Row) (isEquality : Bool) (names : List String) : String :=
  let terms := (row.drop 1).zip names
  let left := terms.filter fun term => 0 < term.1
  let right := (terms.filter fun term => term.1 < 0).map fun term => (-term.1, term.2)
  let constant := row.entry 0
  sumText left (if constant < 0 then 0 else constant)
    ++ (if isEquality then " = " else " >= ")
    ++ sumText right (if constant < 0 then -constant else 0)

structure ColumnNames where
  columns : List String
  quantified : List String
  deriving Repr

namespace ColumnNames

def addDiv (dims : List String) (names : ColumnNames) (div : Row) : ColumnNames :=
  if Division.isKnown div then
    let text := s!"[({affineText (div.drop 1) names.columns})/{div.entry 0}]"
    { names with columns := names.columns ++ [text] }
  else
    let name := fresh (dims ++ names.quantified) "e" names.quantified.length
    ⟨names.columns ++ [name], names.quantified ++ [name]⟩

def ofLocalSpace (dims : List String) (ls : LocalSpace) : ColumnNames :=
  ls.divs.rows.foldl (addDiv dims) ⟨dims, []⟩

end ColumnNames

/-- An expression in the brackets of a tuple. Its value is a quotient in inner parentheses, which
tells it from the rounded quotient `[e/d]`. -/
def valueText (a : Affine) (dims : List String) : String :=
  let numerator := affineText a.numerator (ColumnNames.ofLocalSpace dims a.ls).columns
  if a.denominator = 1 then s!"[({numerator})]" else s!"[(({numerator})/{a.denominator})]"

end Quasiaffine.Printer

namespace Quasiaffine

def Space.mappedText (s : Space) (names : List String) (value : String) : String :=
  let head := s.headText names
  if head.isEmpty then value else s!"{head} -> {value}"

def Affine.text (a : Affine) : String :=
  let names := a.space.names
  a.space.braced names (a.space.mappedText names (Printer.valueText a names))

end Quasiaffine

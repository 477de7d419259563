import Quasiaffine.Json.Basic
import Quasiaffine.Json.Quoted

/-!
Reading JSON.

```text
value  := 'null' | 'true' | 'false' | number | text | '[' [value (',' value)*] ']'
        | '{' [text ':' value (',' text ':' value)*] '}'
number := ['-'] ('0' | nonzero digit*) ['.' digit+] [('e' | 'E') ['+' | '-'] digit+]
```

Blanks may stand before and behind every value and mark. Lists and objects may be nested to any
depth, but those beyond the first `maxNesting` levels have no meaning: a field that no reader asks
for may hold them, and any other value that holds them is refused.
-/

set_option autoImplicit false

namespace Quasiaffine.Json

def isBlank (c : Char) : Bool := c = ' ' || c = '\t' || c = '\n' || c = '\r'

def skipBlanks (cs : List Char) : List Char := cs.dropWhile isBlank

def expect? (c : Char) : List Char → Option (List Char)
  | d :: rest => if c = d then some rest else none
  | [] => none

def naturalOfDigits (digits : List Char) : Nat :=
  digits.foldl (fun n c => 10 * n + (c.toNat - 48)) 0

def digits? (cs : List Char) : Option (List Char × List Char) :=
  match cs.takeWhile Char.isDigit with
  | [] => none
  | digits => some (digits, cs.dropWhile Char.isDigit)

def skipDecimals? : List Char → Option (List Char)
  | '.' :: rest => do
    let (_, rest) ← digits? rest
    return rest
  | cs => some cs

def skipExponent? : List Char → Option (List Char)
  | c :: rest =>
    if c = 'e' ∨ c = 'E' then do
      let unsigned :=
        match rest with
        | '+' :: r | '-' :: r => r
        | r => r
      let (_, rest) ← digits? unsigned
      return rest
    else some (c :: rest)
  | [] => some []

def unsigned? (negative : Bool) (cs : List Char) : Option (Json × List Char) := do
  let (digits, rest) ← digits? cs
  if digits.length > 1 ∧ digits.head? = some '0' then none
  let stop ← skipExponent? (← skipDecimals? rest)
  let n := naturalOfDigits digits
  if stop.length ≠ rest.length ∨ (negative ∧ n = 0) then return (foreign, stop)
  return (integer (if negative then -n else n), stop)

def number? : List Char → Option (Json × List Char)
  | '-' :: rest => unsigned? true rest
  | cs => unsigned? false cs

def text? (cs : List Char) : Option (Option String × List Char) := do
  let (units, rest) ← Quoted.units? cs
  return ((Quoted.decodeUnits? units).map String.ofList, rest)

def ofFields (fields : List (Option String × Json)) : Json :=
  match fields.mapM fun f => f.1.map fun name => (name, f.2) with
  | some fields => object fields
  | none => foreign

mutual

def value? (fuel : Nat) (cs : List Char) : Option (Json × List Char) :=
  match fuel with
  | 0 => none
  | fuel + 1 =>
    match skipBlanks cs with
    | 'n' :: 'u' :: 'l' :: 'l' :: rest => some (null, rest)
    | 't' :: 'r' :: 'u' :: 'e' :: rest => some (boolean true, rest)
    | 'f' :: 'a' :: 'l' :: 's' :: 'e' :: rest => some (boolean false, rest)
    | '"' :: rest => do
      let (s, rest) ← text? rest
      return (match s with | some s => text s | none => foreign, rest)
    | '[' :: rest =>
      match skipBlanks rest with
      | ']' :: rest => some (list [], rest)
      | _ => do
        let (elements, rest) ← values? fuel rest
        return (list elements, rest)
    | '\x7b' :: rest =>
      match skipBlanks rest with
      | '\x7d' :: rest => some (object [], rest)
      | _ => do
        let (fields, rest) ← namedValues? fuel rest
        return (ofFields fields, rest)
    | cs => number? cs

def values? (fuel : Nat) (cs : List Char) : Option (List Json × List Char) :=
  match fuel with
  | 0 => none
  | fuel + 1 => do
    let (j, rest) ← value? fuel cs
    match skipBlanks rest with
    | ']' :: rest => return ([j], rest)
    | ',' :: rest =>
      let (js, rest) ← values? fuel rest
      return (j :: js, rest)
    | _ => none

def namedValues? (fuel : Nat) (cs : List Char) : Option (List (Option String × Json) × List Char) :=
  match fuel with
  | 0 => none
  | fuel + 1 => do
    let (name, rest) ← text? (← expect? '"' (skipBlanks cs))
    let (j, rest) ← value? fuel (← expect? ':' (skipBlanks rest))
    match skipBlanks rest with
    | '\x7d' :: rest => return ([(name, j)], rest)
    | ',' :: rest =>
      let (fields, rest) ← namedValues? fuel rest
      return ((name, j) :: fields, rest)
    | _ => none

end

def maxNesting : Nat := 127

/-- The value that a text holds, with nothing but blanks around it. Of two calls one inside the
other at least one takes a character, which bounds their nesting. What is nested too deeply must be
well written, too. -/
def parse? (source : String) : Option Json := do
  let cs := source.toList
  let (j, rest) ← value? (2 * (cs.length + 1)) cs
  if (skipBlanks rest).isEmpty then some (j.within maxNesting) else none

end Quasiaffine.Json

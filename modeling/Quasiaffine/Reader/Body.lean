import Quasiaffine.Object
import Quasiaffine.Reader.Shape

/-!
Reading a whole text: an object or a piecewise function, with its parameters in front.

```text
object    := [tuple '->'] '{' ['Sym' '=' tuple] body (';' body)* [';'] '}' | [tuple '->'] '{' '}'
body      := tuple ['->' tuple] [(':' | '|') condition] | ':' condition
piecewise := [tuple '->'] '{' piece (';' piece)* [';'] '}'
piece     := [tuple '->'] '[' choice ']' [(':' | '|') condition]
```
-/

set_option autoImplicit false

namespace Quasiaffine

structure Config where
  /-- How far membership tests search for the values of divisions without a definition. -/
  searchRadius : Nat := BasicRelation.defaultRadius
  /-- Bring the divisions of all that is read into canonical order. -/
  sortDivs : Bool := true
  deriving DecidableEq, Repr, Inhabited

namespace Grammar

open Reading

def optionalCondition (depth : Nat) (set : Relation) : Reading Relation := do
  let t ← next
  if t.kind = .mark .colon ∨ t.kind = .mark .pipe then condition depth set
  else
    push t
    return set

def expectEnd : Reading Unit := do
  let t ← next
  if !t.isEnd then stop (t.unfit .endOfObject)

def parameters (depth : Nat) : Reading Relation := do
  let set := Relation.full (.ofParams [])
  if ← nextIsMark .leftBracket then
    let shaped ← tuple depth .param set
    expectMark .arrow
    return shaped.set
  else return set

def parameterNames (params : Relation) : Reading (List Label) := do
  return (← get).scope.labels 0 (params.dim .param)

/-- A set of values of the variables of a body, and the space in which it lies. -/
structure Located where
  set : Relation
  space : Space

def located (depth : Nat) (params : Relation) : Reading Located := do
  let names ← parameterNames params
  if ← nextIsMark .colon then
    return ⟨← optionalCondition depth params, .ofParams names⟩
  let first ← tuple depth .output params
  if ← eatMark .arrow then
    let second ← tuple depth .output first.set
    return ⟨← optionalCondition depth second.set, .ofRelation names first.tuple second.tuple⟩
  else
    return ⟨← optionalCondition depth first.set, .ofSet names first.tuple⟩

def body (config : Config) (depth : Nat) (params : Relation) : Reading Relation := do
  let read ← inScope (located depth params)
  let r ← check (read.set.resetSpace read.space)
  return if config.sortDivs then r.sortDivs else r

def moreBodies (config : Config) (params : Relation) : Nat → Object → Reading Object
  | 0, _ => throw .exhausted
  | depth + 1, object => do
    enter
    if ← eatMark .semicolon then
      if ← nextIsMark .rightBrace then return object
      let start ← peek
      let r ← body config depth params
      moreBodies config params depth (← check (object.insert r start.span))
    else return object

def bodies (config : Config) (depth : Nat) (params : Relation) : Reading Object := do
  let first ← body config depth params
  let object ← moreBodies config params depth (.relation first)
  expectMark .rightBrace
  expectEnd
  return object

/-- An object. The tuple behind `Sym =` declares more parameters. -/
def object (config : Config) (depth : Nat) : Reading Object := do
  let params ← parameters depth
  expectMark .leftBrace
  let t ← next
  match t.lexeme with
  | .identifier "Sym" =>
    expectMark .eq
    bodies config depth (← tuple depth .param params).set
  | .mark .rightBrace =>
    expectEnd
    return .union .empty
  | _ =>
    push t
    bodies config depth params

/-- Whether a bracket begins the domain of a piece: a tuple, a closing bracket or a new name stands
behind it. Otherwise it begins the value of a piece over the parameters alone. -/
def startsDomain : Reading Bool := do
  let saved := (← get).stream
  let _ ← next
  let found ←
    if ← startsTuple then pure true
    else if ← nextIsMark .rightBracket then pure true
    else pure (← freshName? (← peek)).isSome
  tokens (TokenStream.restore saved)
  return found

def pieceDomain? (depth : Nat) (params : Relation) : Reading (Option Shaped) := do
  let t ← peek
  if mayNameTuple t.lexeme then return some (← tuple depth .output params)
  if t.kind ≠ .mark .leftBracket then stop (t.unfit .tuple)
  if ← startsDomain then return some (← tuple depth .output params) else return none

/-- A function on a set of values of the variables of a piece, and the space of its domain. -/
structure LocatedFunction where
  function : Piecewise
  space : Space

def pieceValue (depth : Nat) (set : Relation) : Reading Piecewise := do
  expectMark .leftBracket
  let f ← choice depth set.space
  expectMark .rightBracket
  check (f.intersectDomain (← optionalCondition depth set))

def locatedPiece (depth : Nat) (params : Relation) : Reading LocatedFunction := do
  let names ← parameterNames params
  match ← pieceDomain? depth params with
  | some domain =>
    expectMark .arrow
    return ⟨← pieceValue depth domain.set, .ofSet names domain.tuple⟩
  | none => return ⟨← pieceValue depth params, .ofParams names⟩

def piece (depth : Nat) (params : Relation) : Reading Piecewise := do
  let read ← inScope (locatedPiece depth params)
  check (read.function.resetSpace read.space)

def morePieces (params : Relation) : Nat → Piecewise → Reading Piecewise
  | 0, _ => throw .exhausted
  | depth + 1, whole => do
    enter
    if ← eatMark .semicolon then
      if ← nextIsMark .rightBrace then return whole
      let start ← peek
      let part ← piece depth params
      if !whole.space.agrees part.space then
        stop (.semantic (.pieceElsewhere part.space whole.space) start.span)
      morePieces params depth (← check (whole.unionAdd part))
    else return whole

def piecewise (depth : Nat) : Reading Piecewise := do
  let params ← parameters depth
  expectMark .leftBrace
  let first ← piece depth params
  let whole ← morePieces params depth first
  expectMark .rightBrace
  expectEnd
  return whole

end Grammar

end Quasiaffine

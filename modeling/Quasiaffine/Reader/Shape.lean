import Quasiaffine.Reader.Grammar

/-!
The grammar of tuples.

```text
tuple := [name] '[' tuple '->' tuple ']' | [name] '[' [item ((',' | '][') item)*] ']'
item  := name ['=' choice] | choice
```

A name that no variable in scope has declares a variable. Any other item is an expression that
defines an anonymous variable.
-/

set_option autoImplicit false

namespace Quasiaffine.Grammar

open Reading

def dimensionName (identifier : String) : String :=
  let stripped := (identifier.toList.reverse.dropWhile (· == '\'')).reverse
  if stripped.isEmpty then identifier else String.ofList stripped

def mayNameTuple : Lexeme → Bool
  | .identifier _ | .keyword _ _ => true
  | _ => false

def startsTuple : Reading Bool :=
  tokens <| TokenStream.lookingAhead do
    let t ← TokenStream.next
    if t.kind = .mark .leftBracket then return true
    if mayNameTuple t.lexeme then TokenStream.nextIs (.mark .leftBracket) else return false

/-- Whether an arrow stands behind the bracket that closes the outermost of `nesting` open ones. -/
def arrowBehind : Nat → (nesting : Nat) → Streaming (Option Bool)
  | 0, _ => return none
  | depth + 1, nesting => do
    let t ← TokenStream.next
    match t.lexeme with
    | .mark .leftBracket => arrowBehind depth (nesting + 1)
    | .mark .rightBracket =>
      if nesting ≤ 1 then return some (← TokenStream.nextIs (.mark .arrow))
      else arrowBehind depth (nesting - 1)
    | .endOfInput => return some false
    | _ => arrowBehind depth nesting

def startsRelation (depth : Nat) : Reading Bool := do
  if ← startsTuple then
    match ← tokens (TokenStream.lookingAhead (arrowBehind depth 0)) with
    | some found => return found
    | none => throw .exhausted
  else return false

/-- The name of a token that may declare a variable: no variable in scope has it. -/
def freshName? (t : Token) : Reading (Option String) := do
  match t.lexeme with
  | .identifier name => return if (← position? name).isSome then none else some name
  | _ => return none

structure Items where
  set : Relation
  labels : List Label

/-- Reads one item, which starts with the token `t`. Among parameters each one declares a name. -/
def item (depth : Nat) (kind : DimKind) (read : Items) (t : Token) : Reading Items := do
  match ← freshName? t with
  | some name =>
    let pos ← declare (some name)
    let set ← check (read.set.addDims kind 1)
    let set ← if ← eatMark .eq then definition depth set pos else pure set
    return ⟨set, read.labels ++ [some (dimensionName name)]⟩
  | none =>
    if kind = .param then
      match t.lexeme with
      | .identifier name => stop (.semantic (.nameTaken name) t.span)
      | _ => stop (t.unfit .freshName)
    else
      push t
      let pos ← declare none
      let set ← check (read.set.addDims kind 1)
      return ⟨← definition depth set pos, read.labels ++ [none]⟩

def items : Nat → DimKind → Items → Reading Items
  | 0, _, _ => throw .exhausted
  | depth + 1, kind, read => do
    enter
    let read ← item depth kind read (← next)
    let behind ← next
    if behind.kind = .mark .comma then items depth kind read
    else if behind.kind ≠ .mark .rightBracket then
      push behind
      return read
    -- Between items `][` stands for a comma.
    else if ← nextIsMark .leftBracket then
      let _ ← next
      items depth kind read
    else
      push behind
      return read

structure Shaped where
  set : Relation
  tuple : Tuple

def tuple : Nat → DimKind → Relation → Reading Shaped
  | 0, _, _ => throw .exhausted
  | depth + 1, kind, set => do
    enter
    let t ← next
    let isNamed := mayNameTuple t.lexeme
    let opening ← if isNamed then next else pure t
    if opening.kind ≠ .mark .leftBracket then stop (opening.unfit .tuple)
    let wraps ← if kind = .param then pure false else startsRelation depth
    let shaped ←
      if wraps then do
        let domain ← tuple depth kind set
        expectMark .arrow
        let range ← tuple depth kind domain.set
        pure (Shaped.mk range.set (.wrap none domain.tuple range.tuple))
      else if ← nextIsMark .rightBracket then pure ⟨set, .unit⟩
      else do
        let read ← items depth kind ⟨set, []⟩
        pure (Shaped.mk read.set (.flat none read.labels))
    expectMark .rightBracket
    return { shaped with
      tuple := shaped.tuple.rename (if isNamed then t.lexeme.tupleName else none) }

end Quasiaffine.Grammar

import Quasiaffine.Scope
import Quasiaffine.Token.Stream

/-!
The state of a reader and the actions on it. While a body is read, each variable in scope is a
dimension of one set: first the parameters, then the variables of tuples and quantifiers in the
order of their declaration.
-/

set_option autoImplicit false

namespace Quasiaffine

inductive Stop where
  | error (error : Error)
  /-- More calls of productions were nested than the reader was given. -/
  | exhausted
  deriving DecidableEq, Repr

structure ReaderState where
  stream : TokenStream
  scope : Scope
  /-- How often a choice was made between two functions without a check of where they are defined. -/
  uncheckedChoices : Nat
  /-- How many productions were entered. -/
  calls : Nat
  deriving DecidableEq, Repr

/-- An action of the reader. What happened before it stopped stays in the state. -/
abbrev Reading (α : Type) := ExceptT Stop (StateM ReaderState) α

namespace Reading

def stop {α : Type} (e : Error) : Reading α := throw (.error e)

def tokens {α : Type} (action : Streaming α) : Reading α := fun s =>
  match action s.stream with
  | (.ok value, stream) => (.ok value, { s with stream })
  | (.error e, stream) => (.error (.error e), { s with stream })

/-- Goes on with the result of an operation, or stops with its error. -/
def check {α : Type} : Except Error α → Reading α
  | .ok value => pure value
  | .error e => stop e

def enter : Reading Unit := modify fun s => { s with calls := s.calls + 1 }

def warn : Reading Unit := modify fun s => { s with uncheckedChoices := s.uncheckedChoices + 1 }

def next : Reading Token := tokens TokenStream.next

def push (t : Token) : Reading Unit := tokens (TokenStream.push t)

/-- Puts a token back for the production that it was chosen by, which takes it again first. -/
def again (t : Token) : Reading Unit := do
  push t
  let _ ← next

def peek : Reading Token := do
  let t ← next
  push t
  return t

def nextIs (kind : TokenKind) : Reading Bool := tokens (TokenStream.nextIs kind)

def eatIf (kind : TokenKind) : Reading Bool := tokens (TokenStream.eatIf kind)

def expect (kind : TokenKind) : Reading Token := tokens (TokenStream.expect kind)

def nextIsMark (m : Mark) : Reading Bool := nextIs (.mark m)

def eatMark (m : Mark) : Reading Bool := eatIf (.mark m)

def eatKeyword (word : Keyword) : Reading Bool := eatIf (.keyword word)

def expectMark (m : Mark) : Reading Unit := do
  let _ ← expect (.mark m)

def position? (name : String) : Reading (Option Nat) := do
  return (← get).scope.position? name

def declare (label : Label) : Reading Nat := do
  let pos := (← get).scope.size
  modify fun s => { s with scope := s.scope.declare label }
  return pos

def inScope {α : Type} (action : Reading α) : Reading α := do
  let mark := (← get).scope.size
  let value ← action
  modify fun s => { s with scope := s.scope.rollback mark }
  return value

end Reading

end Quasiaffine

import Quasiaffine.Token.Lexer

set_option autoImplicit false

namespace Quasiaffine

structure TokenStream where
  cursor : Cursor
  /-- The tokens that were put back. -/
  waiting : List Token
  /-- The greatest number of tokens that ever waited at once. -/
  mostWaiting : Nat
  deriving DecidableEq, Repr

/-- An action on a stream of tokens. The stream that an error leaves behind can be read on. -/
abbrev Streaming (α : Type) := ExceptT Error (StateM TokenStream) α

namespace TokenStream

def ofText (source : String) : TokenStream := ⟨.ofText source, [], 0⟩

def maxExponent : Nat := 4294967295

def exponent? (t : Token) : Option Nat :=
  match t.lexeme with
  | .number (.ofNat e) => if e ≤ maxExponent then some e else none
  | _ => none

/-- The power of a number whose caret has been read, where `cursor` stands behind the caret. -/
def power (base : Int) (t : Token) (cursor : Cursor) : Except Error Token × Cursor :=
  match cursor.next with
  | (.error e, cursor) => (.error e, cursor)
  | (.ok exponent, cursor) =>
    match exponent? exponent with
    | some e => (.ok ⟨.number (Int.pow base e), t.span.cover exponent.span, t.startsLine⟩, cursor)
    | none => (.error (exponent.unfit .exponent), cursor)

def read (cursor : Cursor) : Except Error Token × Cursor :=
  match cursor.next with
  | (.error e, cursor) => (.error e, cursor)
  | (.ok t, cursor) =>
    match t.lexeme with
    | .number base =>
      match cursor.next with
      | (.ok caret, behind) =>
        if caret.kind = .mark .caret then power base t behind else (.ok t, cursor)
      | _ => (.ok t, cursor)
    | _ => (.ok t, cursor)

def next : Streaming Token := fun s =>
  match s.waiting with
  | t :: waiting => (.ok t, { s with waiting })
  | [] =>
    let (result, cursor) := read s.cursor
    (result, { s with cursor })

def push (t : Token) : Streaming Unit :=
  modify fun s =>
    { s with
      waiting := t :: s.waiting
      mostWaiting := Nat.max s.mostWaiting (s.waiting.length + 1) }

def nextIs (kind : TokenKind) : Streaming Bool := do
  let t ← next
  push t
  return t.kind == kind

def eatIf (kind : TokenKind) : Streaming Bool := do
  let t ← next
  if t.kind = kind then return true
  push t
  return false

def expect (kind : TokenKind) : Streaming Token := do
  let t ← next
  if t.kind = kind then return t
  throw (t.unfit (.token kind))

def restore (saved : TokenStream) : Streaming Unit :=
  modify fun s => { saved with mostWaiting := s.mostWaiting }

/-- Runs an action that only looks ahead: the stream is afterwards as it was. -/
def lookingAhead {α : Type} (action : Streaming α) : Streaming α := do
  let saved ← get
  let result ← action
  restore saved
  return result

end TokenStream

end Quasiaffine

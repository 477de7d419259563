import Quasiaffine.Reader.Body

set_option autoImplicit false

namespace Quasiaffine.Reader

structure Outcome (α : Type) where
  result : Except Stop α
  final : ReaderState

def Outcome.andThen {α β : Type} (o : Outcome α) (f : α → Except Error β) : Outcome β where
  result :=
    match o.result with
    | .ok value =>
      match f value with
      | .ok value => .ok value
      | .error e => .error (.error e)
    | .error stop => .error stop
  final := o.final

/-- How deeply calls of productions may nest while a text is read. Only a few calls lie between two
that take a token, so the length of the text bounds the nesting. -/
def depthFor (source : String) : Nat := 32 * (source.length + 2)

def initial (source : String) : ReaderState := ⟨.ofText source, .empty, 0, 0⟩

def run {α : Type} (source : String) (production : (depth : Nat) → Reading α) : Outcome α :=
  let outcome := production (depthFor source) (initial source)
  ⟨outcome.1, outcome.2⟩

def object (config : Config) (source : String) : Outcome Object :=
  run source (Grammar.object config)

def relation (config : Config) (source : String) : Outcome Relation :=
  (object config source).andThen fun
    | .relation r => .ok r
    | .union u => .error (.argument (.severalSpaces u.size))

def set (config : Config) (source : String) : Outcome Relation :=
  (relation config source).andThen fun r => do
    require r.isSet (.notASet r.space)
    return r

def union (config : Config) (source : String) : Outcome RelationUnion :=
  (object config source).andThen fun o => .ok o.toUnion

def piecewise (source : String) : Outcome Piecewise := run source Grammar.piecewise

end Quasiaffine.Reader

import Quasiaffine.Json.Basic
import Quasiaffine.Json.Quoted

set_option autoImplicit false

namespace Quasiaffine.Json

structure Layout where
  lineStart : (nesting : Nat) → List Char
  afterColon : List Char

namespace Layout

def compact : Layout := ⟨fun _ => [], []⟩

def indented : Layout := ⟨fun nesting => '\n' :: List.replicate (2 * nesting) ' ', [' ']⟩

end Layout

mutual

/-- The text of a value at a nesting. Empty lists and objects have no inner blanks. A value
without meaning has no text of its own and is written as null. -/
def write (layout : Layout) (nesting : Nat) : Json → List Char
  | null => "null".toList
  | boolean true => "true".toList
  | boolean false => "false".toList
  | integer value => (toString value).toList
  | text value => Quoted.encode value.toList
  | list [] => ['[', ']']
  | list (j :: js) =>
    '[' :: layout.lineStart (nesting + 1) ++ j.write layout (nesting + 1)
      ++ writeElements layout (nesting + 1) js ++ layout.lineStart nesting ++ [']']
  | object [] => ['\x7b', '\x7d']
  | object ((name, j) :: fs) =>
    '\x7b' :: layout.lineStart (nesting + 1) ++ Quoted.encode name.toList ++ ':' :: layout.afterColon
      ++ j.write layout (nesting + 1) ++ writeFields layout (nesting + 1) fs
      ++ layout.lineStart nesting ++ ['\x7d']
  | foreign => "null".toList

def writeElements (layout : Layout) (nesting : Nat) : List Json → List Char
  | [] => []
  | j :: js =>
    ',' :: layout.lineStart nesting ++ j.write layout nesting ++ writeElements layout nesting js

def writeFields (layout : Layout) (nesting : Nat) : List (String × Json) → List Char
  | [] => []
  | (name, j) :: fs =>
    ',' :: layout.lineStart nesting ++ Quoted.encode name.toList ++ ':' :: layout.afterColon
      ++ j.write layout nesting ++ writeFields layout nesting fs

end

def compact (j : Json) : String := String.ofList (j.write .compact 0)

def indented (j : Json) : String := String.ofList (j.write .indented 0)

end Quasiaffine.Json

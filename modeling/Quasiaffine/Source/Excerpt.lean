import Quasiaffine.Source.Span

set_option autoImplicit false

namespace Quasiaffine.Source

def lines : List Char → List (List Char)
  | [] => [[]]
  | c :: cs =>
    if c = '\n' then [] :: lines cs
    else
      match lines cs with
      | [] => [[c]]
      | l :: ls => (c :: l) :: ls

def line? (source : String) (number : Nat) : Option String :=
  if number = 0 then none else (lines source.toList)[number - 1]?.map String.ofList

/-- How many carets mark a span: one for each of its characters if it lies on one line, and at
least one. -/
def markerWidth (s : Span) : Nat :=
  if s.stop.line = s.start.line then
    if s.start.column < s.stop.column then s.stop.column - s.start.column else 1
  else 1

def excerpt? (source : String) (s : Span) : Option String :=
  (line? source s.start.line).map fun line =>
    line ++ "\n" ++ String.ofList (List.replicate (s.start.column - 1) ' ')
      ++ String.ofList (List.replicate (markerWidth s) '^')

theorem lines_ne_nil (cs : List Char) : lines cs ≠ [] := by
  cases cs with
  | nil => simp [lines]
  | cons c cs =>
    simp only [lines]
    split
    · simp
    · split <;> simp

/-- The lines with line ends put between them are the text. -/
theorem intercalate_lines (cs : List Char) : ['\n'].intercalate (lines cs) = cs := by
  induction cs with
  | nil => rfl
  | cons c cs ih =>
    simp only [lines]
    have hne := lines_ne_nil cs
    cases h : lines cs with
    | nil => exact absurd h hne
    | cons l ls =>
      rw [h] at ih
      by_cases hc : c = '\n'
      · cases ls <;> simp_all [List.intercalate, List.intersperse]
      · cases ls <;> simp_all [List.intercalate, List.intersperse]

end Quasiaffine.Source

import Quasiaffine.Reader.Grammar

set_option autoImplicit false

namespace Quasiaffine.Grammar

open Reading

def divided (product : Piecewise) : Reading Piecewise := do
  if ← eatMark .slash then
    check (product.scaleDown (← positiveLiteral))
  else return product

theorem factor_succ (depth : Nat) (space : Space) :
    factor (depth + 1) space = (do
      enter
      let operand ← operand depth space
      if ← eatMark .percent then
        check (operand.mod (← positiveLiteral))
      else if ← eatKeyword .mod then
        check (operand.mod (← positiveLiteral))
      else if ← eatMark .star then
        let n ← literalProduct depth 1
        divided (operand.scale n)
      else divided operand) := by
  rw [factor]
  rfl

def firstConjunct (depth : Nat) (set : Relation) (negated : Bool) : Reading Relation := do
  let first ← conjunct depth set
  moreConjuncts depth set (← if negated then check (set.subtract first) else pure first)

theorem conjunction_succ (depth : Nat) (set : Relation) :
    conjunction (depth + 1) set = (do
      enter
      firstConjunct depth set (← eatKeyword .not)) := by
  rw [conjunction]
  rfl

def nextConjunct (depth : Nat) (set result : Relation) (negated : Bool) : Reading Relation := do
  let other ← conjunct depth set
  moreConjuncts depth set
    (← check (if negated then result.subtract other else result.intersect other))

theorem moreConjuncts_succ (depth : Nat) (set result : Relation) :
    moreConjuncts (depth + 1) set result = (do
      enter
      if ← eatKeyword .and then nextConjunct depth set result (← eatKeyword .not)
      else return result) := by
  rw [moreConjuncts]
  rfl

def bareConjunct (depth : Nat) (set : Relation) : Reading Relation := do
  let t ← next
  match t.lexeme with
  | .condition r => return r
  | .keyword .exist _ => quantifier depth set
  | .keyword .always _ => return set
  | .keyword .never _ => return .empty set.space
  | _ =>
    push t
    comparisons depth set

theorem conjunct_succ (depth : Nat) (set : Relation) :
    conjunct (depth + 1) set = (do
      enter
      if ← nextIsMark .leftParen then parenthesis depth set
      bareConjunct depth set) := by
  rw [conjunct]
  rfl

def quantifierBody (depth : Nat) (set : Relation) (mark : Nat) (inParens : Bool) :
    Reading Relation := do
  let inner ← quantified depth set
  expectMark .colon
  let inner ← condition depth inner
  let inner ← check (inner.projectOut .output (set.dim .output)
    (inner.dim .output - set.dim .output))
  let recovered ← check inner.recoverDefinitions
  modify fun s => { s with scope := s.scope.rollback mark }
  if inParens then expectMark .rightParen
  return recovered.relation

theorem quantifier_succ (depth : Nat) (set : Relation) :
    quantifier (depth + 1) set = (do
      enter
      let mark := (← get).scope.size
      quantifierBody depth set mark (← eatMark .leftParen)) := by
  rw [quantifier]
  rfl

def moreQuantified (depth : Nat) (set : Relation) : Reading Relation := do
  if ← eatMark .comma then quantified depth set else return set

theorem quantified_succ (depth : Nat) (set : Relation) :
    quantified (depth + 1) set = (do
      enter
      let t ← next
      match t.lexeme with
      | .identifier name =>
        if (← position? name).isSome then stop (.semantic (.nameTaken name) t.span)
        let pos ← declare (some name)
        let set ← check (set.addDims .output 1)
        if ← eatMark .eq then
          let set ← definition depth set pos
          moreQuantified depth set
        else moreQuantified depth set
      | _ =>
        push t
        return set) := by
  rw [quantified]
  rfl

def insideParenthesis (depth : Nat) (set : Relation) (opening : Span) : Reading Unit := do
  let first ← peek
  if startsCondition first.lexeme then
    parenthesisedCondition depth set opening
  else
    let f ← expression depth set.space
    let closed ← eatMark .rightParen
    push (.made (.expression f) first.span)
    if !closed then parenthesisedCondition depth set opening

theorem parenthesis_succ (depth : Nat) (set : Relation) :
    parenthesis (depth + 1) set = (do
      enter
      let opening ← expect (.mark .leftParen)
      if ← nextIsMark .leftParen then parenthesis depth set
      insideParenthesis depth set opening.span) := by
  rw [parenthesis]
  rfl

end Quasiaffine.Grammar

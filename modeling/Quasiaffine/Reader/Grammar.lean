import Quasiaffine.Reader.State

/-!
The grammar of expressions and conditions.

```text
expression  := ['-'] factor (('+' | '-') factor)*
factor      := operand ['%' n | 'mod' n | ['*' n ('*' n)*] ['/' n]]
operand     := n | n '*' factor | n factor | name | '(' expression ')' | '[' expression ']'
             | ('floord' | 'ceild') '(' expression ',' n ')' | ('min' | 'max') '(' expressions ')'
choice      := expression | condition '?' choice ':' choice
condition   := conjunction ('or' conjunction)*
conjunction := ['not'] conjunct ('and' ['not'] conjunct)*
conjunct    := 'true' | 'false' | '(' condition ')' | 'exists' ['('] variables ':' condition [')']
             | expressions (comparison expressions)+
```

A production that extends a condition gets the set built so far and answers the extended set; all
variables in scope are dimensions of it. An opening parenthesis may begin an expression or a
condition. What is read behind it is put back as a placeholder token, and the production that comes
next takes it up as its first operand.

The first argument of a production bounds how deeply calls nest. `Reader.depthFor` gives enough.
-/

set_option autoImplicit false

namespace Quasiaffine.Grammar

open Reading

def variableAt (space : Space) (pos : Nat) : Except Error Piecewise := do
  let nParam := space.dim .param
  let a ←
    if pos < nParam then Affine.var (.ofSpace space) .param pos
    else Affine.var (.ofSpace space) .output (pos - nParam)
  return .ofAffine a

def literal : Reading Int := do
  let t ← next
  match t.lexeme with
  | .number v => return v
  | _ => stop (t.unfit .constant)

def positiveLiteral : Reading Int := do
  let t ← next
  match t.lexeme with
  | .number v => if 0 < v then return v else stop (t.unfit .positiveConstant)
  | _ => stop (t.unfit .positiveConstant)

def startsFactor : Lexeme → Bool
  | .mark .leftParen | .mark .leftBracket => true
  | .keyword .min _ | .keyword .max _ | .keyword .floord _ | .keyword .ceild _ => true
  | .identifier _ | .expression _ => true
  | _ => false

/-- Whether a token behind a parenthesis tells that a condition begins. -/
def startsCondition : Lexeme → Bool
  | .keyword .exist _ | .keyword .not _ | .keyword .always _ | .keyword .never _ => true
  | .condition _ => true
  | _ => false

/-- Whether the literal just read is the coefficient of what follows. A star between the two is
taken. -/
def coefficientFollows : Reading Bool := do
  if ← eatMark .star then return true
  nextIs .identifier

def literalProduct : Nat → Int → Reading Int
  | 0, _ => throw .exhausted
  | depth + 1, product => do
    enter
    let product := product * (← literal)
    if ← eatMark .star then literalProduct depth product else return product

mutual

def expression : Nat → Space → Reading Piecewise
  | 0, _ => throw .exhausted
  | depth + 1, space => do
    enter
    terms depth space false (.const space 0)

/-- The terms that are left of a sum, of which the first is subtracted if `negated`. -/
def terms : Nat → Space → (negated : Bool) → (sum : Piecewise) → Reading Piecewise
  | 0, _, _, _ => throw .exhausted
  | depth + 1, space, negated, sum => do
    enter
    let t ← next
    match t.lexeme with
    | .mark .minus => terms depth space (!negated) sum
    | .number v =>
      again t
      -- The sign goes to the literal before the literal is read as an operand.
      let v := if negated then -v else v
      let term ←
        if ← coefficientFollows then
          pure ((← factor depth space).scale v)
        else
          push (.made (.number v) t.span)
          factor depth space
      moreTerms depth space (← check (sum.add term))
    | .endOfInput => stop (t.unfit .expression)
    | lexeme =>
      if startsFactor lexeme then
        push t
        let term ← factor depth space
        moreTerms depth space (← check (if negated then sum.sub term else sum.add term))
      else stop (t.unfit .termStart)

def moreTerms : Nat → Space → (sum : Piecewise) → Reading Piecewise
  | 0, _, _ => throw .exhausted
  | depth + 1, space, sum => do
    enter
    let t ← next
    match t.lexeme with
    | .mark .minus => terms depth space true sum
    | .mark .plus => terms depth space false sum
    | .number v =>
      push t
      -- The sign of a negative literal stands for the operator.
      if v < 0 then terms depth space false sum else return sum
    | _ =>
      push t
      return sum

def factor : Nat → Space → Reading Piecewise
  | 0, _ => throw .exhausted
  | depth + 1, space => do
    enter
    let operand ← operand depth space
    if ← eatMark .percent then
      check (operand.mod (← positiveLiteral))
    else if ← eatKeyword .mod then
      check (operand.mod (← positiveLiteral))
    else
      let product ←
        if ← eatMark .star then pure (operand.scale (← literalProduct depth 1)) else pure operand
      if ← eatMark .slash then
        check (product.scaleDown (← positiveLiteral))
      else return product

def operand : Nat → Space → Reading Piecewise
  | 0, _ => throw .exhausted
  | depth + 1, space => do
    enter
    let t ← next
    match t.lexeme with
    | .expression f => return f
    | .identifier name =>
      match ← position? name with
      | some pos => check (variableAt space pos)
      | none => stop (.semantic (.unknownName name) t.span)
    | .number v =>
      again t
      if ← eatMark .star then return (← factor depth space).scale v
      else return .const space v
    | .mark .leftParen =>
      let f ← expression depth space
      expectMark .rightParen
      return f
    | .mark .leftBracket =>
      again t
      let f ← expression depth space
      expectMark .rightBracket
      check f.floor
    | .keyword .floord _ =>
      again t
      check (← quotient depth space).floor
    | .keyword .ceild _ =>
      again t
      check (← quotient depth space).ceil
    | .keyword .min _ =>
      again t
      check (Piecewise.minList (← arguments depth space))
    | .keyword .max _ =>
      again t
      check (Piecewise.maxList (← arguments depth space))
    | _ => stop (t.unfit .factor)

def quotient : Nat → Space → Reading Piecewise
  | 0, _ => throw .exhausted
  | depth + 1, space => do
    enter
    expectMark .leftParen
    let f ← expression depth space
    expectMark .comma
    let divisor ← positiveLiteral
    expectMark .rightParen
    check (f.scaleDown divisor)

def arguments : Nat → Space → Reading (List Piecewise)
  | 0, _ => throw .exhausted
  | depth + 1, space => do
    enter
    expectMark .leftParen
    let fs ← expressions depth space
    expectMark .rightParen
    return fs

def expressions : Nat → Space → Reading (List Piecewise)
  | 0, _ => throw .exhausted
  | depth + 1, space => do
    enter
    let f ← expression depth space
    if ← eatMark .comma then return f :: (← expressions depth space) else return [f]

def choice : Nat → Space → Reading Piecewise
  | 0, _ => throw .exhausted
  | depth + 1, space => do
    enter
    let first ← peek
    let f ← expression depth space
    -- The expression begins a condition, and becomes its first operand.
    if (← peek).lexeme.comparison?.isSome then
      push (.made (.expression f) first.span)
      let set ← condition depth (.full space)
      expectMark .question
      let ifTrue ← choice depth space
      expectMark .colon
      let ifFalse ← choice depth space
      warn
      check (Piecewise.select set ifTrue ifFalse)
    else return f

def condition : Nat → Relation → Reading Relation
  | 0, _ => throw .exhausted
  | depth + 1, set => do
    enter
    let t ← peek
    -- An empty condition keeps the set as it is.
    if t.kind = .mark .rightBrace ∨ t.kind = .mark .semicolon then return set
    moreAlternatives depth set (← conjunction depth set)

def moreAlternatives : Nat → (set result : Relation) → Reading Relation
  | 0, _, _ => throw .exhausted
  | depth + 1, set, result => do
    enter
    if ← eatKeyword .or then
      let alternative ← conjunction depth set
      moreAlternatives depth set (← check (result.union alternative))
    else return result

def conjunction : Nat → Relation → Reading Relation
  | 0, _ => throw .exhausted
  | depth + 1, set => do
    enter
    let negated ← eatKeyword .not
    let first ← conjunct depth set
    -- A negated conjunct is subtracted from what the others leave.
    moreConjuncts depth set (← if negated then check (set.subtract first) else pure first)

def moreConjuncts : Nat → (set result : Relation) → Reading Relation
  | 0, _, _ => throw .exhausted
  | depth + 1, set, result => do
    enter
    if ← eatKeyword .and then
      let negated ← eatKeyword .not
      let other ← conjunct depth set
      moreConjuncts depth set
        (← check (if negated then result.subtract other else result.intersect other))
    else return result

def conjunct : Nat → Relation → Reading Relation
  | 0, _ => throw .exhausted
  | depth + 1, set => do
    enter
    if ← nextIsMark .leftParen then parenthesis depth set
    let t ← next
    match t.lexeme with
    | .condition r => return r
    | .keyword .exist _ => quantifier depth set
    | .keyword .always _ => return set
    | .keyword .never _ => return .empty set.space
    | _ =>
      push t
      comparisons depth set

/-- A chain of comparisons. Each compares all expressions on its left with all on its right. -/
def comparisons : Nat → Relation → Reading Relation
  | 0, _ => throw .exhausted
  | depth + 1, set => do
    enter
    let left ← expressions depth set.space
    let t ← next
    match t.lexeme.comparison? with
    | some op => moreComparisons depth set.space left op set
    | none => stop (t.unfit .comparison)

def moreComparisons : Nat → Space → (left : List Piecewise) → Comparison → (set : Relation) →
    Reading Relation
  | 0, _, _, _, _ => throw .exhausted
  | depth + 1, space, left, op, set => do
    enter
    let right ← expressions depth space
    let holds ← check (Piecewise.compareListSet left right op)
    let set ← check (set.intersect holds)
    let t ← next
    match t.lexeme.comparison? with
    | some op => moreComparisons depth space right op set
    | none =>
      push t
      return set

/-- What follows `exists`. The variables are the last dimensions while the condition is read, and
are then projected out. -/
def quantifier : Nat → Relation → Reading Relation
  | 0, _ => throw .exhausted
  | depth + 1, set => do
    enter
    let first := set.dim .output
    let mark := (← get).scope.size
    let inParens ← eatMark .leftParen
    let set ← quantified depth set
    expectMark .colon
    let set ← condition depth set
    let set ← check (set.projectOut .output first (set.dim .output - first))
    let recovered ← check set.recoverDefinitions
    modify fun s => { s with scope := s.scope.rollback mark }
    if inParens then expectMark .rightParen
    return recovered.relation

def quantified : Nat → Relation → Reading Relation
  | 0, _ => throw .exhausted
  | depth + 1, set => do
    enter
    let t ← next
    match t.lexeme with
    | .identifier name =>
      if (← position? name).isSome then stop (.semantic (.nameTaken name) t.span)
      let pos ← declare (some name)
      let set ← check (set.addDims .output 1)
      let set ← if ← eatMark .eq then definition depth set pos else pure set
      if ← eatMark .comma then quantified depth set else return set
    | _ =>
      push t
      return set

/-- Reads what an opening parenthesis begins at the start of a conjunct, and puts a placeholder back
in its place: a condition if it is one, and otherwise an expression that is still to be compared. -/
def parenthesis : Nat → Relation → Reading Unit
  | 0, _ => throw .exhausted
  | depth + 1, set => do
    enter
    let opening ← expect (.mark .leftParen)
    if ← nextIsMark .leftParen then parenthesis depth set
    let first ← peek
    if startsCondition first.lexeme then
      parenthesisedCondition depth set opening.span
    else
      let f ← expression depth set.space
      let closed ← eatMark .rightParen
      push (.made (.expression f) first.span)
      if !closed then parenthesisedCondition depth set opening.span

def parenthesisedCondition : Nat → Relation → (opening : Span) → Reading Unit
  | 0, _, _ => throw .exhausted
  | depth + 1, set, opening => do
    enter
    let set ← condition depth set
    let closing ← expect (.mark .rightParen)
    push (.made (.condition set) (opening.cover closing.span))

def definition : Nat → Relation → (pos : Nat) → Reading Relation
  | 0, _, _ => throw .exhausted
  | depth + 1, set, pos => do
    enter
    let value ← choice depth set.space
    let name ← check (variableAt set.space pos)
    check (set.intersect (← check (name.compareSet value .eq)))

end

end Quasiaffine.Grammar

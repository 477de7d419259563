import Quasiaffine.Source.Span
import Quasiaffine.Space.Names
import Quasiaffine.Token.Kind

/-!
What can go wrong. An error is a cause; `Error.message` is the only place where causes become
text. The causes of the reader carry the span of source text to which they belong.
-/

set_option autoImplicit false

namespace Quasiaffine

inductive LexicalFault where
  | unexpectedCharacter (c : Char)
  | singleAmpersand
  | unterminatedString
  deriving DecidableEq, Repr

def LexicalFault.text : LexicalFault → String
  | unexpectedCharacter c => s!"Unexpected character: '{c}'"
  | singleAmpersand => "Expected '&&', found single '&'"
  | unterminatedString => "Unterminated string literal"

inductive Expectation where
  | token (kind : TokenKind)
  | tuple
  | freshName
  | exponent
  | constant
  | positiveConstant
  | factor
  | expression
  | termStart
  | comparison
  | endOfObject
  deriving DecidableEq, Repr

def Expectation.wanted? : Expectation → Option String
  | token kind => some s!"'{kind.text}'"
  | tuple => some "'['"
  | freshName => some "unique identifier"
  | exponent => some "non-negative exponent"
  | constant => some "constant value"
  | positiveConstant => some "positive constant"
  | factor => some "factor"
  | expression => some "affine expression"
  | termStart | comparison | endOfObject => none

def Expectation.text (e : Expectation) : String :=
  match e.wanted? with
  | some wanted => "expecting " ++ wanted
  | none =>
    match e with
    | comparison => "missing operator"
    | endOfObject => "unexpected input after object"
    | _ => "unexpected token"

inductive SyntaxClass where
  | unexpectedToken
  | expectedToken
  | expectedFactor
  | missingOperator
  | expectedValue
  | unexpectedEnd
  deriving DecidableEq, Repr

structure SyntaxFault where
  expectation : Expectation
  /-- The text of the token that stands there. -/
  found : String
  /-- That token is the end of the text. -/
  atEnd : Bool
  deriving DecidableEq, Repr

namespace SyntaxFault

/-- A missing token counts as an early end of the text where the text ends. -/
def syntaxClass (f : SyntaxFault) : SyntaxClass :=
  match f.expectation with
  | .token _ => if f.atEnd then .unexpectedEnd else .expectedToken
  | .tuple | .freshName => .expectedToken
  | .exponent | .constant | .positiveConstant => .expectedValue
  | .factor | .termStart => .expectedFactor
  | .expression => .unexpectedEnd
  | .comparison => .missingOperator
  | .endOfObject => .unexpectedToken

end SyntaxFault

inductive SemanticFault where
  | unknownName (name : String)
  | nameTaken (name : String)
  | setsAndRelations
  | pieceElsewhere (piece whole : Space)
  deriving DecidableEq, Repr

def SemanticFault.text : SemanticFault → String
  | unknownName name => s!"unknown identifier '{name}'"
  | nameTaken name => s!"expecting unique identifier, found '{name}'"
  | setsAndRelations => "cannot combine sets and relations in one union"
  | pieceElsewhere piece whole => s!"piece over {piece.text} in expression over {whole.text}"

inductive ArgumentFault where
  | rowWidth (width columns : Nat)
  | setWithoutInput
  | divisionsOutsideSpace
  | dimensionOutOfBounds (pos : Nat)
  | noTupleOf (kind : DimKind)
  | tupleSize (size expected : Nat)
  | insertionBeyond (pos size : Nat)
  | notInsertable (kind : DimKind)
  | rangeBeyond (first last : Nat)
  | notDroppable (kind : DimKind)
  | notASetSpace
  | divisionMatrixShape (columns dims divs : Nat)
  | divisionOutOfOrder (div : Nat)
  | spaceSize (size expected : Nat)
  | divisionWidth (width expected : Nat)
  | invalidDivision (div : Nat)
  | localInsertionBeyond (pos size : Nat) (kind : DimKind)
  | localRangeBeyond (first last : Nat) (kind : DimKind)
  | stillInUse (kind : DimKind)
  | notProjectable (kind : DimKind) (first last : Nat)
  | equalityWidth (width expected : Nat)
  | replacementElsewhere
  | notReplaceable (kind : DimKind) (pos : Nat)
  | mergedSpaces (left right : Space)
  | positionBeyond (pos : Nat) (kind : DimKind)
  | affineWidth (width expected : Nat)
  | denominatorNotPositive
  | divisorNotPositive (divisor : Int)
  | pointSize (size expected : Nat)
  | constraintWidth (width expected : Nat)
  | spacesDiffer (left right : Space)
  | spaceMisfit (space current : Space)
  | domainElsewhere (domain expression : Space)
  | emptyList
  | parametersDiffer (added first : Space)
  | severalSpaces (count : Nat)
  | notASet (space : Space)
  deriving DecidableEq, Repr

def ArgumentFault.text : ArgumentFault → String
  | rowWidth width columns => s!"row of width {width} in matrix with {columns} columns"
  | setWithoutInput => "set spaces have no input tuple"
  | divisionsOutsideSpace => "divisions are not part of a tuple space"
  | dimensionOutOfBounds pos => s!"dimension {pos} out of bounds"
  | noTupleOf kind => s!"no {kind.text} tuple to replace"
  | tupleSize size expected => s!"tuple with {size} dimensions replacing one with {expected}"
  | insertionBeyond pos size => s!"insertion position {pos} beyond {size} dimensions"
  | notInsertable kind => s!"cannot insert {kind.text} dimensions"
  | rangeBeyond first last => s!"dimension range {first}..{last} out of bounds"
  | notDroppable kind => s!"cannot drop {kind.text} dimensions"
  | notASetSpace => "expecting a set space"
  | divisionMatrixShape columns dims divs =>
    s!"division matrix with {columns} columns for {dims} dimensions and {divs} divisions"
  | divisionOutOfOrder div => s!"division {div} refers to itself or a later division"
  | spaceSize size expected => s!"space with {size} dimensions replacing one with {expected}"
  | divisionWidth width expected =>
    s!"division of width {width} added to local space of width {expected}"
  | invalidDivision div => s!"invalid definition for division {div}"
  | localInsertionBeyond pos size kind =>
    s!"insertion position {pos} beyond {size} dimensions of kind {kind.text}"
  | localRangeBeyond first last kind =>
    s!"dimension range {first}..{last} of kind {kind.text} out of bounds"
  | stillInUse kind => s!"divisions refer to {kind.text} dimensions being removed"
  | notProjectable kind first last => s!"cannot project {kind.text} dimensions {first}..{last}"
  | equalityWidth width expected =>
    s!"equality of width {width} for local space of width {expected}"
  | replacementElsewhere => "spaces don't match"
  | notReplaceable kind pos => s!"cannot substitute {kind.text} dimension {pos}"
  | mergedSpaces left right => s!"spaces should be identical: {left.text} vs {right.text}"
  | positionBeyond pos kind => s!"position {pos} out of bounds for {kind.text} dimensions"
  | affineWidth width expected =>
    s!"affine vector of length {width} for local space of width {expected}"
  | denominatorNotPositive => "affine denominator must be positive"
  | divisorNotPositive divisor => s!"cannot divide by non-positive value {divisor}"
  | pointSize size expected => s!"point with {size} coordinates for {expected} dimensions"
  | constraintWidth width expected =>
    s!"constraint of width {width} added to relation of width {expected}"
  | spacesDiffer left right => s!"spaces don't match: {left.text} vs {right.text}"
  | spaceMisfit space current => s!"space {space.text} does not fit relation over {current.text}"
  | domainElsewhere domain expression =>
    s!"domain {domain.text} does not match expression space {expression.text}"
  | emptyList => "empty expression list"
  | parametersDiffer added first =>
    s!"parameters of {added.text} differ from those of {first.text}"
  | severalSpaces count => s!"expected a single relation, found a union over {count} spaces"
  | notASet space => s!"expected a set, found a relation over {space.text}"

/-- Operations outside the fragment in which results can be expressed. -/
inductive Unsupported where
  | replacementWithDivisions
  | subtractingQuantified
  | evaluatingUnknown
  deriving DecidableEq, Repr

def Unsupported.text : Unsupported → String
  | replacementWithDivisions => "substituting an expression with divisions"
  | subtractingQuantified => "subtracting a relation with existentially quantified variables"
  | evaluatingUnknown => "evaluating a division of unknown definition"

inductive Error where
  | lexical (fault : LexicalFault) (span : Span)
  | grammar (fault : SyntaxFault) (span : Span)
  | semantic (fault : SemanticFault) (span : Span)
  | argument (fault : ArgumentFault)
  | unsupported (fault : Unsupported)
  deriving DecidableEq, Repr

namespace Error

def span? : Error → Option Span
  | lexical _ span | grammar _ span | semantic _ span => some span
  | argument _ | unsupported _ => none

def phase : Error → String
  | lexical _ _ => "Lexer error"
  | grammar _ _ => "Parse error"
  | semantic _ _ => "Semantic error"
  | argument _ => "Invalid argument"
  | unsupported _ => "Unsupported operation"

def detail : Error → String
  | lexical fault span => fault.text ++ " at " ++ span.text
  | grammar fault span =>
    fault.expectation.text ++ " at " ++ span.text ++ " (found: " ++ fault.found ++ ")"
  | semantic fault span => fault.text ++ " at " ++ span.text
  | argument fault => fault.text
  | unsupported fault => fault.text

def message (e : Error) : String := e.phase ++ ": " ++ e.detail

end Error

/-- Fails with an argument fault unless a condition holds. -/
def require (condition : Bool) (fault : ArgumentFault) : Except Error Unit :=
  if condition then .ok () else .error (.argument fault)

@[simp] theorem require_eq_ok_iff {condition : Bool} {fault : ArgumentFault} {u : Unit} :
    require condition fault = .ok u ↔ condition = true := by
  cases condition <;> simp [require]

end Quasiaffine

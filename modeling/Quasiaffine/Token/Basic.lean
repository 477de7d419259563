import Quasiaffine.Piecewise.Choice

set_option autoImplicit false

namespace Quasiaffine

inductive Lexeme where
  | number (value : Int)
  | string (contents : String)
  | identifier (name : String)
  /-- A keyword is `spelled` if it is written as a word and not as an operator. -/
  | keyword (word : Keyword) (spelled : Bool)
  | mark (mark : Mark)
  | expression (value : Piecewise)
  | condition (value : Relation)
  | endOfInput
  deriving DecidableEq, Repr

namespace Lexeme

def kind : Lexeme → TokenKind
  | number _ => .number
  | string _ => .string
  | identifier _ => .identifier
  | keyword word _ => .keyword word
  | mark m => .mark m
  | expression _ => .expression
  | condition _ => .condition
  | endOfInput => .endOfInput

def text : Lexeme → String
  | number value => toString value
  | string contents => "\"" ++ contents ++ "\""
  | identifier name => name
  | lexeme => lexeme.kind.text

def isKeyword : Lexeme → Bool
  | keyword _ _ => true
  | _ => false

def tupleName : Lexeme → Label
  | identifier name => some name
  | keyword word true => some word.text
  | _ => none

def comparison? : Lexeme → Option Comparison
  | mark .eq => some .eq
  | mark .ne => some .ne
  | mark .le => some .le
  | mark .lt => some .lt
  | mark .ge => some .ge
  | mark .gt => some .gt
  | _ => none

def isPlaceholder : Lexeme → Bool
  | expression _ | condition _ => true
  | _ => false

end Lexeme

structure Token where
  lexeme : Lexeme
  span : Span
  /-- No token stands before this one on its line. -/
  startsLine : Bool
  deriving DecidableEq, Repr

namespace Token

def made (lexeme : Lexeme) (span : Span) : Token := ⟨lexeme, span, false⟩

def kind (t : Token) : TokenKind := t.lexeme.kind

def text (t : Token) : String := t.lexeme.text

def isEnd (t : Token) : Bool := t.kind == .endOfInput

def unfit (t : Token) (expectation : Expectation) : Error :=
  .grammar ⟨expectation, t.text, t.isEnd⟩ t.span

end Token

end Quasiaffine

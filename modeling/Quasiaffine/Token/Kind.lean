set_option autoImplicit false

namespace Quasiaffine

inductive Keyword where
  | exist
  | and
  | or
  | not
  | always
  | never
  | min
  | max
  | floord
  | ceild
  | mod
  deriving DecidableEq, Repr

def Keyword.text : Keyword → String
  | .exist => "exists"
  | .and => "and"
  | .or => "or"
  | .not => "not"
  | .always => "true"
  | .never => "false"
  | .min => "min"
  | .max => "max"
  | .floord => "floord"
  | .ceild => "ceild"
  | .mod => "mod"

def Keyword.all : List Keyword :=
  [.exist, .and, .or, .not, .always, .never, .min, .max, .floord, .ceild, .mod]

def Keyword.ofText? (word : String) : Option Keyword := Keyword.all.find? (·.text == word)

inductive Mark where
  | plus
  | minus
  | star
  | slash
  | percent
  | caret
  | eq
  | ne
  | lt
  | le
  | gt
  | ge
  | leftParen
  | rightParen
  | leftBracket
  | rightBracket
  | leftBrace
  | rightBrace
  | comma
  | semicolon
  | colon
  | pipe
  | question
  | arrow
  deriving DecidableEq, Repr

def Mark.text : Mark → String
  | .plus => "+"
  | .minus => "-"
  | .star => "*"
  | .slash => "/"
  | .percent => "%"
  | .caret => "^"
  | .eq => "="
  | .ne => "!="
  | .lt => "<"
  | .le => "<="
  | .gt => ">"
  | .ge => ">="
  | .leftParen => "("
  | .rightParen => ")"
  | .leftBracket => "["
  | .rightBracket => "]"
  | .leftBrace => "\x7b"
  | .rightBrace => "\x7d"
  | .comma => ","
  | .semicolon => ";"
  | .colon => ":"
  | .pipe => "|"
  | .question => "?"
  | .arrow => "->"

def Mark.all : List Mark :=
  [.plus, .minus, .star, .slash, .percent, .caret, .eq, .ne, .lt, .le, .gt, .ge, .leftParen,
    .rightParen, .leftBracket, .rightBracket, .leftBrace, .rightBrace, .comma, .semicolon, .colon,
    .pipe, .question, .arrow]

/-- What a token is. The kinds `expression` and `condition` stand for text that has been read
already and put back as one token. -/
inductive TokenKind where
  | number
  | string
  | identifier
  | keyword (word : Keyword)
  | mark (mark : Mark)
  | expression
  | condition
  | endOfInput
  deriving DecidableEq, Repr

namespace TokenKind

def text : TokenKind → String
  | number => "value"
  | string => "string"
  | identifier => "identifier"
  | keyword word => word.text
  | mark m => m.text
  | expression => "affine expression"
  | condition => "condition"
  | endOfInput => "end of input"

def all : List TokenKind :=
  [number, string, identifier] ++ Keyword.all.map keyword ++ Mark.all.map mark
    ++ [expression, condition, endOfInput]

def ofText? (name : String) : Option TokenKind := all.find? (·.text == name)

end TokenKind

theorem Keyword.ofText?_text (word : Keyword) : Keyword.ofText? word.text = some word := by
  cases word <;> decide

end Quasiaffine

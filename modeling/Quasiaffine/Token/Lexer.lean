import Quasiaffine.Text.Blank
import Quasiaffine.Text.Identifier
import Quasiaffine.Token.Basic

/-!
Cutting a text into tokens. Between tokens there may be white space, comments from `#` or `//` to
the end of the line, and comments between `/*` and `*/`, which nest and may stay open at the end.

`Lexeme.scan` cuts one token from the front of a text that starts with none of these; the text is
what it takes followed by what it leaves. A `Cursor` keeps the place in the source beside the text
that is left.
-/

set_option autoImplicit false

namespace Quasiaffine

namespace Lexeme

def digitsValue (digits : List Char) : Nat :=
  digits.foldl (fun n c => 10 * n + (c.toNat - '0'.toNat)) 0

/-- Operators and punctuation. An operator that begins another one stands behind it. -/
def operators : List (List Char × Lexeme) := [
  (['-', '>'], mark .arrow), (['=', '='], mark .eq), (['!', '='], mark .ne),
  (['<', '='], mark .le), (['>', '='], mark .ge), (['&', '&'], keyword .and false),
  (['|', '|'], keyword .or false), (['-'], mark .minus), (['='], mark .eq),
  (['!'], keyword .not false), (['<'], mark .lt), (['>'], mark .gt), (['|'], mark .pipe),
  (['('], mark .leftParen), ([')'], mark .rightParen), (['['], mark .leftBracket),
  ([']'], mark .rightBracket), (['\x7b'], mark .leftBrace), (['\x7d'], mark .rightBrace),
  ([','], mark .comma), ([';'], mark .semicolon), ([':'], mark .colon), (['?'], mark .question),
  (['+'], mark .plus), (['*'], mark .star), (['/'], mark .slash), (['%'], mark .percent),
  (['^'], mark .caret)]

/-- What one scan takes from the front of a text, and what it leaves. -/
structure Scan where
  result : Except LexicalFault Lexeme
  taken : List Char
  rest : List Char

def ofWord (word : String) : Lexeme :=
  match Keyword.ofText? word with
  | some w => keyword w true
  | none => identifier word

def scanNumber (sign : List Char) (text : List Char) : Scan :=
  let digits := text.takeWhile Text.isDigit
  let value : Int := digitsValue digits
  ⟨.ok (number (if sign.isEmpty then value else -value)), sign ++ digits,
    text.dropWhile Text.isDigit⟩

def scanWord (c : Char) (text : List Char) : Scan :=
  let body := text.takeWhile Text.isIdentifierContinue
  let behind := text.dropWhile Text.isIdentifierContinue
  let word := c :: (body ++ behind.takeWhile (· == '\''))
  ⟨.ok (ofWord (String.ofList word)), word, behind.dropWhile (· == '\'')⟩

def isStringCharacter (c : Char) : Bool := c != '"' && c != '\n'

def scanString (text : List Char) : Scan :=
  let contents := text.takeWhile isStringCharacter
  match text.dropWhile isStringCharacter with
  | [] => ⟨.error .unterminatedString, '"' :: contents, []⟩
  | c :: rest =>
    ⟨if c = '"' then .ok (string (String.ofList contents)) else .error .unterminatedString,
      '"' :: contents ++ [c], rest⟩

def scanOperator (c : Char) (text : List Char) : Scan :=
  match operators.find? (fun operator => operator.1.isPrefixOf (c :: text)) with
  | some operator => ⟨.ok operator.2, operator.1, (c :: text).drop operator.1.length⟩
  | none => ⟨.error (if c = '&' then .singleAmpersand else .unexpectedCharacter c), [c], text⟩

/-- Cuts one token from the front of a text. A minus sign belongs to the digit behind it. -/
def scan : List Char → Scan
  | [] => ⟨.ok endOfInput, [], []⟩
  | c :: text =>
    if Text.isDigit c then scanNumber [] (c :: text)
    else if c = '-' ∧ text.head?.any Text.isDigit then scanNumber ['-'] text
    else if c = '"' then scanString text
    else if Text.isIdentifierStart c then scanWord c text
    else scanOperator c text

theorem scanNumber_append (sign text : List Char) :
    (scanNumber sign text).taken ++ (scanNumber sign text).rest = sign ++ text := by
  simp [scanNumber, List.append_assoc]

theorem scanWord_append (c : Char) (text : List Char) :
    (scanWord c text).taken ++ (scanWord c text).rest = c :: text := by
  simp [scanWord, List.append_assoc]

theorem scanString_append (text : List Char) :
    (scanString text).taken ++ (scanString text).rest = '"' :: text := by
  have h := List.takeWhile_append_dropWhile (p := isStringCharacter) (l := text)
  unfold scanString
  cases hd : text.dropWhile isStringCharacter with
  | nil => rw [hd] at h; simpa using h
  | cons c rest => rw [hd] at h; simpa using h

theorem scanOperator_append (c : Char) (text : List Char) :
    (scanOperator c text).taken ++ (scanOperator c text).rest = c :: text := by
  unfold scanOperator
  split
  · rename_i operator h
    have hp := List.find?_some h
    obtain ⟨tail, ht⟩ := List.isPrefixOf_iff_prefix.1 hp
    simp [← ht]
  · rfl

/-- A scan cuts its text in two. -/
theorem scan_append (text : List Char) : (scan text).taken ++ (scan text).rest = text := by
  cases text with
  | nil => rfl
  | cons c text =>
    simp only [scan]
    split
    · exact scanNumber_append [] (c :: text)
    · split
      · rename_i h; rw [scanNumber_append, h.1]; rfl
      · split
        · rename_i h; rw [scanString_append, h]
        · split
          · exact scanWord_append c text
          · exact scanOperator_append c text

theorem operators_ne_nil : ∀ operator ∈ operators, operator.1 ≠ [] := by decide +kernel

theorem scan_taken_ne_nil {text : List Char} (h : text ≠ []) : (scan text).taken ≠ [] := by
  cases text with
  | nil => exact absurd rfl h
  | cons c text =>
    simp only [scan]
    split
    · rename_i hd; simp [scanNumber, hd]
    · split
      · simp [scanNumber]
      · split
        · unfold scanString; split <;> simp
        · split
          · simp [scanWord]
          · unfold scanOperator
            split
            · rename_i operator hf
              exact operators_ne_nil operator (List.mem_of_find?_eq_some hf)
            · simp

theorem scan_rest_length_lt {text : List Char} (h : text ≠ []) :
    (scan text).rest.length < text.length := by
  have happ := congrArg List.length (scan_append text)
  have hpos := List.length_pos_iff.2 (scan_taken_ne_nil h)
  simp only [List.length_append] at happ
  omega

end Lexeme

/-- What stands between two tokens: white space, or a comment of either kind. A block comment knows
how many others it lies in. -/
inductive Gap where
  | blank
  | lineComment
  | blockComment (outer : Nat)
  /-- At the second character of a sign that opens or closes a block comment. -/
  | sign (behind : Gap)

def Gap.closed : (outer : Nat) → Gap
  | 0 => blank
  | outer + 1 => blockComment outer

def Gap.skipped (gap : Gap) : List Char → List Char
  | [] => []
  | c :: text =>
    match gap with
    | .blank =>
      if Text.isBlank c then c :: skipped .blank text
      else if c = '#' ∨ c = '/' ∧ text.head? = some '/' then c :: skipped .lineComment text
      else if c = '/' ∧ text.head? = some '*' then c :: skipped (.sign (.blockComment 0)) text
      else []
    | .lineComment =>
      if c = '\n' then c :: skipped .blank text else c :: skipped .lineComment text
    | .blockComment outer =>
      if c = '*' ∧ text.head? = some '/' then c :: skipped (.sign (closed outer)) text
      else if c = '/' ∧ text.head? = some '*' then
        c :: skipped (.sign (.blockComment (outer + 1))) text
      else c :: skipped (.blockComment outer) text
    | .sign behind => c :: skipped behind text

/-- The text that is left, where it starts in the source, and whether no token has come yet on its
line. -/
structure Cursor where
  rest : List Char
  place : Location
  lineStart : Bool
  deriving DecidableEq, Repr

namespace Cursor

def ofText (source : String) : Cursor := ⟨source.toList, .first, true⟩

def skipGap (c : Cursor) : Cursor :=
  let skipped := Gap.skipped .blank c.rest
  ⟨c.rest.drop skipped.length, c.place.afterAll skipped, c.lineStart || skipped.contains '\n'⟩

def next (c : Cursor) : Except Error Token × Cursor :=
  let start := c.skipGap
  let scan := Lexeme.scan start.rest
  let stop := start.place.afterAll scan.taken
  let token :=
    match scan.result with
    | .ok lexeme => .ok ⟨lexeme, ⟨start.place, stop⟩, start.lineStart⟩
    | .error fault => .error (.lexical fault ⟨start.place, stop⟩)
  (token, ⟨scan.rest, stop, scan.taken.contains '\n'⟩)

theorem length_rest_skipGap_le (c : Cursor) : c.skipGap.rest.length ≤ c.rest.length := by
  simp [skipGap]

/-- Reading a token other than the end of the text leaves less text. -/
theorem length_rest_next_lt {c d : Cursor} {t : Token} (h : c.next = (.ok t, d))
    (hend : t.isEnd = false) : d.rest.length < c.rest.length := by
  have hle := c.length_rest_skipGap_le
  have hne : c.skipGap.rest ≠ [] := by
    intro hnil
    simp only [next, hnil, Lexeme.scan, Prod.mk.injEq, Except.ok.injEq] at h
    rw [← h.1] at hend
    simp [Token.isEnd, Token.kind, Lexeme.kind] at hend
  have hlt := Lexeme.scan_rest_length_lt hne
  simp only [next, Prod.mk.injEq] at h
  rw [← h.2]
  exact Nat.lt_of_lt_of_le hlt hle

def tokens (c : Cursor) : Except Error (List Token) :=
  match h : c.next with
  | (.error e, _) => .error e
  | (.ok t, d) =>
    if hend : t.isEnd then .ok [t]
    else
      have : d.rest.length < c.rest.length := length_rest_next_lt h (by simpa using hend)
      match d.tokens with
      | .error e => .error e
      | .ok ts => .ok (t :: ts)
  termination_by c.rest.length

end Cursor

end Quasiaffine

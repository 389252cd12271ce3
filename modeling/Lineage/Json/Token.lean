import Lineage.Json.Text

/-!
# JSON tokens

The marks, words, numbers and strings that a JSON text consists of.  Numbers and strings are kept
as written.  `Token.ofChars?` splits a text into its tokens and `Token.chars` writes one token.
-/

namespace Lineage.Json

/-- A smallest unit of a JSON text. -/
inductive Token where
  | openBrace
  | closeBrace
  | openBracket
  | closeBracket
  | comma
  | colon
  | null
  | bool (value : Bool)
  | number (literal : List Char)
  | text (body : List Char)
deriving DecidableEq, Repr

namespace Token

/-! ## §1 Number literals -/

/-- The digits before the point: a lone zero, or digits that do not start with one. -/
def scanWhole : List Char → Option (List Char × List Char)
  | '0' :: rest => some (['0'], rest)
  | cs =>
    match cs.span Char.isDigit with
    | ([], _) => none
    | (digits, rest) => some (digits, rest)

/-- An optional point with at least one digit after it. -/
def scanFraction : List Char → Option (List Char × List Char)
  | '.' :: cs =>
    match cs.span Char.isDigit with
    | ([], _) => none
    | (digits, rest) => some ('.' :: digits, rest)
  | cs => some ([], cs)

/-- An optional exponent: its letter, an optional sign and at least one digit. -/
def scanExponent : List Char → Option (List Char × List Char)
  | e :: cs =>
    if e = 'e' ∨ e = 'E' then
      let (sign, cs) := match cs with
        | '+' :: cs => (['+'], cs)
        | '-' :: cs => (['-'], cs)
        | cs => ([], cs)
      match cs.span Char.isDigit with
      | ([], _) => none
      | (digits, rest) => some (e :: sign ++ digits, rest)
    else some ([], e :: cs)
  | [] => some ([], [])

/-- A number literal: an optional minus sign, the whole part, a fraction and an exponent. -/
def scanNumber (cs : List Char) : Option (List Char × List Char) := do
  let (sign, cs) := match cs with
    | '-' :: cs => (['-'], cs)
    | cs => ([], cs)
  let (whole, cs) ← scanWhole cs
  let (fraction, cs) ← scanFraction cs
  let (exponent, cs) ← scanExponent cs
  return (sign ++ whole ++ fraction ++ exponent, cs)

/-! ## §2 Splitting a text -/

/-- The blanks that may stand between tokens. -/
def isBlank (c : Char) : Bool := c = ' ' || c = '\t' || c = '\n' || c = '\r'

/-- Split off the token at the start of a text. -/
def scan : List Char → Option (Token × List Char)
  | '{' :: rest => some (openBrace, rest)
  | '}' :: rest => some (closeBrace, rest)
  | '[' :: rest => some (openBracket, rest)
  | ']' :: rest => some (closeBracket, rest)
  | ',' :: rest => some (comma, rest)
  | ':' :: rest => some (colon, rest)
  | 'n' :: 'u' :: 'l' :: 'l' :: rest => some (null, rest)
  | 't' :: 'r' :: 'u' :: 'e' :: rest => some (bool true, rest)
  | 'f' :: 'a' :: 'l' :: 's' :: 'e' :: rest => some (bool false, rest)
  | '"' :: rest => (Text.scan rest).map fun (body, rest) => (text body, rest)
  | cs => (scanNumber cs).map fun (literal, rest) => (number literal, rest)

/-- The tokens of a text, at most as many as `fuel` tells. -/
def ofCharsFrom : Nat → List Char → Option (List Token)
  | fuel, cs =>
    match fuel, cs.dropWhile isBlank with
    | _, [] => some []
    | 0, _ => none
    | fuel + 1, cs => do
      let (token, rest) ← scan cs
      return token :: (← ofCharsFrom fuel rest)

/-- The tokens of a text.  A token takes at least one character, so the length of the text
bounds their number. -/
def ofChars? (cs : List Char) : Option (List Token) := ofCharsFrom cs.length cs

/-! ## §3 Writing -/

def chars : Token → List Char
  | openBrace => ['{']
  | closeBrace => ['}']
  | openBracket => ['[']
  | closeBracket => [']']
  | comma => [',']
  | colon => [':']
  | null => ['n', 'u', 'l', 'l']
  | bool true => ['t', 'r', 'u', 'e']
  | bool false => ['f', 'a', 'l', 's', 'e']
  | number literal => literal
  | text body => '"' :: body ++ ['"']

end Token

end Lineage.Json

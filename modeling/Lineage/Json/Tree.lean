import Lineage.Json.Token

/-!
# JSON values

The tree of a JSON text, with object fields in the order in which they were written.  `Json.parse?`
reads a text, `Json.render` writes one without blanks, and the readers in the third part say what
a value means: a number is only taken as a natural number when it is written as one.
-/

namespace Lineage

/-- A JSON value.  Number literals and string bodies stand as they were written. -/
inductive Json where
  | null
  | bool (value : Bool)
  | number (literal : List Char)
  | text (body : List Char)
  | array (items : List Json)
  | object (fields : List (List Char × Json))
deriving Repr, Inhabited

namespace Json

/-! ## §1 Reading -/

mutual

/-- Read a value from the front of a token list. -/
def ofTokens : Nat → List Token → Option (Json × List Token)
  | 0, _ => none
  | _ + 1, [] => none
  | fuel + 1, token :: rest =>
    match token with
    | .null => some (null, rest)
    | .bool value => some (bool value, rest)
    | .number literal => some (number literal, rest)
    | .text body => some (text body, rest)
    | .openBracket =>
      match rest with
      | .closeBracket :: rest => some (array [], rest)
      | rest => (itemsOfTokens fuel rest).map fun (items, rest) => (array items, rest)
    | .openBrace =>
      match rest with
      | .closeBrace :: rest => some (object [], rest)
      | rest => (fieldsOfTokens fuel rest).map fun (fields, rest) => (object fields, rest)
    | _ => none

/-- Read the items of an array that has some, with the bracket that ends it. -/
def itemsOfTokens : Nat → List Token → Option (List Json × List Token)
  | 0, _ => none
  | fuel + 1, tokens =>
    match ofTokens fuel tokens with
    | some (item, .comma :: rest) =>
      (itemsOfTokens fuel rest).map fun (items, rest) => (item :: items, rest)
    | some (item, .closeBracket :: rest) => some ([item], rest)
    | _ => none

/-- Read the fields of an object that has some, with the brace that ends it. -/
def fieldsOfTokens : Nat → List Token → Option (List (List Char × Json) × List Token)
  | 0, _ => none
  | fuel + 1, tokens =>
    match tokens with
    | .text key :: .colon :: rest =>
      match ofTokens fuel rest with
      | some (value, .comma :: rest) =>
        (fieldsOfTokens fuel rest).map fun (fields, rest) => ((key, value) :: fields, rest)
      | some (value, .closeBrace :: rest) => some ([(key, value)], rest)
      | _ => none
    | _ => none

end

/-- Read a whole text as one value.  No chain of calls passes a token more than twice, which
bounds the depth of the reading. -/
def parse? (text : String) : Option Json := do
  let tokens ← Token.ofChars? text.toList
  match ofTokens (2 * tokens.length + 1) tokens with
  | some (value, []) => some value
  | _ => none

/-! ## §2 Writing -/

mutual

def tokens : Json → List Token
  | null => [.null]
  | bool value => [.bool value]
  | number literal => [.number literal]
  | text body => [.text body]
  | array items => .openBracket :: itemTokens items
  | object fields => .openBrace :: fieldTokens fields

/-- The tokens of the items of an array, up to its closing bracket. -/
def itemTokens : List Json → List Token
  | [] => [.closeBracket]
  | [item] => tokens item ++ [.closeBracket]
  | item :: items => tokens item ++ .comma :: itemTokens items

/-- The tokens of the fields of an object, up to its closing brace. -/
def fieldTokens : List (List Char × Json) → List Token
  | [] => [.closeBrace]
  | [(key, value)] => .text key :: .colon :: tokens value ++ [.closeBrace]
  | (key, value) :: fields => .text key :: .colon :: tokens value ++ .comma :: fieldTokens fields

end

/-- The text of a value, without blanks. -/
def render (value : Json) : String := String.ofList (value.tokens.flatMap Token.chars)

/-! ## §3 Building and taking apart -/

def ofNat (n : Nat) : Json := number (Nat.toDigits 10 n)

def ofText (s : String) : Json := text (Text.encode s.toList)

/-- An object whose fields are named by texts. -/
def ofFields (fields : List (String × Json)) : Json :=
  object (fields.map fun (name, value) => (Text.encode name.toList, value))

/-- The number that a text of digits writes, if there is no superfluous zero in front. -/
def plainNat? (literal : List Char) : Option Nat :=
  match literal with
  | [] => none
  | ['0'] => some 0
  | '0' :: _ => none
  | cs => if cs.all Char.isDigit then some (Nat.ofDigitChars 10 cs 0) else none

/-- A number that is written as a natural number: no sign, no point, no exponent. -/
def nat? : Json → Option Nat
  | number literal => plainNat? literal
  | _ => none

def bool? : Json → Option Bool
  | bool value => some value
  | _ => none

/-- The text that a string means. -/
def text? : Json → Option String
  | text body => (Text.decode body).map String.ofList
  | _ => none

def items? : Json → Option (List Json)
  | array items => some items
  | _ => none

/-- The values given to a record's fields, in the order of `names`.  A record is written as an
object, in which unknown names are passed over and a known one stands at most once, or as an array
of its first fields. -/
def record? (names : List String) : Json → Option (List (Option Json))
  | array items =>
    if items.length ≤ names.length then some (names.zipIdx.map fun (_, i) => items[i]?) else none
  | object fields => do
    let named ← fields.mapM fun (key, value) =>
      (Text.decode key).map fun name => (String.ofList name, value)
    names.mapM fun name =>
      match named.filter fun field => field.1 = name with
      | [] => some none
      | [(_, value)] => some (some value)
      | _ => none
  | _ => none

/-- The name of a variant without contents: a string, or an object whose only field has that name
and the value null. -/
def variant? : Json → Option String
  | text body => (Text.decode body).map String.ofList
  | object [(key, null)] => (Text.decode key).map String.ofList
  | _ => none

end Json

end Lineage

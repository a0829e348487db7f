import YulInline.Json.Number

/-!
# The tokens of a JSON text

`Token.scan?` cuts a text into tokens and drops the white space between them, which is space, tab,
line feed and carriage return. A text is refused when it is no sequence of tokens: a name other than
`null`, `true` and `false`, a string with a raw control character, an unknown escape, a number
without digits where digits are due.

A string may spell a character above `0xffff` as two escaped UTF-16 units. A unit that is half of
such a pair without the other half denotes no character; the token of such a string has no text.
-/

namespace YulInline.Text

/-- The value of a hexadecimal digit. -/
def hexDigit? (c : Char) : Option Nat :=
  if '0' ≤ c ∧ c ≤ '9' then some (c.toNat - '0'.toNat)
  else if 'a' ≤ c ∧ c ≤ 'f' then some (c.toNat - 'a'.toNat + 10)
  else if 'A' ≤ c ∧ c ≤ 'F' then some (c.toNat - 'A'.toNat + 10)
  else none

/-- The value of a sequence of hexadecimal digits, the most significant one first. -/
def hexValue? (digits : List Char) : Option Nat :=
  digits.foldlM (fun value c => (hexDigit? c).map fun digit => 16 * value + digit) 0

end YulInline.Text

namespace YulInline.Json

/-- A token. -/
inductive Token where
  | openObject
  | closeObject
  | openArray
  | closeArray
  | colon
  | comma
  | null
  | bool (value : Bool)
  | number (value : Number)
  /-- A string; it has no text if an escape in it is half of a surrogate pair only. -/
  | string (text : Option String)
deriving DecidableEq, Repr, Inhabited

namespace Token

/-- Whether `c` may stand between tokens. -/
def isBlank (c : Char) : Bool :=
  c = ' ' || c = '\t' || c = '\n' || c = '\r'

/-! ## Strings -/

/-- The character that a backslash and `c` stand for, if `c` is no `u`. -/
def shortEscape? : Char → Option Char
  | '"' => some '"'
  | '\\' => some '\\'
  | '/' => some '/'
  | 'b' => some '\x08'
  | 'f' => some '\x0c'
  | 'n' => some '\n'
  | 'r' => some '\r'
  | 't' => some '\t'
  | _ => none

/-- What one step through a string finds: a character, or a UTF-16 unit given by its code. -/
inductive Piece where
  /-- A character that stands for itself or has a short escape. -/
  | char (value : Char)
  /-- An escaped unit. -/
  | unit (code : Nat)
deriving DecidableEq, Repr

/-- The pieces of a string up to its closing quote, and what follows that. The pieces found so far
are in `found`, the last one first. -/
def pieces? (found : List Piece) : List Char → Option (List Piece × List Char)
  | '"' :: rest => some (found.reverse, rest)
  | '\\' :: 'u' :: a :: b :: c :: d :: rest =>
    match Text.hexValue? [a, b, c, d] with
    | some code => pieces? (.unit code :: found) rest
    | none => none
  | '\\' :: c :: rest =>
    match shortEscape? c with
    | some c => pieces? (.char c :: found) rest
    | none => none
  | c :: rest => if c < ' ' then none else pieces? (.char c :: found) rest
  | [] => none

/-- Whether a unit is the first half of a surrogate pair. -/
def isHighHalf (code : Nat) : Bool :=
  0xd800 ≤ code && code < 0xdc00

/-- Whether a unit is the second half of a surrogate pair. -/
def isLowHalf (code : Nat) : Bool :=
  0xdc00 ≤ code && code < 0xe000

/-- The characters that pieces denote, put behind those in `done`, the last one first; there are
none if a half of a surrogate pair stands alone. -/
def joinPieces? (done : List Char) : List Piece → Option (List Char)
  | [] => some done.reverse
  | .char c :: pieces => joinPieces? (c :: done) pieces
  | .unit high :: .unit low :: pieces =>
    if isHighHalf high && isLowHalf low then
      joinPieces? (Char.ofNat (0x10000 + (high - 0xd800) * 0x400 + (low - 0xdc00)) :: done) pieces
    else if isHighHalf high || isLowHalf high then none
    else joinPieces? (Char.ofNat high :: done) (.unit low :: pieces)
  | .unit code :: pieces =>
    if isHighHalf code || isLowHalf code then none
    else joinPieces? (Char.ofNat code :: done) pieces

/-- The token of a string whose opening quote has been read, and what follows it. -/
def string? (text : List Char) : Option (Token × List Char) :=
  (pieces? [] text).map fun (pieces, rest) =>
    (.string ((joinPieces? [] pieces).map String.ofList), rest)

/-! ## Numbers -/

/-- The digits at the start of a text, and what follows them. -/
def digits (text : List Char) : List Nat × List Char :=
  ((text.takeWhile Char.isDigit).map fun c => c.toNat - '0'.toNat, text.dropWhile Char.isDigit)

/-- The digits at the start of a text that has to start with one, and what follows them. -/
def someDigits? (text : List Char) : Option (List Nat × List Char) :=
  match digits text with
  | ([], _) => none
  | found => some found

/-- The digits in front of the point: a zero stands alone. -/
def whole? : List Char → Option (List Nat × List Char)
  | '0' :: rest => some ([0], rest)
  | text => someDigits? text

/-- The digits behind a point, if there is one. -/
def fraction? : List Char → Option (List Nat × List Char)
  | '.' :: rest => someDigits? rest
  | text => some ([], text)

/-- The digits of an exponent behind its sign. -/
def signedExponent? : List Char → Option (Int × List Char)
  | '-' :: rest =>
    (someDigits? rest).map fun (found, rest) => (-(Number.valueOfDigits found : Int), rest)
  | '+' :: rest => (someDigits? rest).map fun (found, rest) => (Number.valueOfDigits found, rest)
  | text => (someDigits? text).map fun (found, rest) => (Number.valueOfDigits found, rest)

/-- The exponent, if there is one. -/
def exponent? : List Char → Option (Option Int × List Char)
  | 'e' :: rest => (signedExponent? rest).map fun (value, rest) => (some value, rest)
  | 'E' :: rest => (signedExponent? rest).map fun (value, rest) => (some value, rest)
  | text => some (none, text)

/-- The number behind a sign that has been read, and what follows it. -/
def unsigned? (negative : Bool) (text : List Char) : Option (Token × List Char) := do
  let (whole, text) ← whole? text
  let (fraction, text) ← fraction? text
  let (exponent, text) ← exponent? text
  return (.number ⟨negative, whole, fraction, exponent⟩, text)

/-! ## Texts -/

/-- The token that a text starts with, and what follows it. -/
def next? : List Char → Option (Token × List Char)
  | '\x7b' :: rest => some (.openObject, rest)
  | '\x7d' :: rest => some (.closeObject, rest)
  | '[' :: rest => some (.openArray, rest)
  | ']' :: rest => some (.closeArray, rest)
  | ':' :: rest => some (.colon, rest)
  | ',' :: rest => some (.comma, rest)
  | '"' :: rest => string? rest
  | '-' :: rest => unsigned? true rest
  | 'n' :: 'u' :: 'l' :: 'l' :: rest => some (.null, rest)
  | 't' :: 'r' :: 'u' :: 'e' :: rest => some (.bool true, rest)
  | 'f' :: 'a' :: 'l' :: 's' :: 'e' :: rest => some (.bool false, rest)
  | text => unsigned? false text

/-- The tokens of a text, at most `fuel` characters of which start a token or are blank. -/
def scanWith? : Nat → List Char → Option (List Token)
  | _, [] => some []
  | 0, _ :: _ => none
  | fuel + 1, c :: rest =>
    if isBlank c then scanWith? fuel rest
    else match next? (c :: rest) with
      | none => none
      | some (token, rest) => (scanWith? fuel rest).map (token :: ·)

/-- The tokens of a text. -/
def scan? (text : List Char) : Option (List Token) :=
  scanWith? text.length text

end Token

end YulInline.Json

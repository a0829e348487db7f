import YulInline.Json.Token
import YulInline.Toml.Basic

/-!
# Reading TOML

The lines of a document: headers, and keys with their values. Each stands on a line of its own, with
a comment behind it at most. Within the brackets of an array line breaks and comments may stand
between any two parts; between braces everything is on one line.

A text is refused for a control character anywhere, tab and the two forms of a line break apart, and
for a value that is no text, array or table.
-/

namespace YulInline.Toml

/-! ## Blank space -/

/-- Whether `c` is white space within a line. -/
def isBlank (c : Char) : Bool :=
  c = ' ' || c = '\t'

/-- Whether `c` may stand in a comment, and in a text unless it has a meaning there. -/
def isPlain (c : Char) : Bool :=
  c = '\t' || (' ' ≤ c && c ≠ '\x7f')

/-- What follows the white space at the start of a text. -/
def skipBlank (text : List Char) : List Char :=
  text.dropWhile isBlank

/-- What follows the white space, line breaks and comments at the start of a text; `inComment` says
whether the text starts within a comment. -/
def skipLines (inComment : Bool) : List Char → List Char
  | [] => []
  | '\n' :: rest => skipLines false rest
  | '\r' :: '\n' :: rest => skipLines false rest
  | c :: rest =>
    if inComment then if isPlain c then skipLines true rest else c :: rest
    else if isBlank c then skipLines false rest
    else if c = '#' then skipLines true rest
    else c :: rest

/-- What follows a line break. -/
def lineBreak? : List Char → Option (List Char)
  | '\n' :: rest => some rest
  | '\r' :: '\n' :: rest => some rest
  | _ => none

/-- What follows the end of a line, in front of which white space and a comment may stand. -/
def lineEnd? (text : List Char) : Option (List Char) :=
  let text := match skipBlank text with
    | '#' :: rest => rest.dropWhile isPlain
    | text => text
  match text with
  | [] => some []
  | text => lineBreak? text

/-! ## Texts -/

/-- The character whose code is given by hexadecimal digits. -/
def charOfHex? (digits : List Char) : Option Char :=
  match Text.hexValue? digits with
  | none => none
  | some code => if code.isValidChar then some (Char.ofNat code) else none

/-- The character that a backslash and `c` stand for, if `c` does not announce a code. -/
def shortEscape? : Char → Option Char
  | 'b' => some '\x08'
  | 't' => some '\t'
  | 'n' => some '\n'
  | 'f' => some '\x0c'
  | 'r' => some '\r'
  | '"' => some '"'
  | '\\' => some '\\'
  | _ => none

/-- A text whose characters were found in reverse order. -/
def ofFound (found : List Char) : String :=
  String.ofList found.reverse

/-- A text up to a double quote, with escapes, and what follows it. -/
def basic? (found : List Char) : List Char → Option (String × List Char)
  | [] => none
  | '"' :: rest => some (ofFound found, rest)
  | '\\' :: 'u' :: a :: b :: c :: d :: rest =>
    match charOfHex? [a, b, c, d] with
    | some c => basic? (c :: found) rest
    | none => none
  | '\\' :: 'U' :: a :: b :: c :: d :: e :: f :: g :: h :: rest =>
    match charOfHex? [a, b, c, d, e, f, g, h] with
    | some c => basic? (c :: found) rest
    | none => none
  | '\\' :: c :: rest =>
    match shortEscape? c with
    | some c => basic? (c :: found) rest
    | none => none
  | c :: rest => if isPlain c then basic? (c :: found) rest else none

/-- A text over several lines up to three double quotes, with escapes, and what follows it. One or
two more quotes in front of the closing ones belong to the text. A backslash at the end of a line
skips all white space and line breaks behind it; `skipping` says that this is going on. -/
def basicLines? (skipping : Bool) (found : List Char) : List Char → Option (String × List Char)
  | [] => none
  | '"' :: '"' :: '"' :: '"' :: '"' :: rest => some (ofFound ('"' :: '"' :: found), rest)
  | '"' :: '"' :: '"' :: '"' :: rest => some (ofFound ('"' :: found), rest)
  | '"' :: '"' :: '"' :: rest => some (ofFound found, rest)
  | '\n' :: rest => basicLines? skipping (if skipping then found else '\n' :: found) rest
  | '\r' :: '\n' :: rest => basicLines? skipping (if skipping then found else '\n' :: found) rest
  | '\\' :: 'u' :: a :: b :: c :: d :: rest =>
    match charOfHex? [a, b, c, d] with
    | some c => basicLines? false (c :: found) rest
    | none => none
  | '\\' :: 'U' :: a :: b :: c :: d :: e :: f :: g :: h :: rest =>
    match charOfHex? [a, b, c, d, e, f, g, h] with
    | some c => basicLines? false (c :: found) rest
    | none => none
  | '\\' :: c :: rest =>
    match shortEscape? c with
    | some c => basicLines? false (c :: found) rest
    | none =>
      if (lineBreak? (skipBlank (c :: rest))).isSome then basicLines? true found (c :: rest)
      else none
  | c :: rest =>
    if skipping && isBlank c then basicLines? true found rest
    else if isPlain c then basicLines? false (c :: found) rest
    else none

/-- A text up to a single quote, without escapes, and what follows it. -/
def literal? (found : List Char) : List Char → Option (String × List Char)
  | [] => none
  | '\'' :: rest => some (ofFound found, rest)
  | c :: rest => if isPlain c then literal? (c :: found) rest else none

/-- A text over several lines up to three single quotes, without escapes, and what follows it. One
or two more quotes in front of the closing ones belong to the text. -/
def literalLines? (found : List Char) : List Char → Option (String × List Char)
  | [] => none
  | '\'' :: '\'' :: '\'' :: '\'' :: '\'' :: rest => some (ofFound ('\'' :: '\'' :: found), rest)
  | '\'' :: '\'' :: '\'' :: '\'' :: rest => some (ofFound ('\'' :: found), rest)
  | '\'' :: '\'' :: '\'' :: rest => some (ofFound found, rest)
  | '\n' :: rest => literalLines? ('\n' :: found) rest
  | '\r' :: '\n' :: rest => literalLines? ('\n' :: found) rest
  | c :: rest => if isPlain c then literalLines? (c :: found) rest else none

/-- A text without the line break it may start with. -/
def dropLineBreak (text : List Char) : List Char :=
  (lineBreak? text).getD text

/-- A text in quotes of any form, and what follows it. -/
def quoted? : List Char → Option (String × List Char)
  | '"' :: '"' :: '"' :: rest => basicLines? false [] (dropLineBreak rest)
  | '"' :: rest => basic? [] rest
  | '\'' :: '\'' :: '\'' :: rest => literalLines? [] (dropLineBreak rest)
  | '\'' :: rest => literal? [] rest
  | _ => none

/-! ## Keys -/

/-- Whether `c` may stand in a key without quotes. -/
def isBare (c : Char) : Bool :=
  c.isAlphanum || c = '_' || c = '-'

/-- A key without dots, and what follows it. -/
def simpleKey? : List Char → Option (String × List Char)
  | '"' :: rest => basic? [] rest
  | '\'' :: rest => literal? [] rest
  | text =>
    match text.takeWhile isBare with
    | [] => none
    | key => some (String.ofList key, text.dropWhile isBare)

/-- A dotted key of at most `fuel` parts, and what follows it and the white space behind it. -/
def pathWith? : Nat → List Char → Option (Path × List Char)
  | 0, _ => none
  | fuel + 1, text =>
    match simpleKey? text with
    | none => none
    | some (key, rest) =>
      match skipBlank rest with
      | '.' :: rest =>
        (pathWith? fuel (skipBlank rest)).map fun (path, rest) =>
          (⟨key :: path.parents, path.key⟩, rest)
      | rest => some (⟨[], key⟩, rest)

/-- A dotted key, and what follows it and the white space behind it. -/
def path? (text : List Char) : Option (Path × List Char) :=
  pathWith? text.length text

/-! ## Values -/

/-- A key with a value that is read by `value?`. -/
def keyValue? (value? : List Char → Option (Value × List Char)) (text : List Char) :
    Option ((Path × Value) × List Char) :=
  match path? text with
  | some (path, '=' :: rest) =>
    (value? (skipBlank rest)).map fun (value, rest) => ((path, value), rest)
  | _ => none

/-- The items of an array up to its closing bracket, at most `fuel` of them; a comma may follow the
last. -/
def items? (value? : List Char → Option (Value × List Char)) :
    Nat → List Char → Option (List Value × List Char)
  | 0, _ => none
  | fuel + 1, text =>
    match skipLines false text with
    | ']' :: rest => some ([], rest)
    | text =>
      match value? text with
      | none => none
      | some (value, rest) =>
        match skipLines false rest with
        | ',' :: rest => (items? value? fuel rest).map fun (values, rest) => (value :: values, rest)
        | ']' :: rest => some ([value], rest)
        | _ => none

/-- One or more entries of a table up to its closing brace, at most `fuel` of them. -/
def keyValues? (value? : List Char → Option (Value × List Char)) :
    Nat → List Char → Option (List (Path × Value) × List Char)
  | 0, _ => none
  | fuel + 1, text =>
    match keyValue? value? (skipBlank text) with
    | none => none
    | some (entry, rest) =>
      match skipBlank rest with
      | ',' :: rest =>
        (keyValues? value? fuel rest).map fun (entries, rest) => (entry :: entries, rest)
      | '\x7d' :: rest => some ([entry], rest)
      | _ => none

/-- A value whose arrays and tables are nested to depth `depth` at most, and what follows it. -/
def valueWith? : Nat → List Char → Option (Value × List Char)
  | depth + 1, '[' :: rest =>
    (items? (valueWith? depth) (rest.length + 1) rest).map fun (items, rest) => (.arr items, rest)
  | depth + 1, '\x7b' :: rest =>
    match skipBlank rest with
    | '\x7d' :: rest => some (.table ⟨.inline, []⟩, rest)
    | rest =>
      match keyValues? (valueWith? depth) rest.length rest with
      | none => none
      | some (entries, rest) => (Table.ofEntries? entries).map fun table => (.table table, rest)
  | _, text => (quoted? text).map fun (text, rest) => (.str text, rest)

/-- A value, and what follows it. -/
def value? (text : List Char) : Option (Value × List Char) :=
  valueWith? text.length text

/-! ## Documents -/

/-- What the line that a text starts with says, and what follows within that line. -/
def line? : List Char → Option (Line × List Char)
  | '[' :: '[' :: rest =>
    match path? (skipBlank rest) with
    | some (path, ']' :: ']' :: rest) => some (.element path, rest)
    | _ => none
  | '[' :: rest =>
    match path? (skipBlank rest) with
    | some (path, ']' :: rest) => some (.table path, rest)
    | _ => none
  | text => (keyValue? value? text).map fun ((path, value), rest) => (.entry path value, rest)

/-- The lines of a text, at most `fuel` of them. -/
def linesWith? : Nat → List Char → Option (List Line)
  | 0, text => if skipLines false text = [] then some [] else none
  | fuel + 1, text =>
    match skipLines false text with
    | [] => some []
    | text =>
      match line? text with
      | none => none
      | some (line, rest) =>
        match lineEnd? rest with
        | none => none
        | some rest => (linesWith? fuel rest).map (line :: ·)

/-- A text without the byte order mark it may start with. -/
def dropMark : List Char → List Char
  | '\ufeff' :: rest => rest
  | text => text

/-- The root table of a document. -/
def read? (text : String) : Option Table :=
  let text := dropMark text.toList
  (linesWith? text.length text).bind Table.ofLines?

end YulInline.Toml

import InlineMarkup.Toml.Strings
import InlineMarkup.Toml.Table

/-!
# InlineMarkup.Toml.Parser

The grammar of TOML documents.  Every reader takes a text and gives what it
read and what it leaves, or `none` if the text is not of its form; a document
is read line by line and its tables are built from the lines.
-/

namespace InlineMarkup.Toml

/-- How deep arrays and tables in braces may be nested. -/
def nestingLimit : Nat := 79

/-- How many keys may be joined by dots. -/
def dottedLimit : Nat := 79

/-! ## Blanks, comments and line ends -/

/-- A text without the blanks it starts with. -/
def dropBlanks (text : List Char) : List Char := text.dropWhile isBlank

/-- A text without the comment it starts with, if it starts with one. -/
def dropComment : List Char → List Char
  | '#' :: rest => rest.dropWhile isTextChar
  | text => text

/-- What follows the end of the line, which must come next. -/
def lineEnd? : List Char → Option (List Char)
  | [] => some []
  | '\n' :: rest => some rest
  | '\r' :: '\n' :: rest => some rest
  | _ => none

/-- What follows the line, on which nothing but a comment may come. -/
def lineTail? (text : List Char) : Option (List Char) := lineEnd? (dropComment (dropBlanks text))

/-- A text without the blanks, comments and line breaks it starts with. -/
def dropFiller (inComment : Bool) : List Char → List Char
  | [] => []
  | '\n' :: rest => dropFiller false rest
  | '\r' :: '\n' :: rest => dropFiller false rest
  | c :: rest =>
    if inComment then if isTextChar c then dropFiller true rest else c :: rest
    else if isBlank c then dropFiller false rest
    else if c = '#' then dropFiller true rest
    else c :: rest

/-! ## Keys -/

/-- Whether `c` may stand in a key without quotes. -/
def isKeyChar (c : Char) : Bool := c.isAlphanum || c == '-' || c == '_'

/-- A key without dots. -/
def simpleKey? (text : List Char) : Option (String × List Char) :=
  match text with
  | '"' :: rest => basicString? [] rest
  | '\'' :: rest => literalString? [] rest
  | _ =>
    match text.takeWhile isKeyChar with
    | [] => none
    | word => some (String.ofList word, text.dropWhile isKeyChar)

/-- Keys joined by dots, at most `limit` of them: those before the last, and
the last. -/
def dottedKey? : Nat → List Char → Option ((List String × String) × List Char)
  | 0, _ => none
  | limit + 1, text => do
    let (key, rest) ← simpleKey? (dropBlanks text)
    match dropBlanks rest with
    | '.' :: rest => do
      let ((path, last), rest) ← dottedKey? limit rest
      some ((key :: path, last), rest)
    | rest => some (([], key), rest)

/-- A key, with the blanks around it. -/
def key? (text : List Char) : Option ((List String × String) × List Char) :=
  dottedKey? dottedLimit text

/-! ## Values -/

/-- Whether `c` may stand in a value that is written without quotes. -/
def isTokenChar (c : Char) : Bool :=
  c.isAlphanum || c == '+' || c == '-' || c == '_' || c == '.' || c == ':'

/-- A number, a date-time or a truth value.  All of these go as far as their
characters do, except that a space may join a date and a time. -/
def bareValue? (text : List Char) : Option (Value × List Char) :=
  let token := text.takeWhile isTokenChar
  let rest := text.dropWhile isTokenChar
  let following := (rest.drop 1).takeWhile isTokenChar
  match Date.ofChars? token, rest.head?, zonedTime? following with
  | some date, some ' ', some (time, zone) =>
    some (.dateTime (.both date time zone), (rest.drop 1).dropWhile isTokenChar)
  | _, _, _ =>
    if token = ['t', 'r', 'u', 'e'] then some (.boolean true, rest)
    else if token = ['f', 'a', 'l', 's', 'e'] then some (.boolean false, rest)
    else
      match DateTime.ofChars? token with
      | some value => some (.dateTime value, rest)
      | none =>
        if isFloat token then some (.float (String.ofList token), rest)
        else (integer? token).map fun n => (.integer n, rest)

/-- The rest of an array, after `taken`, latest first; `element` reads an item
and `fuel` bounds their number. -/
def arrayItems? (element : List Char → Option (Value × List Char)) :
    Nat → List Value → List Char → Option (Value × List Char)
  | 0, _, _ => none
  | fuel + 1, taken, text =>
    match dropFiller false text with
    | ']' :: rest => some (.array taken.reverse, rest)
    | text => do
      let (item, rest) ← element text
      match dropFiller false rest with
      | ',' :: rest => arrayItems? element fuel (item :: taken) rest
      | ']' :: rest => some (.array (item :: taken).reverse, rest)
      | _ => none

/-- The rest of a table in braces that is not empty, after `entries`;
`element` reads a value and `fuel` bounds the number of pairs. -/
def inlinePairs? (element : List Char → Option (Value × List Char)) :
    Nat → Entries → List Char → Option (Value × List Char)
  | 0, _, _ => none
  | fuel + 1, entries, text => do
    let ((path, key), rest) ← key? text
    match rest with
    | '=' :: rest => do
      let (value, rest) ← element (dropBlanks rest)
      let entries ← Entries.assign path key value entries
      match dropBlanks rest with
      | ',' :: rest => inlinePairs? element fuel entries rest
      | '\x7d' :: rest => some (.table .braces entries, rest)
      | _ => none
    | _ => none

/-- A value in which arrays and tables in braces are nested up to `depth`. -/
def value? : Nat → List Char → Option (Value × List Char)
  | 0, text =>
    match text with
    | '[' :: _ | '\x7b' :: _ => none
    | '"' :: _ | '\'' :: _ => (string? text).map fun (s, rest) => (.string s, rest)
    | _ => bareValue? text
  | depth + 1, text =>
    match text with
    | '[' :: rest => arrayItems? (value? depth) (rest.length + 1) [] rest
    | '\x7b' :: rest =>
      match dropBlanks rest with
      | '\x7d' :: rest => some (.table .braces [], rest)
      | rest => inlinePairs? (value? depth) (rest.length + 1) [] rest
    | '"' :: _ | '\'' :: _ => (string? text).map fun (s, rest) => (.string s, rest)
    | _ => bareValue? text

/-! ## Lines -/

/-- A line that is neither blank nor a comment. -/
def line? (text : List Char) : Option (Line × List Char) :=
  match text with
  | '[' :: '[' :: rest => do
    let ((path, key), rest) ← key? rest
    match rest with
    | ']' :: ']' :: rest => do some (.tables path key, ← lineTail? rest)
    | _ => none
  | '[' :: rest => do
    let ((path, key), rest) ← key? rest
    match rest with
    | ']' :: rest => do some (.table path key, ← lineTail? rest)
    | _ => none
  | _ => do
    let ((path, key), rest) ← key? text
    match rest with
    | '=' :: rest => do
      let (value, rest) ← value? nestingLimit (dropBlanks rest)
      some (.pair path key value, ← lineTail? rest)
    | _ => none

/-- The lines of a text, of which `fuel` bounds the number. -/
def lines? : Nat → List Char → Option (List Line)
  | 0, _ => none
  | fuel + 1, text =>
    match dropBlanks text with
    | [] => some []
    | '#' :: rest => do lines? fuel (← lineEnd? (dropComment ('#' :: rest)))
    | '\n' :: rest => lines? fuel rest
    | '\r' :: '\n' :: rest => lines? fuel rest
    | text => do
      let (line, rest) ← line? text
      some (line :: (← lines? fuel rest))

/-- The entries of the document that a text is.  A byte order mark may come
before it. -/
def parse? (text : String) : Option Entries :=
  let body :=
    match text.toList with
    | '\uFEFF' :: rest => rest
    | chars => chars
  lines? (body.length + 1) body >>= document?

end InlineMarkup.Toml

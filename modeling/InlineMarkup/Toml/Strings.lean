import InlineMarkup.Toml.Number

/-!
# InlineMarkup.Toml.Strings

The four forms of strings.  Basic strings, in double quotes, know escapes;
literal strings, in single quotes, do not.  In the multi-line forms, which
three quotes begin and end, line breaks are text; one directly after the
opening quotes is not.  Every reader takes the text after the opening quotes
and gives the string and what it leaves.
-/

namespace InlineMarkup.Toml

/-- Whether `c` is white space within a line. -/
def isBlank (c : Char) : Bool := c == ' ' || c == '\t'

/-- Whether `c` may stand in a comment or a string: no control character but
the tab. -/
def isTextChar (c : Char) : Bool := c == '\t' || (0x20 ≤ c.toNat && c.toNat != 0x7F)

/-- The character with a code given in hexadecimal digits, if there is one. -/
def codePoint? (digits : List Char) : Option Char :=
  if digits.all isHexDigit then
    let code := ofDigits 16 digits
    if code.isValidChar then some (Char.ofNat code) else none
  else none

/-- The character that a backslash and `c` stand for. -/
def shortEscape? (c : Char) : Option Char :=
  match c with
  | 'b' => some '\x08'
  | 't' => some '\t'
  | 'n' => some '\n'
  | 'f' => some '\x0c'
  | 'r' => some '\r'
  | '"' => some '"'
  | '\\' => some '\\'
  | _ => none

/-- The rest of a basic string, after `taken`, nearest first. -/
def basicString? (taken : List Char) : List Char → Option (String × List Char)
  | [] => none
  | '"' :: rest => some (String.ofList taken.reverse, rest)
  | '\\' :: 'u' :: a :: b :: c :: d :: rest =>
    match codePoint? [a, b, c, d] with
    | some code => basicString? (code :: taken) rest
    | none => none
  | '\\' :: 'U' :: a :: b :: c :: d :: e :: f :: g :: h :: rest =>
    match codePoint? [a, b, c, d, e, f, g, h] with
    | some code => basicString? (code :: taken) rest
    | none => none
  | '\\' :: c :: rest =>
    match shortEscape? c with
    | some meant => basicString? (meant :: taken) rest
    | none => none
  | c :: rest => if c != '\\' && isTextChar c then basicString? (c :: taken) rest else none

/-- The rest of a literal string, after `taken`, nearest first. -/
def literalString? (taken : List Char) : List Char → Option (String × List Char)
  | [] => none
  | '\'' :: rest => some (String.ofList taken.reverse, rest)
  | c :: rest => if isTextChar c then literalString? (c :: taken) rest else none

/-- White space that a backslash at the end of a line takes away. -/
inductive Gap where
  /-- None. -/
  | none
  /-- After the backslash, on its line. -/
  | opened
  /-- After the end of its line. -/
  | crossed
deriving DecidableEq

/-- The rest of a multi-line basic string, after `taken`, nearest first.  Up to
two quotes before the closing three belong to the string. -/
def multiLineBasic? (gap : Gap) (taken : List Char) : List Char → Option (String × List Char)
  | [] => none
  | '\r' :: '\n' :: rest =>
    match gap with
    | .none => multiLineBasic? .none ('\n' :: taken) rest
    | _ => multiLineBasic? .crossed taken rest
  | '\n' :: rest =>
    match gap with
    | .none => multiLineBasic? .none ('\n' :: taken) rest
    | _ => multiLineBasic? .crossed taken rest
  | c :: rest =>
    if gap ≠ .none ∧ isBlank c then multiLineBasic? gap taken rest
    else if gap = .opened then none
    else
      match c, rest with
      | '"', '"' :: '"' :: '"' :: '"' :: rest =>
        some (String.ofList ('"' :: '"' :: taken).reverse, rest)
      | '"', '"' :: '"' :: '"' :: rest => some (String.ofList ('"' :: taken).reverse, rest)
      | '"', '"' :: '"' :: rest => some (String.ofList taken.reverse, rest)
      | '\\', 'u' :: a :: b :: c :: d :: rest =>
        match codePoint? [a, b, c, d] with
        | some code => multiLineBasic? .none (code :: taken) rest
        | none => none
      | '\\', 'U' :: a :: b :: c :: d :: e :: f :: g :: h :: rest =>
        match codePoint? [a, b, c, d, e, f, g, h] with
        | some code => multiLineBasic? .none (code :: taken) rest
        | none => none
      | '\\', c :: following =>
        if isBlank c ∨ c = '\n' ∨ c = '\r' then multiLineBasic? .opened taken (c :: following)
        else
          match shortEscape? c with
          | some meant => multiLineBasic? .none (meant :: taken) following
          | none => none
      | c, rest =>
        if c != '\\' && isTextChar c then multiLineBasic? .none (c :: taken) rest else none

/-- The rest of a multi-line literal string, after `taken`, nearest first.  Up
to two quotes before the closing three belong to the string. -/
def multiLineLiteral? (taken : List Char) : List Char → Option (String × List Char)
  | [] => none
  | '\'' :: '\'' :: '\'' :: '\'' :: '\'' :: rest =>
    some (String.ofList ('\'' :: '\'' :: taken).reverse, rest)
  | '\'' :: '\'' :: '\'' :: '\'' :: rest => some (String.ofList ('\'' :: taken).reverse, rest)
  | '\'' :: '\'' :: '\'' :: rest => some (String.ofList taken.reverse, rest)
  | '\r' :: '\n' :: rest => multiLineLiteral? ('\n' :: taken) rest
  | '\n' :: rest => multiLineLiteral? ('\n' :: taken) rest
  | c :: rest => if isTextChar c then multiLineLiteral? (c :: taken) rest else none

/-- A text without the line break it starts with, if it starts with one. -/
def dropLineBreak : List Char → List Char
  | '\n' :: rest => rest
  | '\r' :: '\n' :: rest => rest
  | text => text

/-- The string that a text starts with, in any of the four forms. -/
def string? : List Char → Option (String × List Char)
  | '"' :: '"' :: '"' :: rest => multiLineBasic? .none [] (dropLineBreak rest)
  | '\'' :: '\'' :: '\'' :: rest => multiLineLiteral? [] (dropLineBreak rest)
  | '"' :: rest => basicString? [] rest
  | '\'' :: rest => literalString? [] rest
  | _ => none

end InlineMarkup.Toml

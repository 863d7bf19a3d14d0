/-!
# InlineMarkup.Toml.Number

Numbers.  A number is judged as a whole, from a token that holds all of it.
-/

namespace InlineMarkup.Toml

/-! ## Digits -/

/-- The digits of a text in which single underscores may stand between digits;
`none` for any other text. -/
def groupedDigits? (isDigit : Char → Bool) : List Char → Option (List Char)
  | [] => none
  | [c] => if isDigit c then some [c] else none
  | c :: '_' :: rest =>
    if isDigit c then (groupedDigits? isDigit rest).map (c :: ·) else none
  | c :: rest => if isDigit c then (groupedDigits? isDigit rest).map (c :: ·) else none

/-- The value of a digit, up to base 16. -/
def digitValue (c : Char) : Nat :=
  if c.isDigit then c.toNat - '0'.toNat
  else if 'a' ≤ c ∧ c ≤ 'f' then c.toNat - 'a'.toNat + 10
  else c.toNat - 'A'.toNat + 10

/-- The number that digits denote in a base. -/
def ofDigits (base : Nat) (digits : List Char) : Nat :=
  digits.foldl (fun n c => n * base + digitValue c) 0

def isHexDigit (c : Char) : Bool := c.isDigit || ('a' ≤ c && c ≤ 'f') || ('A' ≤ c && c ≤ 'F')

def isOctalDigit (c : Char) : Bool := '0' ≤ c && c ≤ '7'

def isBinaryDigit (c : Char) : Bool := c == '0' || c == '1'

/-- The digits of a decimal number without sign, which has no leading zero. -/
def decimalDigits? (text : List Char) : Option (List Char) :=
  match text with
  | '0' :: _ :: _ => none
  | _ => groupedDigits? Char.isDigit text

/-- Whether a number is negative, and the number without its sign. -/
def splitSign : List Char → Bool × List Char
  | '+' :: rest => (false, rest)
  | '-' :: rest => (true, rest)
  | text => (false, text)

/-! ## Integers -/

/-- A number of 64 bits, one of them for the sign. -/
def word? (n : Int) : Option Int :=
  if -0x8000000000000000 ≤ n ∧ n < 0x8000000000000000 then some n else none

/-- The integer that a token denotes. -/
def integer? (token : List Char) : Option Int :=
  match token with
  | '0' :: 'x' :: digits => do word? (ofDigits 16 (← groupedDigits? isHexDigit digits))
  | '0' :: 'o' :: digits => do word? (ofDigits 8 (← groupedDigits? isOctalDigit digits))
  | '0' :: 'b' :: digits => do word? (ofDigits 2 (← groupedDigits? isBinaryDigit digits))
  | _ => do
    let (negative, digits) := splitSign token
    let n := ofDigits 10 (← decimalDigits? digits)
    word? (if negative then -(n : Int) else n)

/-! ## Floats -/

/-- The least number that exceeds the range of a float of 64 bits: half a unit
in the last place above the largest float. -/
def floatBound : Nat := Nat.pow 2 1024 - Nat.pow 2 970

/-- Whether `mantissa` times ten to the power `exponent` exceeds the range of a
float.  The power is computed only where the number of digits leaves it open. -/
def overflows (mantissa : Nat) (exponent : Int) : Bool :=
  let digits : Int := (Nat.toDigits 10 mantissa).length
  if mantissa = 0 then false
  else if digits + exponent > 310 then true
  else if digits + exponent < 300 then false
  else if 0 ≤ exponent then floatBound ≤ mantissa * Nat.pow 10 exponent.toNat
  else floatBound * Nat.pow 10 (-exponent).toNat ≤ mantissa

/-- The exponent that the part of a float from its `e` on denotes. -/
def exponent? : List Char → Option Int
  | c :: rest =>
    if c = 'e' ∨ c = 'E' then do
      let (negative, digits) := splitSign rest
      let n := ofDigits 10 (← groupedDigits? Char.isDigit digits)
      some (if negative then -(n : Int) else n)
    else none
  | [] => none

/-- Whether a token is the text of a float: a number with a fraction, an
exponent or both, within the range of floats above, or one of the special
values. -/
def isFloat (token : List Char) : Bool :=
  let (negative, unsigned) := splitSign token
  if unsigned = ['i', 'n', 'f'] ∨ unsigned = ['n', 'a', 'n'] then true
  else
    let inDigits := fun c : Char => c.isDigit || c == '_'
    let whole := unsigned.takeWhile inDigits
    let parts : Option (List Char × List Char × Int) := do
      let wholeDigits ← decimalDigits? whole
      match unsigned.dropWhile inDigits with
      | '.' :: rest =>
        let fraction ← groupedDigits? Char.isDigit (rest.takeWhile inDigits)
        match rest.dropWhile inDigits with
        | [] => some (wholeDigits, fraction, 0)
        | tail => do some (wholeDigits, fraction, ← exponent? tail)
      | tail => do some (wholeDigits, [], ← exponent? tail)
    match parts with
    | some (wholeDigits, fraction, exponent) =>
      negative || !overflows (ofDigits 10 (wholeDigits ++ fraction)) (exponent - fraction.length)
    | none => false

end InlineMarkup.Toml

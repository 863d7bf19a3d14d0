import InlineMarkup.Toml.Number

/-!
# InlineMarkup.Toml.DateTime

Dates and times of day.  `DateTime.ofChars?` reads one in any of the spellings
that are admitted, and `DateTime.text` writes it in one of them: a `T` between
date and time, a `Z` for universal time, and a fraction of a second only as
long as it needs to be.
-/

namespace InlineMarkup.Toml

/-- A day of the calendar. -/
structure Date where
  year : Nat
  month : Nat
  day : Nat
deriving DecidableEq, Inhabited

/-- A time of day, to the nanosecond. -/
structure Time where
  hour : Nat
  minute : Nat
  /-- The second; the sixtieth is a leap second. -/
  second : Nat
  nanosecond : Nat
deriving DecidableEq, Inhabited

/-- How far a clock is from universal time. -/
inductive Zone where
  /-- It shows universal time. -/
  | universal
  /-- It is ahead by a number of minutes, or behind if that is negative. -/
  | ahead (minutes : Int)
deriving DecidableEq, Inhabited

/-- A date, a time of day, or both; with both, the zone may be known. -/
inductive DateTime where
  | date (date : Date)
  | time (time : Time)
  | both (date : Date) (time : Time) (zone : Option Zone)
deriving DecidableEq, Inhabited

/-! ## Reading -/

/-- The number of days of a month. -/
def daysIn (year month : Nat) : Nat :=
  if month = 2 then
    if year % 4 = 0 ∧ (year % 100 ≠ 0 ∨ year % 400 = 0) then 29 else 28
  else if month = 4 ∨ month = 6 ∨ month = 9 ∨ month = 11 then 30
  else 31

/-- The number that a text of digits denotes. -/
def allDigits? (text : List Char) : Option Nat :=
  if text.all Char.isDigit then some (ofDigits 10 text) else none

/-- The date that a text is. -/
def Date.ofChars? (text : List Char) : Option Date :=
  match text with
  | [a, b, c, d, '-', e, f, '-', g, h] => do
    let year ← allDigits? [a, b, c, d]
    let month ← allDigits? [e, f]
    let day ← allDigits? [g, h]
    if 1 ≤ month ∧ month ≤ 12 ∧ 1 ≤ day ∧ day ≤ daysIn year month then some ⟨year, month, day⟩
    else none
  | _ => none

/-- The nanoseconds that the text after the seconds gives.  Digits after the
ninth count for nothing. -/
def nanoseconds? (text : List Char) : Option Nat :=
  match text with
  | [] => some 0
  | '.' :: c :: digits =>
    (allDigits? (c :: digits)).map fun _ =>
      ofDigits 10 ((c :: digits ++ List.replicate 9 '0').take 9)
  | _ => none

/-- The time of day that a text is. -/
def Time.ofChars? (text : List Char) : Option Time :=
  match text with
  | a :: b :: ':' :: c :: d :: ':' :: e :: f :: fraction => do
    let hour ← allDigits? [a, b]
    let minute ← allDigits? [c, d]
    let second ← allDigits? [e, f]
    let nanosecond ← nanoseconds? fraction
    if hour ≤ 23 ∧ minute ≤ 59 ∧ second ≤ 60 then some ⟨hour, minute, second, nanosecond⟩
    else none
  | _ => none

/-- The zone that a text is. -/
def Zone.ofChars? (text : List Char) : Option Zone :=
  match text with
  | ['Z'] | ['z'] => some .universal
  | [sign, a, b, ':', c, d] => do
    let hour ← allDigits? [a, b]
    let minute ← allDigits? [c, d]
    let minutes : Int := hour * 60 + minute
    if 23 < hour ∨ 59 < minute then none
    else if sign = '+' then some (.ahead minutes)
    else if sign = '-' then some (.ahead (-minutes))
    else none
  | _ => none

/-- Whether `c` may stand in a time of day. -/
def isTimeChar (c : Char) : Bool := c.isDigit || c == ':' || c == '.'

/-- The time of day that a text is, with its zone, if that is given. -/
def zonedTime? (text : List Char) : Option (Time × Option Zone) := do
  let time ← Time.ofChars? (text.takeWhile isTimeChar)
  match text.dropWhile isTimeChar with
  | [] => some (time, none)
  | rest => (Zone.ofChars? rest).map fun zone => (time, some zone)

/-- The date-time that a text is.  A `T` or a space joins date and time. -/
def DateTime.ofChars? (text : List Char) : Option DateTime :=
  match Time.ofChars? text with
  | some hour => some (.time hour)
  | none => do
    let day ← Date.ofChars? (text.take 10)
    match text.drop 10 with
    | [] => some (.date day)
    | c :: rest =>
      if c = 'T' ∨ c = 't' ∨ c = ' ' then
        (zonedTime? rest).map fun (hour, zone) => .both day hour zone
      else none

/-! ## Writing -/

/-- The digits of a number, with zeros before them up to a width. -/
def padded (width n : Nat) : List Char :=
  let digits := Nat.toDigits 10 n
  List.replicate (width - digits.length) '0' ++ digits

/-- A date as text. -/
def Date.chars (date : Date) : List Char :=
  padded 4 date.year ++ '-' :: padded 2 date.month ++ '-' :: padded 2 date.day

/-- The fraction of a second as text, without zeros at its end. -/
def fraction (nanosecond : Nat) : List Char :=
  if nanosecond = 0 then []
  else '.' :: ((padded 9 nanosecond).reverse.dropWhile (· == '0')).reverse

/-- A time of day as text. -/
def Time.chars (time : Time) : List Char :=
  padded 2 time.hour ++ ':' :: padded 2 time.minute ++ ':' :: padded 2 time.second
    ++ fraction time.nanosecond

/-- A zone as text. -/
def Zone.chars : Zone → List Char
  | universal => ['Z']
  | ahead minutes =>
    (if minutes < 0 then '-' else '+') ::
      padded 2 (minutes.natAbs / 60) ++ ':' :: padded 2 (minutes.natAbs % 60)

/-- A date-time as text. -/
def DateTime.text : DateTime → String
  | date day => String.ofList day.chars
  | time hour => String.ofList hour.chars
  | both day hour zone =>
    String.ofList (day.chars ++ 'T' :: hour.chars ++ (zone.map Zone.chars).getD [])

end InlineMarkup.Toml

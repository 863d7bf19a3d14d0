/-!
# InlineMarkup.Text.Bytes

Texts measured and cut in bytes of their UTF-8 form.  A cut that would fall
inside a character is either moved back to the character's start (`cutBytes`)
or refused (`slice?`).
-/

namespace InlineMarkup.Text

/-- The number of bytes of a text. -/
def byteCount (text : List Char) : Nat := text.foldr (fun c n => c.utf8Size + n) 0

@[simp] theorem byteCount_nil : byteCount [] = 0 := rfl

@[simp] theorem byteCount_cons (c : Char) (cs : List Char) :
    byteCount (c :: cs) = c.utf8Size + byteCount cs := rfl

@[simp] theorem byteCount_append (a b : List Char) :
    byteCount (a ++ b) = byteCount a + byteCount b := by
  induction a with
  | nil => simp
  | cons c a ih => simp [ih, Nat.add_assoc]

/-- Moves characters from `rest` to `seen`, which is kept nearest first, as
long as they fit into `n` bytes. -/
def cutBytes (n : Nat) (seen : List Char) : List Char → List Char × List Char
  | [] => (seen, [])
  | c :: rest =>
    if c.utf8Size ≤ n then cutBytes (n - c.utf8Size) (c :: seen) rest else (seen, c :: rest)

/-- A cut loses nothing. -/
theorem reverse_append_cutBytes (n : Nat) (seen rest : List Char) :
    (cutBytes n seen rest).1.reverse ++ (cutBytes n seen rest).2 = seen.reverse ++ rest := by
  induction rest generalizing n seen with
  | nil => simp [cutBytes]
  | cons c rest ih =>
    simp only [cutBytes]
    split
    · simp [ih]
    · rfl

/-- A cut at a character boundary takes exactly the characters before it. -/
theorem cutBytes_append (first seen rest : List Char) :
    cutBytes (byteCount first) seen (first ++ rest) = (first.reverse ++ seen, rest) := by
  induction first generalizing seen with
  | nil =>
    cases rest with
    | nil => rfl
    | cons c rest =>
      have := c.utf8Size_pos
      simp [cutBytes]
      omega
  | cons c first ih => simp [cutBytes, ih]

/-- The text after the first `n` bytes, if they are whole characters. -/
def dropBytes? : Nat → List Char → Option (List Char)
  | 0, text => some text
  | _ + 1, [] => none
  | n + 1, c :: rest => if c.utf8Size ≤ n + 1 then dropBytes? (n + 1 - c.utf8Size) rest else none
termination_by _ text => text.length

/-- The first `n` bytes, if they are whole characters; `taken` is what was
taken before them, nearest first. -/
def takeBytes? (taken : List Char) : Nat → List Char → Option (List Char)
  | 0, _ => some taken.reverse
  | _ + 1, [] => none
  | n + 1, c :: rest =>
    if c.utf8Size ≤ n + 1 then takeBytes? (c :: taken) (n + 1 - c.utf8Size) rest else none
termination_by _ text => text.length

/-- The text between two byte offsets; `none` if they are out of order, past
the end, or inside a character. -/
def slice? (text : List Char) (first last : Nat) : Option (List Char) :=
  if first ≤ last then dropBytes? first text >>= takeBytes? [] (last - first) else none

end InlineMarkup.Text

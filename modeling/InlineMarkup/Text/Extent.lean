/-!
# InlineMarkup.Text.Extent

How far a reader reaches.  A reader is a state and a function that, given the
state and the next character, either goes on with a new state or stops after
that character.  Comments, strings and brace groups are all recognised by such
readers; `extent` runs one, and is the only loop they need.
-/

namespace InlineMarkup.Text

/-- Runs `read` from `state`: `taken` and the number of characters read, the
last one included, or `none` if the text runs out first. -/
def extentFrom {σ : Type} (read : σ → Char → Option σ) : Nat → σ → List Char → Option Nat
  | _, _, [] => none
  | taken, state, c :: rest =>
    match read state c with
    | none => some (taken + 1)
    | some state => extentFrom read (taken + 1) state rest

/-- The number of characters read from `state`, the last one included, or
`none` if the text runs out first. -/
def extent {σ : Type} (read : σ → Char → Option σ) (state : σ) (text : List Char) : Option Nat :=
  extentFrom read 0 state text

theorem extentFrom_eq {σ : Type} (read : σ → Char → Option σ) (taken : Nat) (state : σ)
    (text : List Char) :
    extentFrom read taken state text = (extent read state text).map (· + taken) := by
  induction text generalizing taken state with
  | nil => rfl
  | cons c rest ih =>
    simp only [extentFrom, extent]
    cases read state c with
    | none => simp; omega
    | some next =>
      simp only [ih (taken + 1) next, ih (0 + 1) next, Option.map_map]
      congr 1
      funext n
      simp only [Function.comp]
      omega

@[simp] theorem extent_nil {σ : Type} (read : σ → Char → Option σ) (state : σ) :
    extent read state [] = none := rfl

theorem extent_cons {σ : Type} (read : σ → Char → Option σ) (state : σ) (c : Char)
    (rest : List Char) :
    extent read state (c :: rest) =
      match read state c with
      | none => some 1
      | some next => (extent read next rest).map (· + 1) := by
  rw [extent, extentFrom]
  cases read state c with
  | none => rfl
  | some next => exact extentFrom_eq read (0 + 1) next rest

/-- A reader takes at least one character and no more than there are. -/
theorem extent_bounds {σ : Type} {read : σ → Char → Option σ} {state : σ} {text : List Char}
    {n : Nat} (h : extent read state text = some n) : 0 < n ∧ n ≤ text.length := by
  induction text generalizing state n with
  | nil => simp at h
  | cons c rest ih =>
    rw [extent_cons] at h
    cases hr : read state c with
    | none => simp_all; omega
    | some next =>
      simp only [hr, Option.map_eq_some_iff] at h
      obtain ⟨m, hm, rfl⟩ := h
      have := ih hm
      simp; omega

/-- What a reader leaves; nothing, if nothing ends it. -/
def dropPast {σ : Type} (read : σ → Char → Option σ) (state : σ) (text : List Char) : List Char :=
  match extent read state text with
  | some n => text.drop n
  | none => []

theorem length_dropPast_le {σ : Type} (read : σ → Char → Option σ) (state : σ)
    (text : List Char) : (dropPast read state text).length ≤ text.length := by
  simp only [dropPast]
  split <;> simp

/-! ## The readers -/

/-- Stops after `target`; with `preceding` given, only where `target` directly
follows it among the characters read. -/
def readPast (target : Char) (preceding : Option Char) (before : Option Char) (c : Char) :
    Option (Option Char) :=
  if c = target ∧ (preceding = none ∨ before = preceding) then none else some (some c)

/-- Stops after the brace that closes a group; the state counts the groups
opened inside it and not closed yet. -/
def readGroup (inner : Nat) (c : Char) : Option Nat :=
  if c = '\x7b' then some (inner + 1)
  else if c = '\x7d' then
    match inner with
    | 0 => none
    | inner + 1 => some inner
  else some inner

/-- Stops after the `>` of a `-->`; the state counts the dashes just read. -/
def readMarkupComment (dashes : Nat) (c : Char) : Option Nat :=
  if c = '-' then some (dashes + 1)
  else if c = '>' ∧ 2 ≤ dashes then none
  else some 0

/-- Stops after the closing `quote` of a string literal, or after a line feed
unless the quote is a backtick; a backslash guards the character after it, and
the state says whether one was just read. -/
def readString (quote : Char) (guarded : Bool) (c : Char) : Option Bool :=
  if guarded then some false
  else if c = '\\' then some true
  else if c = quote ∨ (c = '\n' ∧ quote ≠ '\x60') then none
  else some false

end InlineMarkup.Text

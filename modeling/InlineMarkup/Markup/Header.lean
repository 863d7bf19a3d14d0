import InlineMarkup.Markup.Error
import InlineMarkup.Markup.Group
import InlineMarkup.Markup.Node
import InlineMarkup.Name

/-!
# InlineMarkup.Markup.Header

Opening tags, from the name to the closing `>`.  The text of a header is read
one character at a time by a machine whose phases carry what is being
collected: the name of an attribute, and the part of its value read so far.

* `step` makes one transition, which reads the character it is given, or
  leaves it to the phase it moves to;
* `Move` lists what a transition can do, and what is said of transitions is
  proved from `move_of_step`;
* `measure_step` says that the machine never does the latter twice in a row,
  and `read` runs it to the end of the header on that ground.
-/

namespace InlineMarkup

open Unicode (isSpace)

/-- An opening tag. -/
structure Header where
  /-- The name of the tag. -/
  name : String
  /-- The attributes, in order. -/
  attributes : Attributes
  /-- Whether the tag has no content: it ends in `/>` or names a void element. -/
  selfClosing : Bool
  /-- Whether the closing `>` was there. -/
  terminated : Bool

namespace Header

/-- Whether the tag refers to a component. -/
def isComponent (header : Header) : Bool := Name.isComponent header.name

/-- The part of a header that the machine is in. -/
inductive Phase where
  /-- In the name of the tag. -/
  | tagName
  /-- Where an attribute may start. -/
  | beforeName
  /-- In the name of an attribute. -/
  | name (pending : String)
  /-- After the name of an attribute. -/
  | afterName (name : String)
  /-- After the equals sign. -/
  | beforeValue (name : String)
  /-- In a value between quotes. -/
  | quoted (quote : Char) (name value : String)
  /-- In a value without quotes. -/
  | unquoted (name value : String)
  /-- After a slash that may end the tag. -/
  | slash
  /-- After the closing `>`. -/
  | done
deriving DecidableEq, Inhabited

/-- A header half read. -/
structure Scan where
  /-- Where in the header the cursor stands. -/
  phase : Phase
  /-- The name of the tag, as far as it was read. -/
  tag : String
  /-- The attributes read so far. -/
  attributes : Attributes
  /-- Whether the tag was closed by `/>`. -/
  closed : Bool
  /-- Where to read on. -/
  cursor : Cursor

namespace Scan

/-- A header of which nothing was read. -/
def start (cur : Cursor) : Scan := ⟨.tagName, "", [], false, cur⟩

/-- Reads the next character and goes on in `phase`. -/
def shift (scan : Scan) (phase : Phase) : Scan :=
  { scan with phase := phase, cursor := scan.cursor.next }

/-- Sets an attribute; the next one may start. -/
def commit (scan : Scan) (name : String) (value : AttrValue) : Scan :=
  { scan with phase := .beforeName, attributes := scan.attributes.insert name value }

end Scan

/-- Whether a slash before `following` ends a tag, rather than standing in a
value without quotes. -/
def slashCloses (following : Option Char) : Bool := following.all fun c => c == '>' || isSpace c

/-- The fault of `found` standing at the cursor, where that matters. -/
def refuse (mode : Mode) (scan : Scan) (found : Char) : Except Error Unit :=
  match mode with
  | .strict => .error (.unexpectedCharacter found scan.cursor.position)
  | .lenient => .ok ()

/-- One transition of the machine, at the character `c`. -/
def step (mode : Mode) (scan : Scan) (c : Char) : Except Error Scan :=
  match scan.phase with
  | .tagName =>
    if c = '>' then .ok (scan.shift .done)
    else if c = '/' then .ok (scan.shift .slash)
    else if isSpace c then .ok (scan.shift .beforeName)
    else .ok { scan.shift .tagName with tag := scan.tag.push c }
  | .beforeName =>
    if c = '>' then .ok (scan.shift .done)
    else if c = '/' then .ok (scan.shift .slash)
    else if isSpace c then .ok (scan.shift .beforeName)
    else if c = '\x7b' then do
      refuse mode scan c
      .ok { scan with cursor := (Group.read scan.cursor).cursor }
    else .ok (scan.shift (.name (String.singleton c)))
  | .name pending =>
    if c = '=' then .ok (scan.shift (.beforeValue pending))
    else if c = '>' ∨ c = '/' then .ok (scan.commit pending .flag)
    else if isSpace c then .ok (scan.shift (.afterName pending))
    else .ok (scan.shift (.name (pending.push c)))
  | .afterName name =>
    if c = '=' then .ok (scan.shift (.beforeValue name))
    else if isSpace c then .ok (scan.shift (.afterName name))
    else .ok (scan.commit name .flag)
  | .beforeValue name =>
    if isSpace c then .ok (scan.shift (.beforeValue name))
    else if c = '"' ∨ c = '\'' ∨ c = '\x60' then .ok (scan.shift (.quoted c name ""))
    else if c = '\x7b' then
      let group := Group.read scan.cursor
      if group.closed = false ∧ mode = .strict then .error (.unbalancedBraces group.start)
      else .ok { scan.commit name (.expression group.trimmed) with cursor := group.cursor }
    else if c = '/' ∧ slashCloses (scan.cursor.peekAt? 1) then do
      refuse mode scan c
      .ok ((scan.commit name (.string "")).shift .slash)
    else if c = '>' then do
      refuse mode scan c
      .ok (scan.commit name (.string ""))
    else .ok (scan.shift (.unquoted name (String.singleton c)))
  | .quoted quote name value =>
    if c = quote then .ok ((scan.commit name (.string value)).shift .beforeName)
    else .ok (scan.shift (.quoted quote name (value.push c)))
  | .unquoted name value =>
    if isSpace c ∨ c = '>' then .ok (scan.commit name (.string value))
    else if c = '/' ∧ slashCloses (scan.cursor.peekAt? 1) then
      .ok ((scan.commit name (.string value)).shift .slash)
    else .ok (scan.shift (.unquoted name (value.push c)))
  | .slash =>
    if c = '>' then .ok { scan.shift .done with closed := true }
    else if isSpace c then .ok (scan.shift .slash)
    else do
      refuse mode scan c
      .ok { scan with phase := .beforeName }
  | .done => .ok scan

/-- The attributes of a header cut off by the end of the text: an attribute
whose name or value was being read counts, one without the value that its
equals sign announces does not. -/
def cutOff (scan : Scan) : Attributes :=
  match scan.phase with
  | .name name | .afterName name => scan.attributes.insert name .flag
  | .quoted _ name value | .unquoted name value => scan.attributes.insert name (.string value)
  | .tagName | .beforeName | .beforeValue _ | .slash | .done => scan.attributes

/-- The header with the attributes given. -/
def finish (scan : Scan) (attributes : Attributes) (terminated : Bool) : Header where
  name := scan.tag
  attributes := attributes
  selfClosing := scan.closed || (!Name.isComponent scan.tag && Name.isVoid scan.tag)
  terminated := terminated

/-! ## Progress -/

/-- Whether the next transition may leave its character to the one after it. -/
def Phase.rank : Phase → Nat
  | .beforeName => 0
  | _ => 1

/-- What is left to do: two transitions a character at most. -/
def Scan.measure (scan : Scan) : Nat := 2 * scan.cursor.rest.length + scan.phase.rank

/-- What a transition can do at the character `c`. -/
inductive Move (mode : Mode) (scan : Scan) (c : Char) : Scan → Prop
  /-- It reads the character; only a `>` ends the header. -/
  | shift (phase : Phase) (ends : phase = .done → c = '>') (named : phase ≠ .tagName) :
      Move mode scan c (scan.shift phase)
  /-- It reads a character of the name of the tag. -/
  | letter (inside : scan.phase = .tagName) :
      Move mode scan c { scan.shift .tagName with tag := scan.tag.push c }
  /-- It reads the `>` after a slash. -/
  | close (ends : c = '>') : Move mode scan c { scan.shift .done with closed := true }
  /-- It sets an attribute and leaves the character. -/
  | commit (name : String) (value : AttrValue) (inside : scan.phase.rank = 1)
      (simple : value = .flag ∨ ∃ text, value = .string text) :
      Move mode scan c (scan.commit name value)
  /-- It sets an attribute to a string that the character ends. -/
  | commitShift (name text : String) (phase : Phase) (goesOn : phase ≠ .done)
      (named : phase ≠ .tagName) : Move mode scan c ((scan.commit name (.string text)).shift phase)
  /-- It sets an attribute to the code in braces at the cursor; strict reading asks that
  they are closed. -/
  | expression (name : String) (opens : c = '\x7b')
      (closed : mode = .strict → (Group.read scan.cursor).closed = true) :
      Move mode scan c { scan.commit name (.expression (Group.read scan.cursor).trimmed) with
        cursor := (Group.read scan.cursor).cursor }
  /-- It passes over the code in braces at the cursor. -/
  | skip :
      Move mode scan c { scan with phase := .beforeName, cursor := (Group.read scan.cursor).cursor }
  /-- It takes back that a slash ends the tag. -/
  | back (inside : scan.phase.rank = 1) : Move mode scan c { scan with phase := .beforeName }
  /-- It does nothing, for the header is at its end. -/
  | stay (finished : scan.phase = .done) : Move mode scan c scan

/-- A character that was not refused is read as in lenient mode. -/
theorem ok_of_refuse {α : Type} {mode : Mode} {scan : Scan} {c : Char} {f : Unit → Except Error α}
    {next : α} (h : (refuse mode scan c >>= f) = .ok next) : f () = .ok next := by
  cases mode with
  | strict => contradiction
  | lenient => exact h

/-- Every transition is such a move. -/
theorem move_of_step {mode : Mode} {scan next : Scan} {c : Char} (h : step mode scan c = .ok next) :
    Move mode scan c next := by
  cases phase : scan.phase with
  | tagName =>
    simp only [step, phase] at h
    repeat' split at h
    all_goals cases h
    · exact .shift .done (fun _ => by assumption) (by simp)
    · exact .shift .slash (by simp) (by simp)
    · exact .shift .beforeName (by simp) (by simp)
    · exact .letter phase
  | beforeName =>
    simp only [step, phase] at h
    repeat' split at h
    · cases h; exact .shift .done (fun _ => by assumption) (by simp)
    · cases h; exact .shift .slash (by simp) (by simp)
    · cases h; exact .shift .beforeName (by simp) (by simp)
    · cases ok_of_refuse h; exact .skip
    · cases h; exact .shift (.name _) (by simp) (by simp)
  | name pending =>
    simp only [step, phase] at h
    repeat' split at h
    all_goals cases h
    · exact .shift (.beforeValue pending) (by simp) (by simp)
    · exact .commit pending .flag (by rw [phase]; rfl) (.inl rfl)
    · exact .shift (.afterName pending) (by simp) (by simp)
    · exact .shift (.name _) (by simp) (by simp)
  | afterName name =>
    simp only [step, phase] at h
    repeat' split at h
    all_goals cases h
    · exact .shift (.beforeValue name) (by simp) (by simp)
    · exact .shift (.afterName name) (by simp) (by simp)
    · exact .commit name .flag (by rw [phase]; rfl) (.inl rfl)
  | beforeValue name =>
    simp only [step, phase] at h
    repeat' split at h
    · cases h; exact .shift (.beforeValue name) (by simp) (by simp)
    · cases h; exact .shift (.quoted c name "") (by simp) (by simp)
    · contradiction
    · next opens whole =>
      cases h
      exact .expression name opens fun strict => by simpa [strict] using whole
    · cases ok_of_refuse h; exact .commitShift name "" .slash (by simp) (by simp)
    · cases ok_of_refuse h; exact .commit name (.string "") (by rw [phase]; rfl) (.inr ⟨_, rfl⟩)
    · cases h; exact .shift (.unquoted name _) (by simp) (by simp)
  | quoted quote name value =>
    simp only [step, phase] at h
    split at h
    all_goals cases h
    · exact .commitShift name value .beforeName (by simp) (by simp)
    · exact .shift (.quoted quote name _) (by simp) (by simp)
  | unquoted name value =>
    simp only [step, phase] at h
    repeat' split at h
    all_goals cases h
    · exact .commit name (.string value) (by rw [phase]; rfl) (.inr ⟨_, rfl⟩)
    · exact .commitShift name value .slash (by simp) (by simp)
    · exact .shift (.unquoted name _) (by simp) (by simp)
  | slash =>
    simp only [step, phase] at h
    repeat' split at h
    · cases h; exact .close (by assumption)
    · cases h; exact .shift .slash (by simp) (by simp)
    · cases ok_of_refuse h; exact .back (by rw [phase]; rfl)
  | done =>
    simp only [step, phase] at h
    cases h
    exact .stay phase

/-- A transition only moves forward. -/
theorem reaches_step {mode : Mode} {scan next : Scan} {c : Char}
    (h : step mode scan c = .ok next) : scan.cursor.Reaches next.cursor := by
  have one := Cursor.reaches_next scan.cursor
  have group := one.trans (Group.reaches_read scan.cursor)
  have none := Cursor.Reaches.refl scan.cursor
  cases move_of_step h with
  | shift | letter | close | commitShift => exact one
  | expression | skip => exact group
  | commit | back | stay => exact none

/-- Every transition of an unfinished machine brings the end nearer. -/
theorem measure_step {mode : Mode} {scan next : Scan} {c : Char} (unfinished : scan.phase ≠ .done)
    (more : scan.cursor.rest ≠ []) (h : step mode scan c = .ok next) :
    next.measure < scan.measure := by
  have one := Cursor.length_next_lt more
  have group := (Group.reaches_read scan.cursor).length_le
  have rank (phase : Phase) : phase.rank ≤ 1 := by cases phase <;> simp [Phase.rank]
  have start : Phase.rank .beforeName = 0 := rfl
  cases move_of_step h with
  | shift phase =>
    have := rank phase
    simp only [Scan.measure, Scan.shift]
    omega
  | commitShift name text phase =>
    have := rank phase
    simp only [Scan.measure, Scan.shift, Scan.commit]
    omega
  | letter =>
    have := rank .tagName
    simp only [Scan.measure, Scan.shift]
    omega
  | close =>
    have := rank .done
    simp only [Scan.measure, Scan.shift]
    omega
  | expression | skip =>
    simp only [Scan.measure, Scan.commit, start]
    omega
  | commit name value inside | back inside =>
    simp only [Scan.measure, Scan.commit, start, inside]
    omega
  | stay finished => contradiction

/-! ## The whole header -/

/-- Runs the machine to the end of the header, or of the text. -/
def run (mode : Mode) (start : Position) (scan : Scan) : Except Error (Header × Cursor) :=
  if _unfinished : scan.phase = .done then .ok (finish scan scan.attributes true, scan.cursor)
  else
    match _more : scan.cursor.rest with
    | [] =>
      match mode with
      | .strict => .error (.unterminatedTag scan.tag start)
      | .lenient => .ok (finish scan (cutOff scan) false, scan.cursor)
    | c :: _ =>
      match _taken : step mode scan c with
      | .error fault => .error fault
      | .ok next => run mode start next
termination_by scan.measure
decreasing_by exact measure_step _unfinished (by simp [_more]) _taken

/-- Reads the header whose tag name is next. -/
def read (mode : Mode) (cur : Cursor) : Except Error (Header × Cursor) :=
  run mode cur.position (.start cur)

theorem reaches_run {mode : Mode} {start : Position} {scan : Scan} {header : Header}
    {after : Cursor} (h : run mode start scan = .ok (header, after)) :
    scan.cursor.Reaches after := by
  fun_induction run mode start scan with
  | case1 scan => cases h; exact .refl _
  | case2 => contradiction
  | case3 => cases h; exact .refl _
  | case4 => contradiction
  | case5 _ _ _ _ _ _ taken ih => exact (reaches_step taken).trans (ih h)

/-- Reading a header only moves forward. -/
theorem reaches_read {mode : Mode} {cur after : Cursor} {header : Header}
    (h : read mode cur = .ok (header, after)) : cur.Reaches after :=
  reaches_run h

end Header

end InlineMarkup

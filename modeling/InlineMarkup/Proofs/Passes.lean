import InlineMarkup.Proofs.Soundness
import Mathlib.Logic.Relation

/-!
# InlineMarkup.Proofs.Passes

The readers as loops.  Each loop is given here one pass at a time, as a function from a
state to the next state or to the result:

* `Header.pass` makes one transition, and no two of them leave the character they are at;
* `Fragment.pass` reads one tag, or the content before one, and what it reads by turns;
* `Fragment.nextPass`, `Fragment.splitPass` look for one fragment, further on each time;
* `Content.pass` and `Host.pass` take up what begins at the cursor, of content and of the
  code around markup.

A loop that gets on with every pass needs no more passes than there is text
(`Loop.run_eq`).
-/

namespace InlineMarkup

open Outcome (ok_bind)

/-! ## Loops -/

namespace Loop

variable {σ α : Type}

/-- Makes passes of a loop until one of them gives a result; nothing, if there are not
enough of them. -/
def run (pass : σ → σ ⊕ α) : Nat → σ → Option α
  | 0, _ => none
  | passes + 1, state =>
    match pass state with
    | .inl next => run pass passes next
    | .inr result => some result

/-- The states that a loop comes through from a state on. -/
def Passes (pass : σ → σ ⊕ α) : σ → σ → Prop :=
  Relation.ReflTransGen fun state next => pass state = .inl next

/-- The state after so many passes; nothing, if the loop has ended by then. -/
def after (pass : σ → σ ⊕ α) : Nat → σ → Option σ
  | 0, state => some state
  | passes + 1, state => (pass state).getLeft?.bind (after pass passes)

theorem passes_of_after {pass : σ → σ ⊕ α} {passes : Nat} {first last : σ}
    (h : after pass passes first = some last) : Passes pass first last := by
  induction passes generalizing first with
  | zero =>
    obtain rfl := Option.some.inj h
    exact .refl
  | succ passes ih =>
    obtain ⟨next, made, h⟩ := Option.bind_eq_some_iff.1 h
    exact .head (Sum.getLeft?_eq_some_iff.1 made) (ih h)

/-- A function that agrees with one pass of a loop agrees with its whole run, if every
pass brings the end nearer. -/
theorem run_eq {pass : σ → σ ⊕ α} {f : σ → α} (Holds : σ → Prop) (measure : σ → Nat)
    (same : ∀ state, f state = (pass state).elim f id)
    (less : ∀ state next, Holds state → pass state = .inl next →
      Holds next ∧ measure next < measure state)
    {passes : Nat} {state : σ} (holds : Holds state) (enough : measure state < passes) :
    run pass passes state = some (f state) := by
  induction passes generalizing state with
  | zero => omega
  | succ passes ih =>
    rw [run, same state]
    cases made : pass state with
    | inl next =>
      obtain ⟨kept, nearer⟩ := less state next holds made
      exact ih kept (by omega)
    | inr result => rfl

/-- Such a function gives the same from every state that the loop comes through. -/
theorem eq_of_passes {pass : σ → σ ⊕ α} {f : σ → α}
    (same : ∀ state, f state = (pass state).elim f id) {first last : σ}
    (passes : Passes pass first last) : f first = f last := by
  induction passes with
  | refl => rfl
  | tail _ made ih => rw [ih, same, made, Sum.elim_inl]

/-- And its result is that of the last pass. -/
theorem exists_last {pass : σ → σ ⊕ α} {f : σ → α} (Holds : σ → Prop) (measure : σ → Nat)
    (same : ∀ state, f state = (pass state).elim f id)
    (less : ∀ state next, Holds state → pass state = .inl next →
      Holds next ∧ measure next < measure state) (state : σ) (holds : Holds state) :
    ∃ last, Passes pass state last ∧ pass last = .inr (f state) := by
  induction size : measure state using Nat.strongRecOn generalizing state with
  | ind n ih =>
    cases made : pass state with
    | inl next =>
      obtain ⟨kept, nearer⟩ := less state next holds made
      obtain ⟨last, passes, ends⟩ := ih _ (by omega) next kept rfl
      refine ⟨last, .head made passes, ?_⟩
      rw [ends, same state, made, Sum.elim_inl]
    | inr result =>
      refine ⟨state, .refl, ?_⟩
      rw [made, same state, made, Sum.elim_inr]
      rfl

/-- What holds before a pass if it holds after it, holds of all states that lead to one
where it holds. -/
theorem Passes.back {pass : σ → σ ⊕ α} {Good : σ → Prop}
    (back : ∀ {state next}, pass state = .inl next → Good next → Good state) {first last : σ}
    (passes : Passes pass first last) (good : Good last) : Good first := by
  induction passes using Relation.ReflTransGen.head_induction_on with
  | refl => exact good
  | head made _ ih => exact back made ih

/-- A loop whose passes only move forward comes to later places only. -/
theorem Passes.reaches {pass : σ → σ ⊕ α} (place : σ → Cursor)
    (onward : ∀ {state next}, pass state = .inl next → (place state).Reaches (place next))
    {first last : σ} (passes : Passes pass first last) : (place first).Reaches (place last) := by
  induction passes with
  | refl => exact .refl _
  | tail _ made ih => exact ih.trans (onward made)

/-- A loop that follows another one pass by pass comes through related states. -/
theorem Passes.follow {pass : σ → σ ⊕ α} (pass' : σ → σ ⊕ α) (Good : σ → Prop)
    (Related : σ → σ → Prop)
    (back : ∀ {state next}, pass state = .inl next → Good next → Good state)
    (step : ∀ {state next other}, pass state = .inl next → Good next → Related state other →
      ∃ next', pass' other = .inl next' ∧ Related next next')
    {first last : σ} (passes : Passes pass first last) (good : Good last) (other : σ)
    (related : Related first other) : ∃ last', Passes pass' other last' ∧ Related last last' := by
  induction passes using Relation.ReflTransGen.head_induction_on generalizing other with
  | refl => exact ⟨other, .refl, related⟩
  | head made passes ih =>
    obtain ⟨next', made', related⟩ := step made (Passes.back back passes good) related
    obtain ⟨last', passes', related⟩ := ih next' related
    exact ⟨last', .head made' passes', related⟩

end Loop

/-! ## Headers -/

namespace Header

variable {mode : Mode} {start : Position} {scan next later : Scan}

/-- One pass of the loop over transitions. -/
def pass (mode : Mode) (start : Position) (scan : Scan) : Scan ⊕ Except Error (Header × Cursor) :=
  if scan.phase = .done then .inr (.ok (finish scan scan.attributes true, scan.cursor))
  else
    match scan.cursor.rest with
    | [] =>
      match mode with
      | .strict => .inr (.error (.unterminatedTag scan.tag start))
      | .lenient => .inr (.ok (finish scan (cutOff scan) false, scan.cursor))
    | c :: _ =>
      match step mode scan c with
      | .error fault => .inr (.error fault)
      | .ok next => .inl next

theorem run_eq_pass (mode : Mode) (start : Position) (scan : Scan) :
    run mode start scan = (pass mode start scan).elim (run mode start) id := by
  rw [run.eq_def]
  unfold pass
  split
  · rfl
  · cases scan.cursor.rest with
    | nil =>
      cases mode with
      | strict => rfl
      | lenient => rfl
    | cons c rest =>
      dsimp only
      cases step mode scan c with
      | error fault => rfl
      | ok next => rfl

/-- A pass goes on after a transition. -/
theorem step_of_pass (h : pass mode start scan = .inl next) :
    scan.phase ≠ .done ∧ ∃ c rest, scan.cursor.rest = c :: rest ∧ step mode scan c = .ok next := by
  unfold pass at h
  split at h
  · contradiction
  · next unfinished =>
    refine ⟨unfinished, ?_⟩
    split at h
    · split at h
      · contradiction
      · contradiction
    · next c rest more =>
      split at h
      · contradiction
      · next taken =>
        cases h
        exact ⟨c, rest, more, taken⟩

/-- A transition reads a character, or it leaves a phase that may leave its character to
one that may not. -/
theorem reads_of_pass (h : pass mode start scan = .inl next) :
    scan.cursor.position.offset < next.cursor.position.offset ∨
      scan.phase.rank = 1 ∧ next.phase.rank = 0 ∧ next.cursor = scan.cursor := by
  obtain ⟨unfinished, c, rest, more, taken⟩ := step_of_pass h
  have some : scan.cursor.rest ≠ [] := by rw [more]; exact List.cons_ne_nil _ _
  have one := Cursor.offset_lt_of_next some (.refl _)
  have group := Cursor.offset_lt_of_next some (Group.reaches_read scan.cursor)
  cases move_of_step taken with
  | shift | letter | close | commitShift => exact .inl one
  | expression | skip => exact .inl group
  | commit name value inside | back inside => exact .inr ⟨inside, rfl, rfl⟩
  | stay finished => contradiction

/-- No two transitions in a row leave the character they are at. -/
theorem offset_lt_of_passes (first : pass mode start scan = .inl next)
    (second : pass mode start next = .inl later) :
    scan.cursor.position.offset < later.cursor.position.offset := by
  have onward {scan next : Scan} (h : pass mode start scan = .inl next) :
      scan.cursor.position.offset ≤ next.cursor.position.offset := by
    obtain ⟨-, c, rest, -, taken⟩ := step_of_pass h
    exact (reaches_step taken).offset_le
  obtain read | ⟨-, idle, same⟩ := reads_of_pass first
  · exact Nat.lt_of_lt_of_le read (onward second)
  · obtain read | ⟨inside, -⟩ := reads_of_pass second
    · rwa [← same]
    · omega

theorem loop_eq_read (mode : Mode) (cur : Cursor) {passes : Nat}
    (enough : 2 * cur.rest.length + 2 ≤ passes) :
    Loop.run (pass mode cur.position) passes (.start cur) = some (read mode cur) := by
  refine Loop.run_eq (fun _ => True) Scan.measure (run_eq_pass mode cur.position)
    ?_ trivial ?_
  · intro scan next _ h
    obtain ⟨unfinished, c, rest, more, taken⟩ := step_of_pass h
    exact ⟨trivial, measure_step unfinished (by rw [more]; exact List.cons_ne_nil _ _) taken⟩
  · simp only [Scan.measure, Scan.start, Phase.rank]
    omega

end Header

/-! ## Content -/

namespace Content

/-- Content half read: the literal text before the cursor, and the segments before that. -/
structure Half where
  pending : List Char
  segments : List Segment
  cursor : Cursor

/-- One pass of the loop over what content begins with. -/
def pass (mode : Mode) : Half → Half ⊕ Except Error (List Segment × Cursor)
  | ⟨pending, segments, cur⟩ =>
    match lead cur.previous? cur.rest with
    | .stop => .inr (.ok ((flush pending segments).reverse, cur))
    | .markupComment =>
      .inl ⟨pending, segments, ((cur.advance 4).read Text.readMarkupComment 1).cursor⟩
    | .declaration => .inl ⟨pending, segments, (cur.next.readPast '>' none).cursor⟩
    | .group =>
      if (Group.read cur).closed = false ∧ mode = .strict then
        .inr (.error (.unbalancedBraces (Group.read cur).start))
      else if isCommentOnly (Group.read cur).code then
        .inl ⟨[], flush pending segments, (Group.read cur).cursor⟩
      else
        .inl ⟨[], .expression (Group.read cur).trimmed :: flush pending segments,
          (Group.read cur).cursor⟩
    | .blockComment => .inl ⟨pending, segments, ((cur.advance 2).readPast '/' (some '*')).cursor⟩
    | .lineComment =>
      .inl ⟨if (cur.next.readPast '\n' none).ended then '\n' :: pending else pending, segments,
        (cur.next.readPast '\n' none).cursor⟩
    | .character c => .inl ⟨c :: pending, segments, cur.next⟩

/-- What is read from content half read. -/
def Half.read (mode : Mode) (half : Half) : Except Error (List Segment × Cursor) :=
  readFrom mode half.pending half.segments half.cursor

theorem read_eq_pass (mode : Mode) (half : Half) :
    half.read mode = (pass mode half).elim (Half.read mode) id := by
  rw [Half.read, readFrom_eq]
  unfold pass
  dsimp only
  cases lead half.cursor.previous? half.cursor.rest with
  | group =>
    dsimp only
    split
    · rfl
    · split
      · rfl
      · rfl
  | stop | markupComment | declaration | blockComment | lineComment | character => rfl

/-- Every pass that goes on reads a character. -/
theorem reads_of_pass {mode : Mode} {half next : Half} (h : pass mode half = .inl next) :
    half.cursor.rest ≠ [] ∧ half.cursor.next.Reaches next.cursor := by
  obtain ⟨pending, segments, cur⟩ := half
  have ahead (n : Nat) : cur.next.Reaches (cur.advance (n + 1)) := ⟨n, by rw [Cursor.next_advance]⟩
  unfold pass at h
  dsimp only at h ⊢
  have more : cur.rest ≠ [] := rest_ne_nil_of_lead fun stop => by rw [stop] at h; contradiction
  refine ⟨more, ?_⟩
  split at h
  · contradiction
  · cases h; exact (ahead 3).trans (Cursor.reaches_read _ _ _)
  · cases h; exact Cursor.reaches_read _ _ _
  · split at h
    · contradiction
    · split at h
      · cases h; exact Group.reaches_read cur
      · cases h; exact Group.reaches_read cur
  · cases h; exact (ahead 1).trans (Cursor.reaches_read _ _ _)
  · cases h; exact Cursor.reaches_read _ _ _
  · cases h; exact .refl _

theorem loop_eq_read (mode : Mode) (cur : Cursor) {passes : Nat}
    (enough : cur.rest.length + 1 ≤ passes) :
    Loop.run (pass mode) passes ⟨[], [], cur⟩ = some (read mode cur) := by
  refine Loop.run_eq (fun _ => True) (fun half => half.cursor.rest.length)
    (read_eq_pass mode) ?_ trivial enough
  intro half next _ h
  obtain ⟨more, onward⟩ := reads_of_pass h
  exact ⟨trivial, Nat.lt_of_le_of_lt onward.length_le (Cursor.length_next_lt more)⟩

end Content

/-! ## Code around markup -/

namespace Host

/-- One pass of the loop over the code around markup. -/
def pass : Context × Cursor → (Context × Cursor) ⊕ Option Cursor
  | (context, cur) =>
    match cur.rest with
    | [] => .inr none
    | c :: following =>
      if c = '\'' ∨ c = '"' ∨ c = '\x60' then
        .inl ({ context with last := some c }, (cur.next.read (Text.readString c) false).cursor)
      else if c = '/' ∧ following.head? = some '/' then
        .inl (context, (cur.next.readPast '\n' none).cursor)
      else if c = '/' ∧ following.head? = some '*' then
        .inl (context, ((cur.advance 2).readPast '/' (some '*')).cursor)
      else if c = '<' ∧ following.head?.any Name.isStart ∧ context.allowsMarkup then .inr (some cur)
      else if Unicode.isSpace c then .inl (context, cur.next)
      else .inl (context.push cur.previous? c, cur.next)

theorem seekFrom_eq_pass (state : Context × Cursor) :
    seekFrom state.1 state.2 = (pass state).elim (fun next => seekFrom next.1 next.2) id := by
  obtain ⟨context, cur⟩ := state
  unfold pass
  dsimp only
  cases begins : cur.rest with
  | nil => exact seekFrom_nil context begins
  | cons c following =>
    rw [seekFrom_cons context begins]
    dsimp only
    repeat' split
    all_goals rfl

theorem reads_of_pass {state next : Context × Cursor} (h : pass state = .inl next) :
    state.2.rest ≠ [] ∧ state.2.next.Reaches next.2 := by
  obtain ⟨context, cur⟩ := state
  unfold pass at h
  dsimp only at h
  cases begins : cur.rest with
  | nil =>
    rw [begins] at h
    contradiction
  | cons c following =>
    have ahead : cur.next.Reaches (cur.advance 2) := ⟨1, by rw [Cursor.next_advance]⟩
    rw [begins] at h
    refine ⟨List.cons_ne_nil _ _, ?_⟩
    dsimp only at h
    repeat' split at h
    · cases h; exact Cursor.reaches_read _ _ _
    · cases h; exact Cursor.reaches_read _ _ _
    · cases h; exact ahead.trans (Cursor.reaches_read _ _ _)
    · contradiction
    · cases h; exact .refl _
    · cases h; exact .refl _

theorem loop_eq_seek (cur : Cursor) {passes : Nat} (enough : cur.rest.length + 1 ≤ passes) :
    Loop.run pass passes (.empty, cur) = some (seek cur) := by
  refine Loop.run_eq (fun _ => True) (fun state => state.2.rest.length)
    seekFrom_eq_pass ?_ trivial enough
  intro state next _ h
  obtain ⟨more, onward⟩ := reads_of_pass h
  exact ⟨trivial, Nat.lt_of_le_of_lt onward.length_le (Cursor.length_next_lt more)⟩

end Host

/-! ## Tags and content -/

namespace Fragment

/-- What a fragment is read for next. -/
inductive Stage where
  /-- Text and code between tags. -/
  | content
  /-- The opening tag at the cursor. -/
  | tagOpen
  /-- The closing tag at the cursor. -/
  | endTag
deriving DecidableEq

/-- A fragment half read. -/
structure Half where
  stage : Stage
  assembly : Assembly
  cursor : Cursor

namespace Half

/-- The start of a fragment, at its `<`. -/
def start (cur : Cursor) : Half := ⟨.tagOpen, .empty, cur⟩

/-- How many passes are left at most: two for each character. -/
def measure (half : Half) : Nat :=
  match half.stage with
  | .content => 2 * half.cursor.rest.length + 1
  | .tagOpen | .endTag => 2 * half.cursor.rest.length

/-- Where a tag is to be read, there is something to read. -/
def Ahead (half : Half) : Prop := half.stage ≠ .content → half.cursor.rest ≠ []

end Half

/-- What follows a tag: content, unless the fragment is at its end. -/
def afterTag (read : Except Error Turn) : Half ⊕ Except Error (Assembly × Cursor) :=
  match read with
  | .error fault => .inr (.error fault)
  | .ok ⟨true, assembly, cur⟩ => .inl ⟨.content, assembly, cur⟩
  | .ok ⟨false, assembly, cur⟩ => .inr (.ok (assembly, cur))

/-- One pass of the loop over tags and the content between them. -/
def pass (reader : Reader) : Half → Half ⊕ Except Error (Assembly × Cursor)
  | ⟨.tagOpen, assembly, cur⟩ => afterTag (readOpening reader assembly cur)
  | ⟨.endTag, assembly, cur⟩ => afterTag (readClosing reader assembly cur)
  | ⟨.content, assembly, cur⟩ =>
    match Content.read reader.mode cur with
    | .error fault => .inr (.error fault)
    | .ok (segments, after) =>
      match addSegments reader [] assembly segments with
      | .error fault => .inr (.error fault)
      | .ok grown =>
        if after.rest = [] then .inr (.ok (grown, after))
        else .inl ⟨if after.peekAt? 1 = some '/' then .endTag else .tagOpen, grown, after⟩

/-- What is read from a fragment half read. -/
def Half.read (reader : Reader) : Half → Except Error (Assembly × Cursor)
  | ⟨.tagOpen, assembly, cur⟩ => readOpening reader assembly cur >>= readOn reader
  | ⟨.endTag, assembly, cur⟩ => readClosing reader assembly cur >>= readOn reader
  | ⟨.content, assembly, cur⟩ => readOn reader ⟨true, assembly, cur⟩

theorem readOn_eq_afterTag (reader : Reader) (tag : Except Error Turn) :
    tag >>= readOn reader = (afterTag tag).elim (Half.read reader) id := by
  cases tag with
  | error fault => rfl
  | ok turn =>
    obtain ⟨goesOn, assembly, cur⟩ := turn
    cases goesOn with
    | true => rfl
    | false => exact readOn_false reader assembly cur

theorem read_eq_pass (reader : Reader) (half : Half) :
    half.read reader = (pass reader half).elim (Half.read reader) id := by
  obtain ⟨stage, assembly, cur⟩ := half
  cases stage with
  | tagOpen => exact readOn_eq_afterTag reader _
  | endTag => exact readOn_eq_afterTag reader _
  | content =>
    simp only [Half.read, pass]
    rw [readOn_true]
    cases Content.read reader.mode cur with
    | error fault => rfl
    | ok read =>
      rw [ok_bind]
      dsimp only
      cases addSegments reader [] assembly read.1 with
      | error fault => rfl
      | ok grown =>
        rw [ok_bind]
        dsimp only
        by_cases ended : read.2.rest = []
        · rw [if_pos ended, if_pos ended]
          rfl
        · rw [if_neg ended, if_neg ended, readTag]
          split
          · rfl
          · rfl

/-- A pass over a tag reads a character at least, and content is next. -/
theorem reads_of_afterTag {cur : Cursor} {tag : Except Error Turn}
    (onward : ∀ turn, tag = .ok turn → cur.next.Reaches turn.cursor) :
    (∀ next, afterTag tag = .inl next → next.stage = .content ∧ cur.next.Reaches next.cursor) ∧
      ∀ result after, afterTag tag = .inr (.ok (result, after)) → cur.next.Reaches after := by
  unfold afterTag
  split
  · simp
  · next assembly cur =>
    refine ⟨fun next h => ?_, by simp⟩
    cases h
    exact ⟨rfl, onward _ rfl⟩
  · next assembly cur =>
    refine ⟨by simp, fun result after h => ?_⟩
    cases h
    exact onward _ rfl

theorem reads_of_tagPass {reader : Reader} {half : Half} (tag : half.stage ≠ .content) :
    (∀ next, pass reader half = .inl next →
      next.stage = .content ∧ half.cursor.next.Reaches next.cursor) ∧
      ∀ result after, pass reader half = .inr (.ok (result, after)) →
        half.cursor.next.Reaches after := by
  obtain ⟨stage, assembly, cur⟩ := half
  cases stage with
  | content => contradiction
  | tagOpen => exact reads_of_afterTag fun turn h => reaches_readOpening h
  | endTag => exact reads_of_afterTag fun turn h => reaches_readClosing h

/-- A pass over content is followed by one over a tag. -/
theorem tag_of_contentPass {reader : Reader} {half next : Half} (content : half.stage = .content)
    (h : pass reader half = .inl next) :
    next.stage ≠ .content ∧ half.cursor.Reaches next.cursor ∧ next.cursor.rest ≠ [] := by
  obtain ⟨stage, assembly, cur⟩ := half
  cases content
  simp only [pass] at h
  split at h
  · contradiction
  · next segments after read =>
    split at h
    · contradiction
    · split at h
      · contradiction
      · next more =>
        cases h
        refine ⟨?_, Content.reaches_read read, more⟩
        dsimp only
        split
        · simp
        · simp

/-- Every pass brings the end of a fragment nearer. -/
theorem measure_pass {reader : Reader} {half next : Half} (ahead : half.Ahead)
    (h : pass reader half = .inl next) : next.Ahead ∧ next.measure < half.measure := by
  by_cases content : half.stage = .content
  · obtain ⟨tag, onward, more⟩ := tag_of_contentPass content h
    have le := onward.length_le
    refine ⟨fun _ => more, ?_⟩
    cases stage : next.stage with
    | content => contradiction
    | tagOpen | endTag =>
      simp only [Half.measure, content, stage]
      omega
  · obtain ⟨stage, onward⟩ := (reads_of_tagPass content).1 next h
    have one := Cursor.length_next_lt (ahead content)
    have le := onward.length_le
    refine ⟨fun tag => absurd stage tag, ?_⟩
    cases tag : half.stage with
    | content => contradiction
    | tagOpen | endTag =>
      simp only [Half.measure, tag, stage]
      omega

theorem readRoot_eq_read (reader : Reader) (cur : Cursor) :
    readRoot reader cur = (Half.start cur).read reader >>= conclude reader.mode := by
  rw [readRoot_eq]
  simp only [Half.start, Half.read]
  cases readOpening reader .empty cur with
  | error fault => rfl
  | ok turn => rfl

theorem loop_eq_readRoot (reader : Reader) {cur : Cursor} (more : cur.rest ≠ []) {passes : Nat}
    (enough : 2 * cur.rest.length + 1 ≤ passes) :
    (Loop.run (pass reader) passes (.start cur)).map (· >>= conclude reader.mode) =
      some (readRoot reader cur) := by
  have ahead : (Half.start cur).Ahead := fun _ => more
  rw [Loop.run_eq Half.Ahead Half.measure (read_eq_pass reader) (fun half next => measure_pass)
    ahead enough, readRoot_eq_read]
  rfl

/-- Every state that the loop comes through has something to read where it needs it. -/
theorem ahead_of_passes {reader : Reader} {cur : Cursor} {half : Half} (more : cur.rest ≠ [])
    (h : Loop.Passes (pass reader) (.start cur) half) : half.Ahead := by
  induction h with
  | refl => exact fun _ => more
  | tail _ made ih => exact (measure_pass ih made).1

/-! ## Fragments in code -/

/-- One pass of the search for a fragment: a fragment without a root is passed over. -/
def nextPass (reader : Reader) (cur : Cursor) : Cursor ⊕ Except Error (Option Fragment) :=
  match Host.seek cur with
  | none => .inr (.ok none)
  | some start =>
    match readRoot reader start with
    | .error fault => .inr (.error fault)
    | .ok (some root, stop) => .inr (.ok (some ⟨start, stop, root⟩))
    | .ok (none, _) => .inl start.next

theorem nextWith_eq_pass (reader : Reader) (cur : Cursor) :
    nextWith reader cur = (nextPass reader cur).elim (nextWith reader) id := by
  rw [nextWith_eq, nextPass]
  cases Host.seek cur with
  | none => rfl
  | some start =>
    dsimp only
    cases readRoot reader start with
    | error fault => rfl
    | ok read =>
      obtain ⟨root, stop⟩ := read
      cases root with
      | none => rfl
      | some root => rfl

/-- The search goes on after the place where markup was last found. -/
theorem reads_of_nextPass {reader : Reader} {cur later : Cursor}
    (h : nextPass reader cur = .inl later) : cur.rest ≠ [] ∧ cur.next.Reaches later := by
  unfold nextPass at h
  split at h
  · contradiction
  · next start found =>
    obtain ⟨⟨n, rfl⟩, begins⟩ := Host.seek_sound found
    have more : cur.rest ≠ [] := by
      intro ended
      rw [Cursor.rest_advance, ended, List.drop_nil] at begins
      obtain ⟨c, more, begins, -⟩ := begins
      contradiction
    split at h
    · contradiction
    · contradiction
    · cases h
      exact ⟨more, n, by simp [Cursor.next, Nat.add_comm]⟩

theorem loop_eq_nextWith (reader : Reader) (cur : Cursor) {passes : Nat}
    (enough : cur.rest.length + 1 ≤ passes) :
    Loop.run (nextPass reader) passes cur = some (nextWith reader cur) := by
  refine Loop.run_eq (fun _ => True) (fun cur => cur.rest.length) (nextWith_eq_pass reader)
    ?_ trivial enough
  intro cur later _ h
  obtain ⟨more, onward⟩ := reads_of_nextPass h
  exact ⟨trivial, Nat.lt_of_le_of_lt onward.length_le (Cursor.length_next_lt more)⟩

/-- One pass of cutting code into pieces, with the pieces cut so far. -/
def splitPass (reader : Reader) : List Piece × Cursor →
    (List Piece × Cursor) ⊕ Except Error (List Piece)
  | (pieces, cur) =>
    match nextWith reader cur with
    | .error fault => .inr (.error fault)
    | .ok none => .inr (.ok (pieces ++ codePieces cur.rest))
    | .ok (some fragment) =>
      .inl (pieces ++ (codePieces (cur.between fragment.start) ++ [.markup fragment.root]),
        fragment.stop)

/-- The pieces cut so far, and those of the code that is left. -/
def splitAfter (reader : Reader) (state : List Piece × Cursor) : Except Error (List Piece) :=
  splitWith reader state.2 >>= fun following => .ok (state.1 ++ following)

theorem splitAfter_eq_pass (reader : Reader) (state : List Piece × Cursor) :
    splitAfter reader state = (splitPass reader state).elim (splitAfter reader) id := by
  obtain ⟨pieces, cur⟩ := state
  unfold splitPass
  rw [splitAfter, splitWith_eq]
  dsimp only
  cases nextWith reader cur with
  | error fault => rfl
  | ok found =>
    cases found with
    | none => rfl
    | some fragment =>
      rw [ok_bind, Sum.elim_inl, splitAfter]
      dsimp only
      cases splitWith reader fragment.stop with
      | error fault => rfl
      | ok following => simp only [ok_bind, List.append_assoc, List.singleton_append]

/-- Cutting goes on after the fragment that was found. -/
theorem reads_of_splitPass {reader : Reader} {state next : List Piece × Cursor}
    (h : splitPass reader state = .inl next) :
    state.2.rest.length > next.2.rest.length ∧
      state.2.position.offset < next.2.position.offset := by
  obtain ⟨pieces, cur⟩ := state
  unfold splitPass at h
  dsimp only at h
  split at h
  · contradiction
  · contradiction
  · next fragment found =>
    cases h
    obtain ⟨ahead, begins, beyond, -⟩ := nextWith_sound found
    have more := Cursor.offset_lt_of_next (Descent.rest_ne_nil_of_start begins) beyond
    exact ⟨length_nextWith found, Nat.lt_of_le_of_lt ahead.offset_le more⟩

theorem splitAfter_nil (reader : Reader) (cur : Cursor) :
    splitAfter reader ([], cur) = splitWith reader cur := by
  rw [splitAfter]
  cases splitWith reader cur with
  | error fault => rfl
  | ok pieces => rfl

theorem loop_eq_splitWith (reader : Reader) (cur : Cursor) {passes : Nat}
    (enough : cur.rest.length + 1 ≤ passes) :
    Loop.run (splitPass reader) passes ([], cur) = some (splitWith reader cur) := by
  rw [← splitAfter_nil]
  exact Loop.run_eq (fun _ => True) (fun state => state.2.rest.length)
    (splitAfter_eq_pass reader) (fun state next _ h => ⟨trivial, (reads_of_splitPass h).1⟩)
    trivial enough

end Fragment

end InlineMarkup

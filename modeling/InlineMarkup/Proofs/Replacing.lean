import InlineMarkup.Proofs.Closing
import InlineMarkup.Proofs.Isolation
import InlineMarkup.Proofs.Unsourced

/-!
# InlineMarkup.Proofs.Replacing

Code in the place of other code.  Lenient reading comes through a source to a fragment half read
(`Fragment.Comes`).  If two sources come to such a place through the same pieces, and reading on
from there agrees, then they are cut into the same pieces, the sources kept in the trees apart.

* `Host.containsMarkup_comments`: comments hold no markup;
* `Fragment.Comes.fork`: a source that goes on otherwise after a place comes to the same place;
* `Fragment.Comes.cutsAlike`: sources are cut alike if reading on agrees;
* `Fragment.agrees_content`, `Fragment.agrees_value`: reading on agrees if there is code that is cut
  alike, between tags or as the value of an attribute.
-/

namespace InlineMarkup

open Cursor (Fork Shares)
open Outcome (bind_eq_ok ok_bind)

/-! ## Comments -/

/-- What a reader leaves is where the cursor goes on. -/
theorem Cursor.rest_read {σ : Type} (cur : Cursor) (reader : σ → Char → Option σ) (state : σ) :
    (cur.read reader state).cursor.rest = Text.dropPast reader state cur.rest := by
  unfold Cursor.read Text.dropPast
  cases Text.extent reader state cur.rest with
  | some n => rw [Cursor.rest_advance]
  | none => rw [Cursor.toEnd, Cursor.rest_advance, List.drop_length]

/-- A reader past a character passes over another one. -/
theorem Text.dropPast_cons {c target : Char} (other : c ≠ target) (text : List Char) :
    dropPast (readPast target none) none (c :: text) =
      dropPast (readPast target none) none text := by
  have same : extent (readPast target none) (some c) text =
      extent (readPast target none) none text := by
    cases text with
    | nil => rfl
    | cons d text => simp [extent_cons, readPast]
  unfold dropPast
  rw [extent_cons, readPast_of_ne other]
  dsimp only
  rw [same]
  cases extent (readPast target none) none text with
  | none => rfl
  | some n => rfl

namespace Host

/-- Comments hold no markup. -/
theorem seekFrom_comments {context : Context} {cur : Cursor}
    (comments : isCommentOnly cur.rest = true) : seekFrom context cur = none := by
  induction size : cur.rest.length using Nat.strongRecOn generalizing cur with
  | ind n ih =>
    have passed : cur.rest = cur.rest.takeWhile Unicode.isSpace ++ Text.trimStart cur.rest :=
      (Text.takeWhile_append_trimStart cur.rest).symm
    have atComment := Cursor.rest_of_append passed
    have shorter := Text.length_trimStart_le cur.rest
    rw [seekFrom_blank (Text.blank_takeWhile cur.rest) passed]
    rw [isCommentOnly_eq] at comments
    cases found : afterComment? (Text.trimStart cur.rest) with
    | none =>
      rw [found] at comments
      exact seekFrom_nil context (atComment.trans (List.isEmpty_iff.1 comments))
    | some rest =>
      have less := length_afterComment? found
      rw [found] at comments
      unfold afterComment? at found
      split at found
      · next body begins =>
        cases found
        rw [begins] at atComment
        rw [seekFrom_cons context atComment, if_neg (by decide), if_pos ⟨rfl, rfl⟩]
        have left : ((cur.advance (cur.rest.takeWhile Unicode.isSpace).length).next.readPast
            '\n' none).cursor.rest = Text.dropPast (Text.readPast '\n' none) none body := by
          rw [Cursor.readPast, Cursor.rest_read, Cursor.rest_next atComment]
          exact Text.dropPast_cons (by decide) body
        exact ih _ (by rw [left]; omega) (by rw [left]; exact comments) rfl
      · next body begins =>
        cases found
        rw [begins] at atComment
        rw [seekFrom_cons context atComment, if_neg (by decide), if_neg (by simp),
          if_pos ⟨rfl, rfl⟩]
        have left : (((cur.advance (cur.rest.takeWhile Unicode.isSpace).length).advance 2).readPast
            '/' (some '*')).cursor.rest = Text.dropPast (Text.readPast '/' (some '*')) none body := by
          rw [Cursor.readPast, Cursor.rest_read, Cursor.rest_advance, atComment]
          rfl
        exact ih _ (by rw [left]; omega) (by rw [left]; exact comments) rfl
      · contradiction

theorem containsMarkup_comments {code : List Char} (comments : isCommentOnly code = true) :
    containsMarkup (Text.trim code) = false :=
  containsMarkup_trim (by rw [containsMarkup, seek, seekFrom_comments comments]; rfl)

end Host

/-- Code that holds markup is more than comments. -/
theorem Group.shown_of_containsMarkup {group : Group}
    (holds : Host.containsMarkup group.trimmed.toList = true) : isCommentOnly group.code = false := by
  rw [Bool.eq_false_iff]
  intro comments
  rw [Group.trimmed, String.toList_ofList, Host.containsMarkup_comments comments] at holds
  contradiction

namespace Fragment

/-- Reads code leniently, and makes nodes as usual. -/
abbrev lenient : Reader := reader .plain .lenient

/-! ## Readings that agree -/

/-- Reading on from two places ends in the same way: with the same trees, their sources apart,
and with the same text left. -/
def Half.Agrees (half half' : Half) : Prop :=
  ∀ assembly stop, half.read lenient = .ok (assembly, stop) →
    ∃ assembly' stop', half'.read lenient = .ok (assembly', stop') ∧
      assembly'.unsourced = assembly.unsourced ∧ Fork [] [] stop stop'

/-- The same text is read on from alike. -/
theorem readOn_agrees {goesOn : Bool} {assembly assembly' result : Assembly} {cur cur' stop : Cursor}
    (same : assembly'.unsourced = assembly.unsourced) (fork : Fork [] [] cur cur')
    (h : readOn lenient ⟨goesOn, assembly, cur⟩ = .ok (result, stop)) :
    ∃ result' stop', readOn lenient ⟨goesOn, assembly', cur'⟩ = .ok (result', stop') ∧
      result'.unsourced = result.unsourced ∧ Fork [] [] stop stop' := by
  obtain ⟨stop', read, moved⟩ := readOn_fork cur' fork h (.inl ⟨rfl, rfl⟩)
  obtain ⟨result', read', alike⟩ := readOn_alike rfl same read
  exact ⟨result', stop', read', alike, moved⟩

/-- Reading on after content that is alike. -/
theorem readOn_of_content {assembly result : Assembly} {cur cur' last last' stop : Cursor}
    {segments segments' : List Segment} (content : Content.read .lenient cur = .ok (segments, last))
    (content' : Content.read .lenient cur' = .ok (segments', last'))
    (alike : List.Forall₂ (lenient.Alike .expression) segments segments')
    (fork : Fork [] [] last last') (h : readOn lenient ⟨true, assembly, cur⟩ = .ok (result, stop)) :
    ∃ result' stop', readOn lenient ⟨true, assembly, cur'⟩ = .ok (result', stop') ∧
      result'.unsourced = result.unsourced ∧ Fork [] [] stop stop' := by
  have never {n : Nat} {cur : Cursor} : Shares [] [] n cur := .inl ⟨rfl, rfl⟩
  rw [readOn_true] at h ⊢
  have content : Content.read lenient.mode cur = .ok (segments, last) := content
  have content' : Content.read lenient.mode cur' = .ok (segments', last') := content'
  rw [content, ok_bind] at h
  rw [content', ok_bind]
  obtain ⟨grown, added, h⟩ := bind_eq_ok.1 h
  obtain ⟨grown', added', same⟩ := addSegments_alike rfl alike rfl added
  dsimp only at h ⊢
  rw [added', ok_bind, ← fork.rest_eq]
  split at h
  · next ended =>
    cases h
    rw [if_pos ended]
    exact ⟨grown', last', rfl, same, fork⟩
  · next more =>
    rw [if_neg more]
    obtain ⟨turn, taken, h⟩ := bind_eq_ok.1 h
    obtain ⟨next, taken', moved⟩ := readTag_fork fork more never taken never
    obtain ⟨opened, taken', same⟩ := readTag_alike rfl same taken'
    rw [taken', ok_bind]
    exact readOn_agrees same moved h

/-! ## Places that reading comes to -/

/-- Reading code comes to a fragment half read: the pieces before it are cut, then it is found, and
read up to the place. -/
structure Comes (code : List Char) (pieces : List Piece) (cur start : Cursor) (half : Half) :
    Prop where
  cut : Loop.Passes (splitPass lenient) ([], .ofList code) (pieces, cur)
  found : Host.seek cur = some start
  read : Loop.Passes (pass lenient) (.start start) half

namespace Comes

variable {code code' : List Char} {pieces : List Piece} {cur cur' start start' : Cursor}
  {half half' : Half}

theorem reaches_start (comes : Comes code pieces cur start half) :
    (Cursor.ofList code).Reaches start :=
  (comes.cut.reaches Prod.snd reaches_of_splitPass).trans (Host.seek_sound comes.found).1

theorem reaches (comes : Comes code pieces cur start half) : start.Reaches half.cursor :=
  comes.read.reaches Half.cursor reaches_of_pass

theorem more (comes : Comes code pieces cur start half) : start.rest ≠ [] :=
  Descent.rest_ne_nil_of_start (Host.seek_sound comes.found).2

theorem containsMarkup (comes : Comes code pieces cur start half) :
    Host.containsMarkup code = true := by
  rw [Host.containsMarkup]
  obtain same | ⟨⟨_, later⟩, made, -⟩ := Relation.ReflTransGen.cases_head comes.cut
  · obtain ⟨-, rfl⟩ := Prod.mk.inj same
    rw [comes.found]
    rfl
  · obtain ⟨fragment, found, -⟩ := splitPass_eq_inl.1 made
    rw [(readRoot_of_nextWith found).1]
    rfl

/-- Code that goes on otherwise after the place comes to the same place. -/
theorem fork {before after tail : List Char} (comes : Comes (before ++ after) pieces cur start half)
    (room : Shares after tail 2 half.cursor) :
    ∃ cur' start' stop, Comes (before ++ tail) pieces cur' start' { half with cursor := stop } ∧
      cur'.between start' = cur.between start ∧ Fork after tail half.cursor stop := by
  have atStart := room.of_reaches comes.reaches
  have whole : Fork after tail (.ofList (before ++ after)) (.ofList (before ++ tail)) :=
    ⟨⟨before, rfl, rfl⟩, .inl rfl⟩
  have ahead := (Host.seek_sound comes.found).1
  obtain ⟨cur', cut', moved⟩ := splitPasses_fork comes.cut (atStart.of_reaches ahead) whole
  obtain ⟨start', found', starts⟩ := Host.seek_fork moved comes.found atStart
  have opens : (Half.start start).Ahead := fun _ => comes.more
  obtain ⟨stop, read', last⟩ := passes_fork opens comes.read room starts
  exact ⟨cur', start', stop, ⟨cut', found', read'⟩,
    moved.between_eq starts ahead (Host.seek_sound found').1, last⟩

/-- The pieces that the code is cut into, from what is read from the place on. -/
theorem exists_pieces (comes : Comes code pieces cur start half) :
    ∃ assembly stop root following, half.read lenient = .ok (assembly, stop) ∧
      assembly.finish = some root ∧ splitWith lenient stop = .ok following ∧
      split .plain .lenient (String.ofList code) =
        .ok (pieces ++ (codePieces (cur.between start) ++ .markup root :: following)) := by
  obtain ⟨root, stop, taken⟩ := readRoot_reader_succeeds .plain start
  -- The fragment is read through the place.
  have through : readRoot lenient start = half.read lenient >>= conclude .lenient := by
    rw [← Loop.eq_of_passes (read_eq_pass lenient) comes.read]
    exact readRoot_eq_read lenient start
  obtain ⟨⟨assembly, last⟩, read, concluded⟩ := bind_eq_ok.1 (through.symm.trans taken)
  obtain ⟨finished, rfl⟩ : assembly.finish = some root ∧ last = stop := by
    simpa [conclude] using concluded
  obtain ⟨following, cut⟩ := splitWith_succeeds (split_succeeds .plain) last
  refine ⟨assembly, last, root, following, read, finished, cut, ?_⟩
  -- The code is cut through the pieces before it.
  have next : nextWith lenient cur = .ok (some ⟨start, last, root⟩) := by
    rw [nextWith_eq_of_seek comes.found]
    exact congrArg (· >>= _) taken
  rw [split_eq, String.toList_ofList, ← splitAfter_nil,
    Loop.eq_of_passes (splitAfter_eq_pass lenient) comes.cut, splitAfter]
  dsimp only
  rw [splitWith_eq, next, ok_bind]
  dsimp only
  have cut' : splitWith lenient last = .ok following := cut
  rw [cut', ok_bind, ok_bind]

/-- Where reading on from two places agrees, the codes are cut alike. -/
theorem cutsAlike (comes : Comes code pieces cur start half)
    (comes' : Comes code' pieces cur' start' half')
    (between : cur'.between start' = cur.between start) (agrees : half.Agrees half') :
    lenient.CutsAlike (String.ofList code) (String.ofList code') := by
  refine ⟨by rw [String.toList_ofList]; exact comes.containsMarkup,
    by rw [String.toList_ofList]; exact comes'.containsMarkup, ?_⟩
  obtain ⟨assembly, stop, root, following, read, finished, rest, cut⟩ := comes.exists_pieces
  obtain ⟨assembly', stop', root', following', read', finished', rest', cut'⟩ := comes'.exists_pieces
  obtain ⟨_, _, again, alike, fork⟩ := agrees assembly stop read
  cases read'.symm.trans again
  have roots : root'.unsourced = root.unsourced := by
    have finish := (Assembly.unsourced_finish assembly').trans (congrArg Assembly.finish alike)
    rw [← Assembly.unsourced_finish, finished, finished'] at finish
    exact Option.some.inj finish
  have codes : following' = following :=
    Except.ok.inj (rest'.symm.trans (splitWith_window stop' (.of_fork fork) rest))
  refine ⟨_, _, cut, cut', ?_⟩
  rw [between, codes]
  simp [roots]

end Comes

/-! ## Code in braces -/

/-- Content that comes to code that holds markup goes on after it. -/
theorem read_group {place braces : Cursor} {pending : List Char} {segments : List Segment}
    {more : List Char}
    (reads : Loop.Passes (Content.pass .lenient) ⟨[], [], place⟩ ⟨pending, segments, braces⟩)
    (begins : braces.rest = '\x7b' :: more)
    (holds : Host.containsMarkup (Group.read braces).trimmed.toList = true) :
    Content.read .lenient place = (Content.Half.mk []
      (.expression (Group.read braces).trimmed :: Content.flush pending segments)
      (Group.read braces).cursor).read .lenient := by
  have group : Content.lead braces.previous? braces.rest = .group := by rw [begins]; rfl
  have same : Content.read .lenient place = Content.readFrom .lenient pending segments braces :=
    Loop.eq_of_passes (Content.read_eq_pass .lenient) reads
  rw [same, Content.readFrom_eq, group]
  dsimp only
  rw [if_neg (by simp), Group.shown_of_containsMarkup holds]
  rfl

/-- Code that is cut alike can take the place of other code between tags. -/
theorem agrees_content {assembly : Assembly} {place place' braces braces' : Cursor}
    {pending more more' : List Char} {segments : List Segment}
    (reads : Loop.Passes (Content.pass .lenient) ⟨[], [], place⟩ ⟨pending, segments, braces⟩)
    (reads' : Loop.Passes (Content.pass .lenient) ⟨[], [], place'⟩ ⟨pending, segments, braces'⟩)
    (begins : braces.rest = '\x7b' :: more) (begins' : braces'.rest = '\x7b' :: more')
    (cuts : lenient.CutsAlike (Group.read braces).trimmed (Group.read braces').trimmed)
    (fork : Fork [] [] (Group.read braces).cursor (Group.read braces').cursor) :
    (Half.mk .content assembly place).Agrees ⟨.content, assembly, place'⟩ := by
  intro result stop h
  obtain ⟨⟨segments, last⟩, content⟩ := Content.read_succeeds place
  have same := read_group reads begins cuts.holds
  have again : Content.readFrom .lenient [] _ _ = .ok (segments, last) := same.symm.trans content
  obtain ⟨segments', again, alike⟩ := Content.readFrom_alike
    (.cons (.inr ⟨_, _, rfl, rfl, cuts⟩) (List.forall₂_same.2 fun _ _ => .refl _ _)) again
  obtain ⟨last', moved, beyond⟩ :=
    Content.Half.read_fork (Content.Half.mk [] _ _) fork again (.inl ⟨rfl, rfl⟩)
  have content' := (read_group reads' begins' cuts.holds').trans moved
  exact readOn_of_content content content' alike beyond h

/-- A header that comes to code in braces takes it as a value. -/
theorem read_value {place : Cursor} {scan : Header.Scan} {key : String} {more : List Char}
    (reads : Loop.Passes (Header.pass .lenient place.position) (.start place) scan)
    (phase : scan.phase = .beforeValue key) (begins : scan.cursor.rest = '\x7b' :: more) :
    Header.read .lenient place = Header.run .lenient place.position
      { scan.commit key (.expression (Group.read scan.cursor).trimmed) with
        cursor := (Group.read scan.cursor).cursor } := by
  have same : Header.read .lenient place = Header.run .lenient place.position scan :=
    Loop.eq_of_passes (Header.run_eq_pass .lenient place.position) reads
  have taken : Header.step .lenient scan '\x7b' =
      .ok { scan.commit key (.expression (Group.read scan.cursor).trimmed) with
        cursor := (Group.read scan.cursor).cursor } := by
    simp only [Header.step, phase]
    rw [if_neg (by decide), if_neg (by decide), if_pos trivial, if_neg (by simp)]
  rw [same, Header.run_cons (by rw [phase]; simp) begins, taken, ok_bind]

/-- Code that is cut alike can take the place of the value of an attribute. -/
theorem agrees_value {assembly : Assembly} {place place' braces' : Cursor} {scan : Header.Scan}
    {key : String} {more more' : List Char}
    (reads : Loop.Passes (Header.pass .lenient place.next.position) (.start place.next) scan)
    (reads' : Loop.Passes (Header.pass .lenient place'.next.position) (.start place'.next)
      { scan with cursor := braces' })
    (phase : scan.phase = .beforeValue key)
    (begins : scan.cursor.rest = '\x7b' :: more) (begins' : braces'.rest = '\x7b' :: more')
    (cuts : lenient.CutsAlike (Group.read scan.cursor).trimmed (Group.read braces').trimmed)
    (fork : Fork [] [] (Group.read scan.cursor).cursor (Group.read braces').cursor) :
    (Half.mk .tagOpen assembly place).Agrees ⟨.tagOpen, assembly, place'⟩ := by
  intro result last h
  obtain ⟨⟨header, stop⟩, read⟩ := Header.read_succeeds place.next
  have ran := (read_value reads phase begins).symm.trans read
  have values : lenient.AlikeAttributes
      (scan.attributes.insert key (.expression (Group.read scan.cursor).trimmed))
      (scan.attributes.insert key (.expression (Group.read braces').trimmed)) :=
    Reader.AlikeAttributes.insert (.refl _) key (.inr ⟨_, _, rfl, rfl, cuts⟩)
  obtain ⟨attributes, ran', alike⟩ := Header.run_alike values ran
  obtain ⟨stop', ran', moved⟩ := Header.run_fork place'.next.position fork ran' (.inl ⟨rfl, rfl⟩)
  have read' : Header.read .lenient place'.next =
      .ok ({ header with attributes := attributes }, stop') :=
    (read_value reads' phase begins').trans ran'
  obtain ⟨turn, opened, h⟩ := bind_eq_ok.1 h
  obtain ⟨grown, opened', same, atStop⟩ := readOpening_alike rfl rfl opened read read' alike
  obtain ⟨result', last', rest, again⟩ := readOn_agrees same (atStop ▸ moved) h
  refine ⟨result', last', ?_, again⟩
  rw [Half.read, opened', ok_bind]
  exact rest

end Fragment

end InlineMarkup

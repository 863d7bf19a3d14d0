import InlineMarkup.Proofs.RoundTrip
import InlineMarkup.Proofs.Strictness

/-!
# InlineMarkup.Proofs.Totality

Lenient reading always gives an answer.  There are two ways to fail: a fault,
which lenient reading passes over wherever it is met, and a fragment without a
root, which no reading gives, for the first tag either is the root or stays open
until the fragment is finished.

* `Header.step_succeeds`, `Content.readFrom_succeeds`: no character is refused;
* `Assembly.Rooted`: something was opened, whatever the nodes are like, and
  `Fragment.exists_root` draws the conclusion for both modes;
* `Fragment.split_succeeds`: code inside fragments is no exception, by induction
  on its length;
* `lenient_succeeds`: only a text that does not start with markup is refused.
-/

namespace InlineMarkup

open Outcome (Succeeds bind_eq_ok ok_bind)

/-! ## Headers -/

namespace Header

/-- One transition: a character that strict reading would refuse is read. -/
theorem step_succeeds (scan : Scan) (c : Char) : Succeeds (step .lenient scan c) := by
  cases phase : scan.phase with
  | tagName | beforeName | name | afterName | quoted | unquoted | slash | done =>
    simp only [step, phase, refuse, ok_bind]
    repeat' split
    all_goals exact .ok _
  | beforeValue name =>
    simp only [step, phase, refuse, ok_bind, reduceCtorEq, and_false, if_false]
    repeat' split
    all_goals exact .ok _

/-- The whole machine: a header that is cut off counts as far as it was read. -/
theorem run_succeeds (start : Position) (scan : Scan) : Succeeds (run .lenient start scan) := by
  fun_induction run .lenient start scan with
  | case1 => exact .ok _
  | case2 => contradiction
  | case3 => exact .ok _
  | case4 scan unfinished c rest more fault failed =>
    exact absurd failed ((step_succeeds scan c).ne_error fault)
  | case5 scan unfinished c rest more next taken ih => exact ih

theorem read_succeeds (cur : Cursor) : Succeeds (read .lenient cur) := run_succeeds _ _

end Header

/-! ## Content -/

namespace Content

/-- A group that is never closed reaches to the end of the text. -/
theorem readFrom_succeeds (pending : List Char) (segments : List Segment) (cur : Cursor) :
    Succeeds (readFrom .lenient pending segments cur) := by
  fun_induction readFrom .lenient pending segments cur with
  | case1 => exact .ok _
  | case4 pending segments cur begins group refused => simp at refused
  | case2 _ _ _ _ ih => exact ih
  | case3 _ _ _ _ ih => exact ih
  | case5 _ _ _ _ _ _ _ _ ih => exact ih
  | case6 _ _ _ _ _ _ _ _ ih => exact ih
  | case7 _ _ _ _ ih => exact ih
  | case8 _ _ _ _ _ ih => exact ih
  | case9 _ _ _ _ _ ih => exact ih

theorem read_succeeds (cur : Cursor) : Succeeds (read .lenient cur) := readFrom_succeeds [] [] cur

end Content

/-! ## Roots -/

namespace Assembly

/-- There is a root, or a node that becomes the root once it is closed. -/
def Rooted (assembly : Assembly) : Prop := assembly.stack ≠ [] ∨ assembly.root.isSome

/-- A node that is put somewhere leaves something behind, even where its parent
refuses it. -/
theorem rooted_attach (node : Node) (assembly : Assembly) : (assembly.attach node).Rooted := by
  obtain ⟨stack, root⟩ := assembly
  cases stack with
  | nil => exact .inr (by cases root <;> rfl)
  | cons parent outer => exact .inl (List.cons_ne_nil _ _)

theorem rooted_openTag (maker : NodeMaker) (header : Header) (assembly : Assembly) :
    (assembly.openTag maker header).2.Rooted := by
  unfold openTag
  dsimp only
  split
  · exact rooted_attach _ assembly
  · exact .inl (List.cons_ne_nil _ _)

variable {assembly : Assembly} (rooted : assembly.Rooted)

include rooted

theorem Rooted.addText (maker : NodeMaker) (segments : List Segment) :
    (assembly.addText maker segments).Rooted := by
  unfold Assembly.addText
  split
  · exact rooted
  · exact rooted_attach _ assembly

theorem Rooted.closeTag (name : String) : (assembly.closeTag name).2.Rooted := by
  unfold Assembly.closeTag
  split
  · exact rooted
  · split
    · exact rooted
    · exact rooted_attach _ _

theorem Rooted.isSome_finish : assembly.finish.isSome := by
  obtain ⟨stack, root⟩ := assembly
  cases stack with
  | nil => exact rooted.resolve_left fun some => some rfl
  | cons node outer => cases root <;> rfl

end Assembly

namespace Fragment

theorem rooted_readOpening {reader : Reader} {assembly : Assembly} {cur : Cursor} {turn : Turn}
    (h : readOpening reader assembly cur = .ok turn) : turn.assembly.Rooted := by
  rw [readOpening_eq] at h
  obtain ⟨read, -, h⟩ := bind_eq_ok.1 h
  obtain ⟨attributes, -, h⟩ := bind_eq_ok.1 h
  cases h
  exact Assembly.rooted_openTag _ _ _

theorem rooted_addSegments {reader : Reader} {run segments : List Segment} {assembly grown : Assembly}
    (rooted : assembly.Rooted) (h : addSegments reader run assembly segments = .ok grown) :
    grown.Rooted := by
  fun_induction addSegments reader run assembly segments with
  | case1 run assembly =>
    cases h
    exact rooted.addText _ _
  | case2 run assembly code rest holds ih =>
    obtain ⟨pieces, -, h⟩ := bind_eq_ok.1 h
    exact ih pieces (Assembly.rooted_attach _ _) h
  | case3 run assembly code rest bare ih => exact ih rooted h
  | case4 run assembly segment rest other ih => exact ih rooted h

theorem rooted_readTag {reader : Reader} {assembly : Assembly} {cur : Cursor} {turn : Turn}
    (rooted : assembly.Rooted) (h : readTag reader assembly cur = .ok turn) :
    turn.assembly.Rooted := by
  unfold readTag at h
  split at h
  · unfold readClosing at h
    dsimp only at h
    repeat' split at h
    all_goals first | contradiction | (cases h; exact rooted.closeTag _)
  · exact rooted_readOpening h

theorem rooted_readOn {reader : Reader} {turn : Turn} {result : Assembly} {after : Cursor}
    (rooted : turn.assembly.Rooted) (h : readOn reader turn = .ok (result, after)) :
    result.Rooted := by
  fun_induction readOn reader turn with
  | case1 assembly cur => cases h; exact rooted
  | case2 => contradiction
  | case3 => contradiction
  | case4 assembly cur segments stop content grown added ended =>
    cases h
    exact rooted_addSegments rooted added
  | case5 => contradiction
  | case6 assembly cur segments stop content grown added more turn taken ih =>
    exact ih (rooted_readTag (rooted_addSegments rooted added) taken) h

/-- A fragment that is read has a root, in both modes and for any node maker. -/
theorem exists_root {reader : Reader} {cur after : Cursor} {root : Option Node}
    (h : readRoot reader cur = .ok (root, after)) : ∃ node, root = some node := by
  rw [readRoot_eq] at h
  obtain ⟨turn, opened, h⟩ := bind_eq_ok.1 h
  obtain ⟨⟨assembly, stop⟩, read, h⟩ := bind_eq_ok.1 h
  have rooted := rooted_readOn (rooted_readOpening opened) read
  unfold conclude at h
  split at h
  · contradiction
  · cases h
    exact Option.isSome_iff_exists.1 rooted.isSome_finish

/-- So the first place where markup starts is where the next fragment is. -/
theorem nextWith_eq_of_seek {reader : Reader} {cur start : Cursor} (found : Host.seek cur = some start) :
    nextWith reader cur = readRoot reader start >>= fun read =>
      .ok (read.1.map fun root => ⟨start, read.2, root⟩) := by
  rw [nextWith_eq, found]
  dsimp only
  cases taken : readRoot reader start with
  | error fault => rfl
  | ok read =>
    obtain ⟨node, same⟩ := exists_root taken
    rw [ok_bind, ok_bind, same]
    rfl

/-- Where no fragment is found, no markup starts. -/
theorem seek_of_nextWith {reader : Reader} {cur : Cursor} (h : nextWith reader cur = .ok none) :
    Host.seek cur = none := by
  cases found : Host.seek cur with
  | none => rfl
  | some start =>
    rw [nextWith_eq_of_seek found] at h
    obtain ⟨⟨root, stop⟩, read, h⟩ := bind_eq_ok.1 h
    obtain ⟨node, rfl⟩ := exists_root read
    simp at h

/-- A fragment found is what is read where markup is first found. -/
theorem readRoot_of_nextWith {reader : Reader} {cur : Cursor} {fragment : Fragment}
    (h : nextWith reader cur = .ok (some fragment)) :
    Host.seek cur = some fragment.start ∧
      readRoot reader fragment.start = .ok (some fragment.root, fragment.stop) := by
  cases found : Host.seek cur with
  | none =>
    rw [nextWith_eq, found] at h
    simp at h
  | some start =>
    rw [nextWith_eq_of_seek found] at h
    obtain ⟨⟨root, stop⟩, read, h⟩ := bind_eq_ok.1 h
    obtain ⟨node, rfl⟩ := exists_root read
    cases h
    exact ⟨rfl, read⟩

/-! ## Fragments -/

section

-- Code inside fragments is cut without fail.
variable {maker : NodeMaker} {cut : String → Except Error (List Piece)}
  (total : ∀ code, Succeeds (cut code))

include total

theorem nestAttributes_succeeds (attributes : Attributes) :
    Succeeds (nestAttributes ⟨maker, .lenient, cut⟩ attributes) := by
  refine .mapM attributes fun entry => ?_
  have value : Succeeds (nestValue ⟨maker, .lenient, cut⟩ entry.2) := by
    unfold nestValue
    repeat' split
    · exact (total _).bind fun _ _ => .ok _
    · exact .ok _
    · exact .ok _
  exact value.bind fun _ _ => .ok _

theorem addSegments_succeeds (run : List Segment) (assembly : Assembly) (segments : List Segment) :
    Succeeds (addSegments ⟨maker, .lenient, cut⟩ run assembly segments) := by
  fun_induction addSegments ⟨maker, .lenient, cut⟩ run assembly segments with
  | case1 => exact .ok _
  | case2 run assembly code rest holds ih => exact (total code).bind fun pieces _ => ih pieces
  | case3 run assembly code rest bare ih => exact ih
  | case4 run assembly segment rest other ih => exact ih

theorem readOpening_succeeds (assembly : Assembly) (cur : Cursor) :
    Succeeds (readOpening ⟨maker, .lenient, cut⟩ assembly cur) := by
  rw [readOpening_eq]
  exact (Header.read_succeeds _).bind fun _ _ =>
    (nestAttributes_succeeds total _).bind fun _ _ => .ok _

theorem readTag_succeeds (assembly : Assembly) (cur : Cursor) :
    Succeeds (readTag ⟨maker, .lenient, cut⟩ assembly cur) := by
  unfold readTag
  split
  · exact .ok _
  · exact readOpening_succeeds total assembly cur

/-- The loop over tags, by induction on its run. -/
theorem readOn_succeeds (turn : Turn) : Succeeds (readOn ⟨maker, .lenient, cut⟩ turn) := by
  fun_induction readOn ⟨maker, .lenient, cut⟩ turn with
  | case1 => exact .ok _
  | case2 assembly cur fault failed =>
    exact absurd failed ((Content.read_succeeds cur).ne_error fault)
  | case3 assembly cur segments stop content fault failed =>
    exact absurd failed ((addSegments_succeeds total [] assembly segments).ne_error fault)
  | case4 => exact .ok _
  | case5 assembly cur segments stop content grown added more fault failed =>
    exact absurd failed ((readTag_succeeds total grown stop).ne_error fault)
  | case6 assembly cur segments stop content grown added more turn taken ih => exact ih

theorem readRoot_succeeds (cur : Cursor) : Succeeds (readRoot ⟨maker, .lenient, cut⟩ cur) := by
  rw [readRoot_eq]
  exact (readOpening_succeeds total .empty cur).bind fun turn _ =>
    (readOn_succeeds total turn).bind fun read _ => .ok (read.1.finish, read.2)

theorem nextWith_succeeds (cur : Cursor) : Succeeds (nextWith ⟨maker, .lenient, cut⟩ cur) := by
  cases found : Host.seek cur with
  | none =>
    rw [nextWith_eq, found]
    exact .ok _
  | some start =>
    rw [nextWith_eq_of_seek found]
    exact (readRoot_succeeds total start).bind fun _ _ => .ok _

theorem splitWith_succeeds (cur : Cursor) : Succeeds (splitWith ⟨maker, .lenient, cut⟩ cur) := by
  fun_induction splitWith ⟨maker, .lenient, cut⟩ cur with
  | case1 cur fault failed =>
    exact absurd failed ((nextWith_succeeds total cur).ne_error fault)
  | case2 => exact .ok _
  | case3 cur fragment found ih => exact ih.bind fun _ _ => .ok _

end

/-- Code cut into pieces, by induction on its length: the code inside a fragment
is shorter. -/
theorem split_succeeds (maker : NodeMaker) (code : String) :
    Succeeds (split maker .lenient code) := by
  induction size : code.length using Nat.strongRecOn generalizing code with
  | _ n ih =>
    rw [split]
    refine splitWith_succeeds (fun inner => ?_) _
    split
    · next shorter => exact ih inner.length (size ▸ shorter) inner rfl
    · exact .ok _

theorem readRoot_reader_succeeds (maker : NodeMaker) (cur : Cursor) :
    ∃ root after, readRoot (reader maker .lenient) cur = .ok (some root, after) := by
  obtain ⟨⟨root, after⟩, read⟩ := readRoot_succeeds (split_succeeds maker) cur
  obtain ⟨node, rfl⟩ := exists_root read
  exact ⟨node, after, read⟩

/-- The next fragment stands where markup is first found. -/
theorem next_succeeds (maker : NodeMaker) (cur : Cursor) :
    ∃ found, next maker .lenient cur = .ok found ∧ found.map Fragment.start = Host.seek cur := by
  rw [next]
  cases sought : Host.seek cur with
  | none => exact ⟨none, by rw [nextWith_eq, sought], rfl⟩
  | some start =>
    obtain ⟨root, after, read⟩ := readRoot_reader_succeeds maker start
    exact ⟨some ⟨start, after, root⟩, by rw [nextWith_eq_of_seek sought, read]; rfl, rfl⟩

end Fragment

/-! ## Whole texts -/

namespace Fragment

/-- What `parse` asks for before it reads a fragment. -/
theorem markupStart_iff {cur : Cursor} :
    Content.tagBegins cur.rest = true ∧ cur.peekAt? 1 ≠ some '/' ↔ Host.MarkupStart cur.rest := by
  constructor
  · rintro ⟨begins, other⟩
    unfold Content.tagBegins at begins
    split at begins
    · next c more rest =>
      have named : c ≠ '/' := by simpa [Cursor.peekAt?, rest] using other
      exact ⟨c, more, rest, by simpa [named] using begins⟩
    · contradiction
  · intro start
    exact ⟨Descent.tagBegins_of_start start, Descent.not_slash_of_start start⟩

/-- Only a text that does not start with markup is refused. -/
theorem parse_eq_error_iff (maker : NodeMaker) (text : String) (fault : Error) :
    parse maker .lenient text = .error fault ↔
      ¬ Host.MarkupStart (Text.trimStart text.toList) ∧ fault = .noFragment := by
  have first : (Cursor.ofList text.toList).skipSpace.rest = Text.trimStart text.toList :=
    Cursor.rest_skipSpace _
  unfold parse
  dsimp only
  rw [← first]
  by_cases start : Host.MarkupStart (Cursor.ofList text.toList).skipSpace.rest
  · obtain ⟨root, after, read⟩ :=
      readRoot_reader_succeeds maker (Cursor.ofList text.toList).skipSpace
    rw [if_pos (markupStart_iff.2 start), read, ok_bind]
    simp [start]
  · rw [if_neg (mt markupStart_iff.1 start)]
    simp [start, eq_comm]

end Fragment

/-! ## Sources -/

/-- **Lenient reading never fails**: every source is translated and cut into
pieces, for any node maker and any writer.  From any place a fragment is read,
and it has a root; so the next fragment stands where markup is first found.  A
text that should be a single fragment is refused exactly if it does not start
with markup after its white space. -/
theorem lenient_succeeds (translator : Translator) (config : Config) (source : String)
    (lenient : config.mode = .lenient) :
    (∃ output, translator.translate config source = .ok output) ∧
      (∃ pieces, Fragment.split translator.maker .lenient source = .ok pieces) ∧
      (∀ offset, ∃ root after,
        Fragment.readRoot (Fragment.reader translator.maker .lenient)
          (.atByte source.toList offset) = .ok (some root, after)) ∧
      (∀ offset, ∃ found,
        Fragment.next translator.maker .lenient (.atByte source.toList offset) = .ok found ∧
          found.map Fragment.start = Host.seek (.atByte source.toList offset)) ∧
      ∀ fault, Fragment.parse translator.maker .lenient source = .error fault ↔
        ¬ Host.MarkupStart (Text.trimStart source.toList) ∧ fault = .noFragment := by
  have mode : (config.resolve source).mode = .lenient := by
    have kept := congrArg Config.mode (Config.resolve_mode config config.mode source)
    exact kept.trans lenient
  have pieces := Fragment.split_succeeds translator.maker source
  refine ⟨?_, pieces, fun offset => Fragment.readRoot_reader_succeeds _ _,
    fun offset => Fragment.next_succeeds _ _, Fragment.parse_eq_error_iff _ source⟩
  unfold Translator.translate
  dsimp only
  rw [mode]
  exact pieces.bind fun _ _ => .ok _

/-- A header cut off inside the braces of a value, in a tag that is never closed,
read with a maker that makes texts of all elements. -/
theorem lenient_succeeds_cutOff :
    Config.standard.mode = .lenient ∧
      (∃ output,
        Translator.translate
          ⟨{ NodeMaker.plain with element := fun name _ _ => .text [.literal name] },
            Translator.plain.write⟩
          .standard "x = <p><b a=\x7b" = .ok output) ∧
      Fragment.parse .plain .lenient "x = <p><b a=\x7b" = .error .noFragment := by
  have late : ¬ Host.MarkupStart (Text.trimStart "x = <p><b a=\x7b".toList) := by
    rintro ⟨c, more, begins, -⟩
    have first : (Text.trimStart "x = <p><b a=\x7b".toList).head? = some '<' := by rw [begins]; rfl
    revert first
    decide +kernel
  exact ⟨rfl, (lenient_succeeds _ .standard _ rfl).1,
    ((lenient_succeeds .plain .standard _ rfl).2.2.2.2 .noFragment).2 ⟨late, rfl⟩⟩

end InlineMarkup

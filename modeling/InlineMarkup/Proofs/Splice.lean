import InlineMarkup.Proofs.Nesting
import InlineMarkup.Proofs.Places
import InlineMarkup.Translate

/-!
# InlineMarkup.Proofs.Splice

Translation touches nothing outside fragments.  The fragments of a source are a
chain of spans in bytes (`Fragment.Spans`), each found from the end of the one
before it; a span knows the code before it and the text it covers as slices of
the source, so that no bound falls inside a character.

* `Fragment.afterTag_readRoot`: a fragment ends after a `>` or with the text;
* `Fragment.exists_spans`: cutting a text gives the pieces of such a chain;
* `translate_eq_replaced`: the output is the source with every span replaced.
-/

namespace InlineMarkup

open Outcome (bind_eq_ok)

/-! ## Where tags end -/

namespace Cursor

/-- A place where a tag may end: after a `>`, or at the end of the text. -/
def AfterTag (cur : Cursor) : Prop := cur.previous? = some '>' ∨ cur.rest = []

theorem previous?_next {cur : Cursor} {c : Char} {rest : List Char} (more : cur.rest = c :: rest) :
    cur.next.previous? = some c := by
  rw [previous?, next, seen_advance, more]
  rfl

/-- Reading past a character ends after it or at the end of the text. -/
theorem previous?_readPast (cur : Cursor) (target : Char) :
    (cur.readPast target none).cursor.previous? = some target ∨
      (cur.readPast target none).cursor.rest = [] := by
  have last {text : List Char} {before : Option Char} {n : Nat}
      (h : Text.extent (Text.readPast target none) before text = some n) :
      ∃ first, text.take n = first ++ [target] := by
    induction text generalizing before n with
    | nil => simp at h
    | cons c text ih =>
      rw [Text.extent_cons, Text.readPast] at h
      split at h
      · next found =>
        split at found
        · next here =>
          obtain ⟨rfl, -⟩ := here
          cases h
          exact ⟨[], rfl⟩
        · contradiction
      · obtain ⟨m, hm, rfl⟩ := Option.map_eq_some_iff.1 h
        obtain ⟨first, taken⟩ := ih hm
        exact ⟨c :: first, by rw [List.take_succ_cons, taken, List.cons_append]⟩
  unfold readPast read
  split
  · next n found =>
    obtain ⟨first, taken⟩ := last found
    left
    rw [previous?, seen_advance, taken, List.reverse_append]
    rfl
  · right
    rw [toEnd, rest_advance, List.drop_length]

end Cursor

namespace Header

/-- Only a `>` ends a header. -/
theorem done_step {mode : Mode} {scan next : Scan} {c : Char} (unfinished : scan.phase ≠ .done)
    (h : step mode scan c = .ok next) (done : next.phase = .done) :
    c = '>' ∧ next.cursor = scan.cursor.next := by
  cases move_of_step h with
  | shift phase ends => exact ⟨ends done, rfl⟩
  | close ends => exact ⟨ends, rfl⟩
  | commitShift name text phase goesOn => exact absurd done goesOn
  | letter | commit | expression | skip | back => contradiction
  | stay => exact absurd done unfinished

theorem afterTag_run {mode : Mode} {start : Position} {scan : Scan} {header : Header}
    {after : Cursor} (reached : scan.phase = .done → scan.cursor.AfterTag)
    (h : run mode start scan = .ok (header, after)) : after.AfterTag := by
  fun_induction run mode start scan with
  | case1 scan done => cases h; exact reached done
  | case2 => contradiction
  | case3 scan unfinished ended => cases h; exact .inr ended
  | case4 => contradiction
  | case5 scan unfinished c rest more next taken ih =>
    refine ih (fun done => ?_) h
    obtain ⟨rfl, read⟩ := done_step unfinished taken done
    rw [read]
    exact .inl (Cursor.previous?_next more)

theorem afterTag_read {mode : Mode} {cur after : Cursor} {header : Header}
    (h : read mode cur = .ok (header, after)) : after.AfterTag :=
  afterTag_run (fun done => by contradiction) h

end Header

namespace Fragment

theorem afterTag_readOpening {reader : Reader} {assembly : Assembly} {cur : Cursor} {turn : Turn}
    (h : readOpening reader assembly cur = .ok turn) : turn.cursor.AfterTag := by
  rw [readOpening_eq] at h
  obtain ⟨read, taken, h⟩ := bind_eq_ok.1 h
  obtain ⟨attributes, -, h⟩ := bind_eq_ok.1 h
  cases h
  exact Header.afterTag_read taken

theorem afterTag_readTag {reader : Reader} {assembly : Assembly} {cur : Cursor} {turn : Turn}
    (h : readTag reader assembly cur = .ok turn) : turn.cursor.AfterTag := by
  unfold readTag at h
  split at h
  · unfold readClosing at h
    simp only [] at h
    repeat' split at h
    all_goals first | contradiction | (cases h; exact Cursor.previous?_readPast _ '>')
  · exact afterTag_readOpening h

theorem afterTag_readOn {reader : Reader} {turn : Turn} {result : Assembly} {after : Cursor}
    (reached : turn.cursor.AfterTag) (h : readOn reader turn = .ok (result, after)) :
    after.AfterTag := by
  fun_induction readOn reader turn with
  | case1 assembly cur => cases h; exact reached
  | case2 => contradiction
  | case3 => contradiction
  | case4 assembly cur segments stop content grown added ended => cases h; exact .inr ended
  | case5 => contradiction
  | case6 assembly cur segments stop content grown added more turn taken ih =>
    exact ih (afterTag_readTag taken) h

/-- A fragment ends after a `>` or with the text. -/
theorem afterTag_readRoot {reader : Reader} {cur after : Cursor} {root : Option Node}
    (h : readRoot reader cur = .ok (root, after)) : after.AfterTag := by
  rw [readRoot_eq] at h
  obtain ⟨turn, opened, h⟩ := bind_eq_ok.1 h
  obtain ⟨⟨result, stop⟩, read, h⟩ := bind_eq_ok.1 h
  have ends := afterTag_readOn (afterTag_readOpening opened) read
  unfold conclude at h
  split at h
  · contradiction
  · cases h
    exact ends

/-- A fragment found lies ahead, and is not empty. -/
theorem nextWith_sound {reader : Reader} {cur : Cursor} {fragment : Fragment}
    (h : nextWith reader cur = .ok (some fragment)) :
    cur.Reaches fragment.start ∧ Host.MarkupStart fragment.start.rest ∧
      fragment.start.next.Reaches fragment.stop ∧ fragment.stop.AfterTag := by
  fun_induction nextWith reader cur with
  | case1 => simp at h
  | case2 => simp at h
  | case3 cur start found root stop read =>
    cases h
    obtain ⟨ahead, begins⟩ := Host.seek_sound found
    exact ⟨ahead, begins, reaches_readRoot read, afterTag_readRoot read⟩
  | case4 cur start found stop read ih =>
    have ahead := (Host.seek_sound found).1.trans (Cursor.reaches_next start)
    exact ⟨ahead.trans (ih h).1, (ih h).2⟩

/-! ## Spans -/

/-- A fragment of `source` with the code before it, which starts at byte
`first`.  Slices are of whole characters, so no bound is inside of one. -/
structure Span (maker : NodeMaker) (mode : Mode) (source : List Char) (first : Nat) where
  /-- The byte it starts with. -/
  start : Nat
  /-- The byte after it. -/
  stop : Nat
  /-- The code before it. -/
  gap : List Char
  /-- The fragment as written. -/
  text : List Char
  /-- The tree it stands for. -/
  root : Node
  first_le : first ≤ start
  start_lt : start < stop
  stop_le : stop ≤ Text.byteCount source
  gap_eq : Text.slice? source first start = some gap
  text_eq : Text.slice? source start stop = some text
  begins : Host.MarkupStart (Cursor.atByte source start).rest
  ends : text.getLast? = some '>' ∨ stop = Text.byteCount source
  found : next maker mode (.atByte source first) =
    .ok (some ⟨.atByte source start, .atByte source stop, root⟩)

/-- The fragments of `source` from byte `first` on, each found from the end of
the one before it. -/
inductive Spans (maker : NodeMaker) (mode : Mode) (source : List Char) : Nat → Type
  /-- No fragment follows: what is left is code. -/
  | done {first : Nat} (gap : List Char)
      (gap_eq : Text.slice? source first (Text.byteCount source) = some gap)
      (found : next maker mode (.atByte source first) = .ok none) : Spans maker mode source first
  /-- One more fragment. -/
  | more {first : Nat} (span : Span maker mode source first)
      (rest : Spans maker mode source span.stop) : Spans maker mode source first

namespace Spans

variable {maker : NodeMaker} {mode : Mode} {source : List Char} {first : Nat}

/-- The text from byte `first` on, with every fragment replaced by what is
written for its tree, and all else as it is. -/
def replaced (write : Node → List Char) {first : Nat} : Spans maker mode source first → List Char
  | done gap _ _ => gap
  | more span rest => span.gap ++ write span.root ++ rest.replaced write

/-- The code between the fragments, where there is any, and their trees. -/
def pieces {first : Nat} : Spans maker mode source first → List Piece
  | done gap _ _ => codePieces gap
  | more span rest => codePieces span.gap ++ .markup span.root :: rest.pieces

end Spans

/-- A fragment found, as a span of the text it is found in. -/
theorem exists_span {maker : NodeMaker} {mode : Mode} {cur : Cursor} {fragment : Fragment}
    (counted : cur.Counted) (h : next maker mode cur = .ok (some fragment)) :
    ∃ span : Span maker mode cur.source cur.position.offset,
      span.gap = cur.between fragment.start ∧ span.root = fragment.root ∧
        span.stop = fragment.stop.position.offset := by
  obtain ⟨start, stop, root⟩ := fragment
  obtain ⟨ahead, begins, beyond, ends⟩ := nextWith_sound h
  dsimp only at ahead begins beyond ends
  have inside := (Cursor.reaches_next start).trans beyond
  have countedStart := ahead.counted counted
  have countedStop := inside.counted countedStart
  have sourceStop : stop.source = cur.source := inside.source_eq.trans ahead.source_eq
  have atStart : Cursor.atByte cur.source start.position.offset = start := by
    rw [← ahead.source_eq]
    exact Cursor.atByte_offset countedStart
  have atStop : Cursor.atByte cur.source stop.position.offset = stop := by
    rw [← sourceStop]
    exact Cursor.atByte_offset countedStop
  obtain ⟨c, more, rest_eq, named⟩ := begins
  have start_lt := Cursor.offset_lt_of_next (by rw [rest_eq]; exact List.cons_ne_nil _ _) beyond
  refine ⟨{
    start := start.position.offset
    stop := stop.position.offset
    gap := cur.between start
    text := start.between stop
    root := root
    first_le := ahead.offset_le
    start_lt := start_lt
    stop_le := by rw [← sourceStop]; exact countedStop.offset_le
    gap_eq := Cursor.slice?_between counted ahead
    text_eq := by rw [← ahead.source_eq]; exact Cursor.slice?_between countedStart inside
    begins := by rw [atStart]; exact ⟨c, more, rest_eq, named⟩
    ends := ?_
    found := by rw [Cursor.atByte_offset counted, atStart, atStop]; exact h }, rfl, rfl, rfl⟩
  obtain last | ended := ends
  · left
    have size := inside.byteCount_between
    have nonempty : start.between stop ≠ [] := by
      intro empty
      rw [empty, Text.byteCount_nil] at size
      omega
    rw [Cursor.previous?, ← inside.between_append_seen, List.head?_append,
      List.head?_reverse] at last
    rw [List.getLast?_eq_some_getLast nonempty] at last ⊢
    exact last
  · right
    rw [← sourceStop]
    exact countedStop.offset_of_rest_nil ended

/-- Cutting a text gives the pieces of a chain of spans, by induction on the
fragments found. -/
theorem exists_spans {maker : NodeMaker} {mode : Mode} {cur : Cursor} {pieces : List Piece}
    (counted : cur.Counted) (h : splitWith (reader maker mode) cur = .ok pieces) :
    ∃ spans : Spans maker mode cur.source cur.position.offset, spans.pieces = pieces := by
  fun_induction splitWith (reader maker mode) cur generalizing pieces with
  | case1 => contradiction
  | case2 cur found =>
    cases h
    have none : next maker mode (.atByte cur.source cur.position.offset) = .ok none := by
      rw [Cursor.atByte_offset counted]
      exact found
    exact ⟨.done cur.rest (Cursor.slice?_rest counted) none, rfl⟩
  | case3 cur fragment found ih =>
    obtain ⟨following, cut, h⟩ := bind_eq_ok.1 h
    cases h
    obtain ⟨ahead, -, beyond, -⟩ := nextWith_sound found
    have reached := (ahead.trans (Cursor.reaches_next _)).trans beyond
    obtain ⟨span, gap_eq, root_eq, stop_eq⟩ := exists_span counted found
    have tail := ih (reached.counted counted) cut
    rw [reached.source_eq, ← stop_eq] at tail
    obtain ⟨rest, rest_eq⟩ := tail
    exact ⟨.more span rest, by rw [Spans.pieces, gap_eq, root_eq, rest_eq]⟩

/-! ## Pieces -/

/-- No code is empty, and none stands next to other code. -/
def Separated : List Piece → Prop
  | [] => True
  | .markup _ :: rest => Separated rest
  | .code text :: rest => text ≠ "" ∧ (∀ other more, rest ≠ .code other :: more) ∧ Separated rest

theorem separated_codePieces (code : List Char) : Separated (codePieces code) := by
  unfold codePieces
  cases code with
  | nil => trivial
  | cons c code => exact ⟨by simp [String.ext_iff], by simp, trivial⟩

theorem separated_append {rest : List Piece} (code : List Char) (root : Node)
    (separated : Separated rest) : Separated (codePieces code ++ .markup root :: rest) := by
  unfold codePieces
  cases code with
  | nil => exact separated
  | cons c code => exact ⟨by simp [String.ext_iff], by simp, separated⟩

namespace Spans

variable {maker : NodeMaker} {mode : Mode} {source : List Char} {first : Nat}

theorem separated_pieces (spans : Spans maker mode source first) : Separated spans.pieces := by
  induction spans with
  | done gap => exact separated_codePieces gap
  | more span rest ih => exact separated_append span.gap span.root ih

end Spans

end Fragment

/-! ## Sources -/

namespace Translator

variable (translator : Translator) (config : Config)

theorem join_codePieces (code : List Char) :
    (String.join ((Fragment.codePieces code).map (translator.writePiece config))).toList = code := by
  cases code with
  | nil => rfl
  | cons c code => simp [Fragment.codePieces, writePiece]

/-- The pieces of a chain of spans, written one after the other. -/
theorem join_pieces {mode : Mode} {source : List Char} {first : Nat}
    (spans : Fragment.Spans translator.maker mode source first) :
    (String.join (spans.pieces.map (translator.writePiece config))).toList =
      spans.replaced fun root => (translator.write config root).toList := by
  induction spans with
  | done gap => exact join_codePieces translator config gap
  | more span rest ih =>
    rw [Fragment.Spans.pieces, Fragment.Spans.replaced, List.map_append, List.map_cons,
      String.join_append, String.join_cons, String.toList_append, String.toList_append, ih,
      join_codePieces, List.append_assoc]
    rfl

end Translator

/-- **Translation touches nothing outside fragments**: the output is the source
with each of its fragments replaced by what is written for the tree read there,
and the code between them as it is.  The pieces of the source are that code,
where there is any, and these trees.  From any byte on, a fragment found starts
there or later, and is not empty. -/
theorem translate_eq_replaced (translator : Translator) (config : Config) (source : String) :
    (∀ output, translator.translate config source = .ok output →
      ∃ spans : Fragment.Spans translator.maker (config.resolve source).mode source.toList 0,
        output.toList =
            spans.replaced (fun root => (translator.write (config.resolve source) root).toList) ∧
          Fragment.split translator.maker (config.resolve source).mode source = .ok spans.pieces ∧
          Fragment.Separated spans.pieces) ∧
      ∀ mode first fragment,
        Fragment.next translator.maker mode (.atByte source.toList first) = .ok (some fragment) →
          first ≤ fragment.start.position.offset ∧
            fragment.start.position.offset < fragment.stop.position.offset := by
  constructor
  · intro output h
    obtain ⟨pieces, cut, written⟩ := bind_eq_ok.1 h
    have whole := cut
    rw [Fragment.split_eq] at whole
    have counted : (Cursor.ofList source.toList).Counted := rfl
    obtain ⟨spans, rfl⟩ := Fragment.exists_spans counted whole
    refine ⟨spans, ?_, cut, spans.separated_pieces⟩
    rw [← Except.ok.inj written]
    exact Translator.join_pieces translator _ spans
  · intro mode first fragment h
    obtain ⟨ahead, ⟨c, more, begins, -⟩, beyond, -⟩ := Fragment.nextWith_sound h
    constructor
    · exact Cursor.le_offset_of_atByte ahead begins (by decide)
    · exact Cursor.offset_lt_of_next (by rw [begins]; exact List.cons_ne_nil _ _) beyond

/-- Two fragments among characters of two bytes, the second one cut off; and
the first one found from inside such a character. -/
theorem translate_eq_replaced_cutOff :
    (∃ spans : Fragment.Spans .plain .lenient "é = <b>é</i> + <i".toList 0,
      "é = h('b', null, 'é') + h('i', null)".toList =
          spans.replaced (fun root => (root.render .standard).toList) ∧
        Fragment.split .plain .lenient "é = <b>é</i> + <i" = .ok spans.pieces ∧
        Fragment.Separated spans.pieces) ∧
      ∃ fragment, Fragment.next .plain .strict (.atByte "é = <b/>".toList 1) = .ok (some fragment) ∧
        1 ≤ fragment.start.position.offset ∧
          fragment.start.position.offset < fragment.stop.position.offset := by
  constructor
  · exact (translate_eq_replaced .plain .standard "é = <b>é</i> + <i").1
      "é = h('b', null, 'é') + h('i', null)" (Outcome.eq_ok_of_toOption (by decide +kernel))
  · have some :
        (Fragment.next .plain .strict (.atByte "é = <b/>".toList 1)).toOption.join.isSome := by
      decide +kernel
    obtain ⟨fragment, found⟩ := Option.isSome_iff_exists.1 some
    have found := Outcome.eq_ok_of_toOption (Option.join_eq_some_iff.1 found)
    exact ⟨fragment, found,
      (translate_eq_replaced .plain .standard "é = <b/>").2 .strict 1 fragment found⟩

end InlineMarkup

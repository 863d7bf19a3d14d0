import InlineMarkup.Proofs.Equations
import InlineMarkup.Translate

/-!
# InlineMarkup.Proofs.Strictness

Strict reading is lenient reading that refuses more.  Faults never change what
is read: at every place where the mode is looked at, strict reading either
fails or goes on as lenient reading does.  This is proved reader by reader, from
the header machine up to whole sources, as `Outcome.Admits` of the strict
reading by the lenient one.

* `Header.step_admits`, `Content.readFrom_admits`: the two places where
  characters are read;
* `Fragment.Reader.Admits`: what is assumed of the code inside a fragment, and
  what `Fragment.split_admits` then proves of it, by induction on its length;
* `Render.node_mode`: the code written for a tree does not depend on the mode.
-/

namespace InlineMarkup

open Outcome (Admits bind_eq_ok ok_bind error_bind)

/-! ## Headers -/

namespace Header

/-- Refusing a character is all that strict reading does with it. -/
theorem refuse_admits (scan : Scan) (c : Char) :
    Admits (refuse .strict scan c) (refuse .lenient scan c) :=
  .error _ _

/-- One transition: only the phases where a character may be refused look at
the mode. -/
theorem step_admits (scan : Scan) (c : Char) :
    Admits (step .strict scan c) (step .lenient scan c) := by
  cases phase : scan.phase with
  | beforeName =>
    simp only [step, phase]
    repeat' split
    all_goals first
      | exact .refl _
      | exact (refuse_admits scan c).bind fun _ => .refl _
  | beforeValue name =>
    simp only [step, phase]
    split
    · exact .refl _
    split
    · exact .refl _
    split
    · by_cases closed : (Group.read scan.cursor).closed = false
      · rw [if_pos ⟨closed, trivial⟩]
        exact .error _ _
      · rw [if_neg fun h => closed h.1, if_neg fun h => closed h.1]
        exact .refl _
    split
    · exact (refuse_admits scan c).bind fun _ => .refl _
    split
    · exact (refuse_admits scan c).bind fun _ => .refl _
    · exact .refl _
  | slash =>
    simp only [step, phase]
    repeat' split
    all_goals first
      | exact .refl _
      | exact (refuse_admits scan c).bind fun _ => .refl _
  | tagName | name | afterName | quoted | unquoted | done =>
    simp only [step, phase]
    exact .refl _

/-- The whole machine, by induction on its strict run. -/
theorem run_admits (start : Position) (scan : Scan) :
    Admits (run .strict start scan) (run .lenient start scan) := by
  intro result h
  fun_induction run .strict start scan with
  | case1 scan done =>
    rw [run_done done]
    exact h
  | case2 => contradiction
  | case3 => contradiction
  | case4 => contradiction
  | case5 scan unfinished c rest more next taken ih =>
    rw [run_cons unfinished more, step_admits scan c next taken, ok_bind]
    exact ih h

theorem read_admits (cur : Cursor) : Admits (read .strict cur) (read .lenient cur) :=
  run_admits _ _

end Header

/-! ## Content -/

namespace Content

/-- Only a group without its closing brace is refused. -/
theorem readFrom_admits (pending : List Char) (segments : List Segment) (cur : Cursor) :
    Admits (readFrom .strict pending segments cur) (readFrom .lenient pending segments cur) := by
  intro result h
  fun_induction readFrom .strict pending segments cur with
  | case1 pending segments cur begins =>
    rw [readFrom_eq]
    simp only [begins]
    exact h
  | case2 pending segments cur begins ih =>
    rw [readFrom_eq]
    simp only [begins]
    exact ih h
  | case3 pending segments cur begins ih =>
    rw [readFrom_eq]
    simp only [begins]
    exact ih h
  | case4 => contradiction
  | case5 pending segments cur begins group closed flushed comment ih =>
    rw [readFrom_eq]
    simp only [begins]
    rw [if_neg (by simp), if_pos comment]
    exact ih h
  | case6 pending segments cur begins group closed flushed comment ih =>
    rw [readFrom_eq]
    simp only [begins]
    rw [if_neg (by simp), if_neg comment]
    exact ih h
  | case7 pending segments cur begins ih =>
    rw [readFrom_eq]
    simp only [begins]
    exact ih h
  | case8 pending segments cur begins comment ih =>
    rw [readFrom_eq]
    simp only [begins]
    exact ih h
  | case9 pending segments cur c begins ih =>
    rw [readFrom_eq]
    simp only [begins]
    exact ih h

theorem read_admits (cur : Cursor) : Admits (read .strict cur) (read .lenient cur) :=
  readFrom_admits [] [] cur

end Content

/-! ## Fragments -/

namespace Fragment

section

variable {maker : NodeMaker} {strict lenient : String → Except Error (List Piece)}
  (inner : ∀ code, Admits (strict code) (lenient code))

include inner

theorem nestValue_admits (value : AttrValue) :
    Admits (nestValue ⟨maker, .strict, strict⟩ value)
      (nestValue ⟨maker, .lenient, lenient⟩ value) := by
  cases value with
  | expression code =>
    simp only [nestValue]
    split
    · exact (inner code).bind fun _ => .refl _
    · exact .refl _
  | string | flag | nested => exact .refl _

theorem nestAttributes_admits (attributes : Attributes) :
    Admits (nestAttributes ⟨maker, .strict, strict⟩ attributes)
      (nestAttributes ⟨maker, .lenient, lenient⟩ attributes) :=
  .mapM attributes fun entry => (nestValue_admits inner entry.2).bind fun _ => .refl _

theorem addSegments_admits (run : List Segment) (assembly : Assembly) (segments : List Segment) :
    Admits (addSegments ⟨maker, .strict, strict⟩ run assembly segments)
      (addSegments ⟨maker, .lenient, lenient⟩ run assembly segments) := by
  induction segments generalizing run assembly with
  | nil => exact .refl _
  | cons segment rest ih =>
    cases segment with
    | literal text => exact ih _ _
    | expression code =>
      simp only [addSegments]
      split
      · exact (inner code).bind fun _ => ih _ _
      · exact ih _ _

theorem readOpening_admits (assembly : Assembly) (cur : Cursor) :
    Admits (readOpening ⟨maker, .strict, strict⟩ assembly cur)
      (readOpening ⟨maker, .lenient, lenient⟩ assembly cur) := by
  intro turn h
  simp only [readOpening] at h ⊢
  cases hr : Header.read .strict cur.next with
  | error fault => simp [hr] at h
  | ok read =>
    rw [Header.read_admits _ _ hr]
    simp only [hr] at h
    exact (nestAttributes_admits inner read.1.attributes).bind (fun _ => .refl _) turn h

omit inner in
/-- The name of a closing tag and its end are only compared in strict mode. -/
theorem readClosing_admits (assembly : Assembly) (cur : Cursor) :
    Admits (readClosing ⟨maker, .strict, strict⟩ assembly cur)
      (readClosing ⟨maker, .lenient, lenient⟩ assembly cur) := by
  intro turn h
  simp only [readClosing] at h ⊢
  split at h
  · split at h
    · contradiction
    · exact h
  · contradiction

theorem readTag_admits (assembly : Assembly) (cur : Cursor) :
    Admits (readTag ⟨maker, .strict, strict⟩ assembly cur)
      (readTag ⟨maker, .lenient, lenient⟩ assembly cur) := by
  unfold readTag
  split
  · exact readClosing_admits assembly cur
  · exact readOpening_admits inner assembly cur

/-- The loop over tags, by induction on its strict run. -/
theorem readOn_admits (turn : Turn) :
    Admits (readOn ⟨maker, .strict, strict⟩ turn) (readOn ⟨maker, .lenient, lenient⟩ turn) := by
  intro result h
  fun_induction readOn ⟨maker, .strict, strict⟩ turn with
  | case1 assembly cur =>
    rw [readOn_false]
    exact h
  | case2 => contradiction
  | case3 => contradiction
  | case4 assembly cur segments after content grown added ended =>
    rw [readOn_true, Content.read_admits _ _ content, ok_bind,
      addSegments_admits inner _ _ _ _ added, ok_bind, if_pos ended]
    exact h
  | case5 => contradiction
  | case6 assembly cur segments after content grown added more turn taken ih =>
    rw [readOn_true, Content.read_admits _ _ content, ok_bind,
      addSegments_admits inner _ _ _ _ added, ok_bind, if_neg more,
      readTag_admits inner _ _ _ taken, ok_bind]
    exact ih h

omit inner in
theorem conclude_admits (read : Assembly × Cursor) :
    Admits (conclude .strict read) (conclude .lenient read) := by
  unfold conclude
  cases read.1.currentName? with
  | some tag => exact .error _ _
  | none => exact .refl _

theorem readRoot_admits (cur : Cursor) :
    Admits (readRoot ⟨maker, .strict, strict⟩ cur) (readRoot ⟨maker, .lenient, lenient⟩ cur) := by
  rw [readRoot_eq, readRoot_eq]
  exact (readOpening_admits inner .empty cur).bind fun turn =>
    (readOn_admits inner turn).bind conclude_admits

theorem nextWith_admits (cur : Cursor) :
    Admits (nextWith ⟨maker, .strict, strict⟩ cur) (nextWith ⟨maker, .lenient, lenient⟩ cur) := by
  intro found h
  fun_induction nextWith ⟨maker, .strict, strict⟩ cur with
  | case1 cur none =>
    rw [nextWith_eq, none]
    exact h
  | case2 => contradiction
  | case3 cur start here root stop read =>
    rw [nextWith_eq, here]
    dsimp only
    rw [readRoot_admits inner _ _ read, ok_bind]
    exact h
  | case4 cur start here stop read ih =>
    rw [nextWith_eq, here]
    dsimp only
    rw [readRoot_admits inner _ _ read, ok_bind]
    exact ih h

theorem splitWith_admits (cur : Cursor) :
    Admits (splitWith ⟨maker, .strict, strict⟩ cur) (splitWith ⟨maker, .lenient, lenient⟩ cur) := by
  intro pieces h
  fun_induction splitWith ⟨maker, .strict, strict⟩ cur generalizing pieces with
  | case1 => contradiction
  | case2 cur found =>
    rw [splitWith_eq, nextWith_admits inner _ _ found, ok_bind]
    exact h
  | case3 cur fragment found ih =>
    obtain ⟨following, hf, hp⟩ := bind_eq_ok.1 h
    rw [splitWith_eq, nextWith_admits inner _ _ found, ok_bind]
    dsimp only
    rw [ih following hf, ok_bind]
    exact hp

end

/-- Code cut into pieces, by induction on its length: the code inside a
fragment is shorter. -/
theorem split_admits (maker : NodeMaker) (code : String) :
    Admits (split maker .strict code) (split maker .lenient code) := by
  induction size : code.length using Nat.strongRecOn generalizing code with
  | _ n ih =>
    rw [split, split]
    refine splitWith_admits (fun inner => ?_) _
    split
    · next shorter => exact ih inner.length (size ▸ shorter) inner rfl
    · exact .refl _

theorem readRoot_reader_admits (maker : NodeMaker) (cur : Cursor) :
    Admits (readRoot (reader maker .strict) cur) (readRoot (reader maker .lenient) cur) :=
  readRoot_admits (split_admits maker) cur

theorem next_admits (maker : NodeMaker) (cur : Cursor) :
    Admits (next maker .strict cur) (next maker .lenient cur) :=
  nextWith_admits (split_admits maker) cur

/-- A text that is a single fragment: strict reading asks that nothing but
white space follows it. -/
theorem parse_admits (maker : NodeMaker) (text : String) :
    Admits (parse maker .strict text) (parse maker .lenient text) := by
  unfold parse
  dsimp only
  split
  · refine (readRoot_reader_admits maker _).bind fun read => ?_
    split
    · exact .error _ _
    · rw [if_neg (by simp)]
      exact .refl _
  · intro node h
    split at h <;> contradiction

end Fragment

/-! ## Code written -/

namespace Render

section

variable {m : Type → Type} [Monad m] (hooks : Hooks m) (config : Config) (mode : Mode)

mutual

/-- The code written for a node does not depend on the mode. -/
theorem node_mode (depth : Nat) : (given : Node) →
    node hooks { config with mode := mode } depth given = node hooks config depth given
  | .tag kind name attributes kids selfClosing => by
    simp only [node]
    rw [entries_mode depth attributes, items_mode depth kids]
    rfl
  | .text segments => rfl
  | .embedded source parts => by
    simp only [node]
    rw [pieces_mode depth parts]

theorem entries_mode (depth : Nat) : (attributes : List (String × AttrValue)) →
    entries hooks { config with mode := mode } depth attributes =
      entries hooks config depth attributes
  | [] => rfl
  | (name, given) :: rest => by
    simp only [entries]
    rw [value_mode depth name given, entries_mode depth rest]

theorem value_mode (depth : Nat) (name : String) : (given : AttrValue) →
    value hooks { config with mode := mode } depth name given = value hooks config depth name given
  | .string _ | .flag | .expression _ => rfl
  | .nested source parts => by
    simp only [value]
    rw [pieces_mode (depth + 1) parts]

theorem items_mode (depth : Nat) : (kids : List Node) →
    items hooks { config with mode := mode } depth kids = items hooks config depth kids
  | [] => rfl
  | .text segments :: rest => by
    simp only [items]
    rw [items_mode depth rest]
    rfl
  | .tag kind name attributes kids selfClosing :: rest => by
    simp only [items]
    rw [node_mode (depth + 1) (.tag kind name attributes kids selfClosing), items_mode depth rest]
  | .embedded source parts :: rest => by
    simp only [items]
    rw [node_mode (depth + 1) (.embedded source parts), items_mode depth rest]

theorem pieces_mode (depth : Nat) : (parts : List Piece) →
    pieces hooks { config with mode := mode } depth parts = pieces hooks config depth parts
  | [] => rfl
  | .code text :: rest => by
    simp only [pieces]
    rw [pieces_mode depth rest]
  | .markup root :: rest => by
    simp only [pieces]
    rw [node_mode depth root, pieces_mode depth rest]

end

end

end Render

/-! ## Sources -/

/-- A pragma leaves the mode as it is. -/
theorem Config.resolve_mode (config : Config) (mode : Mode) (source : String) :
    { config with mode := mode }.resolve source = { config.resolve source with mode := mode } := by
  unfold Config.resolve Config.pragma?
  dsimp only
  split
  · cases Pragma.detect? source.toList with
    | none => rfl
    | some name => rfl
  · rfl

namespace Translator

/-- What is written does not depend on the mode. -/
theorem writePiece_mode (maker : NodeMaker) (config : Config) (mode : Mode) :
    ({ plain with maker := maker } : Translator).writePiece { config with mode := mode } =
      ({ plain with maker := maker } : Translator).writePiece config := by
  funext piece
  cases piece with
  | code text => rfl
  | markup node =>
    show Id.run (Render.node Hooks.none _ 0 node) = Id.run (Render.node Hooks.none config 0 node)
    rw [Render.node_mode]

theorem translate_admits (maker : NodeMaker) (config : Config) (source : String) :
    Admits
      (({ plain with maker := maker } : Translator).translate { config with mode := .strict } source)
      (({ plain with maker := maker } : Translator).translate { config with mode := .lenient }
        source) := by
  unfold translate
  rw [Config.resolve_mode config .strict, Config.resolve_mode config .lenient]
  dsimp only
  rw [writePiece_mode maker _ .strict, writePiece_mode maker _ .lenient]
  exact (Fragment.split_admits maker source).bind fun pieces => .refl _

end Translator

theorem translateAnyway_strict (config : Config) (source : String) :
    translateAnyway { config with mode := .strict } source =
      translateAnyway { config with mode := .lenient } source := by
  have admits := Translator.translate_admits .plain config source
  unfold translateAnyway
  cases hs : Translator.plain.translate { config with mode := .strict } source with
  | ok output =>
    have hl : Translator.plain.translate { config with mode := .lenient } source = .ok output :=
      admits output hs
    rw [hl]
  | error fault =>
    cases hl : Translator.plain.translate { config with mode := .lenient } source with
    | ok output => rfl
    | error fault => rfl

/-- The answer that is given in any case does not depend on the mode. -/
theorem translateAnyway_mode (config : Config) (mode : Mode) (source : String) :
    translateAnyway { config with mode := mode } source =
      translateAnyway { config with mode := .lenient } source := by
  cases mode with
  | lenient => rfl
  | strict => exact translateAnyway_strict config source

/-- **Strict reading is lenient reading that refuses more**: whatever strict
reading gives, for any node maker and from any place in the text, lenient
reading gives too, with the same cursor after it.  So the answer that is given
in any case is the same in both modes. -/
theorem lenient_of_strict (maker : NodeMaker) (config : Config) (source : String) (offset : Nat) :
    Admits (Fragment.readRoot (Fragment.reader maker .strict) (.atByte source.toList offset))
        (Fragment.readRoot (Fragment.reader maker .lenient) (.atByte source.toList offset)) ∧
      Admits (Fragment.next maker .strict (.atByte source.toList offset))
        (Fragment.next maker .lenient (.atByte source.toList offset)) ∧
      Admits (Fragment.split maker .strict source) (Fragment.split maker .lenient source) ∧
      Admits (Fragment.parse maker .strict source) (Fragment.parse maker .lenient source) ∧
      Admits
        (({ Translator.plain with maker := maker } : Translator).translate
          { config with mode := .strict } source)
        (({ Translator.plain with maker := maker } : Translator).translate
          { config with mode := .lenient } source) ∧
      ∀ mode, translateAnyway { config with mode := mode } source = translateAnyway config source := by
  refine ⟨Fragment.readRoot_reader_admits maker _, Fragment.next_admits maker _,
    Fragment.split_admits maker source, Fragment.parse_admits maker source,
    Translator.translate_admits maker config source, fun mode => ?_⟩
  have own : translateAnyway config source =
      translateAnyway { config with mode := .lenient } source :=
    translateAnyway_mode config config.mode source
  rw [translateAnyway_mode config mode, own]

/-- Markup inside the code of an attribute, and code in content. -/
theorem lenient_of_strict_nested :
    Translator.plain.translate { Config.standard with mode := .lenient }
        "x = <p a=\x7b<b/>\x7d>\x7by\x7d</p>" =
      .ok "x = h('p', \x7ba: h('b', null)\x7d, y)" :=
  (lenient_of_strict .plain .standard "x = <p a=\x7b<b/>\x7d>\x7by\x7d</p>" 0).2.2.2.2.1
    "x = h('p', \x7ba: h('b', null)\x7d, y)" (Outcome.eq_ok_of_toOption (by decide +kernel))

end InlineMarkup

import InlineMarkup.Proofs.Isolation
import InlineMarkup.Proofs.Trees

/-!
# InlineMarkup.Proofs.Residue

No markup is left behind.  Code is cut into pieces as it is read in its place, but
whether a piece holds markup is asked of the piece on its own.  The two agree:
markup found in a piece on its own would have been found in its place, and before
the markup that the piece stops at.

* `Host.containsMarkup_between`, `Host.containsMarkup_rest`: the code between two
  fragments;
* `Fragment.bare_splitWith`: all code that a text is cut into;
* `Node.Sifted`: the code in a node, and `no_markup_left` for all nodes of all trees.
-/

namespace InlineMarkup

open Outcome (bind_eq_ok)

/-! ## Code on its own -/

namespace Host

open Cursor (Neutral Window)

/-- The code before the first place where markup starts holds none on its own. -/
theorem containsMarkup_between {cur start : Cursor} (fresh : Neutral cur.previous?)
    (h : seek cur = some start) : containsMarkup (cur.between start) = false := by
  have whole := (seek_sound h).1.between_append_rest
  have window : Window start.rest (.ofList (cur.between start)) cur :=
    ⟨whole.symm, .inr ⟨fresh, .inl rfl⟩⟩
  cases inside : seek (.ofList (cur.between start)) with
  | none => rw [containsMarkup, inside]; rfl
  | some found =>
    -- The same markup in its place would be found first, yet it stands before `start`.
    obtain ⟨again, outside, moved⟩ := seekFrom_window cur window inside
    obtain rfl : again = start := Option.some.inj (outside.symm.trans h)
    have ended : found.rest = [] := List.append_left_eq_self.1 moved.rest.symm
    exact absurd ended (Descent.rest_ne_nil_of_start (seek_sound inside).2)

/-- Code in which no markup starts holds none on its own. -/
theorem containsMarkup_rest {cur : Cursor} (fresh : Neutral cur.previous?) (h : seek cur = none) :
    containsMarkup cur.rest = false := by
  have window : Window [] (.ofList cur.rest) cur :=
    ⟨(List.append_nil _).symm, .inr ⟨fresh, .inl rfl⟩⟩
  obtain ⟨none, -⟩ | ⟨start, start', -, found, -⟩ := seek_window window
  · rw [containsMarkup, none]
    rfl
  · rw [h] at found
    contradiction

end Host

/-- A piece without markup in its code. -/
def Piece.Bare : Piece → Prop
  | .code text => Host.containsMarkup text.toList = false
  | .markup _ => True

namespace Fragment

theorem bare_codePieces {code : List Char} (bare : Host.containsMarkup code = false) :
    ∀ piece ∈ codePieces code, piece.Bare := by
  unfold codePieces
  split
  · simp
  · exact List.forall_mem_singleton.2 (by rwa [Piece.Bare, String.toList_ofList])

/-- No markup is left in the code that a text is cut into, in both modes and for any
node maker.  Cutting starts where a text starts, and goes on after tags. -/
theorem bare_splitWith {reader : Reader} {cur : Cursor} {pieces : List Piece}
    (fresh : Cursor.Neutral cur.previous? ∨ cur.rest = [])
    (h : splitWith reader cur = .ok pieces) : ∀ piece ∈ pieces, piece.Bare := by
  fun_induction splitWith reader cur generalizing pieces with
  | case1 => contradiction
  | case2 cur found =>
    cases h
    refine bare_codePieces ?_
    obtain neutral | ended := fresh
    · exact Host.containsMarkup_rest neutral (seek_of_nextWith found)
    · rw [ended, Host.containsMarkup, Host.seek, Host.seekFrom_nil _ rfl]
      rfl
  | case3 cur fragment found ih =>
    obtain ⟨following, later, h⟩ := bind_eq_ok.1 h
    cases h
    obtain ⟨sought, -⟩ := readRoot_of_nextWith found
    obtain ⟨-, -, -, ends⟩ := nextWith_sound found
    have neutral : Cursor.Neutral cur.previous? := by
      refine fresh.resolve_right fun ended => ?_
      rw [Host.seek, Host.seekFrom_nil _ ended] at sought
      contradiction
    refine List.forall_mem_append.2 ⟨bare_codePieces (Host.containsMarkup_between neutral sought), ?_⟩
    exact List.forall_mem_cons.2 ⟨trivial, ih (ends.imp_left .inr) later⟩

/-- Code that holds markup is cut into some. -/
theorem exists_markup {reader : Reader} {code : List Char} {pieces : List Piece}
    (holds : Host.containsMarkup code = true)
    (h : splitWith reader (.ofList code) = .ok pieces) : ∃ tree, .markup tree ∈ pieces := by
  rw [splitWith_eq] at h
  obtain ⟨found, sought, h⟩ := bind_eq_ok.1 h
  cases found with
  | none =>
    rw [Host.containsMarkup, seek_of_nextWith sought] at holds
    contradiction
  | some fragment =>
    obtain ⟨following, -, h⟩ := bind_eq_ok.1 h
    cases h
    exact ⟨fragment.root, by simp⟩

end Fragment

/-! ## Code in trees -/

/-- Code that holds markup, and what it was cut into. -/
structure Block (mode : Mode) (source : String) (pieces : List Piece) : Prop where
  holds : Host.containsMarkup source.toList = true
  cut : Fragment.split .plain mode source = .ok pieces
  found : ∃ tree, .markup tree ∈ pieces
  bare : ∀ piece ∈ pieces, piece.Bare

namespace Fragment

theorem bare_split {maker : NodeMaker} {mode : Mode} {code : String} {pieces : List Piece}
    (h : split maker mode code = .ok pieces) : ∀ piece ∈ pieces, piece.Bare := by
  rw [split_eq] at h
  exact bare_splitWith (.inl (.inl rfl)) h

theorem block {mode : Mode} {code : String} {pieces : List Piece}
    (holds : Host.containsMarkup code.toList = true) (h : split .plain mode code = .ok pieces) :
    Block mode code pieces where
  holds := holds
  cut := h
  found := by
    rw [split_eq] at h
    exact exists_markup holds h
  bare := bare_split h

end Fragment

/-- A value with no markup left in its code. -/
def AttrValue.Sifted (mode : Mode) : AttrValue → Prop
  | .expression code => Host.containsMarkup code.toList = false
  | .nested source pieces => Block mode source pieces
  | .string _ | .flag => True

/-- A node with no markup left in its code. -/
def Node.Sifted (mode : Mode) : Node → Prop
  | .tag _ _ attributes _ _ => ∀ entry ∈ attributes, entry.2.Sifted mode
  | .text segments => ∀ segment ∈ segments, segment.Bare
  | .embedded source pieces => Block mode source pieces

/-- Nodes are made so. -/
theorem Fragment.made_sifted (mode : Mode) : Made mode Anywhere (Node.Sifted mode) where
  tag _ _ taken nested _ := by
    rintro ⟨key, value⟩ mem
    obtain ⟨kept, parted⟩ := value_of_header taken nested mem
    cases value with
    | string | flag => trivial
    | expression code => exact kept code rfl
    | nested source pieces =>
      obtain ⟨holds, cut, -⟩ := parted source pieces rfl
      exact block holds cut
  text _ _ _ _ bare := bare
  embedded holds cut := block holds cut

/-- **No markup is left behind**, in both modes.  In the pieces of a text, and in its
tree if it is a single fragment, code that is kept as code holds no markup, however
deep in content, in attributes, or in code with markup.  And code with markup was
cut as it would be on its own, into some markup at least. -/
theorem no_markup_left (mode : Mode) (text : String) :
    (∀ pieces, Fragment.split .plain mode text = .ok pieces →
      (∀ piece ∈ pieces, piece.Bare) ∧
        ∀ root, .markup root ∈ pieces → ∀ node : Node, node.PartOf root → node.Sifted mode) ∧
      ∀ root, Fragment.parse .plain mode text = .ok root →
        ∀ node : Node, node.PartOf root → node.Sifted mode := by
  have made := Fragment.made_sifted mode
  exact ⟨fun pieces cut => ⟨Fragment.bare_split cut, made.split cut⟩,
    fun root read => made.parse read⟩

/-- Code with and without markup, in attributes and in content. -/
def braces : String := "<p a=\x7bx && <b/>\x7d c=\x7bd < e\x7d>\x7by\x7d\x7b[<i/>, z]\x7d</p>"

/-- The fragment, which is its only piece, with a text and some code with markup in
its content. -/
theorem no_markup_left_braces :
    ∃ pieces root, Fragment.split .plain .strict braces = .ok pieces ∧ pieces.length = 1 ∧
      (∀ piece ∈ pieces, piece.Bare) ∧
      Fragment.parse .plain .strict braces = .ok root ∧ root.children.length = 2 ∧
      ∀ node : Node, node.PartOf root → node.Sifted .strict := by
  have cut : (Fragment.split .plain .strict braces).toOption.map List.length = some 1 := by
    decide +kernel
  have read : (Fragment.parse .plain .strict braces).toOption.map (·.children.length) = some 2 := by
    decide +kernel
  obtain ⟨pieces, cut, one⟩ := Option.map_eq_some_iff.1 cut
  obtain ⟨root, read, two⟩ := Option.map_eq_some_iff.1 read
  have cut := Outcome.eq_ok_of_toOption cut
  have read := Outcome.eq_ok_of_toOption read
  have sifted := no_markup_left .strict braces
  exact ⟨pieces, root, cut, one, (sifted.1 pieces cut).1, read, two, sifted.2 root read⟩

end InlineMarkup

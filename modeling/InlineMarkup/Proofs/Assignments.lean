import InlineMarkup.Proofs.Buffers
import InlineMarkup.Proofs.Quoting
import Mathlib.Data.List.Induction
import Mathlib.Data.List.Nodup

/-!
# InlineMarkup.Proofs.Assignments

Attributes that are set more than once.  `Attributes.ofList` makes assignments in turn, and
`Attributes.Collapsed` says what they come to: a name keeps the place of its first assignment and
has the value of its last one.  The attributes of a header are set in this way, by the commits that
reading it makes (`Header.commits`).

In the object that is written for attributes there is a key for each of them.  Keys are read back
as the names that they were written for (`Render.readKey?_key`), be they bare or quoted, so the
keys of an object are as distinct as the names.
-/

namespace InlineMarkup

/-! ## Assignments in turn -/

namespace Attributes

theorem names_ofList (assignments : List (String × AttrValue)) :
    (ofList assignments).names = (assignments.map Prod.fst).eraseDups := by
  induction assignments using List.reverseRecOn with
  | nil => rfl
  | append_singleton assignments last ih =>
    rw [ofList_concat, names_insert, ih, List.map_append, List.eraseDups_append]
    simp only [List.mem_eraseDups]
    split
    · next old => simp [List.removeAll, old]
    · next new => simp [List.removeAll, new, List.eraseDups_cons]

theorem nodup_names_ofList (assignments : List (String × AttrValue)) :
    (ofList assignments).names.Nodup := by
  induction assignments using List.reverseRecOn with
  | nil => exact List.nodup_nil
  | append_singleton assignments last ih =>
    rw [ofList_concat, names_insert]
    split
    · exact ih
    · next new => exact List.concat_eq_append ▸ ih.concat new

/-- The value of an attribute is that of the last assignment to it. -/
theorem get?_ofList (assignments : List (String × AttrValue)) (name : String) :
    (ofList assignments).get? name = assignments.reverse.lookup name := by
  induction assignments using List.reverseRecOn with
  | nil => rfl
  | append_singleton assignments last ih =>
    rw [ofList_concat, get?_insert, ih, List.reverse_concat, List.lookup_cons]
    by_cases same : name = last.1
    · simp [same]
    · simp [same, beq_false_of_ne same]

/-- An entry is found by its name, as no other one has it. -/
theorem get?_of_mem {attributes : Attributes} (distinct : attributes.names.Nodup)
    {entry : String × AttrValue} (mem : entry ∈ attributes) :
    attributes.get? entry.1 = some entry.2 := by
  obtain ⟨before, after, rfl⟩ := List.append_of_mem mem
  refine List.lookup_eq_some_iff.2 ⟨before, after, rfl, fun other earlier => ?_⟩
  rw [names, List.map_append, List.nodup_append] at distinct
  exact bne_iff_ne.2 (distinct.2.2 _ (List.mem_map_of_mem earlier) _ List.mem_cons_self).symm

/-- What assignments come to: every name has one entry, in the place of the first assignment to it,
and that has the value of the last one. -/
structure Collapsed (assignments : List (String × AttrValue)) (attributes : Attributes) : Prop where
  names : attributes.names = (assignments.map Prod.fst).eraseDups
  distinct : attributes.names.Nodup
  entries : ∀ entry ∈ attributes, assignments.reverse.lookup entry.1 = some entry.2
  found : ∀ name, attributes.get? name = assignments.reverse.lookup name

theorem collapsed_ofList (assignments : List (String × AttrValue)) :
    Collapsed assignments (ofList assignments) where
  names := names_ofList assignments
  distinct := nodup_names_ofList assignments
  entries entry mem := by
    rw [← get?_ofList, get?_of_mem (nodup_names_ofList assignments) mem]
  found := get?_ofList assignments

end Attributes

/-! ## The commits of a header -/

namespace Loop

variable {σ α : Type} {pass : σ → σ ⊕ α}

/-- The state in which a loop ends, or the last one if there are not enough passes. -/
def final (pass : σ → σ ⊕ α) : Nat → σ → σ
  | 0, state => state
  | passes + 1, state =>
    match pass state with
    | .inl next => final pass passes next
    | .inr _ => state

theorem final_of_run {passes : Nat} {state : σ} {result : α}
    (h : run pass passes state = some result) :
    Passes pass state (final pass passes state) ∧ pass (final pass passes state) = .inr result := by
  induction passes generalizing state with
  | zero => contradiction
  | succ passes ih =>
    rw [run] at h
    rw [final]
    cases made : pass state with
    | inl next =>
      rw [made] at h
      obtain ⟨passes, ends⟩ := ih h
      exact ⟨.head made passes, ends⟩
    | inr result' =>
      rw [made] at h
      cases h
      exact ⟨.refl, made⟩

end Loop

namespace Header

variable {mode : Mode} {start : Position} {cur after : Cursor} {header : Header}

/-- What the end of a header makes of the state that it is met in. -/
theorem Buffered.finish_of_pass {state : Buffered}
    (h : pass mode start state = .inr (.ok (header, after))) :
    after = state.cursor ∧ header.name = state.tag ∧
      header.attributes = state.cutOff.attributes := by
  unfold pass at h
  split at h
  · next done =>
    cases h
    exact ⟨rfl, rfl, by simp [finish, cutOff, done]⟩
  · split at h
    · split at h
      · cases h
      · cases h
        exact ⟨rfl, rfl, rfl⟩
    · split at h
      · cases h
      · cases h

theorem Buffered.cutOff_eq (state : Buffered) :
    state.cutOff.cursor = state.cursor ∧ state.cutOff.tag = state.tag := by
  unfold cutOff
  split
  all_goals exact ⟨rfl, rfl⟩

/-- The attributes that are set while a header is read, in turn. -/
def commits (mode : Mode) (cur : Cursor) : List (String × AttrValue) :=
  let final := Loop.final (Buffered.pass mode cur.position) (2 * cur.rest.length + 2) (.start cur)
  final.cutOff.commits

/-- The attributes of a header are set by commits, in the order in which they are written. -/
theorem attributes_of_read (h : read mode cur = .ok (header, after)) :
    header.attributes = Attributes.ofList (commits mode cur) ∧
      ∃ body pending, cur.between after = header.name.toList ++ (body ++ pending) ∧
        CutUp (commits mode cur) body := by
  have read := Buffered.loop_eq_read mode cur (Nat.le_refl _)
  rw [h] at read
  obtain ⟨passes, ends⟩ := Loop.final_of_run read
  have traced := Buffered.traced_cutOff (Buffered.traced_of_passes passes)
  obtain ⟨rfl, named, set⟩ := Buffered.finish_of_pass ends
  obtain ⟨body, pending, text, cut, -⟩ := traced.cut
  obtain ⟨stop, tag⟩ :=
    Buffered.cutOff_eq (Loop.final (Buffered.pass mode cur.position) _ (.start cur))
  rw [stop, tag, ← named] at text
  exact ⟨set.trans traced.attributes, body, pending, text, cut⟩

end Header

/-! ## Keys -/

namespace Render

/-- Reads the name of a property at the start of a text, which is an identifier or a string: the
name, and what comes after it. -/
def readKey? (text : List Char) : Option (List Char × List Char) :=
  match text with
  | '\'' :: rest => Text.literalBody? rest
  | _ =>
    if text.head?.any Name.isStart then
      some (text.takeWhile Name.isPart, text.dropWhile Name.isPart)
    else none

/-- A key is read as the name it was written for, up to the colon. -/
theorem readKey?_key (name : String) (rest : List Char) :
    readKey? ((key name).toList ++ ':' :: rest) = some (name.toList, ':' :: rest) := by
  unfold key
  split
  · next bare =>
    obtain ⟨starts, parts⟩ := Name.starts_of_isIdentifier bare
    have colon : Name.isPart ':' = false := by decide +kernel
    unfold readKey?
    split
    · next quote => exact absurd quote (starts.append _).ne_quote
    · obtain ⟨c, more, begins, start⟩ := starts
      rw [takeWhile_append_stop parts (by simpa using colon), List.dropWhile_append_of_pos parts]
      simp [begins, start, colon]
  · rw [Text.toList_quote, Text.quoted_append]
    exact Text.literalBody?_escape name.toList (':' :: rest)

/-- An object, from the keys and the values of its entries. -/
def objectText (entries : List (List Char × List Char)) : List Char :=
  if entries = [] then "null".toList
  else
    '\x7b' :: ([',', ' '].intercalate (entries.map fun entry => entry.1 ++ ':' :: ' ' :: entry.2) ++
      ['\x7d'])

/-- The object for attributes has an entry for each of them, in order. -/
theorem toList_props (config : Config) (depth : Nat) (attributes : Attributes) :
    (Id.run (props Hooks.none config depth attributes)).toList =
      objectText (attributes.map fun entry =>
        ((key entry.1).toList, valueCode config depth entry.1 entry.2)) := by
  have written : Id.run (props Hooks.none config depth attributes) =
      object (Id.run (entries Hooks.none config depth attributes)) := rfl
  rw [written, toList_object, objectText, List.map_map]
  simp only [List.map_eq_nil_iff]
  rfl

end Render

/-- **Attributes that are set more than once collapse to one.**  Whatever the assignments, there is
one entry for each name, in the order in which they were first set, with the value that was set
last.  So it is for every header, whose attributes are set as they are written.  In the object that
is written for such attributes, also if their values were changed since, the keys are read as these
names, one by one, and so no two of them stand for the same property. -/
theorem repeats_collapse (assignments : List (String × AttrValue)) :
    (Attributes.ofList assignments).Collapsed assignments ∧
    (∀ mode cur header after, Header.read mode cur = .ok (header, after) →
      Header.commits mode cur = assignments → header.attributes.Collapsed assignments ∧
        ∃ body pending, cur.between after = header.name.toList ++ (body ++ pending) ∧
          Header.CutUp assignments body) ∧
    ∀ (config : Config) (depth : Nat) (attributes : Attributes),
      attributes.names = (Attributes.ofList assignments).names →
      ∃ keys : List (List Char),
        (Id.run (Render.props Hooks.none config depth attributes)).toList =
          Render.objectText (keys.zip (attributes.map fun entry =>
            Render.valueCode config depth entry.1 entry.2)) ∧
        (∀ rest, keys.map (fun key => Render.readKey? (key ++ ':' :: rest)) =
          (assignments.map Prod.fst).eraseDups.map fun name => some (name.toList, ':' :: rest)) ∧
        (keys.map fun key => Render.readKey? (key ++ [':'])).Nodup := by
  have collapsed := Attributes.collapsed_ofList assignments
  refine ⟨collapsed, ?_, ?_⟩
  · rintro mode cur header after read rfl
    obtain ⟨set, text⟩ := Header.attributes_of_read read
    exact ⟨set ▸ collapsed, text⟩
  · intro config depth attributes same
    have keys (rest : List Char) :
        (attributes.map fun entry => (Render.key entry.1).toList).map
            (fun key => Render.readKey? (key ++ ':' :: rest)) =
          attributes.names.map fun name => some (name.toList, ':' :: rest) := by
      simp [Attributes.names, Render.readKey?_key]
    refine ⟨attributes.map fun entry => (Render.key entry.1).toList, ?_, fun rest => ?_, ?_⟩
    · rw [Render.toList_props, List.zip_map']
    · rw [keys, same, collapsed.names]
    · rw [keys, same]
      refine collapsed.distinct.map fun first second alike => ?_
      exact String.toList_inj.1 (Prod.mk.inj (Option.some.inj alike)).1

/-- A header that sets one attribute twice, has a name that must be quoted, and another that differs
from it in a quote only. -/
theorem repeats_collapse_quoted :
    ∃ header after, Header.read .strict (.ofList "p a=1 b c'd=2 cd=2 a=3>".toList) =
        .ok (header, after) ∧
      (Header.commits .strict (.ofList "p a=1 b c'd=2 cd=2 a=3>".toList)).map Prod.fst =
        ["a", "b", "c'd", "cd", "a"] ∧
      header.attributes.names = ["a", "b", "c'd", "cd"] ∧
      header.attributes.Collapsed
        (Header.commits .strict (.ofList "p a=1 b c'd=2 cd=2 a=3>".toList)) ∧
      ∃ keys : List (List Char),
        (Id.run (Render.props Hooks.none .standard 0 header.attributes)).toList =
          Render.objectText (keys.zip (header.attributes.map fun entry =>
            Render.valueCode .standard 0 entry.1 entry.2)) ∧
        keys.map (fun key => Render.readKey? (key ++ [':'])) =
          ["a", "b", "c'd", "cd"].map fun name => some (name.toList, [':']) := by
  have computed : (Header.read .strict (.ofList "p a=1 b c'd=2 cd=2 a=3>".toList)).toOption.map
      (fun read => read.1.attributes.names) = some ["a", "b", "c'd", "cd"] := by
    decide +kernel
  obtain ⟨⟨header, after⟩, read, names⟩ := Option.map_eq_some_iff.1 computed
  have read := Outcome.eq_ok_of_toOption read
  have committed :
      (Header.commits .strict (.ofList "p a=1 b c'd=2 cd=2 a=3>".toList)).map Prod.fst =
        ["a", "b", "c'd", "cd", "a"] := by
    decide +kernel
  obtain ⟨collapses, headers, objects⟩ :=
    repeats_collapse (Header.commits .strict (.ofList "p a=1 b c'd=2 cd=2 a=3>".toList))
  obtain ⟨collapsed, -⟩ := headers _ _ _ _ read rfl
  obtain ⟨keys, written, readBack, -⟩ := objects .standard 0 header.attributes
    (collapsed.names.trans collapses.names.symm)
  refine ⟨header, after, read, committed, names, collapsed, keys, written, ?_⟩
  rw [readBack [], ← collapsed.names, names]

end InlineMarkup

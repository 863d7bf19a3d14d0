/-!
# InlineMarkup.Proofs.Outcome

Readings that can fail.  A reading is put together from shorter ones by
`bind`, so what is proved about readings is proved step by step:

* `bind_eq_ok` takes a reading that succeeds apart into its steps, `bind_eq_error` finds
  the step that fails;
* `Admits` compares two readings of the same text, one of which may fail more
  often, and is kept by every way of putting readings together;
* `Succeeds` says that a reading does not fail, and is kept likewise.
-/

namespace InlineMarkup.Outcome

variable {ε α β : Type}

@[simp] theorem ok_bind (a : α) (f : α → Except ε β) : (Except.ok a >>= f) = f a := rfl

@[simp] theorem error_bind (e : ε) (f : α → Except ε β) :
    ((Except.error e : Except ε α) >>= f) = .error e := rfl

/-- A reading in two steps succeeds if both steps do. -/
theorem bind_eq_ok {x : Except ε α} {f : α → Except ε β} {b : β} :
    (x >>= f) = .ok b ↔ ∃ a, x = .ok a ∧ f a = .ok b := by
  cases x with
  | error e => simp
  | ok a => simp

/-- It fails where one of them does. -/
theorem bind_eq_error {x : Except ε α} {f : α → Except ε β} {e : ε} :
    (x >>= f) = .error e ↔ x = .error e ∨ ∃ a, x = .ok a ∧ f a = .error e := by
  cases x with
  | error e' => simp
  | ok a => simp

/-- Every value that a list gives comes from one of its entries. -/
theorem mem_mapM {γ : Type} {f : γ → Except ε α} {entries : List γ} {values : List α}
    (h : entries.mapM f = .ok values) : ∀ value ∈ values, ∃ entry ∈ entries, f entry = .ok value := by
  induction entries generalizing values with
  | nil =>
    cases h
    simp
  | cons entry rest ih =>
    rw [List.mapM_cons] at h
    obtain ⟨first, taken, h⟩ := bind_eq_ok.1 h
    obtain ⟨following, later, h⟩ := bind_eq_ok.1 h
    cases h
    refine List.forall_mem_cons.2 ⟨⟨entry, List.mem_cons_self, taken⟩, fun value mem => ?_⟩
    obtain ⟨other, inside, same⟩ := ih later value mem
    exact ⟨other, List.mem_cons_of_mem _ inside, same⟩

/-- Where a list fails, one of its entries does. -/
theorem exists_of_mapM_eq_error {γ : Type} {f : γ → Except ε α} {entries : List γ} {e : ε}
    (h : entries.mapM f = .error e) : ∃ entry ∈ entries, f entry = .error e := by
  induction entries with
  | nil => contradiction
  | cons entry rest ih =>
    rw [List.mapM_cons] at h
    obtain failed | ⟨first, -, h⟩ := bind_eq_error.1 h
    · exact ⟨entry, List.mem_cons_self, failed⟩
    · obtain failed | ⟨following, -, h⟩ := bind_eq_error.1 h
      · obtain ⟨other, inside, failed⟩ := ih failed
        exact ⟨other, List.mem_cons_of_mem _ inside, failed⟩
      · contradiction

/-- Whether a reading gives `a` is decided without comparing faults. -/
theorem eq_ok_of_toOption {x : Except ε α} {a : α} (h : x.toOption = some a) : x = .ok a := by
  cases x with
  | error e => contradiction
  | ok b =>
    obtain rfl := Option.some.inj h
    rfl

/-- What a reading fails with. -/
def fault? : Except ε α → Option ε
  | .ok _ => none
  | .error e => some e

/-- Whether a reading fails with `e` is decided without comparing what it gives. -/
theorem eq_error_of_fault? {x : Except ε α} {e : ε} (h : fault? x = some e) : x = .error e := by
  cases x with
  | error => exact congrArg Except.error (Option.some.inj h)
  | ok => contradiction

/-! ## One reading admits another -/

/-- Whatever the first reading gives, the second one gives too.  Where the
first one fails, nothing is said about the second. -/
def Admits (x y : Except ε α) : Prop := ∀ a, x = .ok a → y = .ok a

namespace Admits

theorem refl (x : Except ε α) : Admits x x := fun _ h => h

theorem error (e : ε) (y : Except ε α) : Admits (.error e) y := by
  intro a h
  contradiction

/-- Steps that admit each other, one after the other. -/
theorem bind {x y : Except ε α} {f g : α → Except ε β} (first : Admits x y)
    (second : ∀ a, Admits (f a) (g a)) : Admits (x >>= f) (y >>= g) := by
  intro b h
  obtain ⟨a, hx, hf⟩ := bind_eq_ok.1 h
  rw [first a hx, ok_bind]
  exact second a b hf

/-- The same on every entry of a list. -/
theorem mapM {γ : Type} {f g : γ → Except ε α} (entries : List γ)
    (each : ∀ entry, Admits (f entry) (g entry)) : Admits (entries.mapM f) (entries.mapM g) := by
  induction entries with
  | nil => exact refl _
  | cons entry rest ih =>
    rw [List.mapM_cons, List.mapM_cons]
    exact (each entry).bind fun value => ih.bind fun values => refl _

end Admits

/-! ## Readings that do not fail -/

/-- The reading gives something. -/
def Succeeds (x : Except ε α) : Prop := ∃ a, x = .ok a

namespace Succeeds

theorem ok (a : α) : Succeeds (.ok a : Except ε α) := ⟨a, rfl⟩

theorem ne_error {x : Except ε α} (given : Succeeds x) (e : ε) : x ≠ .error e := by
  obtain ⟨a, rfl⟩ := given
  simp

/-- Steps that do not fail, one after the other. -/
theorem bind {x : Except ε α} {f : α → Except ε β} (first : Succeeds x)
    (second : ∀ a, x = .ok a → Succeeds (f a)) : Succeeds (x >>= f) := by
  obtain ⟨a, given⟩ := first
  obtain ⟨b, found⟩ := second a given
  exact ⟨b, bind_eq_ok.2 ⟨a, given, found⟩⟩

/-- The same on every entry of a list. -/
theorem mapM {γ : Type} {f : γ → Except ε α} (entries : List γ)
    (each : ∀ entry, Succeeds (f entry)) : Succeeds (entries.mapM f) := by
  induction entries with
  | nil => exact ok []
  | cons entry rest ih =>
    rw [List.mapM_cons]
    exact (each entry).bind fun value _ => ih.bind fun values _ => ok _

end Succeeds

end InlineMarkup.Outcome

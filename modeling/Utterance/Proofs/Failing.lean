/-!
# Computations that may fail

A chain of computations fails if one of them does, and a list is mapped if every element
is (`mapM_eq_ok_iff`).  What is true of every result of a computation, if there is one
(`Except.Yields`), is shown along the chain.
-/

namespace Utterance

namespace Except

variable {ε α β γ : Type}

theorem bind_eq_error {x : Except ε α} {f : α → Except ε β} {e : ε} :
    x >>= f = .error e ↔ x = .error e ∨ ∃ a, x = .ok a ∧ f a = .error e := by
  cases x <;> simp [bind, Except.bind]

theorem bind_eq_ok_iff {x : Except ε α} {f : α → Except ε β} {b : β} :
    x >>= f = .ok b ↔ ∃ a, x = .ok a ∧ f a = .ok b := by
  cases x <;> simp [bind, Except.bind]

theorem map_eq_ok {x : Except ε α} {f : α → β} {b : β} :
    x.map f = .ok b ↔ ∃ a, x = .ok a ∧ f a = b := by
  cases x <;> simp [Except.map]

theorem both_eq_error {x : Except ε α} {y : Except ε β} {f : α → β → γ}
    {e : ε} (h : (do let a ← x; let b ← y; pure (f a b)) = .error e) :
    x = .error e ∨ y = .error e := by
  rcases bind_eq_error.mp h with h | ⟨_, -, h⟩
  · exact .inl h
  · rcases bind_eq_error.mp h with h | ⟨_, -, h⟩
    · exact .inr h
    · cases h

theorem toOption_map (f : α → β) (x : Except ε α) : (x.map f).toOption = x.toOption.map f := by
  cases x <;> rfl

theorem toOption_eq_some_iff {x : Except ε α} {a : α} : x.toOption = some a ↔ x = .ok a := by
  cases x <;> simp [Except.toOption]

end Except

section

variable {ε α β : Type} {f : α → Except ε β}

/-- Mapping over a list stops with the error of one of its elements. -/
theorem exists_mem_of_mapM_error {as : List α} {e : ε} (h : as.mapM f = .error e) :
    ∃ a ∈ as, f a = .error e := by
  induction as with
  | nil => cases h
  | cons a as ih =>
      rw [List.mapM_cons] at h
      rcases Except.both_eq_error h with h | h
      · exact ⟨a, List.mem_cons_self, h⟩
      · obtain ⟨a', ha', h⟩ := ih h
        exact ⟨a', List.mem_cons_of_mem _ ha', h⟩

theorem mapM_eq_ok_iff {as : List α} {bs : List β} :
    as.mapM f = .ok bs ↔ bs.map some = as.map fun a => (f a).toOption := by
  induction as generalizing bs with
  | nil =>
      rw [List.mapM_nil, List.map_nil, List.map_eq_nil_iff]
      exact ⟨fun h => (Except.ok.inj h).symm, fun h => h ▸ rfl⟩
  | cons a as ih =>
      rw [List.mapM_cons, List.map_cons, List.map_eq_cons_iff]
      cases ha : f a with
      | error e => simp [bind, Except.bind, Except.toOption]
      | ok b =>
          simp only [← ih]
          cases as.mapM f with
          | error e => simp [bind, Except.bind]
          | ok bs' => simp [bind, Except.bind, pure, Except.pure, Except.toOption, eq_comm]

theorem exists_eq_ok_of_mapM_eq_ok {as : List α} {bs : List β} (h : as.mapM f = .ok bs) :
    ∀ a ∈ as, ∃ b, f a = .ok b := by
  intro a ha
  have hmem := List.mem_map_of_mem (f := fun a => (f a).toOption) ha
  rw [← mapM_eq_ok_iff.mp h, List.mem_map] at hmem
  obtain ⟨b, -, hb⟩ := hmem
  exact ⟨b, Except.toOption_eq_some_iff.mp hb.symm⟩

/-- What is the same for every element and its image is the same for the lists. -/
theorem map_eq_map_of_mapM_eq_ok {γ : Type} {g : β → γ} {k : α → γ} {as : List α} {bs : List β}
    (h : as.mapM f = .ok bs) (hf : ∀ a b, f a = .ok b → g b = k a) : bs.map g = as.map k := by
  induction as generalizing bs with
  | nil =>
      cases h
      rfl
  | cons a as ih =>
      rw [List.mapM_cons] at h
      obtain ⟨b, hb, h⟩ := Except.bind_eq_ok_iff.mp h
      obtain ⟨bs', hbs', h⟩ := Except.bind_eq_ok_iff.mp h
      cases h
      rw [List.map_cons, List.map_cons, hf a b hb, ih hbs']

theorem exists_mapM_eq_ok {as : List α} (h : ∀ a ∈ as, ∃ b, f a = .ok b) :
    ∃ bs, as.mapM f = .ok bs := by
  cases has : as.mapM f with
  | ok bs => exact ⟨bs, rfl⟩
  | error e =>
      obtain ⟨a, ha, hfail⟩ := exists_mem_of_mapM_error has
      obtain ⟨b, hb⟩ := h a ha
      rw [hb] at hfail
      cases hfail

end

/-! ## What is true of a result -/

/-- The result has the property, if there is one. -/
def Except.Yields {ε α : Type} (P : α → Prop) (x : Except ε α) : Prop := ∀ a, x = .ok a → P a

namespace Except

variable {ε α β : Type} {P : α → Prop} {Q : β → Prop}

theorem yields_ok {a : α} (h : P a) : Yields P (.ok a : Except ε α) := by
  rintro _ ⟨⟩
  exact h

theorem yields_error (e : ε) : Yields P (.error e : Except ε α) := by
  rintro _ ⟨⟩

theorem Yields.bind {x : Except ε α} {f : α → Except ε β} (hx : Yields P x)
    (hf : ∀ a, P a → Yields Q (f a)) : Yields Q (x >>= f) := by
  intro b hb
  obtain ⟨a, ha, hb⟩ := bind_eq_ok_iff.mp hb
  exact hf a (hx a ha) b hb

theorem Yields.mapM {f : α → Except ε β} {as : List α} (h : ∀ a ∈ as, Yields Q (f a)) :
    Yields (fun bs => ∀ b ∈ bs, Q b) (as.mapM f) := by
  intro bs hbs b hb
  have hmem := List.mem_map_of_mem (f := some) hb
  rw [mapM_eq_ok_iff.mp hbs, List.mem_map] at hmem
  obtain ⟨a, ha, hfa⟩ := hmem
  exact h a ha b (toOption_eq_some_iff.mp hfa)

end Except

end Utterance

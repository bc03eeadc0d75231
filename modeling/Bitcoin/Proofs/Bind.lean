import Bitcoin.Error

/-!
# Success of a sequence

A computation that can fail goes on only from a success. So a sequence succeeds exactly when its
first part does and what is done with the value does.

* **`Except.bind_eq_ok_iff`**, **`Except.bind_eq_error_iff`**: a sequence of two computations that can
  fail succeeds, or fails.
* **`Except.FailsOnly.bind`**: a sequence fails only as its parts do.
-/

namespace Bitcoin

/-- A sequence of two computations succeeds when the second succeeds on what the first gives. -/
theorem Except.bind_eq_ok_iff {ε α β : Type} {x : Except ε α} {f : α → Except ε β} {b : β} :
    x.bind f = .ok b ↔ ∃ a, x = .ok a ∧ f a = .ok b := by
  cases x with
  | error e =>
      constructor
      · intro h
        exact nomatch h
      · rintro ⟨a, ha, -⟩
        exact nomatch ha
  | ok a =>
      constructor
      · intro h
        exact ⟨a, rfl, h⟩
      · rintro ⟨a', ha, h⟩
        obtain rfl := Except.ok.inj ha
        exact h

/-- A sequence of two computations fails when the first does, or the second on what the first
    gives. -/
theorem Except.bind_eq_error_iff {ε α β : Type} {x : Except ε α} {f : α → Except ε β} {e : ε} :
    x.bind f = .error e ↔ x = .error e ∨ ∃ a, x = .ok a ∧ f a = .error e := by
  cases x with
  | error e' =>
      constructor
      · intro h
        obtain rfl := Except.error.inj h
        exact .inl rfl
      · rintro (h | ⟨a, ha, -⟩)
        · obtain rfl := Except.error.inj h
          rfl
        · exact nomatch ha
  | ok a =>
      constructor
      · intro h
        exact .inr ⟨a, rfl, h⟩
      · rintro (h | ⟨a', ha, h⟩)
        · exact nomatch h
        · obtain rfl := Except.ok.inj ha
          exact h

/-- A function of a result gives a value when the result does. -/
theorem Except.map_eq_ok_iff {ε α β : Type} {x : Except ε α} {f : α → β} {b : β} :
    x.map f = .ok b ↔ ∃ a, x = .ok a ∧ f a = b := by
  cases x with
  | error e =>
      constructor
      · intro h
        exact nomatch h
      · rintro ⟨a, ha, -⟩
        exact nomatch ha
  | ok a =>
      constructor
      · intro h
        exact ⟨a, rfl, Except.ok.inj h⟩
      · rintro ⟨a', ha, rfl⟩
        obtain rfl := Except.ok.inj ha
        rfl

/-- Every failure is of the given kind. -/
def Except.FailsOnly {ε α : Type} (P : ε → Prop) (x : Except ε α) : Prop :=
  ∀ e, x = .error e → P e

theorem Except.FailsOnly.ok {ε α : Type} {P : ε → Prop} (a : α) :
    Except.FailsOnly P (.ok a : Except ε α) :=
  fun _ h => nomatch h

/-- A sequence fails only in the ways in which its parts do. -/
theorem Except.FailsOnly.bind {ε α β : Type} {P : ε → Prop} {x : Except ε α} {f : α → Except ε β}
    (hx : Except.FailsOnly P x) (hf : ∀ a, Except.FailsOnly P (f a)) :
    Except.FailsOnly P (x.bind f) := by
  cases x with
  | error e =>
      intro e' h
      obtain rfl := Except.error.inj h
      exact hx e rfl
  | ok a => exact hf a

/-- Items one after the other fail only in the ways in which each does. -/
theorem Except.FailsOnly.mapM {ε α β : Type} {P : ε → Prop} {f : α → Except ε β}
    (h : ∀ a, Except.FailsOnly P (f a)) (as : List α) : Except.FailsOnly P (as.mapM f) := by
  induction as with
  | nil => exact .ok _
  | cons a as ih =>
      rw [List.mapM_cons]
      exact (h a).bind fun _ => ih.bind fun _ => .ok _

end Bitcoin

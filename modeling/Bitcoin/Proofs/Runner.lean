import Bitcoin.Error

/-!
# What a computation settles to

The rules about transactions are stated for a lookup in any monad. What such a computation does is
seen by running it from a state to a value and a state. A computation settles to a value on a set of
states when from each of them it gives that value and stays inside the set. Then a sequence settles
to what its second part does with the value of the first, so a rule that goes through lookups with
settled answers is as good as the same rule without any lookup.

* **`Runner`**: a way to run the computations of a monad, with its laws.
* **`Runner.exists_of_run_mapM_eq_error`**, **`Runner.run_allM_eq_ok_true_iff`**: a list of
  computations, the first that fails, and checks that all say yes.
* **`Runner.Settles.except_bind`**: a sequence that can fail.
* **`Lookup.run_bind_of_ok`**, **`Lookup.bind_eq_ok_iff`**: the same where lookups keep a state.
-/

namespace Bitcoin

/-- A way to run computations from a state to a value and a state. -/
structure Runner (m : Type → Type) [Monad m] (σ : Type) where
  run {α : Type} : m α → σ → α × σ
  run_pure {α : Type} (a : α) (s : σ) : run (pure a) s = (a, s)
  run_bind {α β : Type} (x : m α) (f : α → m β) (s : σ) :
    run (x >>= f) s = run (f (run x s).1) (run x s).2

namespace Runner

/-- Computations that keep a state. -/
def state {σ : Type} : Runner (StateM σ) σ where
  run x s := x.run s
  run_pure _ _ := rfl
  run_bind _ _ _ := rfl

/-- Computations that keep a further state. -/
def under {m : Type → Type} [Monad m] {σ τ : Type} (R : Runner m τ) :
    Runner (StateT σ m) (σ × τ) where
  run x s :=
    let ((a, s'), t) := R.run (x.run s.1) s.2
    (a, (s', t))
  run_pure a s := by rw [StateT.run_pure, R.run_pure]
  run_bind x f s := by rw [StateT.run_bind, R.run_bind]

variable {m : Type → Type} [Monad m] {σ α β ε : Type}

/-- What is done to the state alone. -/
theorem under_modifyGet {τ : Type} (R : Runner m τ) (f : σ → α × σ) (s : σ) (t : τ) :
    R.under.run (ExceptT.lift (StateT.modifyGet f) : ExceptT ε (StateT σ m) α).run (s, t)
      = (.ok (f s).1, ((f s).2, t)) := by
  have hrun : (ExceptT.lift (StateT.modifyGet f) : ExceptT ε (StateT σ m) α).run.run s
      = pure (f s) >>= fun p => pure (.ok p.1, p.2) := rfl
  simp only [under, hrun, R.run_bind, R.run_pure]

/-- A computation below the state leaves the state alone. -/
theorem under_lift {τ : Type} (R : Runner m τ) (x : m α) (s : σ) (t : τ) :
    R.under.run (StateT.lift x) (s, t) = ((R.run x t).1, (s, (R.run x t).2)) := by
  have hlift : (StateT.lift x).run s = x >>= fun a => pure (a, s) := rfl
  simp only [under, hlift, R.run_bind, R.run_pure]

theorem under_state_eq_iff {τ : Type} {x : StateT σ (StateM τ) α} {s s' : σ} {t t' : τ} {a : α} :
    state.under.run x (s, t) = (a, (s', t')) ↔ (x.run s).run t = ((a, s'), t') := by
  have hpair : ∀ p : (α × σ) × τ, (p.1.1, p.1.2, p.2) = (a, s', t') ↔ p = ((a, s'), t') := by
    rintro ⟨⟨b, u⟩, v⟩
    simp only [Prod.mk.injEq, and_assoc]
  exact hpair _

section

variable (R : Runner m σ) {x : ExceptT ε m α} {f : α → ExceptT ε m β} {s t : σ}

/-- After a success a sequence goes on with the value, in the state that is left. -/
theorem run_bind_of_ok {a : α} (h : R.run x.run s = (.ok a, t)) :
    R.run (x >>= f).run s = R.run (f a).run t := by
  rw [ExceptT.run_bind, R.run_bind, h]

theorem run_bind_of_error {e : ε} (h : R.run x.run s = (.error e, t)) :
    R.run (x >>= f).run s = (.error e, t) := by
  rw [ExceptT.run_bind, R.run_bind, h]
  exact R.run_pure _ _

/-- A sequence succeeds when its second part does on what the first gives and leaves. -/
theorem run_bind_eq_ok_iff {b : β} {u : σ} :
    R.run (x >>= f).run s = (.ok b, u) ↔
      ∃ a t, R.run x.run s = (.ok a, t) ∧ R.run (f a).run t = (.ok b, u) := by
  cases hx : R.run x.run s with
  | mk result t =>
      cases result with
      | error e =>
          rw [R.run_bind_of_error hx]
          constructor
          · intro h
            exact nomatch congrArg Prod.fst h
          · rintro ⟨a, t', ha, -⟩
            exact nomatch congrArg Prod.fst ha
      | ok a =>
          rw [R.run_bind_of_ok hx]
          constructor
          · intro h
            exact ⟨a, t, rfl, h⟩
          · rintro ⟨a', t', ha, h⟩
            obtain ⟨hresult, rfl⟩ := Prod.mk.inj ha
            obtain rfl := Except.ok.inj hresult
            exact h

/-- A sequence fails when its first part does, or the second on what the first gives and leaves. -/
theorem run_bind_eq_error_iff {e : ε} {u : σ} :
    R.run (x >>= f).run s = (.error e, u) ↔ R.run x.run s = (.error e, u) ∨
      ∃ a t, R.run x.run s = (.ok a, t) ∧ R.run (f a).run t = (.error e, u) := by
  cases hx : R.run x.run s with
  | mk result t =>
      cases result with
      | error e' =>
          rw [R.run_bind_of_error hx]
          constructor
          · intro h
            obtain ⟨he, rfl⟩ := Prod.mk.inj h
            obtain rfl := Except.error.inj he
            exact .inl rfl
          · rintro (h | ⟨a, t', ha, -⟩)
            · obtain ⟨he, rfl⟩ := Prod.mk.inj h
              obtain rfl := Except.error.inj he
              rfl
            · exact nomatch congrArg Prod.fst ha
      | ok a =>
          rw [R.run_bind_of_ok hx]
          constructor
          · intro h
            exact .inr ⟨a, t, rfl, h⟩
          · rintro (h | ⟨a', t', ha, h⟩)
            · exact nomatch congrArg Prod.fst h
            · obtain ⟨hresult, rfl⟩ := Prod.mk.inj ha
              obtain rfl := Except.ok.inj hresult
              exact h

/-- A list of computations that succeeds gives one value for each. -/
theorem length_of_run_mapM [LawfulMonad m] {as : List α} {bs : List β}
    (h : R.run (as.mapM f).run s = (.ok bs, t)) : bs.length = as.length := by
  induction as generalizing bs s t with
  | nil =>
      rw [List.mapM_nil] at h
      obtain rfl := Except.ok.inj (Prod.mk.inj ((R.run_pure _ _).symm.trans h)).1
      rfl
  | cons a as ih =>
      rw [List.mapM_cons] at h
      obtain ⟨b, u, -, h⟩ := R.run_bind_eq_ok_iff.mp h
      obtain ⟨rest, v, hrest, h⟩ := R.run_bind_eq_ok_iff.mp h
      obtain rfl := Except.ok.inj (Prod.mk.inj ((R.run_pure _ _).symm.trans h)).1
      rw [List.length_cons, List.length_cons, ih hrest]

/-- When a list of computations fails, those in front of one of them have succeeded, and this one
    has failed in the state that they left. -/
theorem exists_of_run_mapM_eq_error [LawfulMonad m] {as : List α} {e : ε} {u : σ}
    (h : R.run (as.mapM f).run s = (.error e, u)) :
    ∃ front a back before t, as = front ++ a :: back ∧
      R.run (front.mapM f).run s = (.ok before, t) ∧ R.run (f a).run t = (.error e, u) := by
  induction as generalizing s with
  | nil =>
      rw [List.mapM_nil] at h
      exact nomatch congrArg Prod.fst ((R.run_pure _ _).symm.trans h)
  | cons a as ih =>
      rw [List.mapM_cons] at h
      rcases R.run_bind_eq_error_iff.mp h with ha | ⟨b, t, ha, h⟩
      · refine ⟨[], a, as, [], s, rfl, ?_, ha⟩
        rw [List.mapM_nil]
        exact R.run_pure _ _
      · rcases R.run_bind_eq_error_iff.mp h with has | ⟨bs, v, -, h⟩
        · obtain ⟨front, c, back, before, v, rfl, hbefore, hc⟩ := ih has
          refine ⟨a :: front, c, back, b :: before, v, rfl, ?_, hc⟩
          rw [List.mapM_cons, R.run_bind_of_ok ha, R.run_bind_of_ok hbefore]
          exact R.run_pure _ _
        · exact nomatch congrArg Prod.fst ((R.run_pure _ _).symm.trans h)

/-- A check of all of a list says yes when the single checks do, each in the state that the one
    before has left. -/
theorem run_allM_eq_ok_true_iff {f : α → ExceptT ε m Bool} {as : List α} {u : σ} :
    R.run (as.allM f).run s = (.ok true, u) ↔ ∃ states : Nat → σ, states 0 = s ∧
      states as.length = u ∧
      ∀ i (h : i < as.length), R.run (f as[i]).run (states i) = (.ok true, states (i + 1)) := by
  induction as generalizing s with
  | nil =>
      have hnil : R.run ([].allM f : ExceptT ε m Bool).run s = (.ok true, s) := R.run_pure _ s
      rw [hnil]
      constructor
      · intro h
        obtain ⟨-, rfl⟩ := Prod.mk.inj h
        exact ⟨fun _ => s, rfl, rfl, nofun⟩
      · rintro ⟨states, rfl, rfl, -⟩
        rfl
  | cons a as ih =>
      have hcons : (a :: as).allM f = f a >>= fun passed =>
          match passed with
          | true => as.allM f
          | false => pure false := rfl
      rw [hcons, R.run_bind_eq_ok_iff]
      constructor
      · rintro ⟨passed, t, ha, h⟩
        cases passed with
        | false => exact nomatch congrArg Prod.fst ((R.run_pure _ _).symm.trans h)
        | true =>
            obtain ⟨states, rfl, hlast, hall⟩ := ih.mp h
            refine ⟨fun i => i.casesOn s states, rfl, hlast, fun i hi => ?_⟩
            cases i with
            | zero => exact ha
            | succ i => exact hall i (Nat.lt_of_succ_lt_succ hi)
      · rintro ⟨states, rfl, hlast, hall⟩
        refine ⟨true, states 1, hall 0 (Nat.zero_lt_succ _), ?_⟩
        exact ih.mpr ⟨fun i => states (i + 1), rfl, hlast,
          fun i hi => hall (i + 1) (Nat.succ_lt_succ hi)⟩

end

/-- From each of the states the computation gives the value and leaves one of them. -/
def Settles (R : Runner m σ) (S : σ → Prop) (x : m α) (a : α) : Prop :=
  ∀ s, S s → ∃ t, S t ∧ R.run x s = (a, t)

variable {R : Runner m σ} {S : σ → Prop}

/-- A value is settled from the start. -/
theorem settles_pure (a : α) : R.Settles S (pure a) a :=
  fun s hs => ⟨s, hs, R.run_pure a s⟩

/-- A computation that settles on all states gives its value from every one. -/
theorem Settles.fst_run {x : m α} {a : α} (h : R.Settles (fun _ => True) x a) (s : σ) :
    (R.run x s).1 = a := by
  obtain ⟨_, -, hrun⟩ := h s ⟨⟩
  exact congrArg Prod.fst hrun

/-- A program settles when its parts do, one after the other. -/
theorem Settles.bind {x : m α} {f : α → m β} {a : α} {b : β} (hx : R.Settles S x a)
    (hf : R.Settles S (f a) b) : R.Settles S (x >>= f) b := by
  intro s hs
  obtain ⟨t, ht, hrun⟩ := hx s hs
  obtain ⟨u, hu, hrest⟩ := hf t ht
  refine ⟨u, hu, ?_⟩
  rw [R.run_bind, hrun]
  exact hrest

/-- A sequence that can fail settles to the sequence of what its parts settle to. -/
theorem Settles.except_bind {x : ExceptT ε m α} {f : α → ExceptT ε m β} {r : Except ε α}
    {g : α → Except ε β} (hx : R.Settles S x.run r)
    (hf : ∀ a, r = .ok a → R.Settles S (f a).run (g a)) :
    R.Settles S (x >>= f).run (r.bind g) := by
  rw [ExceptT.run_bind]
  refine Settles.bind hx ?_
  cases r with
  | error e => exact settles_pure _
  | ok a => exact hf a rfl

/-- A check of all of a list has an answer when each single check has one. -/
theorem exists_settles_allM {f : α → ExceptT ε m Bool} {as : List α}
    (h : ∀ a ∈ as, ∃ b, R.Settles S (f a).run (.ok b)) :
    ∃ b, R.Settles S (as.allM f).run (.ok b) := by
  induction as with
  | nil => exact ⟨true, settles_pure _⟩
  | cons a as ih =>
      obtain ⟨⟨passed, ha⟩, has⟩ := List.forall_mem_cons.mp h
      obtain ⟨rest, hrest⟩ := ih has
      cases passed with
      | true =>
          refine ⟨rest, Settles.except_bind ha (g := fun _ => .ok rest) ?_⟩
          rintro _ ⟨⟩
          exact hrest
      | false =>
          refine ⟨false, Settles.except_bind ha (g := fun _ => .ok false) ?_⟩
          rintro _ ⟨⟩
          exact settles_pure _

end Runner

/-! ## Lookups that keep a state -/

namespace Lookup

variable {ε σ α β : Type} {x : ExceptT ε (StateM σ) α} {f : α → ExceptT ε (StateM σ) β} {s t : σ}

theorem run_bind_of_ok {a : α} (h : x.run.run s = (.ok a, t)) :
    (x >>= f).run.run s = (f a).run.run t :=
  Runner.state.run_bind_of_ok h

theorem run_bind_of_error {e : ε} (h : x.run.run s = (.error e, t)) :
    (x >>= f).run.run s = (.error e, t) :=
  Runner.state.run_bind_of_error h

/-- A sequence succeeds when its second part does on what the first gives and leaves. -/
theorem bind_eq_ok_iff {b : β} :
    ((x >>= f).run.run s).1 = .ok b ↔
      ∃ a t, x.run.run s = (.ok a, t) ∧ ((f a).run.run t).1 = .ok b := by
  constructor
  · intro h
    obtain ⟨a, t, hx, hf⟩ := Runner.state.run_bind_eq_ok_iff.mp (Prod.ext h rfl)
    exact ⟨a, t, hx, congrArg Prod.fst hf⟩
  · rintro ⟨a, t, hx, h⟩
    have hf := Runner.state.run_bind_eq_ok_iff.mpr ⟨a, t, hx, Prod.ext h rfl⟩
    exact congrArg Prod.fst hf

end Lookup

end Bitcoin

import Bitcoin.Proofs.Transaction.Store

/-!
# Calls on a store

A store is used by calls one after the other: transactions are put in and looked up, and everything
is forgotten. What is behind the store may answer a lookup with anything, and differently each time.
Whatever it answers, a call that fails leaves the store as it was, and a lookup that succeeds gives
a transaction with the id that was asked for, takes nothing out, and puts in nothing else.

* **`Sound.perform`**, **`Sound.afterCalls`**: the ids stay right, in one call and in all of them.
* **`integrity_of_calls`**: what each call of a run answers and leaves.
-/

namespace Bitcoin

/-- A call on a store. -/
inductive StoreCall
  | insert (tx : Tx)
  | fetch (id : Txid) (net : Network)
  | clear
  | size

/-- The answer to a call. -/
inductive StoreAnswer
  | inserted (result : Except Error Txid)
  | fetched (result : Except Error Tx)
  | cleared
  | counted (size : Nat)

/-- Whether the answer is an error. -/
def StoreAnswer.Failed : StoreAnswer → Prop
  | .inserted result => ∃ e, result = .error e
  | .fetched result => ∃ e, result = .error e
  | .cleared => False
  | .counted _ => False

section

variable [Digests] {σ : Type}

/-- Performs a call on a store, in front of a resolver with a state of its own. -/
def StoreCall.perform (behind : Option (Resolver (StateM σ))) (call : StoreCall) :
    TxStore × σ → StoreAnswer × (TxStore × σ)
  | (store, s) =>
      match call with
      | .insert tx =>
          match store.insert tx with
          | .ok (id, later) => (.inserted (.ok id), (later, s))
          | .error e => (.inserted (.error e), (store, s))
      | .fetch id net =>
          let ((result, later), t) := ((TxStore.fetch behind id net).run.run store).run s
          (.fetched result, (later, t))
      | .clear => (.cleared, (store.clear, s))
      | .size => (.counted store.size, (store, s))

/-- The store and the state behind it after calls one after the other. -/
def afterCalls (behind : Option (Resolver (StateM σ))) (calls : List StoreCall)
    (state : TxStore × σ) : TxStore × σ :=
  calls.foldl (fun state call => (call.perform behind state).2) state

end

namespace TxStore

variable [Digests] {σ : Type} {behind : Option (Resolver (StateM σ))} {store later : TxStore}
  {s t : σ} {answer : StoreAnswer}

/-- The answer to a lookup and the store that it leaves are those of the lookup. -/
theorem perform_fetch_eq_iff {id : Txid} {net : Network} :
    (StoreCall.fetch id net).perform behind (store, s) = (answer, (later, t)) ↔
      ∃ result, answer = .fetched result ∧
        Runner.state.under.run (fetch behind id net).run (store, s) = (result, (later, t)) := by
  have hperform : (StoreCall.fetch id net).perform behind (store, s)
      = (.fetched (Runner.state.under.run (fetch behind id net).run (store, s)).1,
        (Runner.state.under.run (fetch behind id net).run (store, s)).2) := rfl
  rw [hperform]
  constructor
  · intro h
    obtain ⟨hanswer, hleft⟩ := Prod.mk.inj h
    exact ⟨_, hanswer.symm, Prod.ext rfl hleft⟩
  · rintro ⟨result, rfl, hrun⟩
    rw [hrun]

/-- A transaction is put in under its own id, or else nothing is done. -/
theorem perform_insert_cases {tx : Tx}
    (h : (StoreCall.insert tx).perform behind (store, s) = (answer, (later, t))) :
    (∃ id, answer = .inserted (.ok id) ∧ store.insert tx = .ok (id, later)) ∨
    ((∃ e, answer = .inserted (.error e)) ∧ later = store) := by
  rw [StoreCall.perform] at h
  cases hinsert : store.insert tx with
  | error e =>
      rw [hinsert] at h
      obtain ⟨rfl, rfl, -⟩ := h
      exact .inr ⟨⟨e, rfl⟩, rfl⟩
  | ok kept =>
      rw [hinsert] at h
      obtain ⟨rfl, rfl, -⟩ := h
      exact .inl ⟨kept.1, rfl, rfl⟩

/-- The ids stay right in every call. -/
theorem Sound.perform {call : StoreCall} (hsound : store.Sound)
    (h : call.perform behind (store, s) = (answer, (later, t))) : later.Sound := by
  cases call with
  | insert tx =>
      rcases perform_insert_cases h with ⟨id, -, hinsert⟩ | ⟨-, rfl⟩
      · exact hsound.insert hinsert
      · exact hsound
  | fetch id net =>
      obtain ⟨result, -, hrun⟩ := perform_fetch_eq_iff.mp h
      exact hsound.fetch hrun
  | clear =>
      obtain ⟨-, rfl, -⟩ := h
      exact sound_empty
  | size =>
      obtain ⟨-, rfl, -⟩ := h
      exact hsound

/-- The ids are right after any calls. -/
theorem Sound.afterCalls (hsound : store.Sound) (calls : List StoreCall) (s : σ) :
    (afterCalls behind calls (store, s)).1.Sound := by
  induction calls generalizing store s with
  | nil => exact hsound
  | cons call calls ih => exact ih (hsound.perform rfl) _

/-- A call that fails leaves the store as it was. -/
theorem eq_of_perform_failed {call : StoreCall}
    (h : call.perform behind (store, s) = (answer, (later, t))) (hfailed : answer.Failed) :
    later = store := by
  cases call with
  | insert tx =>
      rcases perform_insert_cases h with ⟨id, rfl, -⟩ | ⟨-, heq⟩
      · obtain ⟨e, he⟩ := hfailed
        exact nomatch he
      · exact heq
  | fetch id net =>
      obtain ⟨result, rfl, hrun⟩ := perform_fetch_eq_iff.mp h
      obtain ⟨e, rfl⟩ := hfailed
      exact eq_of_fetch_error hrun
  | clear =>
      obtain ⟨rfl, -⟩ := h
      exact hfailed.elim
  | size =>
      obtain ⟨rfl, -⟩ := h
      exact hfailed.elim

/-- After any calls on a new store, whatever is behind it, every transaction is kept under its own
    id. The next call leaves the store as it was when it fails. When it is a lookup, it gives no
    transaction but one with the id that was asked for, which is kept from then on; it takes nothing
    out, and puts in nothing else. -/
theorem integrity_of_calls (behind : Option (Resolver (StateM σ))) (calls : List StoreCall)
    (s : σ) : ∃ (store : TxStore) (u : σ),
      afterCalls behind calls (.empty, s) = (store, u) ∧ store.Sound ∧
      ∀ (call : StoreCall) (answer : StoreAnswer) (later : TxStore) (t : σ),
        call.perform behind (store, u) = (answer, (later, t)) →
        (answer.Failed → later = store) ∧
        ∀ id net, call = .fetch id net →
          (∀ tx, answer = .fetched (.ok tx) → tx.txid = .ok id ∧ later.find? id = some tx) ∧
          later.Extends store ∧
          ∀ other, other ≠ id → later.find? other = store.find? other := by
  have hsound : (afterCalls behind calls (.empty, s)).1.Sound := sound_empty.afterCalls calls s
  refine ⟨_, _, rfl, hsound, ?_⟩
  intro call answer later t hperform
  refine ⟨eq_of_perform_failed hperform, ?_⟩
  rintro id net rfl
  obtain ⟨result, rfl, hrun⟩ := perform_fetch_eq_iff.mp hperform
  refine ⟨?_, extends_of_fetch hrun, fun other => find?_of_fetch hrun⟩
  rintro tx ⟨⟩
  exact ⟨txid_of_fetch hsound hrun, (fetch_eq_ok hrun).1⟩

end TxStore

end Bitcoin

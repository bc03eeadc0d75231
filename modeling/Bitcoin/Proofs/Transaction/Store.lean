import Bitcoin.Proofs.Bind
import Bitcoin.Proofs.Runner
import Bitcoin.Transaction.Store

/-!
# What a store keeps

A store keeps every transaction under its own id: `insert` computes the id, and an answer of the
resolver behind the store is put in only when it has the id that was asked for. A lookup that
succeeds leaves the transaction in the store and takes none out, so the next lookup of that id gives
the same answer and asks nobody.

* **`run_fetch`**, **`fetch_cases`**: what a lookup gives and leaves.
* **`Reached.sound`**: the ids are right after any operations.
* **`fetch_eq_ok`**: a lookup that succeeds keeps what it gives.
-/

namespace Bitcoin.TxStore

@[simp]
theorem find?_empty (id : Txid) : empty.find? id = none := Std.HashMap.getElem?_empty

/-- What is put in is found under its id, and all else as before. -/
theorem find?_put (store : TxStore) (id : Txid) (tx : Tx) (other : Txid) :
    (store.put id tx).find? other = if id = other then some tx else store.find? other := by
  show (store.entries.insert id tx)[other]? = _
  rw [Std.HashMap.getElem?_insert]
  simp only [beq_iff_eq]
  rfl

/-- Keeps at least what the other store keeps. -/
def Extends (later store : TxStore) : Prop :=
  ∀ id tx, store.find? id = some tx → later.find? id = some tx

theorem Extends.refl (store : TxStore) : store.Extends store := fun _ _ h => h

theorem Extends.trans {store later last : TxStore} (h : later.Extends store)
    (h' : last.Extends later) : last.Extends store :=
  fun id tx hkept => h' id tx (h id tx hkept)

/-- Putting in something new loses nothing. -/
theorem extends_put {store : TxStore} {id : Txid} (h : store.find? id = none) (tx : Tx) :
    (store.put id tx).Extends store := by
  intro other kept hkept
  rw [find?_put, if_neg]
  · exact hkept
  · rintro rfl
    exact nomatch h.symm.trans hkept

section

variable [Digests]

/-- Keeps every transaction under its own id. -/
def Sound (store : TxStore) : Prop :=
  ∀ id tx, store.find? id = some tx → tx.txid = .ok id

/-- An answer of the resolver behind a store, when it has the id that was asked for. -/
def accept (id : Txid) (answer : Except Error Tx) : Except Error Tx := do
  let tx ← answer
  let actual ← tx.txid
  if actual = id then return tx else throw (.wrongTransaction id actual)

/-- The store after an answer: only what is accepted is put in. -/
def keep (store : TxStore) (id : Txid) (answer : Except Error Tx) : TxStore :=
  match accept id answer with
  | .ok tx => store.put id tx
  | .error _ => store

variable {m : Type → Type} [Monad m] {σ : Type} {R : Runner m σ} {behind : Option (Resolver m)}
  {store later : TxStore} {id : Txid} {net : Network} {tx : Tx} {result : Except Error Tx} {s t : σ}

/-- What is done with an answer from behind. -/
theorem run_accept (R : Runner m σ) : R.under.run (do
      let actual ← Resolver.settle tx.txid
      if actual ≠ id then throw (.wrongTransaction id actual)
      modify (·.put id tx)
      return tx : ExceptT Error (StateT TxStore m) Tx).run (store, s)
    = (accept id (.ok tx), (store.keep id (.ok tx), s)) := by
  have hid : R.under.run (Resolver.settle tx.txid : ExceptT Error (StateT TxStore m) Txid).run
      (store, s) = (tx.txid, (store, s)) := R.under.run_pure _ _
  cases htxid : tx.txid with
  | error e =>
      rw [htxid] at hid
      refine (R.under.run_bind_of_error hid).trans ?_
      simp only [keep, accept, htxid, bind, Except.bind]
  | ok actual =>
      rw [htxid] at hid
      refine (R.under.run_bind_of_ok hid).trans ?_
      have haccept : accept id (.ok tx)
          = if actual = id then .ok tx else .error (.wrongTransaction id actual) := by
        simp only [accept, htxid, bind, Except.bind]
        rfl
      by_cases hactual : actual = id
      · have hmodify : R.under.run (modify (·.put id tx) :
            ExceptT Error (StateT TxStore m) PUnit).run (store, s)
              = (.ok ⟨⟩, (store.put id tx, s)) :=
          R.under_modifyGet (fun store : TxStore => (PUnit.unit, store.put id tx)) store s
        rw [if_neg (not_not_intro hactual), keep, haccept, if_pos hactual]
        exact (R.under.run_bind_of_ok hmodify).trans (R.under.run_pure _ _)
      · have hthrow : R.under.run (throw (.wrongTransaction id actual) :
            ExceptT Error (StateT TxStore m) PUnit).run (store, s)
              = (.error (.wrongTransaction id actual), (store, s)) := R.under.run_pure _ _
        rw [if_pos hactual, keep, haccept, if_neg hactual]
        exact R.under.run_bind_of_error hthrow

/-- A lookup gives what is kept, and otherwise what is accepted of the answer from behind. -/
theorem run_fetch : R.under.run (fetch behind id net).run (store, s) =
    match store.find? id, behind with
    | some tx, _ => (.ok tx, (store, s))
    | none, none => (.error (.unknownTransaction id), (store, s))
    | none, some ask =>
        let asked := R.run (ask id net).run s
        (accept id asked.1, (store.keep id asked.1, asked.2)) := by
  have hget : R.under.run (get : ExceptT Error (StateT TxStore m) TxStore).run (store, s)
      = (.ok store, (store, s)) :=
    R.under_modifyGet (fun store => (store, store)) store s
  rw [fetch.eq_def]
  refine (R.under.run_bind_of_ok hget).trans ?_
  cases store.find? id with
  | some tx => exact R.under.run_pure _ _
  | none =>
      cases behind with
      | none => exact R.under.run_pure _ _
      | some ask =>
          have hask : R.under.run (ExceptT.mk (StateT.lift (ask id net).run)).run (store, s)
              = ((R.run (ask id net).run s).1, (store, (R.run (ask id net).run s).2)) := by
            exact R.under_lift _ store s
          dsimp only
          cases hasked : R.run (ask id net).run s with
          | mk answer t =>
              rw [hasked] at hask
              cases answer with
              | error e => exact R.under.run_bind_of_error hask
              | ok tx => exact (R.under.run_bind_of_ok hask).trans (run_accept R)

/-! ## What a lookup does to the store -/

/-- What is not accepted leaves the store as it is. -/
theorem keep_of_error {answer : Except Error Tx} {e : Error} (h : accept id answer = .error e) :
    store.keep id answer = store := by
  rw [keep, h]

/-- Only the entry that was asked for is put in. -/
theorem find?_keep_of_ne {answer : Except Error Tx} {other : Txid} (h : other ≠ id) :
    (store.keep id answer).find? other = store.find? other := by
  rw [keep]
  cases accept id answer with
  | error e => rfl
  | ok tx => rw [find?_put, if_neg h.symm]

/-- The entry that was asked for is what was accepted, if anything was. -/
theorem find?_keep_of_none (h : store.find? id = none) (answer : Except Error Tx) :
    (store.keep id answer).find? id = (accept id answer).toOption := by
  rw [keep]
  cases accept id answer with
  | error e => exact h
  | ok tx =>
      rw [find?_put, if_pos rfl]
      rfl

theorem extends_keep (h : store.find? id = none) (answer : Except Error Tx) :
    (store.keep id answer).Extends store := by
  rw [keep]
  cases accept id answer with
  | error e => exact .refl store
  | ok tx => exact extends_put h tx

/-- A lookup is answered by what is kept, which changes nothing, or by what is accepted of the answer
    from behind, if there is anybody to ask. -/
theorem fetch_cases (h : R.under.run (fetch behind id net).run (store, s) = (result, (later, t))) :
    (∃ tx, store.find? id = some tx ∧ result = .ok tx ∧ later = store) ∨
    (store.find? id = none ∧ ∃ answer, result = accept id answer ∧ later = store.keep id answer ∧
      ∀ ask, behind = some ask → answer = (R.run (ask id net).run s).1) := by
  rw [run_fetch] at h
  cases hkept : store.find? id with
  | some tx =>
      rw [hkept] at h
      obtain ⟨rfl, rfl, -⟩ := h
      exact .inl ⟨tx, rfl, rfl, rfl⟩
  | none =>
      rw [hkept] at h
      cases behind with
      | none =>
          -- nobody is asked, which is as good as an answer that says so
          obtain ⟨rfl, rfl, -⟩ := h
          exact .inr ⟨rfl, .error (.unknownTransaction id), rfl, rfl, fun _ hask => nomatch hask⟩
      | some ask =>
          obtain ⟨rfl, rfl, -⟩ := h
          refine .inr ⟨rfl, _, rfl, rfl, ?_⟩
          rintro _ ⟨⟩
          rfl

/-- A lookup that fails leaves the store as it was. -/
theorem eq_of_fetch_error {e : Error}
    (h : R.under.run (fetch behind id net).run (store, s) = (.error e, (later, t))) :
    later = store := by
  rcases fetch_cases h with ⟨kept, -, hresult, -⟩ | ⟨-, answer, haccept, rfl, -⟩
  · exact nomatch hresult
  · exact keep_of_error haccept.symm

/-- A lookup takes nothing out, whether it succeeds or not. -/
theorem extends_of_fetch
    (h : R.under.run (fetch behind id net).run (store, s) = (result, (later, t))) :
    later.Extends store := by
  rcases fetch_cases h with ⟨kept, -, -, rfl⟩ | ⟨hnone, answer, -, rfl, -⟩
  · exact .refl later
  · exact extends_keep hnone answer

/-- A lookup puts in nothing but what was asked for. -/
theorem find?_of_fetch {other : Txid}
    (h : R.under.run (fetch behind id net).run (store, s) = (result, (later, t)))
    (hother : other ≠ id) : later.find? other = store.find? other := by
  rcases fetch_cases h with ⟨kept, -, -, rfl⟩ | ⟨-, answer, -, rfl, -⟩
  · rfl
  · exact find?_keep_of_ne hother

/-! ## What is kept has the id that it is kept under -/

/-- An answer is accepted when its id is the one that was asked for. -/
theorem accept_eq_ok_iff {answer : Except Error Tx} :
    accept id answer = .ok tx ↔ answer = .ok tx ∧ tx.txid = .ok id := by
  rw [accept]
  constructor
  · intro h
    obtain ⟨tx', hanswer, h⟩ := Except.bind_eq_ok_iff.mp h
    obtain ⟨actual, htxid, h⟩ := Except.bind_eq_ok_iff.mp h
    by_cases hactual : actual = id
    · rw [if_pos hactual] at h
      obtain rfl := Except.ok.inj h
      exact ⟨hanswer, hactual ▸ htxid⟩
    · rw [if_neg hactual] at h
      exact nomatch h
  · rintro ⟨hanswer, htxid⟩
    refine Except.bind_eq_ok_iff.mpr ⟨tx, hanswer, ?_⟩
    refine Except.bind_eq_ok_iff.mpr ⟨id, htxid, ?_⟩
    rw [if_pos rfl]
    rfl

theorem sound_empty : empty.Sound := by
  intro id tx h
  rw [find?_empty] at h
  exact nomatch h

/-- A transaction under its own id leaves the store sound. -/
theorem Sound.put (h : store.Sound) (htxid : tx.txid = .ok id) : (store.put id tx).Sound := by
  intro other kept hkept
  rw [find?_put] at hkept
  by_cases hid : id = other
  · rw [if_pos hid] at hkept
    obtain rfl := Option.some.inj hkept
    exact hid ▸ htxid
  · rw [if_neg hid] at hkept
    exact h other kept hkept

/-- What is put in by hand goes under its own id. -/
theorem Sound.insert (h : store.Sound) (hinsert : store.insert tx = .ok (id, later)) :
    later.Sound := by
  obtain ⟨actual, htxid, hstored⟩ := Except.bind_eq_ok_iff.mp hinsert
  obtain ⟨rfl, rfl⟩ := Prod.mk.inj (Except.ok.inj hstored)
  exact h.put htxid

/-- Of an answer only what was accepted is kept. -/
theorem Sound.keep (h : store.Sound) (id : Txid) (answer : Except Error Tx) :
    (store.keep id answer).Sound := by
  rw [TxStore.keep]
  cases haccept : accept id answer with
  | error e => exact h
  | ok tx => exact h.put (accept_eq_ok_iff.mp haccept).2

/-- A lookup keeps the ids right, whether it succeeds or not. -/
theorem Sound.fetch (h : store.Sound)
    (hfetch : R.under.run (fetch behind id net).run (store, s) = (result, (later, t))) :
    later.Sound := by
  rcases fetch_cases hfetch with ⟨kept, -, -, rfl⟩ | ⟨-, answer, -, rfl, -⟩
  · exact h
  · exact h.keep id answer

/-- A lookup that succeeds gives a transaction with the id that was asked for. -/
theorem txid_of_fetch (hsound : store.Sound)
    (h : R.under.run (fetch behind id net).run (store, s) = (.ok tx, (later, t))) :
    tx.txid = .ok id := by
  rcases fetch_cases h with ⟨kept, hkept, hresult, -⟩ | ⟨-, answer, haccept, -, -⟩
  · obtain rfl := Except.ok.inj hresult
    exact hsound id tx hkept
  · exact (accept_eq_ok_iff.mp haccept.symm).2

/-- A store that operations make out of nothing. -/
inductive Reached : TxStore → Prop
  | empty : Reached .empty
  | insert {store later : TxStore} {tx : Tx} {id : Txid} (h : Reached store)
      (hinsert : store.insert tx = .ok (id, later)) : Reached later
  | fetch {σ : Type} {behind : Option (Resolver (StateM σ))} {store later : TxStore} {id : Txid}
      {net : Network} {result : Except Error Tx} {s t : σ} (h : Reached store)
      (hfetch : ((fetch behind id net).run.run store).run s = ((result, later), t)) : Reached later
  | clear {store : TxStore} (h : Reached store) : Reached store.clear

/-- The ids are right after any operations. -/
theorem Reached.sound (h : store.Reached) : store.Sound := by
  induction h with
  | empty => exact sound_empty
  | insert _ hinsert ih => exact ih.insert hinsert
  | fetch _ hfetch ih => exact ih.fetch (Runner.under_state_eq_iff.mpr hfetch)
  | clear _ _ => exact sound_empty

/-! ## A lookup that succeeds is answered from the store from then on -/

/-- What is kept is found, and nobody is asked. -/
theorem fetch_of_find? (h : store.find? id = some tx) :
    R.under.run (fetch behind id net).run (store, s) = (.ok tx, (store, s)) := by
  rw [run_fetch, h]

/-- A lookup that succeeds keeps what it gives and takes nothing out. -/
theorem fetch_eq_ok
    (h : R.under.run (fetch behind id net).run (store, s) = (.ok tx, (later, t))) :
    later.find? id = some tx ∧ later.Extends store := by
  rcases fetch_cases h with ⟨kept, hkept, hresult, rfl⟩ | ⟨hnone, answer, haccept, rfl, -⟩
  · obtain rfl := Except.ok.inj hresult
    exact ⟨hkept, .refl later⟩
  · refine ⟨?_, extends_keep hnone answer⟩
    rw [find?_keep_of_none hnone, ← haccept]
    rfl

end

end Bitcoin.TxStore

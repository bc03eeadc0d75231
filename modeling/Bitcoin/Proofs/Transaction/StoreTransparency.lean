import Bitcoin.Proofs.Transaction.StoreCalls
import Bitcoin.Proofs.Wire.Explorer
import Mathlib.Data.List.DropRight

/-!
# Asking through a store

A resolver that gives the same answer to the same question may as well be asked through a store,
but for the network. What is kept is found under its id for every network, so a lookup gives what
the resolver behind the store answers for the network of the first lookup of that id that succeeded
since everything was last forgotten, and for its own network only when there was no such lookup. An
explorer serves the same bytes for every network, so there the network that the transaction notes is
all that can be another one.

* **`Follows.perform`**, **`follows_afterCalls`**: what is kept is what was accepted for that
  network.
* **`answer_of_calls`**: the answer to a lookup after any others.
* **`answer_of_calls_fails`**: the answer has the network of an earlier lookup.
-/

namespace Bitcoin

section

variable {σ : Type}

/-- What is asked gets these answers, in every state. -/
def Resolver.Answers (ask : Resolver (StateM σ)) (f : Txid → Network → Except Error Tx) : Prop :=
  ∀ id net s, ((ask id net).run.run s).1 = f id net

end

def StoreCall.isClear : StoreCall → Bool
  | .clear => true
  | _ => false

section

variable [Digests]

/-- The network of a lookup of the id, when its answer is accepted. -/
def StoreCall.network? (f : Txid → Network → Except Error Tx) (id : Txid) :
    StoreCall → Option Network
  | .fetch other net =>
      if other = id ∧ (TxStore.accept id (f id net)).isOk then some net else none
  | _ => none

/-- The network of the first lookup of the id that succeeded since everything was forgotten. -/
def networkKept (f : Txid → Network → Except Error Tx) (id : Txid) (calls : List StoreCall) :
    Option Network :=
  (calls.rtakeWhile fun call => !call.isClear).findSome? fun call => call.network? f id

/-- One more call keeps the network that is noted, unless it empties the store. -/
theorem networkKept_append (f : Txid → Network → Except Error Tx) (id : Txid)
    (calls : List StoreCall) (call : StoreCall) : networkKept f id (calls ++ [call])
      = if call.isClear then none else (networkKept f id calls).or (call.network? f id) := by
  rw [networkKept, List.rtakeWhile_concat]
  cases call.isClear with
  | true => rfl
  | false =>
      show ((calls.rtakeWhile _ ++ [call]).findSome? _ : Option Network) = _
      rw [List.findSome?_append, List.findSome?_singleton]
      rfl

/-- A network that is kept was asked for. -/
theorem mem_of_networkKept {f : Txid → Network → Except Error Tx} {id : Txid}
    {calls : List StoreCall} {net : Network} (h : networkKept f id calls = some net) :
    .fetch id net ∈ calls := by
  obtain ⟨call, hmem, hcall⟩ := List.exists_of_findSome?_eq_some h
  have hmem' : call ∈ calls := (List.rtakeWhile_suffix _ calls).subset hmem
  cases call with
  | fetch other asked =>
      rw [StoreCall.network?] at hcall
      split at hcall
      case isTrue hasked =>
        obtain ⟨rfl, -⟩ := hasked
        obtain rfl := Option.some.inj hcall
        exact hmem'
      case isFalse => exact nomatch hcall
  | insert tx => exact nomatch hcall
  | clear => exact nomatch hcall
  | size => exact nomatch hcall

/-- One more call is made in the state that the others leave. -/
theorem afterCalls_append {σ : Type} (behind : Option (Resolver (StateM σ)))
    (calls : List StoreCall) (call : StoreCall) (state : TxStore × σ) :
    afterCalls behind (calls ++ [call]) state
      = (call.perform behind (afterCalls behind calls state)).2 := by
  rw [afterCalls, List.foldl_append]
  rfl

end

namespace TxStore

section

variable [Digests] {σ : Type} {f : Txid → Network → Except Error Tx} {ask : Resolver (StateM σ)}
  {store later : TxStore} {id : Txid} {net : Network} {first : Option Network} {s t : σ}

/-- What is kept under the id is what is accepted of the answer for the network, if there is one. -/
def Follows (store : TxStore) (f : Txid → Network → Except Error Tx) (id : Txid)
    (first : Option Network) : Prop :=
  first.map (fun net => accept id (f id net)) = (store.find? id).map .ok

/-- An empty store has no network noted. -/
theorem follows_empty (f : Txid → Network → Except Error Tx) (id : Txid) :
    empty.Follows f id none := by
  rw [Follows, find?_empty]
  rfl

/-- Where nothing is kept under an id, no network is noted. -/
theorem Follows.eq_none (h : store.Follows f id first) (hnone : store.find? id = none) :
    first = none := by
  rw [Follows, hnone] at h
  exact Option.map_eq_none_iff.mp h

/-- What is kept under an id is what was accepted of the answer for the network that is noted. -/
theorem Follows.exists_eq_some (h : store.Follows f id first) {tx : Tx}
    (hsome : store.find? id = some tx) :
    ∃ net, first = some net ∧ accept id (f id net) = .ok tx := by
  rw [Follows, hsome] at h
  exact Option.map_eq_some_iff.mp h

/-- A lookup is answered for the network that is noted, and for its own when there is none. -/
theorem Follows.eq_accept (hask : ask.Answers f) (h : store.Follows f id first)
    {result : Except Error Tx} (hfetch : Runner.state.under.run (fetch (some ask) id net).run
      (store, s) = (result, (later, t))) : result = accept id (f id (first.getD net)) := by
  rcases fetch_cases hfetch with ⟨tx, hfound, rfl, -⟩ | ⟨hnone, answer, rfl, -, hanswer⟩
  · obtain ⟨net', rfl, haccept⟩ := h.exists_eq_some hfound
    exact haccept.symm
  · obtain rfl := h.eq_none hnone
    rw [hanswer ask rfl]
    exact congrArg (accept id) (hask id net s)

/-- A lookup of the id notes its network, unless there is one already. -/
theorem Follows.after_fetch (hask : ask.Answers f) (h : store.Follows f id first)
    {result : Except Error Tx} (hfetch : Runner.state.under.run (fetch (some ask) id net).run
      (store, s) = (result, (later, t))) :
    later.Follows f id (first.or ((StoreCall.fetch id net).network? f id)) := by
  rcases fetch_cases hfetch with ⟨tx, hfound, -, rfl⟩ | ⟨hnone, answer, -, rfl, hanswer⟩
  · obtain ⟨net', rfl, -⟩ := h.exists_eq_some hfound
    exact h
  · have hf : answer = f id net := (hanswer ask rfl).trans (hask id net s)
    rw [h.eq_none hnone, Option.none_or, Follows, find?_keep_of_none hnone, hf, StoreCall.network?]
    cases haccept : accept id (f id net) with
    | error e =>
        rw [if_neg fun hok => nomatch hok.2]
        rfl
    | ok tx =>
        rw [if_pos ⟨rfl, rfl⟩]
        exact congrArg some haccept

/-- A call that puts nothing in by hand keeps the store in step with the network that is noted. -/
theorem Follows.perform (hask : ask.Answers f) (h : store.Follows f id first) {call : StoreCall}
    (hcall : ∀ tx, call ≠ .insert tx) {answer : StoreAnswer}
    (hperform : call.perform (some ask) (store, s) = (answer, (later, t))) :
    later.Follows f id (if call.isClear then none else first.or (call.network? f id)) := by
  cases call with
  | insert tx => exact absurd rfl (hcall tx)
  | fetch other net =>
      obtain ⟨result, -, hrun⟩ := perform_fetch_eq_iff.mp hperform
      show later.Follows f id (first.or ((StoreCall.fetch other net).network? f id))
      by_cases hother : other = id
      · subst hother
        exact h.after_fetch hask hrun
      · have hnetwork : (StoreCall.fetch other net).network? f id = none :=
          if_neg fun hid => hother hid.1
        rw [hnetwork, Option.or_none, Follows, find?_of_fetch hrun (Ne.symm hother)]
        exact h
  | clear =>
      obtain ⟨-, rfl, -⟩ := hperform
      exact follows_empty f id
  | size =>
      obtain ⟨-, rfl, -⟩ := hperform
      show store.Follows f id (first.or none)
      rw [Option.or_none]
      exact h

/-- After any lookups what is kept is what was accepted for the first network. -/
theorem follows_afterCalls (hask : ask.Answers f) {calls : List StoreCall}
    (hcalls : ∀ tx, .insert tx ∉ calls) (s : σ) (id : Txid) :
    (afterCalls (some ask) calls (.empty, s)).1.Follows f id (networkKept f id calls) := by
  induction calls using List.reverseRecOn with
  | nil => exact follows_empty f id
  | append_singleton calls call ih =>
      have hbefore := ih fun tx htx => hcalls tx (List.mem_append_left _ htx)
      have hcall : ∀ tx, call ≠ .insert tx := by
        rintro tx rfl
        exact hcalls tx (List.mem_append_right _ (List.mem_singleton_self _))
      rw [networkKept_append, afterCalls_append]
      exact hbefore.perform hask hcall rfl

/-- After any lookups the answer is for the network that is noted, and for the lookup's own when
    there is none. -/
theorem perform_fetch_afterCalls (hask : ask.Answers f) {calls : List StoreCall}
    (hcalls : ∀ tx, .insert tx ∉ calls) (s : σ) (id : Txid) (net : Network) :
    ((StoreCall.fetch id net).perform (some ask) (afterCalls (some ask) calls (.empty, s))).1
      = .fetched (accept id (f id ((networkKept f id calls).getD net))) := by
  have hfollows := follows_afterCalls hask hcalls s id
  cases hperform : (StoreCall.fetch id net).perform (some ask)
      (afterCalls (some ask) calls (.empty, s)) with
  | mk answer state =>
      obtain ⟨result, rfl, hrun⟩ := perform_fetch_eq_iff.mp hperform
      exact congrArg StoreAnswer.fetched (hfollows.eq_accept hask hrun)

/-! ## Answers of an explorer -/

/-- The network changes nothing about what is accepted but the network. -/
theorem accept_network (id : Txid) (net other : Network) (raw : Bytes) :
    accept id (Tx.ofExplorer other raw)
      = (accept id (Tx.ofExplorer net raw)).map fun tx => { tx with network := other } := by
  rw [Tx.ofExplorer_network net other]
  cases Tx.ofExplorer net raw with
  | error e => rfl
  | ok tx =>
      -- the network is not among the bytes that the id is a digest of
      have htxid : ({ tx with network := other } : Tx).txid = tx.txid := rfl
      show (({ tx with network := other } : Tx).txid >>= _) = Except.map _ (tx.txid >>= _)
      rw [htxid]
      cases tx.txid with
      | error e => rfl
      | ok actual =>
          show (if actual = id then _ else _) = Except.map _ (if actual = id then _ else _)
          by_cases hactual : actual = id
          · rw [if_pos hactual, if_pos hactual]
            rfl
          · rw [if_neg hactual, if_neg hactual]
            rfl

/-- A lookup after any others gives what is accepted of the resolver's answer for the network of the
    first lookup of that id that has succeeded since everything was last forgotten, and for its own
    network when there was none. So it gives just that when no other network was asked for. In front
    of an explorer the network that the transaction notes is this first one, and nothing else is
    different. -/
theorem answer_of_calls (hask : ask.Answers f) {calls : List StoreCall}
    (hcalls : ∀ tx, .insert tx ∉ calls) (s : σ) (id : Txid) (net : Network) :
    ∃ answer, ((StoreCall.fetch id net).perform (some ask)
        (afterCalls (some ask) calls (.empty, s))).1 = .fetched answer ∧
      answer = accept id (f id ((networkKept f id calls).getD net)) ∧
      ((∀ other, .fetch id other ∈ calls → other = net) → answer = accept id (f id net)) ∧
      ∀ rawOf : Txid → Bytes, (∀ id net, f id net = Tx.ofExplorer net (rawOf id)) →
        answer.map (fun tx => { tx with network := net }) = accept id (f id net) ∧
        ∀ tx, answer = .ok tx → tx.network = (networkKept f id calls).getD net := by
  refine ⟨_, perform_fetch_afterCalls hask hcalls s id net, rfl, ?_, ?_⟩
  · intro hsame
    cases hkept : networkKept f id calls with
    | none => rfl
    | some first =>
        obtain rfl := hsame first (mem_of_networkKept hkept)
        rfl
  · intro rawOf hraw
    rw [hraw, hraw]
    constructor
    · exact (accept_network id _ net (rawOf id)).symm
    · intro tx htx
      exact Tx.network_of_ofExplorer (accept_eq_ok_iff.mp htx).1

end

/-- The answers of an explorer that serves one transaction for every id. -/
def directAnswers (_ : Txid) (net : Network) : Except Error Tx :=
  Tx.ofExplorer net Tx.directLayout.bytes

def directResolver : Resolver (StateM Unit) := fun id net => Resolver.settle (directAnswers id net)

theorem answers_directResolver : directResolver.Answers directAnswers := fun _ _ _ => rfl

/-- The id of that transaction. -/
def directTxid : Txid := (Digests.standard.hash256 Tx.directLayout.bytes).reverse

theorem insert_notMem_fetch (tx : Tx) (id : Txid) (net : Network) :
    .insert tx ∉ [StoreCall.fetch id net] :=
  fun h => nomatch List.mem_singleton.mp h

/-- The answer is accepted on either network, because the id does not depend on it. -/
theorem accept_directAnswers (net : Network) :
    @accept Digests.standard directTxid (directAnswers directTxid net)
      = .ok (Tx.directLayout.tx net) := by
  let _ : Digests := Digests.standard
  have hread := Tx.directLayout.read_bytes net
  have hmark : Tx.directLayout.bytes[4]? ≠ some 0 := by decide
  have hbytes := (Tx.bytes_eq_ok_iff_of_read hread).mpr
    ⟨Tx.Layout.sizesShortest_iff.mpr (by decide), Tx.Layout.pushesCanonical_iff.mpr (by decide)⟩
  have hanswer : directAnswers directTxid net = .ok (Tx.directLayout.tx net) :=
    (Tx.ofExplorer_of_read hmark hread).trans (if_pos rfl)
  exact accept_eq_ok_iff.mpr ⟨hanswer, (Tx.ofFile_of_read hread hmark hbytes).1⟩

/-- A lookup on one network after a lookup on the other. -/
theorem answer_of_calls_direct :
    directResolver.Answers directAnswers ∧
      (∀ tx, .insert tx ∉ [StoreCall.fetch directTxid .main]) ∧
      ∃ answer, (@StoreCall.perform Digests.standard _ (some directResolver)
          (.fetch directTxid .test) (@afterCalls Digests.standard _ (some directResolver)
            [.fetch directTxid .main] (.empty, ()))).1 = .fetched answer ∧
        answer = @accept Digests.standard directTxid (directAnswers directTxid
          ((@networkKept Digests.standard directAnswers directTxid
            [.fetch directTxid .main]).getD .test)) ∧
        ((∀ other, .fetch directTxid other ∈ [StoreCall.fetch directTxid .main] → other = .test) →
          answer = @accept Digests.standard directTxid (directAnswers directTxid .test)) ∧
        ∀ rawOf : Txid → Bytes, (∀ id net, directAnswers id net = Tx.ofExplorer net (rawOf id)) →
          answer.map (fun tx => { tx with network := .test })
            = @accept Digests.standard directTxid (directAnswers directTxid .test) ∧
          ∀ tx, answer = .ok tx → tx.network = (@networkKept Digests.standard directAnswers
            directTxid [.fetch directTxid .main]).getD .test := by
  have hcalls : ∀ tx, .insert tx ∉ [StoreCall.fetch directTxid .main] :=
    fun tx => insert_notMem_fetch tx directTxid .main
  exact ⟨answers_directResolver, hcalls, @answer_of_calls Digests.standard _ _ _
    answers_directResolver _ hcalls () directTxid .test⟩

/-- What was looked up for one network is found for the other, where an explorer answers with
    another transaction. -/
theorem answer_of_calls_fails :
    directResolver.Answers directAnswers ∧
      (@StoreCall.perform Digests.standard _ (some directResolver) (.fetch directTxid .test)
        (@afterCalls Digests.standard _ (some directResolver) [.fetch directTxid .main]
          (.empty, ()))).1 = .fetched (.ok (Tx.directLayout.tx .main)) ∧
      @accept Digests.standard directTxid (directAnswers directTxid .test)
        = .ok (Tx.directLayout.tx .test) ∧
      (Tx.directLayout.tx .main).network ≠ .test := by
  refine ⟨answers_directResolver, ?_, accept_directAnswers .test, by decide⟩
  let _ : Digests := Digests.standard
  have hkept : networkKept directAnswers directTxid [.fetch directTxid .main] = some .main := by
    refine (networkKept_append directAnswers directTxid [] (.fetch directTxid .main)).trans ?_
    show none.or ((StoreCall.fetch directTxid .main).network? directAnswers directTxid) = _
    rw [Option.none_or, StoreCall.network?, accept_directAnswers, if_pos ⟨rfl, rfl⟩]
  have hanswer := perform_fetch_afterCalls answers_directResolver
    (fun tx => insert_notMem_fetch tx directTxid .main) () directTxid .test
  rw [hkept, Option.getD_some, accept_directAnswers] at hanswer
  exact hanswer

end TxStore

end Bitcoin

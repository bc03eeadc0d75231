import Bitcoin.Transaction.Spending
import Std.Data.HashMap

/-!
# A store of transactions

The store keeps transactions under their own ids. As a resolver it answers from what it keeps,
and otherwise asks the resolver behind it, if there is one. An answer is kept only when it has the
id that was asked for; a failed lookup leaves the store as it was. The network plays no part in a
lookup of what is kept.
-/

namespace Bitcoin

/-- Transactions under their ids. -/
structure TxStore where
  entries : Std.HashMap Txid Tx

namespace TxStore

/-- A store that keeps nothing. -/
def empty : TxStore := ⟨{}⟩

/-- How many transactions are kept. -/
def size (store : TxStore) : Nat := store.entries.size

/-- Whether nothing is kept. -/
def isEmpty (store : TxStore) : Bool := store.entries.isEmpty

/-- The transaction kept under an id. -/
def find? (store : TxStore) (id : Txid) : Option Tx := store.entries[id]?

/-- Keeps a transaction under an id, in the place of what was there. -/
def put (store : TxStore) (id : Txid) (tx : Tx) : TxStore := ⟨store.entries.insert id tx⟩

/-- Keeps a transaction under its own id, and gives that id. -/
def insert [Digests] (store : TxStore) (tx : Tx) : Except Error (Txid × TxStore) := do
  let id ← tx.txid
  return (id, store.put id tx)

/-- Forgets everything. -/
def clear (_ : TxStore) : TxStore := empty

/-- Looks a transaction up, and keeps what the resolver behind the store answers. -/
def fetch {m : Type → Type} [Monad m] [Digests] (behind : Option (Resolver m)) :
    Resolver (StateT TxStore m) := fun id net => do
  match (← get).find? id with
  | some tx => return tx
  | none =>
      match behind with
      | none => throw (.unknownTransaction id)
      | some ask =>
          let tx ← ExceptT.mk (StateT.lift (ask id net).run)
          let actual ← Resolver.settle tx.txid
          if actual ≠ id then throw (.wrongTransaction id actual)
          modify (·.put id tx)
          return tx

end TxStore

end Bitcoin

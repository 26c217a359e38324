import Mathlib.Data.Finmap
import Mathlib.Data.List.Sort
import ZentraChain.Core.Transaction

/-!
# The mempool (`mempool.rs`)

Entries by transaction id, the priority index (highest fee rate first, then the lower id), and the
outpoints the pooled transactions spend.
-/

namespace Zentra

structure MempoolEntry where
  transaction : Transaction
  fee : Amount
  feeRate : Nat
  addedAt : Nat
  deriving DecidableEq

structure Mempool where
  transactions : Finmap fun _ : Hash => MempoolEntry
  /-- Keys `(fee_rate, txid)`, in the order of the index. -/
  priorityIndex : List (Nat × Hash)
  spentOutpoints : Finmap fun _ : OutPoint => Hash
  maxSize : Nat

/-- Why a transaction is not added. -/
inductive MempoolError
  /-- `transaction already in mempool` -/
  | alreadyIn
  /-- `mempool is full` -/
  | full
  /-- `input already spent by a transaction in the mempool: {}:{}` -/
  | inputSpent (op : OutPoint)
  deriving DecidableEq, Repr

namespace Mempool

def new (maxSize : Nat) : Mempool := ⟨∅, [], ∅, maxSize⟩

/-- Is a transaction in the mempool? -/
def contains (m : Mempool) (txid : Hash) : Bool := (m.transactions.lookup txid).isSome

/-- Put a key in its place in the index. -/
def insertKey (k : Nat × Hash) (index : List (Nat × Hash)) : List (Nat × Hash) :=
  if k ∈ index then index
  else index.orderedInsert (fun a b => b.1 < a.1 ∨ (a.1 = b.1 ∧ a.2 ≤ b.2)) k

/-- Add a transaction, at time `now`. -/
def addTransaction (E : Env) (now : Nat) (m : Mempool) (tx : Transaction) (fee : Amount) :
    Except MempoolError Mempool :=
  let txid := tx.txid E
  if m.contains txid then .error .alreadyIn
  else if m.transactions.keys.card ≥ m.maxSize then .error .full
  else
    match tx.spent.find? fun op => (m.spentOutpoints.lookup op).isSome with
    | some op => .error (.inputSpent op)
    | none =>
      let feeRate := fee.zents / max (E.txSize tx) 1
      .ok { m with
        transactions := m.transactions.insert txid ⟨tx, fee, feeRate, now⟩
        priorityIndex := insertKey (feeRate, txid) m.priorityIndex
        spentOutpoints := tx.spent.foldl (fun s op => s.insert op txid) m.spentOutpoints }

/-- The highest-fee transactions, for a block. -/
def getTransactionsForBlock (m : Mempool) (maxCount : Nat) : List Transaction :=
  (m.priorityIndex.take maxCount).filterMap fun k =>
    (m.transactions.lookup k.2).map (·.transaction)

/-- Remove a transaction by its id. -/
def removeTransaction (m : Mempool) (txid : Hash) : Mempool :=
  match m.transactions.lookup txid with
  | none => m
  | some entry =>
    { m with
      transactions := m.transactions.erase txid
      priorityIndex := m.priorityIndex.filter fun k => k.2 ≠ txid
      spentOutpoints :=
        entry.transaction.spent.foldl (fun s op => s.erase op) m.spentOutpoints }

/-- Remove transactions that have been confirmed in a block. -/
def removeConfirmed (m : Mempool) (txids : List Hash) : Mempool :=
  txids.foldl (fun m txid => m.removeTransaction txid) m

/-- Evict what is older than `maxAgeMs` at time `now`, and count it. The ids come in the order of the
map, `ids`. -/
def evictOlderThan (ids : List Hash) (now : Nat) (m : Mempool) (maxAgeMs : Nat) : Mempool × Nat :=
  let stale := ids.filter fun txid =>
    (m.transactions.lookup txid).any fun e => now - e.addedAt > maxAgeMs
  (stale.foldl (fun m txid => m.removeTransaction txid) m, stale.length)

/-- Clear all transactions. -/
def clear (m : Mempool) : Mempool := ⟨∅, [], ∅, m.maxSize⟩

/-- The number of transactions. -/
def size (m : Mempool) : Nat := m.transactions.keys.card

end Mempool

end Zentra

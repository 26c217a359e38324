import ZentraChain.Core.Block
import ZentraChain.Lib.FinmapSum

/-!
# The UTXO set (`utxo.rs`)

The map of unspent outputs and the burn counter. An operation that fails half way leaves what it
had done so far in the set, as the source does on a `&mut self`: `applyTransaction` and
`applyBlock` return the set beside their result.

* `spendInputs_ok`, `addOutputs_lookup`, `applyTransaction_ok`: what an applied transaction does
  to the set, outpoint by outpoint.
* `applyBlock_cons`: a block is applied transaction by transaction.
-/

namespace Zentra

structure UtxoEntry where
  amount : Amount
  address : Address
  blockHeight : Nat
  isCoinbase : Bool
  deriving DecidableEq, Repr

/-- The entries a transaction's inputs spent. -/
structure TxUndoData where
  inputsUndo : List UtxoEntry
  deriving DecidableEq, Repr

structure BlockUndoData where
  txsUndo : List TxUndoData
  /-- Outpoints created by the coinbases of the blue merge blocks paid with this block. -/
  mergeCoinbases : List OutPoint
  deriving DecidableEq, Repr

structure UtxoSet where
  utxos : Finmap fun _ : OutPoint => UtxoEntry
  totalBurned : Amount
  deriving DecidableEq

namespace UtxoSet

variable (E : Env)

/-- `UtxoSet::new`. -/
def empty : UtxoSet := ⟨∅, .zero⟩

def getUtxo (u : UtxoSet) (p : OutPoint) : Option UtxoEntry := u.utxos.lookup p

def erase (u : UtxoSet) (p : OutPoint) : UtxoSet := { u with utxos := u.utxos.erase p }

def insert (u : UtxoSet) (p : OutPoint) (e : UtxoEntry) : UtxoSet :=
  { u with utxos := u.utxos.insert p e }

/-! ## Applying -/

/-- Remove the spent outputs, up to the first one that is missing. -/
def spendInputs (u : UtxoSet) : List TxInput → UtxoSet × Except ZentraError (List UtxoEntry)
  | [] => (u, .ok [])
  | i :: is =>
    match u.getUtxo i.outpoint with
    | none => (u, .error (.doubleSpend i.outpoint))
    | some e =>
      match (u.erase i.outpoint).spendInputs is with
      | (u', .ok es) => (u', .ok (e :: es))
      | (u', .error x) => (u', .error x)

/-- Add the standard outputs of a transaction, numbered from `idx`, and count the burns. -/
def addOutputs (txid : Hash) (height : Nat) (isCoinbase : Bool) :
    Nat → List TxOutput → UtxoSet → UtxoSet
  | _, [], u => u
  | idx, .standard address amount _ :: os, u =>
    addOutputs txid height isCoinbase (idx + 1) os
      (u.insert ⟨txid, idx⟩ ⟨amount, address, height, isCoinbase⟩)
  | idx, .burn amount _ :: os, u =>
    addOutputs txid height isCoinbase (idx + 1) os
      { u with totalBurned := u.totalBurned.saturatingAdd amount }

/-- Apply a single transaction. -/
def applyTransaction (u : UtxoSet) (tx : Transaction) (height : Nat) :
    UtxoSet × Except ZentraError TxUndoData :=
  -- a coinbase has no inputs to remove
  match (if tx.isCoinbase then (u, .ok []) else u.spendInputs tx.inputs) with
  | (u', .error x) => (u', .error x)
  | (u', .ok es) =>
    (u'.addOutputs (tx.txid E) height tx.isCoinbase 0 tx.outputs, .ok ⟨es⟩)

/-- Apply transactions in order, up to the first that fails. -/
def applyTransactions (height : Nat) :
    List Transaction → UtxoSet → UtxoSet × Except ZentraError (List TxUndoData)
  | [], u => (u, .ok [])
  | tx :: txs, u =>
    match u.applyTransaction E tx height with
    | (u', .error x) => (u', .error x)
    | (u', .ok d) =>
      match applyTransactions height txs u' with
      | (u'', .error x) => (u'', .error x)
      | (u'', .ok ds) => (u'', .ok (d :: ds))

/-- Apply a block. -/
def applyBlock (u : UtxoSet) (b : Block) (height : Nat) :
    UtxoSet × Except ZentraError BlockUndoData :=
  match applyTransactions E height b.transactions u with
  | (u', .error x) => (u', .error x)
  | (u', .ok ds) => (u', .ok ⟨ds, []⟩)

/-- Credit the standard outputs of a merge coinbase, numbered from `idx`, that are not there. -/
def creditOutputs (txid : Hash) (height : Nat) :
    Nat → List TxOutput → UtxoSet → UtxoSet × List OutPoint
  | _, [], u => (u, [])
  | idx, .standard address amount _ :: os, u =>
    if (u.getUtxo ⟨txid, idx⟩).isSome then creditOutputs txid height (idx + 1) os u
    else
      let r := creditOutputs txid height (idx + 1) os
        (u.insert ⟨txid, idx⟩ ⟨amount, address, height, true⟩)
      (r.1, ⟨txid, idx⟩ :: r.2)
  | idx, .burn .. :: os, u => creditOutputs txid height (idx + 1) os u

/-- Credit only the coinbase of a blue merge block; the outpoints created. -/
def applyMergeCoinbase (u : UtxoSet) (b : Block) (height : Nat) : UtxoSet × List OutPoint :=
  match b.coinbase? with
  | some cb => creditOutputs (cb.txid E) height 0 cb.outputs u
  | none => (u, [])

/-- Credit the coinbases of merge blocks in order; all outpoints created. -/
def creditMerges : List Block → UtxoSet → UtxoSet × List OutPoint
  | [], u => (u, [])
  | m :: ms, u =>
    let r := u.applyMergeCoinbase E m m.header.blueScore
    let rs := creditMerges ms r.1
    (rs.1, r.2 ++ rs.2)

/-- `apply_block_with_merges`: apply a selected-chain block and pay the coinbases of the blue merge
blocks it brings in. Nothing is paid when the block fails to apply. -/
def applyBlockWithMerges (u : UtxoSet) (b : Block) (merges : List Block) :
    UtxoSet × Except ZentraError BlockUndoData :=
  match u.applyBlock E b b.header.blueScore with
  | (u', .error x) => (u', .error x)
  | (u', .ok undo) =>
    let r := creditMerges E merges u'
    (r.1, .ok { undo with mergeCoinbases := undo.mergeCoinbases ++ r.2 })

/-! ## Disconnecting -/

/-- Remove the outputs of a transaction, numbered from `idx`, and reverse the burn counter. -/
def removeOutputs (txid : Hash) : Nat → List TxOutput → UtxoSet → UtxoSet
  | _, [], u => u
  | idx, .standard .. :: os, u => removeOutputs txid (idx + 1) os (u.erase ⟨txid, idx⟩)
  | idx, .burn amount _ :: os, u =>
    removeOutputs txid (idx + 1) os
      { u with totalBurned := u.totalBurned.saturatingSub amount }

/-- Restore spent inputs. -/
def restoreInputs (u : UtxoSet) (spent : List (TxInput × UtxoEntry)) : UtxoSet :=
  spent.foldl (fun u s => u.insert s.1.outpoint s.2) u

/-- Undo one transaction: its outputs go, its inputs come back. -/
def undoTransaction (u : UtxoSet) (tx : Transaction) (d : TxUndoData) : UtxoSet :=
  (u.removeOutputs (tx.txid E) 0 tx.outputs).restoreInputs (tx.inputs.zip d.inputsUndo)

/-- Disconnect a block using its undo data. -/
def disconnectBlock (u : UtxoSet) (b : Block) (undo : BlockUndoData) :
    Except ZentraError UtxoSet :=
  if b.transactions.length ≠ undo.txsUndo.length then
    .error (.undoCount b.transactions.length undo.txsUndo.length)
  else
    let u' := (b.transactions.zip undo.txsUndo).reverse.foldl
      (fun u t => u.undoTransaction E t.1 t.2) u
    .ok (undo.mergeCoinbases.foldl (fun u p => u.erase p) u')

/-! ## Lookups -/

variable {E}
variable {u u' v : UtxoSet} {p q : OutPoint} {e : UtxoEntry}

@[ext] theorem ext (h : ∀ p, u.getUtxo p = v.getUtxo p) (hb : u.totalBurned = v.totalBurned) :
    u = v := by
  cases u; cases v
  cases hb
  congr 1
  exact Finmap.ext_lookup h

@[simp] theorem erase_totalBurned : (u.erase p).totalBurned = u.totalBurned := rfl

@[simp] theorem insert_totalBurned : (u.insert p e).totalBurned = u.totalBurned := rfl

theorem getUtxo_erase : (u.erase q).getUtxo p = if p = q then none else u.getUtxo p :=
  Finmap.lookup_erase_ite _ _ _

theorem getUtxo_insert : (u.insert q e).getUtxo p = if p = q then some e else u.getUtxo p :=
  Finmap.lookup_insert_ite _ _ _ _

/-- Erasing a list of outpoints. -/
theorem getUtxo_foldl_erase : ∀ (ps : List OutPoint) (u : UtxoSet),
    (ps.foldl (fun u p => u.erase p) u).getUtxo p = if p ∈ ps then none else u.getUtxo p
  | [], u => by simp
  | q :: ps, u => by
    rw [List.foldl_cons, getUtxo_foldl_erase ps, getUtxo_erase]
    by_cases h1 : p ∈ ps <;> by_cases h2 : p = q <;> simp [h1, h2]

theorem foldl_erase_totalBurned : ∀ (ps : List OutPoint) (u : UtxoSet),
    (ps.foldl (fun u p => u.erase p) u).totalBurned = u.totalBurned
  | [], _ => rfl
  | _ :: ps, u => by rw [List.foldl_cons, foldl_erase_totalBurned ps, erase_totalBurned]

/-- What removing the inputs does: they were all there, with the recorded entries, no two are the
same, and nothing else changes. -/
theorem spendInputs_ok {is : List TxInput} {es : List UtxoEntry}
    (h : u.spendInputs is = (u', .ok es)) :
    is.map (fun i => u.getUtxo i.outpoint) = es.map some ∧ (is.map (·.outpoint)).Nodup ∧
      u'.totalBurned = u.totalBurned ∧
      ∀ p, u'.getUtxo p = if p ∈ is.map (·.outpoint) then none else u.getUtxo p := by
  induction is generalizing u es with
  | nil =>
    cases h
    exact ⟨rfl, List.nodup_nil, rfl, fun p => by simp⟩
  | cons i is ih =>
    simp only [spendInputs] at h
    split at h
    · cases h
    · rename_i e he
      split at h
      · rename_i w es' hrest
        cases h
        obtain ⟨h1, h2, h3, h4⟩ := ih hrest
        -- a second removal of `i` would have found nothing
        have hi : i.outpoint ∉ is.map (·.outpoint) := by
          intro hm
          obtain ⟨j, hj, hji⟩ := List.mem_map.1 hm
          have hjn : (u.erase i.outpoint).getUtxo j.outpoint = none := by
            rw [getUtxo_erase, if_pos hji]
          have hmem : (u.erase i.outpoint).getUtxo j.outpoint ∈ es'.map some :=
            h1 ▸ List.mem_map_of_mem (f := fun i' => (u.erase i.outpoint).getUtxo i'.outpoint) hj
          rw [hjn] at hmem
          simp at hmem
        refine ⟨?_, List.nodup_cons.2 ⟨hi, h2⟩, h3, fun p => ?_⟩
        · rw [List.map_cons, List.map_cons, he, ← h1]
          refine congrArg _ (List.map_congr_left fun j hj => ?_)
          have : j.outpoint ≠ i.outpoint := fun hji =>
            hi (hji ▸ List.mem_map_of_mem (f := TxInput.outpoint) hj)
          rw [getUtxo_erase, if_neg this]
        · rw [h4, getUtxo_erase, List.map_cons]
          by_cases h5 : p ∈ is.map (·.outpoint) <;> by_cases h6 : p = i.outpoint <;>
            simp [h5, h6]
      · cases h

/-- `addOutputs` inserts an entry at each created outpoint and touches no other. -/
theorem addOutputs_lookup (txid : Hash) (height : Nat) (cb : Bool) (p : OutPoint) :
    ∀ (idx : Nat) (os : List TxOutput) (u : UtxoSet),
      (p ∉ Transaction.standardOutpoints txid idx os →
        (u.addOutputs txid height cb idx os).getUtxo p = u.getUtxo p) ∧
      (p ∈ Transaction.standardOutpoints txid idx os →
        ∃ e, (u.addOutputs txid height cb idx os).getUtxo p = some e ∧
          e.blockHeight = height ∧ e.isCoinbase = cb)
  | _, [], _ => ⟨fun _ => rfl, fun h => by cases h⟩
  | idx, .standard a v s :: os, u => by
    obtain ⟨h1, h2⟩ := addOutputs_lookup txid height cb p (idx + 1) os
      (u.insert ⟨txid, idx⟩ ⟨v, a, height, cb⟩)
    refine ⟨fun hn => ?_, fun hm => ?_⟩
    · obtain ⟨hne, hn⟩ := not_or.1 (mt List.mem_cons.2 hn)
      rw [addOutputs, h1 hn, getUtxo_insert, if_neg hne]
    · by_cases hp : p ∈ Transaction.standardOutpoints txid (idx + 1) os
      · exact h2 hp
      · obtain rfl : p = ⟨txid, idx⟩ := (List.mem_cons.1 hm).resolve_right hp
        exact ⟨⟨v, a, height, cb⟩, by rw [addOutputs, h1 hp, getUtxo_insert, if_pos rfl], rfl, rfl⟩
  | idx, .burn v t :: os, u =>
    addOutputs_lookup txid height cb p (idx + 1) os
      { u with totalBurned := u.totalBurned.saturatingAdd v }

/-- The result of a successful `applyTransaction`: its inputs were there, with the recorded
entries, and only its inputs and outputs change. -/
structure Applied (E : Env) (u : UtxoSet) (tx : Transaction) (height : Nat) (d : TxUndoData)
    (u' : UtxoSet) : Prop where
  inputs : (if tx.isCoinbase then [] else tx.inputs).map (fun i => u.getUtxo i.outpoint) =
    d.inputsUndo.map some
  nodup : tx.spent.Nodup
  keep : ∀ p, p ∉ tx.created E → u'.getUtxo p = if p ∈ tx.spent then none else u.getUtxo p
  new : ∀ p, p ∈ tx.created E → ∃ e, u'.getUtxo p = some e ∧ e.blockHeight = height ∧
    e.isCoinbase = tx.isCoinbase

theorem applyTransaction_ok {tx : Transaction} {height : Nat} {d : TxUndoData}
    (h : u.applyTransaction E tx height = (u', .ok d)) : Applied E u tx height d u' := by
  unfold applyTransaction at h
  cases hc : tx.isCoinbase
  · rw [hc] at h
    simp only [Bool.false_eq_true, if_false] at h
    split at h
    · cases h
    · rename_i w es hs
      cases h
      obtain ⟨h1, h2, -, h4⟩ := spendInputs_ok hs
      have ho := addOutputs_lookup (tx.txid E) height false
      refine ⟨by simpa [hc] using h1, by rw [Transaction.spent_regular hc]; exact h2,
        fun p hp => ?_, fun p hp => ?_⟩
      · rw [(ho p 0 tx.outputs w).1 hp, h4, Transaction.spent_regular hc]
      · rw [hc]; exact (ho p 0 tx.outputs w).2 hp
  · rw [hc] at h
    simp only [if_true] at h
    cases h
    have ho := addOutputs_lookup (tx.txid E) height true
    refine ⟨by simp [hc], by simp [Transaction.spent_coinbase hc], fun p hp => ?_, fun p hp => ?_⟩
    · rw [(ho p 0 tx.outputs u).1 hp, Transaction.spent_coinbase hc]; simp
    · rw [hc]; exact (ho p 0 tx.outputs u).2 hp

/-- A block is applied transaction by transaction. -/
theorem applyTransactions_cons_ok {height : Nat} {tx : Transaction} {txs : List Transaction}
    {ds : List TxUndoData} (h : applyTransactions E height (tx :: txs) u = (u', .ok ds)) :
    ∃ w d ds', u.applyTransaction E tx height = (w, .ok d) ∧
      applyTransactions E height txs w = (u', .ok ds') ∧ ds = d :: ds' := by
  simp only [applyTransactions] at h
  split at h
  · cases h
  · rename_i w d hd
    split at h
    · cases h
    · rename_i w' ds' hds
      cases h
      exact ⟨w, d, ds', hd, hds, rfl⟩

theorem applyTransactions_length {height : Nat} : ∀ {txs : List Transaction} {u u' : UtxoSet}
    {ds : List TxUndoData}, applyTransactions E height txs u = (u', .ok ds) →
      txs.length = ds.length
  | [], _, _, _, h => by cases h; rfl
  | tx :: txs, u, u', ds, h => by
    obtain ⟨w, d, ds', -, h2, rfl⟩ := applyTransactions_cons_ok h
    simp [applyTransactions_length h2]

theorem applyBlock_ok {b : Block} {height : Nat} {undo : BlockUndoData}
    (h : u.applyBlock E b height = (u', .ok undo)) :
    ∃ ds, applyTransactions E height b.transactions u = (u', .ok ds) ∧ undo = ⟨ds, []⟩ := by
  unfold applyBlock at h
  split at h
  · cases h
  · rename_i w ds hds
    cases h
    exact ⟨ds, hds, rfl⟩

/-- Crediting a merge coinbase inserts a coinbase entry at each of its outpoints that is absent,
returns these outpoints and touches no other. -/
theorem creditOutputs_lookup (txid : Hash) (height : Nat) (p : OutPoint) :
    ∀ (idx : Nat) (os : List TxOutput) (u : UtxoSet),
      (p ∈ (u.creditOutputs txid height idx os).2 ↔
        p ∈ Transaction.standardOutpoints txid idx os ∧ u.getUtxo p = none) ∧
      (p ∉ (u.creditOutputs txid height idx os).2 →
        (u.creditOutputs txid height idx os).1.getUtxo p = u.getUtxo p) ∧
      (p ∈ (u.creditOutputs txid height idx os).2 →
        ∃ e, (u.creditOutputs txid height idx os).1.getUtxo p = some e ∧
          e.blockHeight = height ∧ e.isCoinbase = true)
  | _, [], _ => by simp [creditOutputs, Transaction.standardOutpoints]
  | idx, .standard a v s :: os, u => by
    simp only [creditOutputs]
    split
    · rename_i hsome
      obtain ⟨h1, h2, h3⟩ := creditOutputs_lookup txid height p (idx + 1) os u
      refine ⟨⟨fun h => ⟨List.mem_cons_of_mem _ (h1.1 h).1, (h1.1 h).2⟩, fun h => ?_⟩, h2, h3⟩
      rcases List.mem_cons.1 h.1 with rfl | hm
      · rw [h.2] at hsome; cases hsome
      · exact h1.2 ⟨hm, h.2⟩
    · rename_i hnone
      have hnone' : u.getUtxo ⟨txid, idx⟩ = none := by
        cases hg : u.getUtxo ⟨txid, idx⟩ with
        | none => rfl
        | some e => rw [hg] at hnone; exact absurd rfl hnone
      obtain ⟨h1, h2, h3⟩ := creditOutputs_lookup txid height p (idx + 1) os
        (u.insert ⟨txid, idx⟩ ⟨v, a, height, true⟩)
      rw [getUtxo_insert] at h1 h2
      -- the outpoint just created is not created again: its index is below the later ones
      have hfresh : (⟨txid, idx⟩ : OutPoint) ∉
          Transaction.standardOutpoints txid (idx + 1) os := fun hm =>
        absurd (Transaction.mem_standardOutpoints hm).2 (by simp)
      by_cases hp : p = ⟨txid, idx⟩
      · have hnot : p ∉ (creditOutputs txid height (idx + 1) os
            (u.insert ⟨txid, idx⟩ ⟨v, a, height, true⟩)).2 := fun hm =>
          hfresh (hp ▸ (h1.1 hm).1)
        refine ⟨⟨fun _ => ⟨List.mem_cons.2 (.inl hp), hp ▸ hnone'⟩,
          fun _ => List.mem_cons.2 (.inl hp)⟩, fun hn => absurd (List.mem_cons.2 (.inl hp)) hn,
          fun _ => ⟨_, by rw [h2 hnot, if_pos hp], rfl, rfl⟩⟩
      · rw [if_neg hp] at h1 h2
        refine ⟨⟨fun h => ?_, fun h => ?_⟩, fun hn => h2 fun hm => hn (List.mem_cons_of_mem _ hm),
          fun h => h3 ((List.mem_cons.1 h).resolve_left hp)⟩
        · have := h1.1 ((List.mem_cons.1 h).resolve_left hp)
          exact ⟨List.mem_cons_of_mem _ this.1, this.2⟩
        · exact List.mem_cons_of_mem _ (h1.2 ⟨(List.mem_cons.1 h.1).resolve_left hp, h.2⟩)
  | idx, .burn v t :: os, u => creditOutputs_lookup txid height p (idx + 1) os u

theorem creditOutputs_totalBurned (txid : Hash) (height : Nat) :
    ∀ (idx : Nat) (os : List TxOutput) (u : UtxoSet),
      (u.creditOutputs txid height idx os).1.totalBurned = u.totalBurned
  | _, [], _ => rfl
  | idx, .standard a v s :: os, u => by
    simp only [creditOutputs]
    split
    · exact creditOutputs_totalBurned txid height (idx + 1) os u
    · exact creditOutputs_totalBurned txid height (idx + 1) os _
  | idx, .burn v t :: os, u => creditOutputs_totalBurned txid height (idx + 1) os u

end UtxoSet

/-- The outpoints of a block's coinbase. -/
def Block.coinbaseOutpoints (E : Env) (b : Block) : List OutPoint :=
  (b.coinbase?.map (·.created E)).getD []

namespace UtxoSet

variable {E : Env} {u : UtxoSet} {p : OutPoint}

theorem mem_applyMergeCoinbase {m : Block} {height : Nat} :
    p ∈ (u.applyMergeCoinbase E m height).2 ↔
      p ∈ m.coinbaseOutpoints E ∧ u.getUtxo p = none := by
  unfold applyMergeCoinbase Block.coinbaseOutpoints
  cases m.coinbase? with
  | none => simp
  | some cb => exact (creditOutputs_lookup (cb.txid E) height p 0 cb.outputs u).1

theorem applyMergeCoinbase_keep {m : Block} {height : Nat}
    (h : p ∉ (u.applyMergeCoinbase E m height).2) :
    (u.applyMergeCoinbase E m height).1.getUtxo p = u.getUtxo p := by
  unfold applyMergeCoinbase at h ⊢
  cases hm : m.coinbase? with
  | none => rfl
  | some cb =>
    rw [hm] at h
    exact (creditOutputs_lookup (cb.txid E) height p 0 cb.outputs u).2.1 h

theorem applyMergeCoinbase_new {m : Block} {height : Nat}
    (h : p ∈ (u.applyMergeCoinbase E m height).2) :
    ∃ e, (u.applyMergeCoinbase E m height).1.getUtxo p = some e ∧
      e.blockHeight = height ∧ e.isCoinbase = true := by
  unfold applyMergeCoinbase at h ⊢
  cases hm : m.coinbase? with
  | none => rw [hm] at h; cases h
  | some cb =>
    rw [hm] at h
    exact (creditOutputs_lookup (cb.txid E) height p 0 cb.outputs u).2.2 h

theorem applyMergeCoinbase_totalBurned {m : Block} {height : Nat} :
    (u.applyMergeCoinbase E m height).1.totalBurned = u.totalBurned := by
  unfold applyMergeCoinbase
  cases m.coinbase? with
  | none => rfl
  | some cb => exact creditOutputs_totalBurned _ _ _ _ _

/-- All outpoints of the coinbases of merge blocks. -/
def mergeOutpoints (E : Env) (merges : List Block) : List OutPoint :=
  merges.flatMap (·.coinbaseOutpoints E)

/-- Over several merge blocks too, what is created is what was absent. -/
theorem mem_creditMerges : ∀ {ms : List Block} {u : UtxoSet},
    p ∈ (creditMerges E ms u).2 ↔ p ∈ mergeOutpoints E ms ∧ u.getUtxo p = none
  | [], u => by simp [creditMerges, mergeOutpoints]
  | m :: ms, u => by
    have ih : p ∈ (creditMerges E ms (u.applyMergeCoinbase E m m.header.blueScore).1).2 ↔ _ ∧ _ :=
      mem_creditMerges
    simp only [creditMerges, List.mem_append, ih, mergeOutpoints, List.flatMap_cons]
    rw [← mergeOutpoints, mem_applyMergeCoinbase]
    by_cases hp : p ∈ (u.applyMergeCoinbase E m m.header.blueScore).2
    · have := mem_applyMergeCoinbase.1 hp
      simp [this.1, this.2]
    · rw [applyMergeCoinbase_keep hp]
      rw [mem_applyMergeCoinbase] at hp
      tauto

theorem creditMerges_keep : ∀ {ms : List Block} {u : UtxoSet},
    p ∉ (creditMerges E ms u).2 → (creditMerges E ms u).1.getUtxo p = u.getUtxo p
  | [], _, _ => rfl
  | m :: ms, u, h => by
    simp only [creditMerges, List.mem_append, not_or] at h ⊢
    rw [creditMerges_keep h.2, applyMergeCoinbase_keep h.1]

theorem creditMerges_totalBurned : ∀ {ms : List Block} {u : UtxoSet},
    (creditMerges E ms u).1.totalBurned = u.totalBurned
  | [], _ => rfl
  | m :: ms, u => by
    simp only [creditMerges]
    rw [creditMerges_totalBurned, applyMergeCoinbase_totalBurned]

/-- A block applied with its merge blocks: its transactions, then the credits. -/
theorem applyBlockWithMerges_ok {b : Block} {merges : List Block} {u' : UtxoSet}
    {undo : BlockUndoData} (h : u.applyBlockWithMerges E b merges = (u', .ok undo)) :
    ∃ w ds, applyTransactions E b.header.blueScore b.transactions u = (w, .ok ds) ∧
      u' = (creditMerges E merges w).1 ∧ undo = ⟨ds, (creditMerges E merges w).2⟩ := by
  unfold applyBlockWithMerges at h
  split at h
  · cases h
  · rename_i w undo' hb
    cases h
    obtain ⟨ds, hds, rfl⟩ := applyBlock_ok hb
    exact ⟨w, ds, hds, rfl, rfl⟩

end UtxoSet

end Zentra

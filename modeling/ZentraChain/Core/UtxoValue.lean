import Mathlib.Algebra.BigOperators.Intervals
import ZentraChain.Core.UtxoUndo

/-!
# The value of a UTXO set

Exact sums of amounts and what each operation does to them, stated without subtraction.

* `applyTransaction_value`, `applyTransactions_value`: applying adds the spendable outputs and
  takes away `touched`, the value of the entries spent or overwritten.
* `creditMerges_value_le`: merge coinbases add at most their spendable outputs.
* `Le.supply_le`: a smaller set has the smaller supply.
-/

namespace Zentra

/-- The exact total of the spendable outputs of a block's coinbase (0 without a coinbase). -/
def Block.coinbaseStandardTotal (b : Block) : Nat := (b.coinbase?.map (·.standardTotal)).getD 0

namespace UtxoSet

/-- The exact sum of the amounts of all entries. -/
def value (u : UtxoSet) : Nat := Finmap.total (fun e => e.amount.zents) u.utxos

/-- The value of all entries and the burn counter. -/
def supply (u : UtxoSet) : Nat := u.value + u.totalBurned.zents

/-- The value of the entry at `p`, if there is one. -/
def valueAt (u : UtxoSet) (p : OutPoint) : Nat :=
  Finmap.weightAt (fun e => e.amount.zents) u.utxos p

variable {E : Env} {u u' v : UtxoSet} {p q : OutPoint} {e : UtxoEntry} {height : Nat}

theorem value_erase (u : UtxoSet) (p : OutPoint) : (u.erase p).value + u.valueAt p = u.value :=
  Finmap.total_erase _ _ _

theorem value_insert (u : UtxoSet) (p : OutPoint) (e : UtxoEntry) :
    (u.insert p e).value + u.valueAt p = u.value + e.amount.zents :=
  Finmap.total_insert _ _ _ _

theorem valueAt_some (h : u.getUtxo p = some e) : u.valueAt p = e.amount.zents :=
  Finmap.weightAt_some h

theorem valueAt_none (h : u.getUtxo p = none) : u.valueAt p = 0 := Finmap.weightAt_none h

theorem valueAt_insert : (u.insert q e).valueAt p =
    if p = q then e.amount.zents else u.valueAt p := Finmap.weightAt_insert

theorem valueAt_congr (h : u'.getUtxo p = u.getUtxo p) : u'.valueAt p = u.valueAt p := by
  unfold valueAt Finmap.weightAt
  rw [show u'.utxos.lookup p = u.utxos.lookup p from h]

/-- A smaller set has the smaller supply. -/
theorem Le.supply_le (h : Le u v) : u.supply ≤ v.supply :=
  Nat.add_le_add (Finmap.Sub.total_le h.1 _) h.2

/-! ## Transactions -/

theorem spendInputs_value : ∀ {is : List TxInput} {u u' : UtxoSet} {es : List UtxoEntry},
    u.spendInputs is = (u', .ok es) → u'.value + (es.map (·.amount.zents)).sum = u.value
  | [], _, _, _, h => by cases h; rfl
  | i :: is, u, u', es, h => by
    simp only [spendInputs] at h
    split at h
    · cases h
    · rename_i e he
      split at h
      · rename_i w es' hrest
        cases h
        have ih := spendInputs_value hrest
        have h1 := value_erase u i.outpoint
        rw [valueAt_some he] at h1
        rw [List.map_cons, List.sum_cons]
        omega
      · cases h

theorem addOutputs_value (height : Nat) (txid : Hash) (cb : Bool) :
    ∀ (idx : Nat) (os : List TxOutput) (u : UtxoSet),
      (u.addOutputs txid height cb idx os).value +
          ((Transaction.standardOutpoints txid idx os).map u.valueAt).sum =
        u.value + ((os.filter (·.isStandard)).map (·.amount.zents)).sum
  | _, [], u => by simp [addOutputs, Transaction.standardOutpoints]
  | idx, .standard a v s :: os, u => by
    have ih := addOutputs_value height txid cb (idx + 1) os (u.insert ⟨txid, idx⟩ ⟨v, a, height, cb⟩)
    -- the later outpoints are others than the one just written
    have hlater : (Transaction.standardOutpoints txid (idx + 1) os).map
        (u.insert ⟨txid, idx⟩ ⟨v, a, height, cb⟩).valueAt =
        (Transaction.standardOutpoints txid (idx + 1) os).map u.valueAt := by
      refine List.map_congr_left fun p hp => ?_
      rw [valueAt_insert, if_neg]
      rintro rfl
      exact absurd (Transaction.mem_standardOutpoints hp).2 (by simp)
    have hins := value_insert u ⟨txid, idx⟩ ⟨v, a, height, cb⟩
    rw [hlater] at ih
    have hf : (TxOutput.standard a v s :: os).filter (·.isStandard) =
        .standard a v s :: os.filter (·.isStandard) := rfl
    rw [hf, addOutputs, Transaction.standardOutpoints, List.map_cons, List.sum_cons, List.map_cons,
      List.sum_cons]
    simp only [TxOutput.amount_standard] at hins ⊢
    omega
  | idx, .burn v t :: os, u => by
    have ih := addOutputs_value height txid cb (idx + 1) os
      { u with totalBurned := u.totalBurned.saturatingAdd v }
    exact ih

/-- The value of the entries at the outpoints a transaction spends or creates. -/
def touched (E : Env) (u : UtxoSet) (tx : Transaction) : Nat :=
  ∑ p ∈ (tx.spent ++ tx.created E).toFinset, u.valueAt p

/-- **Applying a transaction** adds its spendable outputs and takes away what it touches. -/
theorem applyTransaction_value {tx : Transaction} {d : TxUndoData}
    (h : u.applyTransaction E tx height = (u', .ok d)) :
    u'.value + touched E u tx = u.value + tx.standardTotal := by
  -- `w` is the set without the inputs
  obtain ⟨w, hw, hwv, hsn, rfl⟩ : ∃ w : UtxoSet,
      (∀ p, w.getUtxo p = if p ∈ tx.spent then none else u.getUtxo p) ∧
      w.value + ∑ p ∈ tx.spent.toFinset, u.valueAt p = u.value ∧ tx.spent.Nodup ∧
      u' = w.addOutputs (tx.txid E) height tx.isCoinbase 0 tx.outputs := by
    unfold applyTransaction at h
    cases hc : tx.isCoinbase with
    | true =>
      rw [hc, if_pos rfl] at h
      cases h
      exact ⟨u, by simp [Transaction.spent_coinbase hc], by simp [Transaction.spent_coinbase hc],
        by simp [Transaction.spent_coinbase hc], rfl⟩
    | false =>
      rw [hc, if_neg Bool.false_ne_true] at h
      split at h
      · cases h
      · rename_i w es hs
        cases h
        obtain ⟨h1, h2, -, h4⟩ := spendInputs_ok hs
        have hsum : (tx.inputs.map fun i => u.valueAt i.outpoint) = es.map (·.amount.zents) := by
          have := congrArg (List.map fun o : Option UtxoEntry => (o.map (·.amount.zents)).getD 0) h1
          simpa [valueAt, Finmap.weightAt, getUtxo, Function.comp_def] using this
        refine ⟨w, ?_, ?_, ?_, rfl⟩ <;> rw [Transaction.spent_regular hc]
        · exact h4
        · rw [List.sum_toFinset _ h2, List.map_map, Function.comp_def, hsum]
          exact spendInputs_value hs
        · exact h2
  have hadd := addOutputs_value height (tx.txid E) tx.isCoinbase 0 tx.outputs w
  have hcn : (tx.created E).Nodup := Transaction.standardOutpoints_nodup _ _ _
  rw [← Transaction.created, ← List.sum_toFinset _ hcn] at hadd
  -- what is overwritten is what was not spent
  have hover : (tx.created E).toFinset.sum w.valueAt =
      ∑ p ∈ (tx.created E).toFinset \ tx.spent.toFinset, u.valueAt p := by
    rw [← Finset.sum_filter_add_sum_filter_not (tx.created E).toFinset (· ∈ tx.spent.toFinset)]
    rw [Finset.sum_eq_zero, Nat.zero_add, Finset.sdiff_eq_filter]
    · refine Finset.sum_congr rfl fun p hp => valueAt_congr ?_
      rw [hw, if_neg (by simpa using (Finset.mem_filter.1 hp).2)]
    · intro p hp
      exact valueAt_none (by rw [hw, if_pos (by simpa using (Finset.mem_filter.1 hp).2)])
  have htouch : touched E u tx = ∑ p ∈ tx.spent.toFinset, u.valueAt p +
      ∑ p ∈ (tx.created E).toFinset \ tx.spent.toFinset, u.valueAt p := by
    rw [touched, List.toFinset_append, ← Finset.union_sdiff_self_eq_union,
      Finset.sum_union Finset.disjoint_sdiff]
  rw [htouch, Transaction.standardTotal]
  omega

/-- What a list of transactions touches, each in the set it is applied to. -/
def intake (E : Env) (height : Nat) : List Transaction → UtxoSet → Nat
  | [], _ => 0
  | tx :: txs, u => touched E u tx + intake E height txs (u.applyTransaction E tx height).1

theorem applyTransactions_value : ∀ {txs : List Transaction} {u u' : UtxoSet}
    {ds : List TxUndoData}, applyTransactions E height txs u = (u', .ok ds) →
      u'.value + intake E height txs u = u.value + (txs.map (·.standardTotal)).sum
  | [], _, _, _, h => by cases h; rfl
  | tx :: txs, u, u', ds, h => by
    obtain ⟨w, d, ds', h1, h2, -⟩ := applyTransactions_cons_ok h
    have ih := applyTransactions_value h2
    have ht := applyTransaction_value h1
    simp only [intake, h1, List.map_cons, List.sum_cons]
    omega

/-! ## Merge coinbases -/

theorem creditOutputs_value_le (txid : Hash) : ∀ (idx : Nat) (os : List TxOutput) (u : UtxoSet),
    (u.creditOutputs txid height idx os).1.value ≤
      u.value + ((os.filter (·.isStandard)).map (·.amount.zents)).sum
  | _, [], u => by simp [creditOutputs]
  | idx, .standard a v s :: os, u => by
    have hf : (TxOutput.standard a v s :: os).filter (·.isStandard) =
        .standard a v s :: os.filter (·.isStandard) := rfl
    simp only [creditOutputs, hf, List.map_cons, List.sum_cons, TxOutput.amount_standard]
    split
    · have := creditOutputs_value_le txid (idx + 1) os u
      omega
    · have := creditOutputs_value_le txid (idx + 1) os (u.insert ⟨txid, idx⟩ ⟨v, a, height, true⟩)
      have hins := value_insert u ⟨txid, idx⟩ ⟨v, a, height, true⟩
      simp only at hins this ⊢
      omega
  | idx, .burn v t :: os, u => creditOutputs_value_le txid (idx + 1) os u

theorem applyMergeCoinbase_value_le (u : UtxoSet) (m : Block) (height : Nat) :
    (u.applyMergeCoinbase E m height).1.value ≤ u.value + m.coinbaseStandardTotal := by
  unfold applyMergeCoinbase Block.coinbaseStandardTotal
  cases m.coinbase? with
  | none => exact Nat.le_refl _
  | some cb => exact creditOutputs_value_le _ _ _ _

/-- Merge coinbases add at most their spendable outputs. -/
theorem creditMerges_value_le : ∀ (ms : List Block) (u : UtxoSet),
    (creditMerges E ms u).1.value ≤ u.value + (ms.map (·.coinbaseStandardTotal)).sum
  | [], _ => Nat.le_refl _
  | m :: ms, u => by
    have ih := creditMerges_value_le ms (u.applyMergeCoinbase E m m.header.blueScore).1
    have hm := applyMergeCoinbase_value_le (E := E) u m m.header.blueScore
    simp only [creditMerges, List.map_cons, List.sum_cons]
    omega

end UtxoSet

end Zentra

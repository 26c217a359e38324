import ZentraChain.Node.Connect
import ZentraChain.Node.ValidateSpec

/-!
# Applying and disconnecting a validated block

* `applyBlock_of_validated`: a validated block applies, with all its transactions.
* `disconnectBlock_inverts_iff`: when disconnecting gives back the set the block was validated
  against.
-/

namespace Zentra

/-- **A validated block applies to the set it was validated against**, at any height, and never half
way: there is undo data for each of its transactions. -/
theorem applyBlock_of_validated (E : Env) (u : UtxoSet) (b : Block)
    (h : validateBlockTransactions E b u = .ok ()) (height : Nat) :
    ∃ u' undo, u.applyBlock E b height = (u', .ok undo) ∧
      b.transactions.length = undo.txsUndo.length := by
  obtain ⟨c, hc, -⟩ := validateBlockTransactions_ok h
  obtain ⟨u', ds, hds⟩ := checkTransactions_apply height .start hc
  exact ⟨u', ⟨ds, []⟩, by simp only [UtxoSet.applyBlock, hds],
    UtxoSet.applyTransactions_length hds⟩

/-- **A validated block applies and disconnects, and the set is as before exactly when no entry is
overwritten by the block or spent by it and created again by a merge coinbase.** -/
theorem disconnectBlock_inverts_iff (E : Env) (u : UtxoSet) (b : Block) (merges : List Block)
    (h : validateBlockTransactions E b u = .ok ())
    (hb : u.totalBurned.zents + b.burnTotal ≤ u64Max) :
    ∃ u₁ undo, u.applyBlockWithMerges E b merges = (u₁, .ok undo) ∧
      (∃ v, u₁.disconnectBlock E b undo = .ok v) ∧
      (u₁.disconnectBlock E b undo = .ok u ↔ UtxoSet.UndoSafe E u b merges) := by
  obtain ⟨u₁, undo, happ⟩ := validate_applyBlock h merges
  obtain ⟨v, hv⟩ := UtxoSet.disconnectBlock_ok happ
  refine ⟨u₁, undo, happ, ⟨v, hv⟩, ?_⟩
  rw [hv, ← UtxoSet.disconnectBlock_eq_iff happ hv hb]
  exact ⟨Except.ok.inj, congrArg _⟩

namespace Sample

/-- A block with the coinbase of `first`, on it. -/
def second : Block := block 2 .gpu [first.hash env] 2 2 [coinbase 1 [subsidy]]

/-- The set after the first block. -/
def afterFirst : UtxoSet := (UtxoSet.empty.applyBlock env first 1).1

end Sample

open Sample in
theorem applyBlock_of_validated_second :
    ∃ u' undo, afterFirst.applyBlock env second 2 = (u', .ok undo) ∧
      second.transactions.length = undo.txsUndo.length :=
  applyBlock_of_validated env afterFirst second (by decide +kernel) 2

open Sample in
/-- Disconnecting the second block removes the first one's coinbase output. -/
theorem disconnectBlock_loses_coinbase :
    ¬∀ (u : UtxoSet) (b : Block) (merges : List Block),
      validateBlockTransactions env b u = .ok () →
      u.totalBurned.zents + b.burnTotal ≤ u64Max →
      ∀ u₁ undo, u.applyBlockWithMerges env b merges = (u₁, .ok undo) →
        u₁.disconnectBlock env b undo = .ok u := by
  intro h
  have hd := h afterFirst second [] (by decide +kernel) (by decide +kernel)
    (afterFirst.applyBlockWithMerges env second []).1 ⟨[⟨[]⟩], []⟩ (by decide +kernel)
  have hp := congrArg (fun r => (r.toOption.bind (·.getUtxo ⟨⟨1001⟩, 0⟩)).isSome) hd
  exact absurd hp (by decide +kernel)

open Sample in
theorem disconnectBlock_inverts_first :
    ∃ u₁ undo, UtxoSet.empty.applyBlockWithMerges env first [] = (u₁, .ok undo) ∧
      (∃ v, u₁.disconnectBlock env first undo = .ok v) ∧
      (u₁.disconnectBlock env first undo = .ok .empty ↔
        UtxoSet.UndoSafe env .empty first []) :=
  disconnectBlock_inverts_iff env .empty first [] (by decide +kernel) (by decide +kernel)

end Zentra

import ZentraChain.Core.Structure
import ZentraChain.Node.Body
import ZentraChain.Node.ConnectSpec

/-!
# Accepted blocks and the structural rules (`node.rs`)

`connectBlock` checks the header, the Merkle root and the place of the coinbase, but neither the
limits on size and number of transactions nor the transactions by themselves
(`connectBlock_validateBasic_iff`).
-/

namespace Zentra

variable {E : Env} {b : Block} {n : Node} {now : Nat}

/-- The only coinbase of a block comes first. -/
theorem Block.CoinbaseFirst.count (h : b.CoinbaseFirst) :
    (∀ tx ∈ b.transactions.head?, tx.isCoinbase = true) ∧ b.coinbaseCount = 1 := by
  obtain ⟨cb, txs, ht, hcb, hreg⟩ := h
  unfold coinbaseCount
  rw [ht]
  refine ⟨fun tx htx => ?_, ?_⟩
  · cases htx
    exact hcb
  · rw [List.filter_cons_of_pos hcb, List.filter_eq_nil_iff.2 fun tx htx => by simp [hreg tx htx]]
    rfl

namespace Node

/-- A connected block entered. -/
theorem connectBlock_enters (h : (connectBlock E now n b).1 = true) : Enters E now n b := by
  have ho := connectBlock_outcome E now n b
  generalize (connectBlock E now n b).2 = n' at ho
  rw [h] at ho
  cases ho with
  | aside he _ => exact he
  | moved he _ _ => exact he

/-- A block that enters has a good header and is good by itself. -/
theorem Enters.checked (h : Enters E now n b) :
    b.header.validateBasic = .ok () ∧ b.SelfContained E :=
  ⟨h.checks.1.basic, validateBlockSelfContained_ok h.checks.2⟩

/-- **An accepted block obeys the structural rules when it is within the limits and its
transactions are complete.** -/
theorem connectBlock_validateBasic_iff (h : (connectBlock E now n b).1 = true) :
    b.validateBasic E = .ok () ↔
      b.transactions.length ≤ maxTxsPerBlock ∧ b.sizeBytes ≤ maxBlockSize ∧
        ∀ tx ∈ b.transactions, (tx.isCoinbase = false → tx.inputs ≠ []) ∧ tx.outputs ≠ [] ∧
          ∀ o ∈ tx.outputs, 0 < o.amount.zents := by
  obtain ⟨hheader, hself⟩ := (connectBlock_enters h).checked
  obtain ⟨hfirst, hcount⟩ := hself.coinbaseFirst.count
  rw [Block.validateBasic_iff]
  constructor
  · rintro ⟨-, hlen, hsize, -, htxs, -, -⟩
    exact ⟨hlen, hsize, fun tx htx => ⟨(htxs tx htx).inputs, (htxs tx htx).outputs,
      (htxs tx htx).amounts⟩⟩
  · rintro ⟨hlen, hsize, htxs⟩
    exact ⟨hheader, hlen, hsize, decide_eq_true hself.merkleRoot,
      fun tx htx => ⟨(htxs tx htx).1, (htxs tx htx).2.1, (htxs tx htx).2.2⟩, hfirst, hcount.le⟩

end Node

namespace Sample

/-- A block with a transfer that spends nothing and pays nothing. -/
def idling : Block := block 1 .gpu [genesisHash] 1 1 [coinbase 1 [subsidy], transfer 2 [] []]

end Sample

open Sample in
theorem first_validateBasic :
    (first).validateBasic env = .ok () ↔
      (first).transactions.length ≤ maxTxsPerBlock ∧ (first).sizeBytes ≤ maxBlockSize ∧
        ∀ tx ∈ (first).transactions, (tx.isCoinbase = false → tx.inputs ≠ []) ∧
          tx.outputs ≠ [] ∧ ∀ o ∈ tx.outputs, 0 < o.amount.zents := by
  have hc : (Node.connectBlock env 1717372800000 (run []) first).1 = true := by decide +kernel
  exact Node.connectBlock_validateBasic_iff hc

open Sample in
/-- The idling block is accepted. -/
theorem idle_transfer_accepted :
    ¬∀ n : Node, n.Reachable env → ∀ now b, (Node.connectBlock env now n b).1 = true →
      b.validateBasic env = .ok () := by
  intro h
  have hv := h (run []) (reachable_run []) 1717372800000 idling (by decide +kernel)
  have hc := (Block.validateBasic_iff.1 hv).2.2.2.2.1 (transfer 2 [] []) (by decide)
  exact hc.outputs rfl

end Zentra

import ZentraChain.Core.Encoding

/-!
# Structural rules (`transaction.rs`, `block.rs`)

The `validate_basic` of transactions and blocks, and what each accepts: `Transaction.Complete` and
`Block.validateBasic_iff`.
-/

namespace Zentra

namespace Transaction

/-- `Transaction::validate_basic`. -/
def validateBasic (tx : Transaction) : Except TxError Unit :=
  if ¬tx.isCoinbase ∧ tx.inputs.isEmpty then .error .noInputs
  else if tx.outputs.isEmpty then .error .noOutputs
  else
    match tx.outputs.findIdx? fun o => o.amount.zents = 0 with
    | some i => .error (.zeroOutput i)
    | none => .ok ()

/-- Inputs, unless a coinbase, and outputs, none of them of nothing. -/
structure Complete (tx : Transaction) : Prop where
  inputs : tx.isCoinbase = false → tx.inputs ≠ []
  outputs : tx.outputs ≠ []
  amounts : ∀ o ∈ tx.outputs, 0 < o.amount.zents

theorem validateBasic_iff {tx : Transaction} : tx.validateBasic = .ok () ↔ tx.Complete := by
  have hfind : tx.outputs.findIdx? (fun o => o.amount.zents = 0) = none ↔
      ∀ o ∈ tx.outputs, 0 < o.amount.zents := by
    rw [List.findIdx?_eq_none_iff]
    refine forall₂_congr fun o _ => ?_
    rw [decide_eq_false_iff_not, Nat.pos_iff_ne_zero]
  unfold validateBasic
  constructor
  · intro h
    split at h
    · cases h
    · rename_i hin
      split at h
      · cases h
      · rename_i hout
        split at h
        · cases h
        · rename_i hnone
          refine ⟨fun hc hnil => hin ⟨?_, ?_⟩, fun hnil => hout ?_, hfind.1 hnone⟩
          · rw [hc]
            exact Bool.false_ne_true
          · rw [hnil]
            rfl
          · rw [hnil]
            rfl
  · intro h
    have hin : ¬(¬tx.isCoinbase = true ∧ tx.inputs.isEmpty = true) := fun ⟨hc, he⟩ =>
      h.inputs (Bool.eq_false_iff.2 hc) (List.isEmpty_iff.1 he)
    have hout : ¬tx.outputs.isEmpty = true := fun he => h.outputs (List.isEmpty_iff.1 he)
    rw [if_neg hin, if_neg hout, hfind.2 h.amounts]

end Transaction

namespace Block

/-- The transaction loop of `validate_basic`. -/
def checkTransactionsBasic : List Transaction → Except ZentraError Unit
  | [] => .ok ()
  | tx :: txs =>
    match tx.validateBasic with
    | .error e => .error (.transaction e)
    | .ok _ => checkTransactionsBasic txs

def coinbaseCount (b : Block) : Nat := (b.transactions.filter (·.isCoinbase)).length

/-- Structural validation. -/
def validateBasic (E : Env) (b : Block) : Except ZentraError Unit :=
  match b.header.validateBasic with
  | .error e => .error e
  | .ok _ =>
    if b.transactions.length > maxTxsPerBlock then
      .error (.tooManyTransactions b.transactions.length maxTxsPerBlock)
    else if b.sizeBytes > maxBlockSize then .error (.blockTooLarge b.sizeBytes maxBlockSize)
    else if ¬b.validateMerkleRoot E then .error .invalidMerkleRoot
    else
      match checkTransactionsBasic b.transactions with
      | .error e => .error e
      | .ok _ =>
        if b.transactions.head?.any (fun tx => ¬tx.isCoinbase) then .error .firstNotCoinbase
        else if b.coinbaseCount > 1 then .error (.coinbaseCount b.coinbaseCount)
        else .ok ()

theorem checkTransactionsBasic_iff : ∀ {txs : List Transaction},
    checkTransactionsBasic txs = .ok () ↔ ∀ tx ∈ txs, tx.Complete
  | [] => by simp [checkTransactionsBasic]
  | tx :: txs => by
    rw [checkTransactionsBasic, List.forall_mem_cons, ← @checkTransactionsBasic_iff txs,
      ← Transaction.validateBasic_iff]
    cases tx.validateBasic <;> simp

/-- **What `validate_basic` accepts.** -/
theorem validateBasic_iff {E : Env} {b : Block} : b.validateBasic E = .ok () ↔
    b.header.validateBasic = .ok () ∧ b.transactions.length ≤ maxTxsPerBlock ∧
      b.sizeBytes ≤ maxBlockSize ∧ b.validateMerkleRoot E = true ∧
      (∀ tx ∈ b.transactions, tx.Complete) ∧
      (∀ tx ∈ b.transactions.head?, tx.isCoinbase = true) ∧ b.coinbaseCount ≤ 1 := by
  constructor
  · intro h
    unfold validateBasic at h
    split at h
    · cases h
    · rename_i hheader
      split at h
      · cases h
      · rename_i hcount
        split at h
        · cases h
        · rename_i hsize
          split at h
          · cases h
          · rename_i hroot
            split at h
            · cases h
            · rename_i htxs
              split at h
              · cases h
              · rename_i hfirst
                split at h
                · cases h
                · rename_i hcb
                  refine ⟨hheader, Nat.not_lt.1 hcount, Nat.not_lt.1 hsize, not_not.1 hroot,
                    checkTransactionsBasic_iff.1 htxs, fun tx htx => ?_, Nat.not_lt.1 hcb⟩
                  rw [Option.mem_def] at htx
                  rw [htx] at hfirst
                  simpa using hfirst
  · rintro ⟨hheader, hcount, hsize, hroot, htxs, hfirst, hcb⟩
    have hfirst' : ¬b.transactions.head?.any (fun tx => ¬tx.isCoinbase) = true := by
      intro hany
      obtain ⟨tx, htx, hc⟩ := (Option.any_eq_true _ _).1 hany
      rw [hfirst tx htx] at hc
      simp at hc
    unfold validateBasic
    rw [hheader]
    simp only
    rw [if_neg (Nat.not_lt.2 hcount), if_neg (Nat.not_lt.2 hsize), if_neg (not_not.2 hroot),
      checkTransactionsBasic_iff.2 htxs]
    simp only
    rw [if_neg hfirst', if_neg (Nat.not_lt.2 hcb)]

end Block

end Zentra

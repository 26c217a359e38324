import ZentraChain.Core.Records

/-!
# Transactions (`transaction.rs`)

`txid` hashes the whole transaction, `signingHash` the transaction without its signatures. A
transaction's `total…Amount` functions add with saturation; `outputTotal` is the exact sum of its
outputs, `standardTotal` that of its spendable ones.
-/

namespace Zentra

/-- Why `validate_basic` refuses a transaction. -/
inductive TxError
  /-- `non-coinbase transaction must have at least one input` -/
  | noInputs
  /-- `transaction must have at least one output` -/
  | noOutputs
  /-- `output {} has zero amount` -/
  | zeroOutput (i : Nat)
  deriving DecidableEq, Repr

/-- The errors of `zentra-core` that the modelled functions return. -/
inductive ZentraError
  | invalidVersion (expected got : Nat)
  | tooManyParents (got max : Nat)
  | difficultyNotMet
  /-- `input {}: signature must be 64 bytes, got {}` -/
  | signatureLength (input got : Nat)
  /-- `input {}: …`: the key, the signature or the verification failed -/
  | signatureInvalid (input : Nat)
  | doubleSpend (op : OutPoint)
  | undoCount (txs undos : Nat)
  | tooManyTransactions (count max : Nat)
  | blockTooLarge (size max : Nat)
  | invalidMerkleRoot
  | transaction (e : TxError)
  /-- `first transaction must be coinbase` -/
  | firstNotCoinbase
  /-- `only one coinbase transaction allowed, found {}` -/
  | coinbaseCount (found : Nat)
  deriving DecidableEq, Repr

/-- `OutPoint::new(input.prev_tx_hash, input.output_index)`. -/
def TxInput.outpoint (i : TxInput) : OutPoint := ⟨i.prevTxHash, i.outputIndex⟩

namespace TxOutput

def amount : TxOutput → Amount
  | standard _ a _ => a
  | burn a _ => a

def isBurn : TxOutput → Bool
  | standard .. => false
  | burn .. => true

def isStandard : TxOutput → Bool
  | standard .. => true
  | burn .. => false

variable {a : Address} {v : Amount} {s : List UInt8} {t : BurnType}

@[simp] theorem amount_standard : (standard a v s).amount = v := rfl
@[simp] theorem amount_burn : (burn v t).amount = v := rfl
@[simp] theorem isBurn_standard : (standard a v s).isBurn = false := rfl
@[simp] theorem isBurn_burn : (burn v t).isBurn = true := rfl
@[simp] theorem isStandard_standard : (standard a v s).isStandard = true := rfl
@[simp] theorem isStandard_burn : (burn v t).isStandard = false := rfl

end TxOutput

namespace Transaction

def txid (E : Env) (tx : Transaction) : Hash := E.hashTx tx

/-- What signers sign over: the transaction without signatures. -/
def signingHash (E : Env) (tx : Transaction) : Hash :=
  E.hashTx { tx with inputs := tx.inputs.map fun i => { i with signature := [] } }

def isCoinbase (tx : Transaction) : Bool := tx.txType = .coinbase

/-- The saturating total of all outputs. -/
def totalOutputAmount (tx : Transaction) : Amount :=
  tx.outputs.foldl (fun acc o => acc.saturatingAdd o.amount) .zero

/-- The saturating total of the burn outputs. -/
def totalBurnAmount (tx : Transaction) : Amount :=
  (tx.outputs.filter (·.isBurn)).foldl (fun acc o => acc.saturatingAdd o.amount) .zero

/-- The input loop of `verify_signatures`, from input `i` on. -/
def verifyInputs (E : Env) (signingHash : Hash) : Nat → List TxInput → Except ZentraError Unit
  | _, [] => .ok ()
  | i, inp :: inps =>
    if inp.signature.length ≠ 64 then .error (.signatureLength i inp.signature.length)
    else if E.verify inp.publicKey signingHash inp.signature then
      verifyInputs E signingHash (i + 1) inps
    else .error (.signatureInvalid i)

/-- Verify all Ed25519 input signatures. -/
def verifySignatures (E : Env) (tx : Transaction) : Except ZentraError Unit :=
  if tx.isCoinbase then .ok () else verifyInputs E (tx.signingHash E) 0 tx.inputs

/-- `u64::to_le_bytes`. -/
def toLeBytes (n : Nat) : List UInt8 :=
  (List.range 8).map fun i => UInt8.ofNat (n / 256 ^ i)

/-- A coinbase transaction for a miner. -/
def createCoinbase (reward : Amount) (minerAddress : Address) (height : Nat) : Transaction where
  version := 1
  txType := .coinbase
  inputs := []
  outputs := [.standard minerAddress reward []]
  payload := toLeBytes height
  lockTime := height

/-! ## Outpoints -/

/-- The outpoints of the spendable outputs of a transaction `txid`, numbered from `i`. -/
def standardOutpoints (txid : Hash) : Nat → List TxOutput → List OutPoint
  | _, [] => []
  | i, .standard .. :: os => ⟨txid, i⟩ :: standardOutpoints txid (i + 1) os
  | i, .burn .. :: os => standardOutpoints txid (i + 1) os

/-- The outpoints a transaction creates. -/
def created (E : Env) (tx : Transaction) : List OutPoint :=
  standardOutpoints (tx.txid E) 0 tx.outputs

/-- The outpoints a transaction spends: a coinbase's inputs are not looked at. -/
def spent (tx : Transaction) : List OutPoint :=
  if tx.isCoinbase then [] else tx.inputs.map (·.outpoint)

/-! ## Exact totals -/

/-- The exact total of all outputs. -/
def outputTotal (tx : Transaction) : Nat := (tx.outputs.map (·.amount.zents)).sum

/-- The exact total of the spendable outputs. -/
def standardTotal (tx : Transaction) : Nat :=
  ((tx.outputs.filter (·.isStandard)).map (·.amount.zents)).sum

/-- The exact total of the burn outputs. -/
def burnTotal (tx : Transaction) : Nat :=
  ((tx.outputs.filter (·.isBurn)).map (·.amount.zents)).sum

theorem foldl_saturatingAdd (os : List TxOutput) (a : Amount) :
    (os.foldl (fun acc o => acc.saturatingAdd o.amount) a).zents =
      min (a.zents + (os.map (·.amount.zents)).sum) u64Max := by
  rw [← Saturating.foldl_add, Nat.min_eq_left a.le_max]
  induction os generalizing a with
  | nil => rfl
  | cons o os ih =>
    rw [List.foldl_cons, ih, List.map_cons, List.foldl_cons, Amount.saturatingAdd_zents]

/-- The code's total is the exact one cut at `u64::MAX`. -/
theorem totalOutputAmount_zents (tx : Transaction) :
    tx.totalOutputAmount.zents = min tx.outputTotal u64Max := by
  unfold totalOutputAmount
  rw [foldl_saturatingAdd, Amount.zero_zents, Nat.zero_add, outputTotal]

theorem standardTotal_add_burnTotal (tx : Transaction) :
    tx.standardTotal + tx.burnTotal = tx.outputTotal := by
  unfold standardTotal burnTotal outputTotal
  induction tx.outputs with
  | nil => rfl
  | cons o os ih =>
    cases o <;> simp [List.filter_cons] <;> omega

theorem spent_coinbase {tx : Transaction} (h : tx.isCoinbase = true) : tx.spent = [] := by
  simp [spent, h]

theorem spent_regular {tx : Transaction} (h : tx.isCoinbase = false) :
    tx.spent = tx.inputs.map (·.outpoint) := by
  simp [spent, h]

theorem mem_standardOutpoints {txid : Hash} {p : OutPoint} :
    ∀ {i : Nat} {os : List TxOutput}, p ∈ standardOutpoints txid i os → p.txHash = txid ∧ i ≤ p.index
  | _, [], h => by cases h
  | i, .standard .. :: os, h => by
    rcases List.mem_cons.1 h with rfl | h
    · exact ⟨rfl, Nat.le_refl _⟩
    · exact ⟨(mem_standardOutpoints h).1, Nat.le_of_succ_le (mem_standardOutpoints h).2⟩
  | i, .burn .. :: os, h =>
    ⟨(mem_standardOutpoints (i := i + 1) h).1,
      Nat.le_of_succ_le (mem_standardOutpoints (i := i + 1) h).2⟩

theorem standardOutpoints_nodup (txid : Hash) :
    ∀ (i : Nat) (os : List TxOutput), (standardOutpoints txid i os).Nodup
  | _, [] => List.nodup_nil
  | i, .standard .. :: os =>
    List.nodup_cons.2 ⟨fun h => absurd (mem_standardOutpoints h).2 (by simp),
      standardOutpoints_nodup txid (i + 1) os⟩
  | i, .burn .. :: os => standardOutpoints_nodup txid (i + 1) os

theorem mem_created {E : Env} {tx : Transaction} {p : OutPoint} (h : p ∈ tx.created E) :
    p.txHash = tx.txid E :=
  (mem_standardOutpoints h).1

end Transaction

end Zentra

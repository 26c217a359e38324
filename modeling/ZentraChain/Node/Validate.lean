import ZentraChain.Consensus.Emission
import ZentraChain.Node.Chain

/-!
# Block validation (`node.rs`)

The header checks against the DAG, the checks of a block by itself, and the checks of its
transactions against a UTXO set. An input is looked up in the set the block starts from, and only
then among the outputs created earlier in the block; all sums saturate.
-/

namespace Zentra

/-- Why a block is rejected, with the values of the source's message. -/
inductive Reject
  /-- `structure: {e}` -/
  | basic (e : ZentraError)
  /-- `pow: {e}` -/
  | pow (e : ZentraError)
  /-- `block timestamp too far in the future` -/
  | future
  /-- `difficulty target mismatch: block header has {}, expected {}` -/
  | difficulty (got expected : Nat)
  /-- `block timestamp {} not after median-time-past {}` -/
  | medianTimePast (timestamp mtp : Nat)
  /-- `merkle root mismatch` -/
  | merkleRoot
  /-- `block has no transactions` -/
  | noTransactions
  /-- `first transaction must be coinbase` -/
  | firstNotCoinbase
  /-- `only the first transaction may be coinbase` -/
  | laterCoinbase
  /-- `signature: {e}` -/
  | signature (e : ZentraError)
  /-- `double-spend within block: {}:{}` -/
  | doubleSpend (op : OutPoint)
  /-- `spends immature coinbase (needs {} confirmations)` -/
  | immature (confirmations : Nat)
  /-- `input not found / already spent: {}:{}` -/
  | inputNotFound (op : OutPoint)
  /-- `input {}:{} not owned by the signing key` -/
  | notOwned (op : OutPoint)
  /-- `outputs {} exceed inputs {}` -/
  | outputsExceed (outputs inputs : Nat)
  /-- `coinbase {} exceeds subsidy {} + fees {} at height {}` -/
  | coinbaseExceeds (coinbase subsidy fees height : Nat)
  /-- `blue_score mismatch (header has {}, expected {})` -/
  | blueScore (got expected : Nat)
  /-- `blue_work mismatch (header has {}, expected {})` -/
  | blueWork (got expected : Nat)
  deriving DecidableEq, Repr

/-! ## Headers -/

/-- `verify_block_pow`: the lane's hash of the header without its nonce meets the target. -/
def verifyBlockPow (E : Env) (h : Header) : Except ZentraError Unit :=
  if (E.powHash h.laneId { h with nonce := 0 } h.nonce).meetsTarget
      (Header.targetFromBits h.bits) then .ok ()
  else .error .difficultyNotMet

def maxFutureMs : Nat := 2 * 60 * 60 * 1000

/-- Header checks against the DAG, at time `now`. -/
def validateBlockHeader (E : Env) (d : Dag) (now : Nat) (h : Header) : Except Reject Unit :=
  match h.validateBasic with
  | .error e => .error (.basic e)
  | .ok _ =>
    match verifyBlockPow E h with
    | .error e => .error (.pow e)
    | .ok _ =>
      if h.timestamp > satAdd now maxFutureMs then .error .future
      else
        let expectedBits := d.calculateExpectedDifficulty E.network h.parents h.laneId
        if h.bits ≠ expectedBits then .error (.difficulty h.bits expectedBits)
        else
          match d.medianTimePast h.parents with
          | some mtp =>
            if h.timestamp ≤ mtp then .error (.medianTimePast h.timestamp mtp) else .ok ()
          | none => .ok ()

/-! ## Blocks by themselves -/

/-- The inputs of a transaction are not among the ones seen; they are seen then. -/
def seeInputs : List TxInput → Finset OutPoint → Except Reject (Finset OutPoint)
  | [], seen => .ok seen
  | i :: is, seen =>
    if i.outpoint ∈ seen then .error (.doubleSpend i.outpoint)
    else seeInputs is (insert i.outpoint seen)

/-- The loop of `validate_block_self_contained`, from transaction `i` on. -/
def selfContainedLoop (E : Env) : Nat → List Transaction → Finset OutPoint → Except Reject Unit
  | _, [], _ => .ok ()
  | i, tx :: txs, seen =>
    if i = 0 ∧ ¬tx.isCoinbase then .error .firstNotCoinbase
    else if i > 0 ∧ tx.isCoinbase then .error .laterCoinbase
    else if tx.isCoinbase then selfContainedLoop E (i + 1) txs seen
    else
      match tx.verifySignatures E with
      | .error e => .error (.signature e)
      | .ok _ =>
        match seeInputs tx.inputs seen with
        | .error x => .error x
        | .ok seen' => selfContainedLoop E (i + 1) txs seen'

/-- The checks that depend only on the block itself. -/
def validateBlockSelfContained (E : Env) (b : Block) : Except Reject Unit :=
  if ¬b.validateMerkleRoot E then .error .merkleRoot
  else if b.transactions.isEmpty then .error .noTransactions
  else selfContainedLoop E 0 b.transactions ∅

/-! ## Transactions against a UTXO set -/

/-- The running state of `validate_block_transactions`. -/
structure TxCheck where
  spent : Finset OutPoint
  /-- Outputs created earlier in this block: amount and owner. -/
  created : Finmap fun _ : OutPoint => Amount × Address
  totalFees : Nat

def TxCheck.start : TxCheck := ⟨∅, ∅, 0⟩

/-- Record the standard outputs of a transaction, numbered from `idx`. -/
def recordOutputs (txid : Hash) : Nat → List TxOutput →
    (Finmap fun _ : OutPoint => Amount × Address) → Finmap fun _ : OutPoint => Amount × Address
  | _, [], c => c
  | idx, .standard address amount _ :: os, c =>
    recordOutputs txid (idx + 1) os (c.insert ⟨txid, idx⟩ (amount, address))
  | idx, .burn .. :: os, c => recordOutputs txid (idx + 1) os c

section
variable (E : Env) (u : UtxoSet) (height : Nat)

/-- The value and owner of an input. -/
def resolveInput (created : Finmap fun _ : OutPoint => Amount × Address) (op : OutPoint) :
    Except Reject (Amount × Address) :=
  match u.getUtxo op with
  | some e =>
    if e.isCoinbase ∧ height < satAdd e.blockHeight coinbaseMaturity then
      .error (.immature coinbaseMaturity)
    else .ok (e.amount, e.address)
  | none =>
    match created.lookup op with
    | some va => .ok va
    | none => .error (.inputNotFound op)

/-- The input loop: the outpoints spent so far and the sum of the inputs. -/
def checkInputs (created : Finmap fun _ : OutPoint => Amount × Address) :
    List TxInput → Finset OutPoint → Nat → Except Reject (Finset OutPoint × Nat)
  | [], spent, inSum => .ok (spent, inSum)
  | i :: is, spent, inSum =>
    if i.outpoint ∈ spent then .error (.doubleSpend i.outpoint)
    else
      match resolveInput u height created i.outpoint with
      | .error x => .error x
      | .ok (val, owner) =>
        if Block.addressOf E i.publicKey ≠ owner then .error (.notOwned i.outpoint)
        else checkInputs created is (insert i.outpoint spent) (satAdd inSum val.zents)

/-- The checks of a transaction that is not a coinbase. -/
def checkRegular (tx : Transaction) (c : TxCheck) : Except Reject TxCheck :=
  match tx.verifySignatures E with
  | .error e => .error (.signature e)
  | .ok _ =>
    match checkInputs E u height c.created tx.inputs c.spent 0 with
    | .error x => .error x
    | .ok (spent, inSum) =>
      let outSum := tx.totalOutputAmount.zents
      if outSum > inSum then .error (.outputsExceed outSum inSum)
      else .ok { c with spent := spent, totalFees := satAdd c.totalFees (inSum - outSum) }

/-- The transaction loop, from transaction `i` on. -/
def checkTransactions : Nat → List Transaction → TxCheck → Except Reject TxCheck
  | _, [], c => .ok c
  | i, tx :: txs, c =>
    if i = 0 ∧ ¬tx.isCoinbase then .error .firstNotCoinbase
    else if i > 0 ∧ tx.isCoinbase then .error .laterCoinbase
    else
      match (if tx.isCoinbase then .ok c else checkRegular E u height tx c) with
      | .error x => .error x
      | .ok c' =>
        checkTransactions (i + 1) txs
          { c' with created := recordOutputs (tx.txid E) 0 tx.outputs c'.created }

end

/-- `self.emission`. -/
def Env.emission (E : Env) : EmissionSchedule := .new E.network

/-- The subsidy of a block. -/
def Block.reward (E : Env) (b : Block) : Nat := (E.emission.blockReward b.header.blueScore).zents

/-- `validate_block_transactions`. -/
def validateBlockTransactions (E : Env) (b : Block) (u : UtxoSet) : Except Reject Unit :=
  if ¬b.validateMerkleRoot E then .error .merkleRoot
  else
    let height := b.header.blueScore
    match checkTransactions E u height 0 b.transactions .start with
    | .error x => .error x
    | .ok c =>
      match b.coinbase? with
      | none => .ok ()
      | some cb =>
        let subsidy := (E.emission.blockReward height).zents
        let cbOut := cb.totalOutputAmount.zents
        let cap := satAdd subsidy c.totalFees
        if cbOut > cap then .error (.coinbaseExceeds cbOut subsidy c.totalFees height) else .ok ()

end Zentra

import ZentraChain.Core.Structure
import ZentraChain.Node.Mining

/-!
# Admission to the mempool (`node.rs`, `rpc.rs`)

`acceptExternalTx` for a peer's transaction, `submitTransaction` for one sent over RPC, and
`sendTransfer`, which builds and signs one. The sums of outputs in the first and of amounts in the
last are plain, and wrap.

* `Admits.payable`: what is admitted is payable at the current height, coinbases aside.
* `admitted_validates_iff`: the next block with the transaction validates exactly when it is no
  coinbase, names no outpoint twice and does not pay out more than it takes in.
-/

namespace Zentra

/-- `MIN_RELAY_FEE_ZENTS`. -/
def minRelayFeeZents : Nat := 1000

/-- `current_height`: the score of the selected tip. -/
def Node.currentHeight (n : Node) : Nat :=
  ((n.dag.getSelectedTip.bind n.dag.getHeader).map (·.blueScore)).getD 0

/-! ## `accept_external_tx` -/

section
variable (E : Env) (u : UtxoSet) (height : Nat)

/-- The input loop of `accept_external_tx`. -/
def externalInputs : List TxInput → Amount → Option Amount
  | [], inSum => some inSum
  | i :: is, inSum =>
    match u.getUtxo i.outpoint with
    | some e =>
      if e.isCoinbase ∧ height < satAdd e.blockHeight coinbaseMaturity then none
      else if Block.addressOf E i.publicKey ≠ e.address then none
      else externalInputs is (inSum.saturatingAdd e.amount)
    | none => none

/-- Accept a transaction relayed from a peer, at time `now`. -/
def Node.acceptExternalTx (now : Nat) (n : Node) (tx : Transaction) : Bool × Node :=
  if tx.isCoinbase then (false, n)
  else if n.mempool.contains (tx.txid E) then (false, n)
  else
    match tx.verifySignatures E with
    | .error _ => (false, n)
    | .ok _ =>
      match externalInputs E n.utxo n.currentHeight tx.inputs .zero with
      | none => (false, n)
      | some inSum =>
        let outSum := tx.plainOutputSum
        if outSum.zents > inSum.zents then (false, n)
        else
          let fee := inSum.saturatingSub outSum
          if fee.zents < minRelayFeeZents then (false, n)
          else
            match n.mempool.addTransaction E now tx fee with
            | .ok m => (true, { n with mempool := m })
            | .error _ => (false, n)

/-! ## `submit_transaction` -/

/-- What the RPC answers instead of a transaction id. -/
inductive RpcError
  | basic (e : TxError)
  | signature (e : ZentraError)
  /-- `input not found / already spent: {}:{}` -/
  | inputNotFound (op : OutPoint)
  /-- `input {}:{} not owned by the signing key` -/
  | notOwned (op : OutPoint)
  /-- `spends immature coinbase {}:{} (needs {} confirmations, current height {})` -/
  | immature (op : OutPoint) (confirmations height : Nat)
  /-- `outputs {} exceed inputs {}` -/
  | outputsExceed (outputs inputs : Nat)
  /-- `fee {} below minimum relay fee {}` -/
  | feeTooLow (fee minimum : Nat)
  /-- `Insufficient funds. Need: {} zents, available: {} zents.` -/
  | insufficient (needed available : Nat)
  | mempool (e : MempoolError)
  deriving DecidableEq, Repr

/-- The input loop of `submit_transaction`. -/
def submitInputs : List TxInput → Amount → Except RpcError Amount
  | [], inSum => .ok inSum
  | i :: is, inSum =>
    match u.getUtxo i.outpoint with
    | none => .error (.inputNotFound i.outpoint)
    | some e =>
      if Block.addressOf E i.publicKey ≠ e.address then .error (.notOwned i.outpoint)
      else if e.isCoinbase ∧ height < satAdd e.blockHeight coinbaseMaturity then
        .error (.immature i.outpoint coinbaseMaturity height)
      else submitInputs is (inSum.saturatingAdd e.amount)

/-- `submit_transaction` on the decoded transaction, at time `now`. -/
def Node.submitTransaction (now : Nat) (n : Node) (tx : Transaction) :
    Except RpcError (Hash × Node) :=
  match tx.validateBasic with
  | .error e => .error (.basic e)
  | .ok _ =>
    match tx.verifySignatures E with
    | .error e => .error (.signature e)
    | .ok _ =>
      match submitInputs E n.utxo n.currentHeight tx.inputs .zero with
      | .error e => .error e
      | .ok inSum =>
        let outSum := tx.totalOutputAmount
        if outSum.zents > inSum.zents then .error (.outputsExceed outSum.zents inSum.zents)
        else
          let fee := inSum.saturatingSub outSum
          if fee.zents < minRelayFeeZents then .error (.feeTooLow fee.zents minRelayFeeZents)
          else
            match n.mempool.addTransaction E now tx fee with
            | .ok m => .ok (tx.txid E, { n with mempool := m })
            | .error e => .error (.mempool e)

end

/-! ## `send_transfer` -/

/-- `u64` addition in a release build. -/
def Amount.wrappingAdd (a b : Amount) : Amount :=
  ⟨Wrapping.add (2 ^ 64) a.zents b.zents, Nat.le_sub_one_of_lt (Nat.mod_lt _ (by decide))⟩

/-- An Ed25519 keypair: its signatures have 64 bytes and verify under its public key. -/
structure Keypair (E : Env) where
  publicKey : Nat
  sign : Hash → List UInt8
  length : ∀ m, (sign m).length = 64
  verify : ∀ m, E.verify publicKey m (sign m) = true

/-- A list, in some order, of what `get_spendable_utxos_for_address` returns. -/
structure SpendableUtxos (u : UtxoSet) (address : Address) (height : Nat)
    (utxos : List (OutPoint × UtxoEntry)) : Prop where
  nodup : (utxos.map (·.1)).Nodup
  mem : ∀ x, x ∈ utxos ↔ u.getUtxo x.1 = some x.2 ∧ x.2.address = address ∧
    (¬x.2.isCoinbase ∨ height ≥ satAdd x.2.blockHeight coinbaseMaturity)

/-- Take outputs until there is enough: the ones taken and their plain sum. -/
def takeUtxos (needed : Amount) : List (OutPoint × UtxoEntry) → Amount →
    List (OutPoint × UtxoEntry) × Amount
  | [], accumulated => ([], accumulated)
  | x :: xs, accumulated =>
    let accumulated := accumulated.wrappingAdd x.2.amount
    if accumulated.zents ≥ needed.zents then ([x], accumulated)
    else
      let r := takeUtxos needed xs accumulated
      (x :: r.1, r.2)

section
variable (E : Env) (kp : Keypair E)

/-- The transfer of `amount`, with the change back, before it is signed. -/
def unsignedTransfer (selected : List (OutPoint × UtxoEntry)) (toAddress : Address)
    (amount change : Amount) : Transaction where
  version := 1
  txType := .transfer
  inputs := selected.map fun x => ⟨x.1.txHash, x.1.index, [], kp.publicKey⟩
  outputs := .standard toAddress amount [] ::
    if change.zents > 0 then [.standard (Block.addressOf E kp.publicKey) change []] else []
  payload := []
  lockTime := 0

/-- Put one signature on all inputs. -/
def signTransfer (tx : Transaction) : Transaction :=
  let signature := kp.sign (tx.signingHash E)
  { tx with inputs := tx.inputs.map fun i => { i with signature := signature } }

/-- The transaction that `send_transfer` builds of these outputs. -/
def buildTransfer (utxos : List (OutPoint × UtxoEntry)) (toAddress : Address) (amount fee : Amount) :
    Except RpcError Transaction :=
  let totalNeeded := amount.wrappingAdd fee
  let (selected, accumulated) := takeUtxos totalNeeded utxos .zero
  if accumulated.zents < totalNeeded.zents then
    .error (.insufficient totalNeeded.zents accumulated.zents)
  else
    .ok (signTransfer E kp (unsignedTransfer E kp selected toAddress amount
      (accumulated.saturatingSub totalNeeded)))

/-- `send_transfer` from the keypair's address, at time `now`. -/
def Node.sendTransfer (now : Nat) (n : Node) (utxos : List (OutPoint × UtxoEntry))
    (toAddress : Address) (amount fee : Amount) : Except RpcError (Hash × Node) :=
  match buildTransfer E kp utxos toAddress amount fee with
  | .error e => .error e
  | .ok tx =>
    match n.mempool.addTransaction E now tx fee with
    | .ok m => .ok (tx.txid E, { n with mempool := m })
    | .error e => .error (.mempool e)

end

/-- A transaction gets into the mempool of a node, on one of the three ways. -/
inductive Node.Admits (E : Env) (n : Node) : Transaction → Node → Prop
  | external {now : Nat} {tx : Transaction} {n' : Node} :
      n.acceptExternalTx E now tx = (true, n') → Admits E n tx n'
  | submitted {now : Nat} {tx : Transaction} {txid : Hash} {n' : Node} :
      n.submitTransaction E now tx = .ok (txid, n') → Admits E n tx n'
  | sent {now : Nat} {kp : Keypair E} {utxos : List (OutPoint × UtxoEntry)} {toAddress : Address}
      {amount fee : Amount} {tx : Transaction} {txid : Hash} {n' : Node} :
      SpendableUtxos n.utxo (Block.addressOf E kp.publicKey) n.currentHeight utxos →
      buildTransfer E kp utxos toAddress amount fee = .ok tx →
      n.sendTransfer E kp now utxos toAddress amount fee = .ok (txid, n') → Admits E n tx n'

/-! ## What is admitted is payable -/

variable {E : Env} {u : UtxoSet} {height : Nat} {tx : Transaction} {n n' : Node} {b : Block}

theorem Owns.mono {height' : Nat} {i : TxInput} (h : Owns E u height i) (hle : height ≤ height') :
    Owns E u height' i := by
  obtain ⟨e, he, hm, ha⟩ := h
  exact ⟨e, he, fun hc => Nat.le_trans (hm hc) hle, ha⟩

theorem Payable.mono {height' : Nat} (h : Payable E u height tx) (hle : height ≤ height') :
    Payable E u height' tx := ⟨h.regular, h.signatures, fun i hi => (h.inputs i hi).mono hle⟩

/-- The checks that both input loops make of an entry. -/
theorem owns_of_checks {i : TxInput} {e : UtxoEntry} (he : u.getUtxo i.outpoint = some e)
    (hm : ¬(e.isCoinbase ∧ height < satAdd e.blockHeight coinbaseMaturity))
    (ha : ¬Block.addressOf E i.publicKey ≠ e.address) : Owns E u height i :=
  ⟨e, he, fun hc => Nat.not_lt.1 fun hlt => hm ⟨hc, hlt⟩, not_not.1 ha⟩

theorem externalInputs_some : ∀ {is : List TxInput} {inSum r : Amount},
    externalInputs E u height is inSum = some r → ∀ i ∈ is, Owns E u height i
  | [], _, _, _ => by simp
  | i :: is, inSum, r, h => by
    simp only [externalInputs] at h
    split at h
    · rename_i e he
      split at h
      · cases h
      · rename_i hm
        split at h
        · cases h
        · rename_i ha
          exact List.forall_mem_cons.2 ⟨owns_of_checks he hm ha, externalInputs_some h⟩
    · cases h

theorem submitInputs_ok : ∀ {is : List TxInput} {inSum r : Amount},
    submitInputs E u height is inSum = .ok r → ∀ i ∈ is, Owns E u height i
  | [], _, _, _ => by simp
  | i :: is, inSum, r, h => by
    simp only [submitInputs] at h
    split at h
    · cases h
    · rename_i e he
      split at h
      · cases h
      · rename_i ha
        split at h
        · cases h
        · rename_i hm
          exact List.forall_mem_cons.2 ⟨owns_of_checks he hm ha, submitInputs_ok h⟩

theorem acceptExternalTx_payable {now : Nat} (h : n.acceptExternalTx E now tx = (true, n')) :
    Payable E n.utxo n.currentHeight tx := by
  unfold Node.acceptExternalTx at h
  split at h
  · cases h
  · rename_i hc
    split at h
    · cases h
    · split at h
      · cases h
      · rename_i hv
        split at h
        · cases h
        · rename_i inSum hi
          exact ⟨Bool.eq_false_iff.2 hc, hv, externalInputs_some hi⟩

theorem submitTransaction_payable {now : Nat} {txid : Hash}
    (h : n.submitTransaction E now tx = .ok (txid, n')) (hc : tx.isCoinbase = false) :
    Payable E n.utxo n.currentHeight tx := by
  unfold Node.submitTransaction at h
  split at h
  · cases h
  · split at h
    · cases h
    · rename_i hv
      split at h
      · cases h
      · rename_i inSum hi
        exact ⟨hc, hv, submitInputs_ok hi⟩

/-! ### Transfers -/

theorem takeUtxos_subset {needed : Amount} : ∀ {xs : List (OutPoint × UtxoEntry)} {a : Amount},
    ∀ x ∈ (takeUtxos needed xs a).1, x ∈ xs
  | [], _, x, h => h
  | y :: xs, a, x, h => by
    simp only [takeUtxos] at h
    split at h
    · rw [List.mem_singleton.1 h]
      exact List.mem_cons_self
    · rcases List.mem_cons.1 h with rfl | h
      · exact List.mem_cons_self
      · exact List.mem_cons_of_mem _ (takeUtxos_subset x h)

/-- Signatures that all verify pass the loop. -/
theorem verifyInputs_ok {m : Hash} : ∀ {k : Nat} {is : List TxInput},
    (∀ i ∈ is, i.signature.length = 64 ∧ E.verify i.publicKey m i.signature = true) →
      Transaction.verifyInputs E m k is = .ok ()
  | _, [], _ => rfl
  | k, i :: is, h => by
    obtain ⟨hlen, hv⟩ := h i List.mem_cons_self
    rw [Transaction.verifyInputs, if_neg (not_not.2 hlen), if_pos hv]
    exact verifyInputs_ok fun j hj => h j (List.mem_cons_of_mem _ hj)

/-- Signing leaves what is signed over as it is. -/
theorem signingHash_signTransfer (kp : Keypair E) (tx : Transaction) :
    (signTransfer E kp tx).signingHash E = tx.signingHash E := by
  unfold Transaction.signingHash signTransfer
  simp only [List.map_map]
  rfl

/-- Every input carries the key's signature of the hash that is verified. -/
theorem signTransfer_verifies {kp : Keypair E} (hc : tx.isCoinbase = false)
    (hkeys : ∀ i ∈ tx.inputs, i.publicKey = kp.publicKey) :
    (signTransfer E kp tx).verifySignatures E = .ok () := by
  have hc' : (signTransfer E kp tx).isCoinbase = false := hc
  unfold Transaction.verifySignatures
  rw [hc', if_neg Bool.false_ne_true, signingHash_signTransfer]
  refine verifyInputs_ok fun i hi => ?_
  obtain ⟨j, hj, rfl⟩ := List.mem_map.1 hi
  refine ⟨kp.length _, ?_⟩
  show E.verify j.publicKey _ _ = true
  rw [hkeys j hj]
  exact kp.verify _

theorem buildTransfer_payable {kp : Keypair E} {utxos : List (OutPoint × UtxoEntry)}
    {toAddress : Address} {amount fee : Amount}
    (hu : SpendableUtxos u (Block.addressOf E kp.publicKey) height utxos)
    (h : buildTransfer E kp utxos toAddress amount fee = .ok tx) : Payable E u height tx := by
  unfold buildTransfer at h
  simp only at h
  split at h
  · cases h
  · cases h
    refine ⟨rfl, ?_, ?_⟩
    · refine signTransfer_verifies rfl fun i hi => ?_
      obtain ⟨x, -, rfl⟩ := List.mem_map.1 hi
      rfl
    · intro i hi
      obtain ⟨j, hj, rfl⟩ := List.mem_map.1 hi
      obtain ⟨x, hx, rfl⟩ := List.mem_map.1 hj
      obtain ⟨he, ha, hm⟩ := (hu.mem x).1 (takeUtxos_subset x hx)
      exact ⟨x.2, he, fun hc => hm.resolve_left (not_not.2 hc), ha.symm⟩

/-- **What is admitted is payable**, unless it passes for a coinbase. -/
theorem Node.Admits.payable (h : n.Admits E tx n') (hc : tx.isCoinbase = false) :
    Payable E n.utxo n.currentHeight tx := by
  cases h with
  | external h => exact acceptExternalTx_payable h
  | submitted h => exact submitTransaction_payable h hc
  | sent hu hb _ => exact buildTransfer_payable hu hb

/-! ## The next block -/

/-- A block at the next height: a coinbase that claims no more than the subsidy, and the
transaction. -/
structure Node.NextBlock (E : Env) (n : Node) (tx : Transaction) (b : Block) : Prop where
  transactions : ∃ cb, b.transactions = [cb, tx] ∧ cb.isCoinbase = true ∧
    cb.totalOutputAmount.zents ≤ b.reward E
  height : b.header.blueScore = n.currentHeight + 1
  merkleRoot : b.validateMerkleRoot E = true

/-- **An admitted transaction validates in the next block** exactly when it is no coinbase, names
no outpoint twice and does not pay out more than it takes in. -/
theorem admitted_validates_iff (E : Env) (n n' : Node) (tx : Transaction) (h : n.Admits E tx n')
    (b : Block) (hb : n.NextBlock E tx b) :
    validateBlockTransactions E b n.utxo = .ok () ↔ tx.isCoinbase = false ∧ Fits n.utxo tx := by
  obtain ⟨⟨cb, ht, hcb, hpay⟩, hheight, hm⟩ := hb
  cases hc : tx.isCoinbase with
  | true =>
    refine ⟨fun hv => ?_, fun hf => nomatch hf.1⟩
    obtain ⟨cb', txs, ht', -, hreg⟩ := validate_coinbaseFirst hv (by rw [ht]; simp)
    rw [ht] at ht'
    obtain ⟨-, rfl⟩ := List.cons.inj ht'
    rw [hreg tx List.mem_cons_self] at hc
    cases hc
  | false =>
    have hpayable : ∀ t ∈ [tx], Payable E n.utxo b.header.blueScore t := by
      intro t ht
      rw [List.mem_singleton.1 ht, hheight]
      exact (h.payable hc).mono (Nat.le_succ _)
    have hfresh : FreshIn ∅ [tx] := ⟨by simp, trivial⟩
    rw [validate_payable_iff ht hcb hm hpayable hfresh]
    have hcap : cb.totalOutputAmount.zents ≤
        satAdd (b.reward E) (Saturating.sum u64Max ([tx].map n.utxo.feeOf)) := by
      refine Nat.le_trans hpay ?_
      have hle : b.reward E ≤ u64Max := (E.emission.blockReward b.header.blueScore).le_max
      show b.reward E ≤ min _ _
      omega
    refine ⟨fun hv => ⟨rfl, hv.1 tx (List.mem_singleton_self _)⟩, fun hv => ⟨fun t ht => ?_, hcap⟩⟩
    rw [List.mem_singleton.1 ht]
    exact hv.2

namespace Sample

/-- The genesis node with one output of two thousand zents in its set. -/
def funded : Node :=
  { run [] with utxo := UtxoSet.empty.insert ⟨⟨1001⟩, 0⟩ ⟨⟨2000, by decide⟩, owner, 0, false⟩ }

/-- The next block with a transaction. -/
def withTx (tx : Transaction) : Block := block 1 .gpu [genesisHash] 1 1 [coinbase 1 [subsidy], tx]

/-- A transfer of more than the output, which it names twice. -/
def twiceSpent : Transaction :=
  transfer 5 [⟨⟨1001⟩, 0⟩, ⟨⟨1001⟩, 0⟩] [⟨2500, by decide⟩]

/-- A transfer of half of the output. -/
def onceSpent : Transaction := transfer 5 [⟨⟨1001⟩, 0⟩] [⟨1000, by decide⟩]

theorem nextBlock_withTx {tx : Transaction} (hm : (withTx tx).validateMerkleRoot env = true) :
    funded.NextBlock env tx (withTx tx) where
  transactions := by
    refine ⟨_, rfl, rfl, ?_⟩
    show (coinbase 1 [subsidy]).totalOutputAmount.zents ≤ (env.emission.blockReward 1).zents
    decide +kernel
  height := by
    have hheight : funded.currentHeight = 0 := by decide +kernel
    rw [hheight]
    rfl
  merkleRoot := hm

end Sample

open Sample in
/-- A peer's transaction that names an output twice is admitted, and its block does not
validate. -/
theorem admitted_double_spend :
    ¬∀ (n n' : Node) (tx : Transaction), n.Admits env tx n' → ∀ b, n.NextBlock env tx b →
      validateBlockTransactions env b n.utxo = .ok () := by
  intro h
  have hadmit : funded.acceptExternalTx env 0 twiceSpent =
      (true, (funded.acceptExternalTx env 0 twiceSpent).2) := Prod.ext (by decide +kernel) rfl
  have hv := h _ _ _ (.external hadmit) _ (nextBlock_withTx (by decide +kernel))
  exact absurd hv (by decide +kernel)

open Sample in
theorem admitted_validates_once :
    validateBlockTransactions env (withTx onceSpent) funded.utxo = .ok () := by
  have hadmit : funded.acceptExternalTx env 0 onceSpent =
      (true, (funded.acceptExternalTx env 0 onceSpent).2) := Prod.ext (by decide +kernel) rfl
  exact (admitted_validates_iff env funded _ onceSpent (.external hadmit) _
    (nextBlock_withTx (by decide +kernel))).2 ⟨by decide, by decide +kernel⟩

end Zentra

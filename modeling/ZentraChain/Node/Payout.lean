import ZentraChain.Core.Address
import ZentraChain.Node.Admission
import ZentraChain.Node.Pool

/-!
# Pool payouts (`node.rs`)

A payout spends outputs of the pool's wallet. The change is computed from all amounts of the
distribution; an amount whose address does not parse gets no output.

* `takeUtxos_fits_iff`: when the selected outputs add up without wrapping.
* `payout_conserves_iff`: when a payout pays out what it takes in and pays whom it counts as paid.
-/

namespace Zentra

/-- What a peer reports; the fields that the pool reads. -/
structure PeerMinerStat where
  hashrate : ℚ
  poolMining : Bool
  payoutAddress : String

/-- `apply_peer_stats`: a peer becomes a miner of the operator's pool, except on the main network. -/
def MiningPool.applyPeerStats (network : NetworkType) (poolMode : Bool) (now : Nat) (p : MiningPool)
    (stat : PeerMinerStat) : MiningPool :=
  if network ≠ .mainnet ∧ poolMode ∧ stat.poolMining ∧ stat.payoutAddress ≠ "" then
    p.heartbeat now stat.payoutAddress stat.hashrate
  else p

/-- The plain sum of amounts, which wraps. -/
def plainSum (l : List Amount) : Amount :=
  ⟨Wrapping.sum (2 ^ 64) (l.map (·.zents)), by
    rw [Wrapping.sum_eq, u64Max]
    exact Nat.le_sub_one_of_lt (Nat.mod_lt _ (by decide))⟩

/-- `PAYOUT_TX_FEE_ZENTS`, as an amount. -/
def payoutTxFee : Amount := ⟨payoutTxFeeZents, by decide⟩

/-! ## `run_pool_payout` -/

section
variable (utxos : List (OutPoint × UtxoEntry))

def payoutBalance : Amount := plainSum (utxos.map (·.2.amount))

def afterTxFee : Amount := (payoutBalance utxos).saturatingSub payoutTxFee

/-- The product wraps. -/
def operatorFee : Amount :=
  ⟨(afterTxFee utxos).zents * poolFeeBps % 2 ^ 64 / 10000,
    (Nat.div_le_self _ _).trans (Nat.le_sub_one_of_lt (Nat.mod_lt _ (by decide)))⟩

def distributable : Amount := (afterTxFee utxos).saturatingSub (operatorFee utxos)

end

section
variable (B : Bech32)

/-- The operator's output, if the address parses and there is a fee. -/
def operatorOut (operatorAddress : String) (fee : Amount) : Option (Address × Amount) :=
  match Address.fromBech32 B operatorAddress with
  | .error _ => none
  | .ok a => if fee.zents > 0 then some (a, fee) else none

/-- What the operator gets. -/
def operatorAmount (operatorAddress : String) (fee : Amount) : Amount :=
  ((operatorOut B operatorAddress fee).map (·.2)).getD .zero

/-- What the payout needs of the wallet. -/
def totalNeeded (operatorAddress : String) (fee : Amount) (distribution : List (String × Amount)) :
    Amount :=
  ((plainSum (distribution.map (·.2))).wrappingAdd
    (operatorAmount B operatorAddress fee)).wrappingAdd payoutTxFee

/-- One output per miner whose address parses. -/
def minerOutputs (distribution : List (String × Amount)) : List TxOutput :=
  distribution.filterMap fun x =>
    match Address.fromBech32 B x.1 with
    | .error _ => none
    | .ok a => some (.standard a x.2 [])

def payoutOutputs (poolAddress : Address) (operatorAddress : String) (fee change : Amount)
    (distribution : List (String × Amount)) : List TxOutput :=
  minerOutputs B distribution ++
    (operatorOut B operatorAddress fee).toList.map (fun x => .standard x.1 x.2 []) ++
    if change.zents > 0 then [.standard poolAddress change []] else []

/-- The transaction of a payout, if the wallet covers it. -/
def buildPayout (E : Env) (kp : Keypair E) (poolAddress : Address) (operatorAddress : String)
    (fee : Amount) (utxos : List (OutPoint × UtxoEntry)) (distribution : List (String × Amount)) :
    Option Transaction :=
  let needed := totalNeeded B operatorAddress fee distribution
  let (selected, accumulated) := takeUtxos needed utxos .zero
  if accumulated.zents < needed.zents then none
  else
    some (signTransfer E kp
      { version := 1
        txType := .transfer
        inputs := selected.map fun x => ⟨x.1.txHash, x.1.index, [], kp.publicKey⟩
        outputs := payoutOutputs B poolAddress operatorAddress fee
          (accumulated.saturatingSub needed) distribution
        payload := []
        lockTime := 0 })

/-- What a payout round leaves. -/
structure PayoutRun where
  mempool : Mempool
  pool : MiningPool
  /-- The transaction that was built. -/
  tx : Option Transaction
  /-- What `apply_payout` was called with. -/
  paid : List (String × Amount)

/-- `run_pool_payout` at time `now`: `keyOf` derives the wallet's key from the mnemonic, `utxos` are the
mature outputs of the wallet, and `distribute` is the split of `compute_distribution`. -/
def runPoolPayout (E : Env) (keyOf : String → Option (Keypair E)) (now : Nat) (n : Node)
    (p : MiningPool) (utxos : List (OutPoint × UtxoEntry))
    (distribute : Amount → List (String × Amount)) : PayoutRun :=
  match keyOf p.mnemonic with
  | none => ⟨n.mempool, p, none, []⟩
  | some kp =>
    match Address.fromBech32 B p.address with
    | .error _ => ⟨n.mempool, p, none, []⟩
    | .ok poolAddress =>
      if Block.addressOf E kp.publicKey ≠ poolAddress then
        ⟨n.mempool, { p with lastPayoutMs := now }, none, []⟩
      else if (payoutBalance utxos).zents ≤ payoutTxFeeZents then
        ⟨n.mempool, { p with lastPayoutMs := now }, none, []⟩
      else
        let distribution := distribute (distributable utxos)
        if distribution.isEmpty then ⟨n.mempool, { p with lastPayoutMs := now }, none, []⟩
        else
          match buildPayout B E kp poolAddress p.operatorAddress (operatorFee utxos) utxos
            distribution with
          | none => ⟨n.mempool, p, none, []⟩
          | some tx =>
            match n.mempool.addTransaction E now tx payoutTxFee with
            | .ok m =>
              ⟨m, p.applyPayout now distribution (operatorFee utxos), some tx, distribution⟩
            | .error _ => ⟨n.mempool, p, some tx, []⟩

end

/-- The amounts that a round counts as paid to a miner of the pool. -/
def PayoutRun.Marks (run : PayoutRun) (p : MiningPool) (x : String × Amount) : Prop :=
  x ∈ run.paid ∧ x.1 ∈ p.miners.map (·.address) ∧ 0 < x.2.zents

/-! ## Sums -/

variable {E : Env} {B : Bech32} {utxos : List (OutPoint × UtxoEntry)} {needed a : Amount}
  {distribution : List (String × Amount)} {operatorAddress : String} {fee : Amount}

/-- The exact sum of outputs. -/
def utxoTotal (utxos : List (OutPoint × UtxoEntry)) : Nat := (utxos.map (·.2.amount.zents)).sum

@[simp] theorem utxoTotal_cons (x : OutPoint × UtxoEntry) (xs : List (OutPoint × UtxoEntry)) :
    utxoTotal (x :: xs) = x.2.amount.zents + utxoTotal xs := rfl

theorem plainSum_zents (l : List Amount) : (plainSum l).zents = (l.map (·.zents)).sum % 2 ^ 64 :=
  Wrapping.sum_eq _ _

theorem wrappingAdd_zents (a b : Amount) : (a.wrappingAdd b).zents = (a.zents + b.zents) % 2 ^ 64 :=
  rfl

/-- What is accumulated is the exact sum of what is selected, modulo 2^64. -/
theorem takeUtxos_zents (needed : Amount) : ∀ (xs : List (OutPoint × UtxoEntry)) (a : Amount),
    (takeUtxos needed xs a).2.zents = (a.zents + utxoTotal (takeUtxos needed xs a).1) % 2 ^ 64
  | [], a => (Nat.mod_eq_of_lt (Nat.lt_of_le_of_lt a.le_max (by decide))).symm
  | x :: xs, a => by
    simp only [takeUtxos]
    split
    · rw [wrappingAdd_zents, utxoTotal_cons]
      rfl
    · rw [takeUtxos_zents needed xs, wrappingAdd_zents, Nat.mod_add_mod, utxoTotal_cons, Nat.add_assoc]

theorem takeUtxos_prefix (needed : Amount) : ∀ (xs : List (OutPoint × UtxoEntry)) (a : Amount),
    ∃ k, (takeUtxos needed xs a).1 = xs.take k
  | [], _ => ⟨0, rfl⟩
  | x :: xs, a => by
    simp only [takeUtxos]
    split
    · exact ⟨1, rfl⟩
    · obtain ⟨k, hk⟩ := takeUtxos_prefix needed xs (a.wrappingAdd x.2.amount)
      exact ⟨k + 1, congrArg (x :: ·) hk⟩

/-- If some first outputs cover what is needed without wrapping, so do the selected ones. -/
theorem takeUtxos_lt : ∀ (xs : List (OutPoint × UtxoEntry)) (a : Amount) (k : Nat),
    a.zents < needed.zents → needed.zents ≤ a.zents + utxoTotal (xs.take k) →
    a.zents + utxoTotal (xs.take k) < 2 ^ 64 →
    a.zents + utxoTotal (takeUtxos needed xs a).1 < 2 ^ 64
  | [], a, k, _, _, hlt => by
    rw [List.take_nil] at hlt
    exact hlt
  | x :: xs, a, 0, ha, hle, _ => absurd hle (Nat.not_le.2 ha)
  | x :: xs, a, k + 1, ha, hle, hlt => by
    rw [List.take_succ_cons, utxoTotal_cons, ← Nat.add_assoc] at hle hlt
    -- up to the outputs that cover it, no sum wraps
    have hexact : (a.wrappingAdd x.2.amount).zents = a.zents + x.2.amount.zents :=
      Nat.mod_eq_of_lt (by omega)
    simp only [takeUtxos]
    split
    · rw [utxoTotal_cons, utxoTotal]
      simp only [List.map_nil, List.sum_nil]
      omega
    · rename_i hn
      rw [utxoTotal_cons, ← Nat.add_assoc, ← hexact]
      refine takeUtxos_lt xs _ k (Nat.not_le.1 hn) ?_ ?_
      · rwa [hexact]
      · rwa [hexact]

/-- **Selections that do not wrap**: those where some first outputs cover what is needed. -/
theorem takeUtxos_fits_iff (hn : 0 < needed.zents)
    (hcover : needed.zents ≤ (takeUtxos needed utxos .zero).2.zents) :
    utxoTotal (takeUtxos needed utxos .zero).1 < 2 ^ 64 ↔
      ∃ k, needed.zents ≤ utxoTotal (utxos.take k) ∧ utxoTotal (utxos.take k) < 2 ^ 64 := by
  constructor
  · intro h
    obtain ⟨k, hk⟩ := takeUtxos_prefix needed utxos .zero
    rw [takeUtxos_zents, Amount.zero_zents, Nat.zero_add, Nat.mod_eq_of_lt h] at hcover
    exact ⟨k, hk ▸ hcover, hk ▸ h⟩
  · rintro ⟨k, hle, hlt⟩
    have h := takeUtxos_lt utxos .zero k hn (by rwa [Amount.zero_zents, Nat.zero_add])
      (by rwa [Amount.zero_zents, Nat.zero_add])
    rwa [Amount.zero_zents, Nat.zero_add] at h

/-- Does the text parse as an address? -/
def Parses (B : Bech32) (addr : String) : Prop := ∃ a, Address.fromBech32 B addr = .ok a

/-- The exact sum of a distribution. -/
def distributionTotal (distribution : List (String × Amount)) : Nat :=
  (distribution.map (·.2.zents)).sum

/-- The exact sum of outputs. -/
def outputsTotal (outputs : List TxOutput) : Nat := (outputs.map (·.amount.zents)).sum

theorem outputsTotal_append (l l' : List TxOutput) :
    outputsTotal (l ++ l') = outputsTotal l + outputsTotal l' := by
  rw [outputsTotal, List.map_append, List.sum_append]
  rfl

theorem minerOutputs_le (B : Bech32) (distribution : List (String × Amount)) :
    outputsTotal (minerOutputs B distribution) ≤ distributionTotal distribution := by
  induction distribution with
  | nil => exact Nat.le_refl _
  | cons x xs ih =>
    rw [minerOutputs, List.filterMap_cons]
    cases Address.fromBech32 B x.1 with
    | error e => exact ih.trans (Nat.le_add_left _ _)
    | ok a => exact Nat.add_le_add_left ih _

/-- The miners' outputs add up to the distribution if all amounts in it have an address. -/
theorem minerOutputs_eq_iff : outputsTotal (minerOutputs B distribution) =
    distributionTotal distribution ↔ ∀ x ∈ distribution, 0 < x.2.zents → Parses B x.1 := by
  induction distribution with
  | nil => exact iff_of_true rfl nofun
  | cons x xs ih =>
    have hle := minerOutputs_le B xs
    have htotal : distributionTotal (x :: xs) = x.2.zents + distributionTotal xs := rfl
    rw [List.forall_mem_cons, ← ih, htotal]
    cases hx : Address.fromBech32 B x.1 with
    | error e =>
      have hout : minerOutputs B (x :: xs) = minerOutputs B xs := by
        rw [minerOutputs, List.filterMap_cons, hx]
        rfl
      have hno : (0 < x.2.zents → Parses B x.1) ↔ x.2.zents = 0 := by
        have hnot : ¬Parses B x.1 := by
          rintro ⟨a, ha⟩
          rw [hx] at ha
          cases ha
        exact ⟨fun h => Nat.eq_zero_of_not_pos fun hpos => hnot (h hpos), fun h hpos =>
          absurd hpos (Nat.not_lt.2 h.le)⟩
      rw [hout, hno]
      omega
    | ok a =>
      have hout : outputsTotal (minerOutputs B (x :: xs)) =
          x.2.zents + outputsTotal (minerOutputs B xs) := by
        rw [minerOutputs, List.filterMap_cons, hx]
        rfl
      rw [hout, Nat.add_left_cancel_iff]
      exact (and_iff_right fun _ => ⟨a, hx⟩).symm

theorem operatorAmount_le (B : Bech32) (operatorAddress : String) (fee : Amount) :
    (operatorAmount B operatorAddress fee).zents ≤ fee.zents := by
  unfold operatorAmount operatorOut
  cases Address.fromBech32 B operatorAddress with
  | error e => exact Nat.zero_le _
  | ok a =>
    simp only
    split_ifs
    · exact Nat.le_refl _
    · exact Nat.zero_le _

/-- What is needed does not wrap. -/
theorem totalNeeded_zents (B : Bech32) (operatorAddress : String)
    (h : distributionTotal distribution + fee.zents + payoutTxFeeZents < 2 ^ 64) :
    (totalNeeded B operatorAddress fee distribution).zents = distributionTotal distribution +
      (operatorAmount B operatorAddress fee).zents + payoutTxFeeZents := by
  have hle := operatorAmount_le B operatorAddress fee
  have hsum : (plainSum (distribution.map (·.2))).zents = distributionTotal distribution := by
    rw [plainSum_zents, List.map_map]
    exact Nat.mod_eq_of_lt (by show distributionTotal distribution < _; omega)
  rw [totalNeeded, wrappingAdd_zents, wrappingAdd_zents, hsum]
  show ((_ + _) % _ + payoutTxFeeZents) % _ = _
  omega

theorem payoutOutputs_total (poolAddress : Address) (operatorAddress : String) (fee change : Amount)
    (distribution : List (String × Amount)) :
    outputsTotal (payoutOutputs B poolAddress operatorAddress fee change distribution) =
      outputsTotal (minerOutputs B distribution) +
        (operatorAmount B operatorAddress fee).zents + change.zents := by
  rw [payoutOutputs, outputsTotal_append, outputsTotal_append]
  congr 1
  · congr 1
    unfold operatorAmount
    cases operatorOut B operatorAddress fee with
    | none => rfl
    | some x => exact Nat.add_zero _
  · split_ifs with h
    · exact Nat.add_zero _
    · exact (Nat.eq_zero_of_not_pos h).symm

/-! ## A round -/

variable {n : Node} {p : MiningPool} {tx : Transaction} {now : Nat}
  {keyOf : String → Option (Keypair E)} {distribute : Amount → List (String × Amount)}

theorem operatorFee_le (utxos : List (OutPoint × UtxoEntry)) :
    (operatorFee utxos).zents ≤ (afterTxFee utxos).zents :=
  calc (afterTxFee utxos).zents * 100 % 2 ^ 64 / 10000
      ≤ (afterTxFee utxos).zents * 100 / 10000 := Nat.div_le_div_right (Nat.mod_le _ _)
    _ ≤ (afterTxFee utxos).zents := Nat.div_le_of_le_mul (by omega)

/-- What a round that builds a transaction has come to. -/
theorem runPoolPayout_tx
    (h : (runPoolPayout B E keyOf now n p utxos distribute).tx = some tx) :
    ∃ kp ∈ keyOf p.mnemonic, payoutTxFeeZents < (payoutBalance utxos).zents ∧
      buildPayout B E kp (Block.addressOf E kp.publicKey) p.operatorAddress (operatorFee utxos) utxos
        (distribute (distributable utxos)) = some tx ∧
      ∀ x ∈ (runPoolPayout B E keyOf now n p utxos distribute).paid,
        x ∈ distribute (distributable utxos) := by
  unfold runPoolPayout at h ⊢
  cases hkey : keyOf p.mnemonic with
  | none =>
    rw [hkey] at h
    cases h
  | some kp =>
    rw [hkey] at h
    cases haddr : Address.fromBech32 B p.address with
    | error e =>
      rw [haddr] at h
      cases h
    | ok poolAddress =>
      rw [haddr] at h
      simp only at h ⊢
      split at h
      · cases h
      · rename_i hown
        split at h
        · cases h
        · rename_i hbal
          split at h
          · cases h
          · rename_i hne
            rw [if_neg hown, if_neg hbal, if_neg hne]
            obtain rfl := not_not.1 hown
            cases hbuild : buildPayout B E kp (Block.addressOf E kp.publicKey) p.operatorAddress
                (operatorFee utxos) utxos (distribute (distributable utxos)) with
            | none =>
              rw [hbuild] at h
              cases h
            | some tx' =>
              simp only [hbuild] at h ⊢
              cases hadd : n.mempool.addTransaction E now tx' payoutTxFee with
              | ok m =>
                rw [hadd] at h
                cases h
                exact ⟨kp, rfl, Nat.not_le.1 hbal, hbuild, fun x hx => hx⟩
              | error e =>
                rw [hadd] at h
                cases h
                exact ⟨kp, rfl, Nat.not_le.1 hbal, hbuild, nofun⟩

/-- The inputs are worth what was selected. -/
theorem inputTotal_signTransfer {u : UtxoSet} {kp : Keypair E}
    {selected : List (OutPoint × UtxoEntry)} (h : ∀ x ∈ selected, u.getUtxo x.1 = some x.2)
    (tx : Transaction)
    (hin : tx.inputs = selected.map fun x => ⟨x.1.txHash, x.1.index, [], kp.publicKey⟩) :
    u.inputTotal (signTransfer E kp tx) = utxoTotal selected := by
  unfold UtxoSet.inputTotal signTransfer
  rw [hin]
  simp only [List.map_map]
  refine congrArg List.sum (List.map_congr_left fun x hx => ?_)
  exact UtxoSet.valueAt_some (h x hx)

/-- **What a payout takes in and pays out.** -/
theorem buildPayout_spec {u : UtxoSet} {kp : Keypair E} {poolAddress : Address}
    (hu : ∀ x ∈ utxos, u.getUtxo x.1 = some x.2)
    (h : buildPayout B E kp poolAddress operatorAddress fee utxos distribution = some tx) :
    let needed := totalNeeded B operatorAddress fee distribution
    let r := takeUtxos needed utxos .zero
    needed.zents ≤ r.2.zents ∧ u.inputTotal tx = utxoTotal r.1 ∧
      tx.outputTotal = outputsTotal (minerOutputs B distribution) +
        (operatorAmount B operatorAddress fee).zents + (r.2.zents - needed.zents) ∧
      ∀ o ∈ minerOutputs B distribution, o ∈ tx.outputs := by
  intro needed r
  unfold buildPayout at h
  simp only at h
  split at h
  · cases h
  · rename_i hcover
    cases h
    refine ⟨Nat.not_lt.1 hcover, ?_, payoutOutputs_total .., fun o ho => ?_⟩
    · exact inputTotal_signTransfer (fun x hx => hu x (takeUtxos_subset x hx)) _ rfl
    · exact List.mem_append_left _ (List.mem_append_left _ ho)

/-- **Payouts.** A payout takes in what it pays out with its fee, and pays every amount that it counts
as paid, exactly if some first outputs of the wallet cover it without wrapping, and every amount of
the distribution has an address. -/
theorem payout_conserves_iff
    (hlist : ∀ kp ∈ keyOf p.mnemonic,
      SpendableUtxos n.utxo (Block.addressOf E kp.publicKey) n.currentHeight utxos)
    (hd : distributionTotal (distribute (distributable utxos)) ≤ (distributable utxos).zents)
    (hrun : (runPoolPayout B E keyOf now n p utxos distribute).tx = some tx) :
    (n.utxo.inputTotal tx = tx.outputTotal + payoutTxFeeZents ∧
        ∀ x, (runPoolPayout B E keyOf now n p utxos distribute).Marks p x →
          ∃ a, Address.fromBech32 B x.1 = .ok a ∧ .standard a x.2 [] ∈ tx.outputs) ↔
      (∃ k,
        (totalNeeded B p.operatorAddress (operatorFee utxos)
          (distribute (distributable utxos))).zents ≤ utxoTotal (utxos.take k) ∧
        utxoTotal (utxos.take k) < 2 ^ 64) ∧
      ∀ x ∈ distribute (distributable utxos), 0 < x.2.zents → Parses B x.1 := by
  obtain ⟨kp, hkp, hbal, hbuild, hpaid⟩ := runPoolPayout_tx hrun
  obtain ⟨hcover, hin, hout, hmem⟩ :=
    buildPayout_spec (fun x hx => (((hlist kp hkp).mem x).1 hx).1) hbuild
  generalize distribute (distributable utxos) = distribution at *
  have hfits : distributionTotal distribution + (operatorFee utxos).zents + payoutTxFeeZents <
      2 ^ 64 := by
    have hfee := operatorFee_le utxos
    have hmax : (payoutBalance utxos).zents ≤ 2 ^ 64 - 1 := (payoutBalance utxos).le_max
    have hafter : (afterTxFee utxos).zents = (payoutBalance utxos).zents - payoutTxFeeZents := rfl
    have hdis : (distributable utxos).zents =
      (afterTxFee utxos).zents - (operatorFee utxos).zents := rfl
    omega
  have hneeded := totalNeeded_zents B p.operatorAddress hfits
  generalize totalNeeded B p.operatorAddress (operatorFee utxos) distribution = needed at *
  have hpos : 0 < needed.zents := by
    rw [hneeded, payoutTxFeeZents]
    omega
  have hsel := takeUtxos_zents needed utxos .zero
  rw [Amount.zero_zents, Nat.zero_add] at hsel
  have hle := minerOutputs_le B distribution
  have hbalanced : n.utxo.inputTotal tx = tx.outputTotal + payoutTxFeeZents ↔
      utxoTotal (takeUtxos needed utxos .zero).1 < 2 ^ 64 ∧
        outputsTotal (minerOutputs B distribution) = distributionTotal distribution := by
    rw [hin, hout]
    omega
  rw [← takeUtxos_fits_iff hpos hcover, ← minerOutputs_eq_iff, ← hbalanced]
  refine and_iff_left_of_imp fun hbal' x hx => ?_
  obtain ⟨a, ha⟩ := minerOutputs_eq_iff.1 (hbalanced.1 hbal').2 x (hpaid x hx.1) hx.2.2
  refine ⟨a, ha, hmem _ (List.mem_filterMap.2 ⟨x, hpaid x hx.1, ?_⟩)⟩
  rw [ha]

namespace Sample

def poolKey : Keypair env where
  publicKey := poolAddress.payload
  sign _ := List.replicate 64 0
  length _ := List.length_replicate
  verify _ := rfl

/-- Ten ZTR in the wallet of the pool. -/
def poolUtxos : List (OutPoint × UtxoEntry) :=
  [(⟨⟨1001⟩, 0⟩, ⟨⟨1000000000, by decide⟩, poolAddress, 0, false⟩)]

def poolWallet : Node :=
  { run [] with utxo :=
      UtxoSet.empty.insert ⟨⟨1001⟩, 0⟩ ⟨⟨1000000000, by decide⟩, poolAddress, 0, false⟩ }

/-- A pool with one miner, from the reports of a peer over a minute. -/
def minedPool (payoutAddress : String) : MiningPool :=
  let stat : PeerMinerStat := ⟨5, true, payoutAddress⟩
  ((MiningPool.new "" "zentradev1pool" 0).applyPeerStats .devnet true 0 stat).applyPeerStats
    .devnet true 60000 stat

def payout (payoutAddress : String) : PayoutRun :=
  runPoolPayout bech32 env (fun _ => some poolKey) 70000 poolWallet (minedPool payoutAddress)
    poolUtxos (minedPool payoutAddress).computeDistribution

theorem poolUtxos_spendable : SpendableUtxos poolWallet.utxo
    (Block.addressOf env poolKey.publicKey) poolWallet.currentHeight poolUtxos where
  nodup := List.nodup_singleton _
  mem x := by
    rw [show poolWallet.utxo = UtxoSet.empty.insert ⟨⟨1001⟩, 0⟩
      ⟨⟨1000000000, by decide⟩, poolAddress, 0, false⟩ from rfl, UtxoSet.getUtxo_insert, poolUtxos,
      List.mem_singleton]
    obtain ⟨op, e⟩ := x
    constructor
    · intro h
      cases h
      exact ⟨if_pos rfl, rfl, .inl Bool.false_ne_true⟩
    · rintro ⟨h, -⟩
      split at h
      · rename_i hop
        cases h
        exact Prod.ext hop rfl
      · cases h

def payoutTx : Transaction := (payout "zentradev1member").tx.get (by decide +kernel)

end Sample

open Sample in
theorem payout_conserves_member :
    (poolWallet.utxo.inputTotal payoutTx = payoutTx.outputTotal + payoutTxFeeZents ∧
        ∀ x, (payout "zentradev1member").Marks (minedPool "zentradev1member") x →
          ∃ a, Address.fromBech32 bech32 x.1 = .ok a ∧ .standard a x.2 [] ∈ payoutTx.outputs) ↔
      (∃ k,
        (totalNeeded bech32 (minedPool "zentradev1member").operatorAddress (operatorFee poolUtxos)
          ((minedPool "zentradev1member").computeDistribution (distributable poolUtxos))).zents ≤
            utxoTotal (poolUtxos.take k) ∧
        utxoTotal (poolUtxos.take k) < 2 ^ 64) ∧
      ∀ x ∈ (minedPool "zentradev1member").computeDistribution (distributable poolUtxos),
        0 < x.2.zents → Parses bech32 x.1 :=
  payout_conserves_iff (fun kp hkp => by
    obtain rfl := Option.some.inj hkp
    exact poolUtxos_spendable) (by decide +kernel) (Option.some_get _).symm

open Sample in
/-- A miner registered under a text that is no address: its amount gets no output. -/
theorem payout_without_output :
    ¬∀ (E : Env) (B : Bech32) (keyOf : String → Option (Keypair E)) (now : Nat) (n : Node)
      (p : MiningPool) (utxos : List (OutPoint × UtxoEntry))
      (distribute : Amount → List (String × Amount)) (tx : Transaction),
      (∀ kp ∈ keyOf p.mnemonic,
        SpendableUtxos n.utxo (Block.addressOf E kp.publicKey) n.currentHeight utxos) →
      distributionTotal (distribute (distributable utxos)) ≤ (distributable utxos).zents →
      (runPoolPayout B E keyOf now n p utxos distribute).tx = some tx →
      n.utxo.inputTotal tx = tx.outputTotal + payoutTxFeeZents := by
  intro h
  have hbalanced := h env bech32 (fun _ => some poolKey) 70000 poolWallet (minedPool "nobody")
    poolUtxos (minedPool "nobody").computeDistribution _ (fun kp hkp => by
      obtain rfl := Option.some.inj hkp
      exact poolUtxos_spendable) (by decide +kernel)
    (@Option.some_get _ (payout "nobody").tx (by decide +kernel)).symm
  revert hbalanced
  decide +kernel

end Zentra

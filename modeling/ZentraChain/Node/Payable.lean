import ZentraChain.Core.UtxoValue
import ZentraChain.Node.ValidateSpec

/-!
# Transactions that spend the set

`Payable` is what every part of the node asks of a transaction that spends outputs of the UTXO set:
good signatures, and inputs that are there, mature and owned. The validator asks more (`Fits`): no
outpoint twice, and outputs within the inputs.

* `checkInputs_owns`, `checkRegular_fits`: what the validator's loops compute then.
* `validate_payable_iff`: a block of a coinbase and payable transactions that spend different
  outputs validates exactly when all of them fit and the coinbase is within the cap.
-/

namespace Zentra

variable {E : Env} {u : UtxoSet} {height : Nat} {tx : Transaction} {txs : List Transaction}
  {created : Finmap fun _ : OutPoint => Amount × Address} {spent : Finset OutPoint} {c c' : TxCheck}

/-- The set has the input, mature at the height, and its key owns it. -/
def Owns (E : Env) (u : UtxoSet) (height : Nat) (i : TxInput) : Prop :=
  ∃ e, u.getUtxo i.outpoint = some e ∧
    (e.isCoinbase = true → satAdd e.blockHeight coinbaseMaturity ≤ height) ∧
    Block.addressOf E i.publicKey = e.address

/-- Signatures and inputs are good. -/
structure Payable (E : Env) (u : UtxoSet) (height : Nat) (tx : Transaction) : Prop where
  regular : tx.isCoinbase = false
  signatures : tx.verifySignatures E = .ok ()
  inputs : ∀ i ∈ tx.inputs, Owns E u height i

/-- The exact total of the inputs, each counted as often as it is named. -/
def UtxoSet.inputTotal (u : UtxoSet) (tx : Transaction) : Nat :=
  (tx.inputs.map fun i => u.valueAt i.outpoint).sum

/-- No outpoint twice, and outputs within the inputs, both totals cut at `u64::MAX`. -/
structure Fits (u : UtxoSet) (tx : Transaction) : Prop where
  nodup : (tx.inputs.map (·.outpoint)).Nodup
  covered : min tx.outputTotal u64Max ≤ min (u.inputTotal tx) u64Max

/-- The fee that the validator finds. -/
def UtxoSet.feeOf (u : UtxoSet) (tx : Transaction) : Nat :=
  min (u.inputTotal tx) u64Max - min tx.outputTotal u64Max

instance : Decidable (Fits u tx) :=
  decidable_of_iff ((tx.inputs.map (·.outpoint)).Nodup ∧
    min tx.outputTotal u64Max ≤ min (u.inputTotal tx) u64Max)
    ⟨fun h => ⟨h.1, h.2⟩, fun h => ⟨h.1, h.2⟩⟩

/-! ## Inputs -/

theorem Owns.resolveInput {i : TxInput} (h : Owns E u height i)
    (created : Finmap fun _ : OutPoint => Amount × Address) :
    ∃ va : Amount × Address, resolveInput u height created i.outpoint = .ok va ∧
      va.1.zents = u.valueAt i.outpoint ∧ Block.addressOf E i.publicKey = va.2 := by
  obtain ⟨e, he, hm, ha⟩ := h
  refine ⟨(e.amount, e.address), ?_, (UtxoSet.valueAt_some he).symm, ha⟩
  unfold Zentra.resolveInput
  rw [he]
  simp only
  rw [if_neg]
  rintro ⟨hc, hlt⟩
  exact absurd (hm hc) (Nat.not_le.2 hlt)

/-- Inputs of the set that are all different and new pass, and are summed up. -/
theorem checkInputs_owns : ∀ {is : List TxInput} {spent : Finset OutPoint} {s : Nat},
    (∀ i ∈ is, Owns E u height i) → (is.map (·.outpoint)).Nodup →
    (∀ i ∈ is, i.outpoint ∉ spent) →
      checkInputs E u height created is spent s =
        .ok (spent ∪ (is.map (·.outpoint)).toFinset,
          (is.map fun i => u.valueAt i.outpoint).foldl satAdd s)
  | [], spent, s, _, _, _ => by simp [checkInputs]
  | i :: is, spent, s, ho, hnd, hfresh => by
    obtain ⟨⟨v, a⟩, hr, hv, ha⟩ := (ho i List.mem_cons_self).resolveInput created
    obtain ⟨hni, hnd⟩ := List.nodup_cons.1 hnd
    simp only [checkInputs]
    rw [if_neg (hfresh i List.mem_cons_self), hr]
    simp only at ha hv ⊢
    rw [if_neg (not_not.2 ha), checkInputs_owns (fun j hj => ho j (List.mem_cons_of_mem _ hj)) hnd,
      hv, List.map_cons, List.map_cons, List.foldl_cons, List.toFinset_cons, Finset.insert_union,
      Finset.union_insert]
    intro j hj hmem
    rcases Finset.mem_insert.1 hmem with he | hmem
    · exact hni (List.mem_map.2 ⟨j, hj, he⟩)
    · exact hfresh j (List.mem_cons_of_mem _ hj) hmem

/-! ## One transaction -/

/-- What the validator computes of a payable transaction that fits. -/
theorem checkRegular_fits (hp : Payable E u height tx) (hf : Fits u tx)
    (hfresh : ∀ i ∈ tx.inputs, i.outpoint ∉ c.spent) :
    checkRegular E u height tx c = .ok { c with
      spent := c.spent ∪ (tx.inputs.map (·.outpoint)).toFinset
      totalFees := satAdd c.totalFees (u.feeOf tx) } := by
  have hin : checkInputs E u height c.created tx.inputs c.spent 0 = _ :=
    checkInputs_owns hp.inputs hf.nodup hfresh
  have hsum : (tx.inputs.map fun i => u.valueAt i.outpoint).foldl satAdd 0 =
      min (u.inputTotal tx) u64Max := Saturating.sum_eq _ _
  unfold checkRegular
  rw [hp.signatures]
  simp only
  rw [hin, hsum]
  simp only [Transaction.totalOutputAmount_zents]
  rw [if_neg (Nat.not_lt.2 hf.covered)]
  rfl

/-- A payable transaction passes only if it fits. -/
theorem fits_of_checkRegular (hp : Payable E u height tx)
    (h : checkRegular E u height tx c = .ok c') : Fits u tx := by
  unfold checkRegular at h
  rw [hp.signatures] at h
  simp only at h
  split at h
  · cases h
  · rename_i spent inSum hin
    obtain ⟨hok, -⟩ := checkInputs_ok hin
    have hin' : checkInputs E u height c.created tx.inputs c.spent 0 = _ :=
      checkInputs_owns hp.inputs hok.nodup fun i hi => hok.fresh _ (List.mem_map_of_mem hi)
    rw [hin'] at hin
    have hsum : (tx.inputs.map fun i => u.valueAt i.outpoint).foldl satAdd 0 =
        min (u.inputTotal tx) u64Max := Saturating.sum_eq _ _
    have hs : inSum = min (u.inputTotal tx) u64Max := by
      rw [← hsum]
      exact (congrArg Prod.snd (Except.ok.inj hin)).symm
    simp only [Transaction.totalOutputAmount_zents] at h
    split at h
    · cases h
    · rename_i hle
      exact ⟨hok.nodup, by rw [← hs]; exact Nat.not_lt.1 hle⟩

/-! ## Blocks -/

/-- The transactions spend outpoints outside of `spent` and of those of the ones before. -/
def FreshIn : Finset OutPoint → List Transaction → Prop
  | _, [] => True
  | spent, tx :: txs => (∀ i ∈ tx.inputs, i.outpoint ∉ spent) ∧
      FreshIn (spent ∪ (tx.inputs.map (·.outpoint)).toFinset) txs

theorem freshIn_concat : ∀ {txs : List Transaction} {spent : Finset OutPoint},
    FreshIn spent (txs ++ [tx]) ↔ FreshIn spent txs ∧ ∀ i ∈ tx.inputs, i.outpoint ∉ spent ∧
      ∀ t ∈ txs, i.outpoint ∉ t.inputs.map (·.outpoint)
  | [], spent => by simp [FreshIn]
  | t :: txs, spent => by
    rw [List.cons_append, FreshIn, FreshIn, freshIn_concat, and_assoc]
    refine and_congr_right fun _ => and_congr_right fun _ => forall₂_congr fun i _ => ?_
    rw [Finset.mem_union, not_or, List.mem_toFinset, List.forall_mem_cons, and_assoc]

theorem checkTransactions_refused {i : Nat} {x : Reject} (hi : 0 < i) (hreg : tx.isCoinbase = false)
    (hr : checkRegular E u height tx c = .error x) :
    checkTransactions E u height i (tx :: txs) c = .error x := by
  rw [checkTransactions, if_neg (fun h => absurd h.1 (Nat.pos_iff_ne_zero.1 hi)),
    if_neg (fun h => by rw [hreg] at h; cases h.2), hreg, if_neg Bool.false_ne_true, hr]

theorem checkTransactions_next {i : Nat} (hi : 0 < i) (hreg : tx.isCoinbase = false)
    (hr : checkRegular E u height tx c = .ok c') :
    checkTransactions E u height i (tx :: txs) c = checkTransactions E u height (i + 1) txs
      { c' with created := recordOutputs (tx.txid E) 0 tx.outputs c'.created } := by
  rw [checkTransactions, if_neg (fun h => absurd h.1 (Nat.pos_iff_ne_zero.1 hi)),
    if_neg (fun h => by rw [hreg] at h; cases h.2), hreg, if_neg Bool.false_ne_true, hr]

/-- Payable transactions that spend different outputs pass the loop exactly when all of them fit;
their fees are summed up. -/
theorem checkTransactions_payable : ∀ {txs : List Transaction} {i : Nat} {c : TxCheck}, 0 < i →
    (∀ tx ∈ txs, Payable E u height tx) → FreshIn c.spent txs →
      ((∃ c', checkTransactions E u height i txs c = .ok c') ↔ ∀ tx ∈ txs, Fits u tx) ∧
        ∀ c', checkTransactions E u height i txs c = .ok c' →
          c'.totalFees = (txs.map u.feeOf).foldl satAdd c.totalFees
  | [], i, c, _, _, _ => by
    refine ⟨by simp [checkTransactions], fun c' h => ?_⟩
    cases h
    rfl
  | tx :: txs, i, c, hi, hp, hfresh => by
    obtain ⟨hnew, hrest⟩ := hfresh
    have hpt := hp tx List.mem_cons_self
    by_cases hf : Fits u tx
    · rw [checkTransactions_next hi hpt.regular (checkRegular_fits hpt hf hnew)]
      obtain ⟨hiff, hfees⟩ := checkTransactions_payable (c :=
        { spent := c.spent ∪ (tx.inputs.map (·.outpoint)).toFinset
          created := recordOutputs (tx.txid E) 0 tx.outputs c.created
          totalFees := satAdd c.totalFees (u.feeOf tx) }) (Nat.succ_pos i)
        (fun t ht => hp t (List.mem_cons_of_mem _ ht)) hrest
      rw [hiff, List.forall_mem_cons]
      exact ⟨⟨fun h => ⟨hf, h⟩, fun h => h.2⟩, hfees⟩
    · cases hr : checkRegular E u height tx c with
      | error x =>
        rw [checkTransactions_refused hi hpt.regular hr]
        refine ⟨⟨fun h => ?_, fun h => absurd (h tx List.mem_cons_self) hf⟩, fun c' h => ?_⟩
        · obtain ⟨c', h⟩ := h
          cases h
        · cases h
      | ok c' => exact absurd (fits_of_checkRegular hpt hr) hf

/-- **A block of a coinbase and payable transactions that spend different outputs** validates
exactly when all of them fit and the coinbase is within the cap. -/
theorem validate_payable_iff {b : Block} {cb : Transaction} (ht : b.transactions = cb :: txs)
    (hcb : cb.isCoinbase = true) (hm : b.validateMerkleRoot E = true)
    (hp : ∀ tx ∈ txs, Payable E u b.header.blueScore tx) (hfresh : FreshIn ∅ txs) :
    validateBlockTransactions E b u = .ok () ↔ (∀ tx ∈ txs, Fits u tx) ∧
      cb.totalOutputAmount.zents ≤
        satAdd (b.reward E) (Saturating.sum u64Max (txs.map u.feeOf)) := by
  -- the coinbase only leaves its outputs behind
  let c₀ : TxCheck := ⟨∅, recordOutputs (cb.txid E) 0 cb.outputs ∅, 0⟩
  obtain ⟨hiff, hfees⟩ := checkTransactions_payable (c := c₀) (Nat.succ_pos 0) hp hfresh
  have hstep : checkTransactions E u b.header.blueScore 0 b.transactions .start =
      checkTransactions E u b.header.blueScore 1 txs c₀ := by
    rw [ht, checkTransactions, if_neg (fun h => h.2 hcb), if_neg (fun h => absurd h.1 (lt_irrefl 0)),
      hcb]
    rfl
  unfold validateBlockTransactions
  rw [if_neg (not_not.2 hm), ← hiff]
  simp only [hstep, Block.coinbase?_cons ht hcb]
  cases hc : checkTransactions E u b.header.blueScore 1 txs c₀ with
  | error x =>
    refine ⟨fun h => ?_, fun h => ?_⟩
    · cases h
    · obtain ⟨c', h⟩ := h.1
      cases h
  | ok c' =>
    have hsum : c'.totalFees = Saturating.sum u64Max (txs.map u.feeOf) := hfees c' hc
    simp only [hsum, Block.reward]
    by_cases hle : cb.totalOutputAmount.zents ≤ satAdd (E.emission.blockReward
        b.header.blueScore).zents (Saturating.sum u64Max (txs.map u.feeOf))
    · rw [if_neg (Nat.not_lt.2 hle)]
      exact ⟨fun _ => ⟨⟨c', rfl⟩, hle⟩, fun _ => rfl⟩
    · rw [if_pos (Nat.not_le.1 hle)]
      refine ⟨fun h => ?_, fun h => absurd h.2 hle⟩
      cases h

end Zentra

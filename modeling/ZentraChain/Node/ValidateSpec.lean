import ZentraChain.Core.UtxoUndo
import ZentraChain.Node.Validate

/-!
# What a validated block satisfies

* `validateBlockHeader_iff`: the checks of a header, as `Header.Checked`.
* `checkInputs_ok`, `checkTransactions_cons_ok`: what a passed step of the loops says, as
  `InputsOk` and `TxOk`.
* `validateBlockTransactions_ok`: a validated block passed the loop and has a coinbase within the
  saturating cap.
* `validate_applyBlock`: a validated block applies, so a connected block is never applied half way.
-/

namespace Zentra

variable {E : Env} {u w : UtxoSet} {height : Nat} {p : OutPoint} {tx : Transaction}
  {txs : List Transaction}
  {created : Finmap fun _ : OutPoint => Amount × Address}

/-! ## Headers -/

/-- What the checks of a header say. -/
structure Header.Checked (E : Env) (d : Dag) (now : Nat) (h : Header) : Prop where
  basic : h.validateBasic = .ok ()
  pow : verifyBlockPow E h = .ok ()
  time : h.timestamp ≤ satAdd now maxFutureMs
  bits : h.bits = d.calculateExpectedDifficulty E.network h.parents h.laneId
  median : ∀ mtp ∈ d.medianTimePast h.parents, mtp < h.timestamp

theorem validateBlockHeader_iff {d : Dag} {now : Nat} {h : Header} :
    validateBlockHeader E d now h = .ok () ↔ h.Checked E d now := by
  unfold validateBlockHeader
  constructor
  · intro hv
    split at hv
    · cases hv
    · rename_i hbasic
      split at hv
      · cases hv
      · rename_i hpow
        dsimp only at hv
        split_ifs at hv with htime hbits
        refine ⟨hbasic, hpow, Nat.not_lt.1 htime, not_not.1 hbits, fun mtp hm => ?_⟩
        rw [Option.mem_def] at hm
        rw [hm] at hv
        by_contra hle
        exact absurd hv (by simp [Nat.not_lt.1 hle])
  · rintro ⟨hbasic, hpow, htime, hbits, hmedian⟩
    rw [hbasic]
    simp only [hpow, if_neg (Nat.not_lt.2 htime), if_neg (not_not.2 hbits)]
    cases hm : d.medianTimePast h.parents with
    | none => rfl
    | some mtp => simp only [if_neg (Nat.not_le.2 (hmedian mtp hm))]

/-! ## Inputs -/

/-- The exact value of an input, as `resolveInput` finds it. -/
def inputValue (u : UtxoSet) (created : Finmap fun _ : OutPoint => Amount × Address)
    (p : OutPoint) : Nat :=
  match u.getUtxo p with
  | some e => e.amount.zents
  | none => ((created.lookup p).map (·.1.zents)).getD 0

/-- An input is in the set, and mature there, or was created earlier in the block. -/
def InputFound (u : UtxoSet) (height : Nat)
    (created : Finmap fun _ : OutPoint => Amount × Address) (p : OutPoint) : Prop :=
  (∃ e, u.getUtxo p = some e ∧
    (e.isCoinbase = true → satAdd e.blockHeight coinbaseMaturity ≤ height)) ∨
  (u.getUtxo p = none ∧ ∃ va, created.lookup p = some va)

/-- What the input loop says of the outpoints `ps` it went through. -/
structure InputsOk (u : UtxoSet) (height : Nat)
    (created : Finmap fun _ : OutPoint => Amount × Address) (ps : List OutPoint)
    (spent spent' : Finset OutPoint) : Prop where
  nodup : ps.Nodup
  fresh : ∀ p ∈ ps, p ∉ spent
  found : ∀ p ∈ ps, InputFound u height created p
  spent : ∀ p, p ∈ spent' ↔ p ∈ spent ∨ p ∈ ps

theorem resolveInput_ok {va : Amount × Address}
    (h : resolveInput u height created p = .ok va) :
    InputFound u height created p ∧ inputValue u created p = va.1.zents := by
  unfold resolveInput at h
  unfold InputFound inputValue
  cases hu : u.getUtxo p with
  | some e =>
    rw [hu] at h
    simp only at h
    split at h
    · cases h
    · rename_i hm
      cases h
      exact ⟨.inl ⟨e, rfl, fun hc => Nat.not_lt.1 fun hlt => hm ⟨hc, hlt⟩⟩, rfl⟩
  | none =>
    rw [hu] at h
    simp only at h
    split at h
    · rename_i va' hva
      cases h
      exact ⟨.inr ⟨rfl, va, hva⟩, by simp [hva]⟩
    · cases h

theorem checkInputs_ok : ∀ {is : List TxInput} {spent spent' : Finset OutPoint} {s s' : Nat},
    checkInputs E u height created is spent s = .ok (spent', s') →
      InputsOk u height created (is.map (·.outpoint)) spent spent' ∧
        s' ≤ s + ((is.map (·.outpoint)).map (inputValue u created)).sum
  | [], spent, spent', s, s', h => by
    cases h
    exact ⟨⟨List.nodup_nil, by simp, by simp, by simp⟩, by simp⟩
  | i :: is, spent, spent', s, s', h => by
    simp only [checkInputs] at h
    split at h
    · cases h
    · rename_i hns
      split at h
      · cases h
      · rename_i val owner hr
        split at h
        · cases h
        · obtain ⟨hok, hsum⟩ := checkInputs_ok h
          have hf := (resolveInput_ok hr).1
          have hv : inputValue u created i.outpoint = val.zents := (resolveInput_ok hr).2
          refine ⟨⟨List.nodup_cons.2 ⟨fun hm => ?_, hok.nodup⟩, ?_, ?_, fun p => ?_⟩, ?_⟩
          · exact hok.fresh _ hm (Finset.mem_insert_self _ _)
          · intro p hp
            rcases List.mem_cons.1 hp with rfl | hp
            · exact hns
            · exact fun hm => hok.fresh p hp (Finset.mem_insert_of_mem hm)
          · intro p hp
            rcases List.mem_cons.1 hp with rfl | hp
            · exact hf
            · exact hok.found p hp
          · rw [hok.spent, Finset.mem_insert, List.map_cons, List.mem_cons]
            tauto
          · have := satAdd_le s val.zents
            rw [List.map_cons, List.map_cons, List.sum_cons, hv]
            omega

/-! ## Transactions -/

/-- The exact value of a transaction's inputs. -/
def txInputs (u : UtxoSet) (created : Finmap fun _ : OutPoint => Amount × Address)
    (tx : Transaction) : Nat := (tx.spent.map (inputValue u created)).sum

/-- The total that the fee rule charges: nothing for a coinbase. -/
def chargedTotal (tx : Transaction) : Nat :=
  if tx.isCoinbase then 0 else tx.totalOutputAmount.zents

/-- What a passed transaction says, from the running state `c` to `c'`. -/
structure TxOk (E : Env) (u : UtxoSet) (height : Nat) (tx : Transaction) (c c' : TxCheck) :
    Prop where
  inputs : InputsOk u height c.created tx.spent c.spent c'.spent
  created : c'.created = recordOutputs (tx.txid E) 0 tx.outputs c.created
  fees : c'.totalFees + chargedTotal tx ≤ c.totalFees + txInputs u c.created tx

theorem checkRegular_ok {c c' : TxCheck} (hc : tx.isCoinbase = false)
    (h : checkRegular E u height tx c = .ok c') :
    InputsOk u height c.created tx.spent c.spent c'.spent ∧ c'.created = c.created ∧
      c'.totalFees + chargedTotal tx ≤ c.totalFees + txInputs u c.created tx := by
  unfold checkRegular at h
  split at h
  · cases h
  · split at h
    · cases h
    · rename_i spent inSum hi
      simp only at h
      split at h
      · cases h
      · rename_i hle
        cases h
        obtain ⟨hok, hsum⟩ := checkInputs_ok hi
        have hfee := satAdd_le c.totalFees (inSum - tx.totalOutputAmount.zents)
        rw [txInputs, Transaction.spent_regular hc]
        refine ⟨hok, rfl, ?_⟩
        simp only [chargedTotal, hc, Bool.false_eq_true, if_false]
        omega

/-- A passed list of transactions: its first one passed, and was a coinbase exactly when first in
the block; then the rest passed. -/
theorem checkTransactions_cons_ok {i : Nat} {c c'' : TxCheck}
    (h : checkTransactions E u height i (tx :: txs) c = .ok c'') :
    ∃ c', TxOk E u height tx c c' ∧ checkTransactions E u height (i + 1) txs c' = .ok c'' ∧
      (tx.isCoinbase = true ↔ i = 0) := by
  simp only [checkTransactions] at h
  split at h
  · cases h
  · rename_i h1
    split at h
    · cases h
    · rename_i h2
      cases hc : tx.isCoinbase with
      | true =>
        rw [hc, if_pos rfl] at h
        have hi : i = 0 := by
          rw [hc] at h2
          simp only [and_true] at h2
          omega
        refine ⟨_, ⟨?_, rfl, ?_⟩, h, by simp [hi]⟩
        · rw [Transaction.spent_coinbase hc]
          exact ⟨List.nodup_nil, by simp, by simp, by simp⟩
        · simp [chargedTotal, hc]
      | false =>
        rw [hc, if_neg Bool.false_ne_true] at h
        split at h
        · cases h
        · rename_i c' hr
          obtain ⟨hin, hcr, hfee⟩ := checkRegular_ok hc hr
          refine ⟨{ c' with created := recordOutputs (tx.txid E) 0 tx.outputs c'.created },
            ⟨hin, by rw [hcr], hfee⟩, h, ?_⟩
          rw [hc] at h1
          simpa using h1

theorem checkTransactions_regular : ∀ {txs : List Transaction} {i : Nat} {c c' : TxCheck},
    0 < i → checkTransactions E u height i txs c = .ok c' → ∀ tx ∈ txs, tx.isCoinbase = false
  | [], _, _, _, _, _ => by simp
  | tx :: txs, i, c, c', hi, h => by
    obtain ⟨c₁, -, hrest, hcb⟩ := checkTransactions_cons_ok h
    intro t ht
    rcases List.mem_cons.1 ht with rfl | ht
    · exact Bool.eq_false_iff.2 fun hc => absurd (hcb.1 hc) (by omega)
    · exact checkTransactions_regular (Nat.succ_pos i) hrest t ht

/-! ## Blocks -/

/-- The coinbase comes first and is the only one. -/
def Block.CoinbaseFirst (b : Block) : Prop :=
  ∃ cb txs, b.transactions = cb :: txs ∧ cb.isCoinbase = true ∧
    ∀ tx ∈ txs, tx.isCoinbase = false

theorem Block.coinbase?_cons {b : Block} {cb : Transaction} {txs : List Transaction}
    (h : b.transactions = cb :: txs) (hc : cb.isCoinbase = true) : b.coinbase? = some cb := by
  simp [coinbase?, h, hc]

theorem validateBlockTransactions_ok {b : Block}
    (h : validateBlockTransactions E b u = .ok ()) :
    ∃ c, checkTransactions E u b.header.blueScore 0 b.transactions .start = .ok c ∧
      ∀ cb, b.coinbase? = some cb →
        cb.totalOutputAmount.zents ≤ satAdd (b.reward E) c.totalFees := by
  unfold validateBlockTransactions at h
  split at h
  · cases h
  · simp only at h
    split at h
    · cases h
    · rename_i c hc
      refine ⟨c, hc, fun cb hcb => ?_⟩
      rw [hcb] at h
      simp only at h
      split at h
      · cases h
      · rename_i hle
        exact Nat.not_lt.1 hle

/-- A validated block is empty or starts with its only coinbase. -/
theorem validate_coinbaseFirst {b : Block} (h : validateBlockTransactions E b u = .ok ())
    (hne : b.transactions ≠ []) : b.CoinbaseFirst := by
  obtain ⟨c, hc, -⟩ := validateBlockTransactions_ok h
  cases ht : b.transactions with
  | nil => exact absurd ht hne
  | cons cb txs =>
    rw [ht] at hc
    obtain ⟨c₁, -, hrest, hcb⟩ := checkTransactions_cons_ok hc
    exact ⟨cb, txs, ht, hcb.2 rfl, checkTransactions_regular (Nat.succ_pos 0) hrest⟩

/-! ## A validated block applies -/

/-- Removing inputs that are there and are all different succeeds. -/
theorem UtxoSet.spendInputs_exists : ∀ {is : List TxInput} {w : UtxoSet},
    (is.map (·.outpoint)).Nodup → (∀ p ∈ is.map (·.outpoint), (w.getUtxo p).isSome) →
      ∃ w' es, w.spendInputs is = (w', .ok es)
  | [], w, _, _ => ⟨w, [], rfl⟩
  | i :: is, w, hnd, hin => by
    obtain ⟨hni, hnd⟩ := List.nodup_cons.1 hnd
    obtain ⟨e, he⟩ := Option.isSome_iff_exists.1 (hin i.outpoint (by simp))
    obtain ⟨w', es, hr⟩ := spendInputs_exists (w := w.erase i.outpoint) hnd fun p hp => by
      have hne : p ≠ i.outpoint := fun hpi => hni (show i.outpoint ∈ _ from hpi ▸ hp)
      rw [UtxoSet.getUtxo_erase, if_neg hne]
      exact hin p (List.mem_cons_of_mem _ hp)
    exact ⟨w', e :: es, by simp only [spendInputs, he, hr]⟩

theorem UtxoSet.applyTransaction_exists (hnd : tx.spent.Nodup)
    (hin : ∀ p ∈ tx.spent, (w.getUtxo p).isSome) (height : Nat) :
    ∃ w' d, w.applyTransaction E tx height = (w', .ok d) := by
  unfold applyTransaction
  cases hc : tx.isCoinbase with
  | true => exact ⟨_, _, rfl⟩
  | false =>
    rw [Transaction.spent_regular hc] at hnd hin
    obtain ⟨w', es, hr⟩ := spendInputs_exists hnd hin
    exact ⟨_, _, by rw [if_neg Bool.false_ne_true, hr]⟩

/-- Recording outputs changes the created outpoints only, and gives each the amount that applying
the transaction does. -/
theorem recordOutputs_addOutputs (height : Nat) (txid : Hash) (cb : Bool) (p : OutPoint) :
    ∀ (idx : Nat) (os : List TxOutput) (c : Finmap fun _ : OutPoint => Amount × Address)
      (w : UtxoSet),
      (p ∉ Transaction.standardOutpoints txid idx os →
        (recordOutputs txid idx os c).lookup p = c.lookup p) ∧
      (p ∈ Transaction.standardOutpoints txid idx os →
        ∃ v a, (recordOutputs txid idx os c).lookup p = some (v, a) ∧
          (w.addOutputs txid height cb idx os).getUtxo p = some ⟨v, a, height, cb⟩)
  | _, [], _, _ => ⟨fun _ => rfl, fun h => by cases h⟩
  | idx, .standard a v s :: os, c, w => by
    obtain ⟨h1, h2⟩ := recordOutputs_addOutputs height txid cb p (idx + 1) os
      (c.insert ⟨txid, idx⟩ (v, a)) (w.insert ⟨txid, idx⟩ ⟨v, a, height, cb⟩)
    refine ⟨fun hn => ?_, fun hm => ?_⟩
    · obtain ⟨hne, hn⟩ := not_or.1 (mt List.mem_cons.2 hn)
      rw [recordOutputs, h1 hn, Finmap.lookup_insert_ite, if_neg hne]
    · by_cases hp : p ∈ Transaction.standardOutpoints txid (idx + 1) os
      · exact h2 hp
      · obtain rfl : p = ⟨txid, idx⟩ := (List.mem_cons.1 hm).resolve_right hp
        refine ⟨v, a, ?_, ?_⟩
        · rw [recordOutputs, h1 hp, Finmap.lookup_insert_ite, if_pos rfl]
        · rw [UtxoSet.addOutputs, (UtxoSet.addOutputs_lookup _ _ _ _ _ _ _).1 hp,
            UtxoSet.getUtxo_insert, if_pos rfl]
  | idx, .burn v t :: os, c, w =>
    recordOutputs_addOutputs height txid cb p (idx + 1) os c
      { w with totalBurned := w.totalBurned.saturatingAdd v }

/-- The set an applied transaction leaves is `w` without the inputs, with the outputs added. -/
theorem UtxoSet.applyTransaction_addOutputs {w' : UtxoSet} {d : TxUndoData}
    (h : w.applyTransaction E tx height = (w', .ok d)) :
    ∃ w₁ : UtxoSet, w' = w₁.addOutputs (tx.txid E) height tx.isCoinbase 0 tx.outputs := by
  unfold applyTransaction at h
  split at h
  · cases h
  · cases h
    exact ⟨_, rfl⟩

/-- The running set `w` has every output that the check still lets a transaction spend. -/
def Spendable (u w : UtxoSet) (c : TxCheck) : Prop :=
  ∀ p, p ∉ c.spent → (u.getUtxo p).isSome ∨ (c.created.lookup p).isSome → (w.getUtxo p).isSome

theorem Spendable.start : Spendable u u .start := by
  rintro p - (h | h)
  · exact h
  · simp [TxCheck.start] at h

/-- Every input of a passed transaction is in the running set. -/
theorem Spendable.inputs {c c' : TxCheck} (h : Spendable u w c) (hok : TxOk E u height tx c c') :
    ∀ p ∈ tx.spent, (w.getUtxo p).isSome := by
  intro p hp
  refine h p (hok.inputs.fresh p hp) ?_
  rcases hok.inputs.found p hp with ⟨e, he, -⟩ | ⟨-, va, hva⟩
  · simp [he]
  · simp [hva]

theorem Spendable.step {c c' : TxCheck} {w' : UtxoSet} {d : TxUndoData} {height' : Nat}
    (h : Spendable u w c) (hok : TxOk E u height tx c c')
    (ha : w.applyTransaction E tx height' = (w', .ok d)) : Spendable u w' c' := by
  intro p hp hor
  rw [hok.inputs.spent, not_or] at hp
  have happ := UtxoSet.applyTransaction_ok ha
  by_cases hc : p ∈ tx.created E
  · obtain ⟨e, he, -⟩ := happ.new p hc
    simp [he]
  · rw [happ.keep p hc, if_neg hp.2]
    refine h p hp.1 ?_
    rwa [hok.created, (recordOutputs_addOutputs 0 _ true p 0 tx.outputs c.created w).1
      hc] at hor

theorem checkTransactions_apply (height' : Nat) : ∀ {txs : List Transaction} {i : Nat}
    {c c' : TxCheck} {w : UtxoSet}, Spendable u w c →
      checkTransactions E u height i txs c = .ok c' →
        ∃ w' ds, UtxoSet.applyTransactions E height' txs w = (w', .ok ds)
  | [], _, _, _, w, _, _ => ⟨w, [], rfl⟩
  | tx :: txs, i, c, c', w, hs, h => by
    obtain ⟨c₁, hok, hrest, -⟩ := checkTransactions_cons_ok h
    obtain ⟨w₁, d, ha⟩ := UtxoSet.applyTransaction_exists (E := E) hok.inputs.nodup
      (hs.inputs hok) height'
    obtain ⟨w', ds, hr⟩ := checkTransactions_apply height' (hs.step hok ha) hrest
    exact ⟨w', d :: ds, by simp only [UtxoSet.applyTransactions, ha, hr]⟩

/-- **A validated block applies**, with any merge blocks. -/
theorem validate_applyBlock {b : Block} (h : validateBlockTransactions E b u = .ok ())
    (merges : List Block) :
    ∃ u' undo, u.applyBlockWithMerges E b merges = (u', .ok undo) := by
  obtain ⟨c, hc, -⟩ := validateBlockTransactions_ok h
  obtain ⟨w, ds, hw⟩ := checkTransactions_apply b.header.blueScore .start hc
  exact ⟨_, _, by simp only [UtxoSet.applyBlockWithMerges, UtxoSet.applyBlock, hw]; rfl⟩

end Zentra

import ZentraChain.Core.UtxoValue
import ZentraChain.Node.Connect
import ZentraChain.Node.ValidateSpec

/-!
# Value conservation

The validation compares saturating sums of the values it looks up; applying the block moves the
entries of the running set. `claimed` and `touchedAt` are these two accounts at one outpoint, and
`claimed_le_touchedAt` compares them along the block.

* `blockInputs_le_intake`: the inputs a block claims are covered by what it spends or overwrites.
* `validate_cap`: a validated block without saturating totals pays no more than reward and inputs.
* `applyBlock_conserves_iff`: when applying a validated block conserves value.
-/

namespace Zentra

namespace Block

/-- The exact total of all outputs. -/
def outputTotal (b : Block) : Nat := (b.transactions.map (·.outputTotal)).sum

/-- The exact total of the outputs of the transactions that are not a coinbase. -/
def regularTotal (b : Block) : Nat :=
  ((b.transactions.filter (!·.isCoinbase)).map (·.outputTotal)).sum

/-- No transaction's total exceeds `u64::MAX`, so no output sum saturates. -/
def NoSaturation (b : Block) : Prop := ∀ tx ∈ b.transactions, tx.outputTotal ≤ u64Max

instance (b : Block) : Decidable b.NoSaturation := inferInstanceAs (Decidable (∀ tx ∈ _, _))

theorem outputTotal_eq {b : Block} (h : b.CoinbaseFirst) :
    b.outputTotal = b.coinbaseTotal + b.regularTotal := by
  obtain ⟨cb, txs, ht, hcb, hreg⟩ := h
  have hf : (cb :: txs).filter (!·.isCoinbase) = txs := by
    rw [List.filter_cons_of_neg (by simp [hcb])]
    exact List.filter_eq_self.2 fun tx htx => by simp [hreg tx htx]
  rw [outputTotal, coinbaseTotal, coinbase?_cons ht hcb, regularTotal, ht, hf]
  rfl

theorem standardTotal_add_burnTotal (b : Block) :
    (b.transactions.map (·.standardTotal)).sum + b.burnTotal = b.outputTotal := by
  unfold burnTotal outputTotal
  rw [← List.sum_map_add]
  exact congrArg List.sum (List.map_congr_left fun tx _ => tx.standardTotal_add_burnTotal)

end Block

/-- The exact value of the inputs of some transactions, as the validation looks them up. -/
def blockInputs (E : Env) (u : UtxoSet) : List Transaction →
    (Finmap fun _ : OutPoint => Amount × Address) → Nat
  | [], _ => 0
  | tx :: txs, created =>
    txInputs u created tx + blockInputs E u txs (recordOutputs (tx.txid E) 0 tx.outputs created)

variable {E : Env} {u w : UtxoSet} {height : Nat} {p : OutPoint} {tx : Transaction}
  {txs : List Transaction} {created : Finmap fun _ : OutPoint => Amount × Address}

/-! ## Fees -/

/-- The saturating fees are covered by exact inputs. -/
theorem checkTransactions_fees : ∀ {txs : List Transaction} {i : Nat} {c c' : TxCheck},
    checkTransactions E u height i txs c = .ok c' →
      c'.totalFees + (txs.map chargedTotal).sum ≤ c.totalFees + blockInputs E u txs c.created
  | [], _, _, _, h => by cases h; exact Nat.le_refl _
  | tx :: txs, i, c, c', h => by
    obtain ⟨c₁, hok, hrest, -⟩ := checkTransactions_cons_ok h
    have ih := checkTransactions_fees hrest
    have hfee := hok.fees
    rw [hok.created] at ih
    simp only [List.map_cons, List.sum_cons, blockInputs]
    omega

/-- **A validated block without saturating totals** pays out at most the reward and its inputs. -/
theorem validate_cap {b : Block} (h : validateBlockTransactions E b u = .ok ())
    (hns : b.NoSaturation) : b.outputTotal ≤ b.reward E + blockInputs E u b.transactions ∅ := by
  obtain ⟨c, hc, hcap⟩ := validateBlockTransactions_ok h
  by_cases hne : b.transactions = []
  · simp [Block.outputTotal, hne]
  obtain ⟨cb, txs, ht, hcb, hreg⟩ := validate_coinbaseFirst h hne
  have hfees := checkTransactions_fees hc
  have hcb' := hcap cb (Block.coinbase?_cons ht hcb)
  have hsat := satAdd_le (b.reward E) c.totalFees
  have hexact : ∀ tx ∈ b.transactions, tx.totalOutputAmount.zents = tx.outputTotal :=
    fun tx htx => by rw [tx.totalOutputAmount_zents, Nat.min_eq_left (hns tx htx)]
  -- the fee rule charges the exact totals of all but the coinbase
  have hcharged : (b.transactions.map chargedTotal).sum = (txs.map (·.outputTotal)).sum := by
    rw [ht, List.map_cons, List.sum_cons, chargedTotal, if_pos hcb, Nat.zero_add]
    refine congrArg List.sum (List.map_congr_left fun tx htx => ?_)
    rw [chargedTotal, hreg tx htx, if_neg Bool.false_ne_true,
      hexact tx (ht ▸ List.mem_cons_of_mem _ htx)]
  have hout : b.outputTotal = cb.outputTotal + (txs.map (·.outputTotal)).sum := by
    rw [Block.outputTotal, ht, List.map_cons, List.sum_cons]
  rw [hexact cb (ht ▸ List.mem_cons_self)] at hcb'
  simp only [TxCheck.start] at hfees
  omega

/-! ## Claimed and touched values at one outpoint -/

/-- What the validation counts for `p`. -/
def claimed (E : Env) (u : UtxoSet) : List Transaction →
    (Finmap fun _ : OutPoint => Amount × Address) → OutPoint → Nat
  | [], _, _ => 0
  | tx :: txs, created, p =>
    (if p ∈ tx.spent then inputValue u created p else 0) +
      claimed E u txs (recordOutputs (tx.txid E) 0 tx.outputs created) p

/-- What the transactions spend or overwrite at `p`. -/
def touchedAt (E : Env) (height : Nat) : List Transaction → UtxoSet → OutPoint → Nat
  | [], _, _ => 0
  | tx :: txs, w, p =>
    (if p ∈ tx.spent ∨ p ∈ tx.created E then w.valueAt p else 0) +
      touchedAt E height txs (w.applyTransaction E tx height).1 p

/-- The value the validation would count for `p` next is in the running set but for `k`, which
earlier transactions have taken there; unless `p` is spent. -/
def Covered (u w : UtxoSet) (c : TxCheck) (p : OutPoint) (k : Nat) : Prop :=
  p ∈ c.spent ∨ inputValue u c.created p ≤ w.valueAt p + k

/-- The invariant at one outpoint: what is claimed was taken from the running set. -/
theorem claimed_le_touchedAt : ∀ {txs : List Transaction} {i k height' : Nat} {c c' : TxCheck}
    {w w' : UtxoSet} {ds : List TxUndoData},
    checkTransactions E u height i txs c = .ok c' →
    UtxoSet.applyTransactions E height' txs w = (w', .ok ds) → Covered u w c p k →
      claimed E u txs c.created p ≤ touchedAt E height' txs w p + k
  | [], _, _, _, _, _, _, _, _, _, _, _ => Nat.zero_le _
  | tx :: txs, i, k, height', c, c', w, w', ds, h, ha, hcov => by
    obtain ⟨c₁, hok, hrest, -⟩ := checkTransactions_cons_ok h
    obtain ⟨w₁, d, ds', ha₁, harest, -⟩ := UtxoSet.applyTransactions_cons_ok ha
    have happ := UtxoSet.applyTransaction_ok ha₁
    have ih := fun k => claimed_le_touchedAt (k := k) hrest harest
    rw [hok.created] at ih
    simp only [claimed, touchedAt, ha₁]
    by_cases hs : p ∈ tx.spent
    · -- counted now, and never again
      have hspent : p ∈ c₁.spent := (hok.inputs.spent p).2 (.inr hs)
      have hv := hcov.resolve_left (hok.inputs.fresh p hs)
      have := ih 0 (.inl hspent)
      rw [if_pos hs, if_pos (.inl hs)]
      omega
    · rw [if_neg hs, Nat.zero_add]
      rcases hcov with hsp | hv
      · have := ih k (.inl ((hok.inputs.spent p).2 (.inl hsp)))
        omega
      · have hrec := recordOutputs_addOutputs height' (tx.txid E) tx.isCoinbase p 0
          tx.outputs c.created
        by_cases hc : p ∈ tx.created E
        · rw [if_pos (.inr hc)]
          cases hu : u.getUtxo p with
          | some e =>
            -- the validation still counts the entry of `u`, which is overwritten here
            have hsame : inputValue u c₁.created p = inputValue u c.created p := by
              simp only [inputValue, hu]
            have := ih (k + w.valueAt p) (.inr (by rw [hsame]; omega))
            omega
          | none =>
            -- from here on it counts the new output
            obtain ⟨w₀, hw₀⟩ := UtxoSet.applyTransaction_addOutputs ha₁
            obtain ⟨v, a, h1, h2⟩ := (hrec w₀).2 hc
            rw [← hw₀] at h2
            have hnew : inputValue u c₁.created p = w₁.valueAt p := by
              rw [UtxoSet.valueAt_some h2, hok.created]
              simp only [inputValue, hu, h1, Option.map_some, Option.getD_some]
            have := ih 0 (.inr (by omega))
            omega
        · rw [if_neg (not_or.2 ⟨hs, hc⟩), Nat.zero_add]
          have hval : w₁.valueAt p = w.valueAt p :=
            UtxoSet.valueAt_congr (by rw [happ.keep p hc, if_neg hs])
          have hsame : inputValue u c₁.created p = inputValue u c.created p := by
            simp only [inputValue, hok.created, (hrec w).1 hc]
          exact ih k (.inr (by rw [hsame, hval]; exact hv))

/-! ## Sums over the outpoints -/

/-- The sum over any set of outpoints that has all of the spent ones. -/
theorem sum_claimed {S : Finset OutPoint} : ∀ {txs : List Transaction} {i : Nat} {c c' : TxCheck},
    checkTransactions E u height i txs c = .ok c' → (∀ tx ∈ txs, ∀ p ∈ tx.spent, p ∈ S) →
      ∑ p ∈ S, claimed E u txs c.created p = blockInputs E u txs c.created
  | [], _, _, _, _, _ => by simp [claimed, blockInputs]
  | tx :: txs, i, c, c', h, hS => by
    obtain ⟨c₁, hok, hrest, -⟩ := checkTransactions_cons_ok h
    have ih := sum_claimed hrest fun t ht => hS t (List.mem_cons_of_mem _ ht)
    have hsub : S.filter (· ∈ tx.spent) = tx.spent.toFinset := by
      ext p
      simpa using hS tx List.mem_cons_self p
    simp only [claimed, blockInputs, Finset.sum_add_distrib, ← hok.created, ih]
    rw [← Finset.sum_filter, hsub, List.sum_toFinset _ hok.inputs.nodup, txInputs]

/-- The sum over any set of outpoints that has all of the spent and created ones. -/
theorem sum_touchedAt (height : Nat) {S : Finset OutPoint} : ∀ {txs : List Transaction} {w : UtxoSet},
    (∀ tx ∈ txs, ∀ p, p ∈ tx.spent ∨ p ∈ tx.created E → p ∈ S) →
      ∑ p ∈ S, touchedAt E height txs w p = UtxoSet.intake E height txs w
  | [], _, _ => by simp [touchedAt, UtxoSet.intake]
  | tx :: txs, w, hS => by
    have ih := sum_touchedAt height (w := (w.applyTransaction E tx height).1)
      fun t ht => hS t (List.mem_cons_of_mem _ ht)
    have hsub : S.filter (fun p => p ∈ tx.spent ∨ p ∈ tx.created E) =
        (tx.spent ++ tx.created E).toFinset := by
      ext p
      simpa using hS tx List.mem_cons_self p
    simp only [touchedAt, UtxoSet.intake, Finset.sum_add_distrib, ih]
    rw [← Finset.sum_filter, hsub, UtxoSet.touched]

/-- **The inputs a block claims** are covered by what it spends or overwrites. -/
theorem blockInputs_le_intake {c c' : TxCheck} {w' : UtxoSet} {ds : List TxUndoData} {i : Nat}
    (h : checkTransactions E u height i txs c = .ok c')
    (ha : UtxoSet.applyTransactions E height txs w = (w', .ok ds))
    (hcov : ∀ p, Covered u w c p 0) :
    blockInputs E u txs c.created ≤ UtxoSet.intake E height txs w := by
  -- all outpoints the transactions mention
  have hmem : ∀ tx ∈ txs, ∀ p, p ∈ tx.spent ∨ p ∈ tx.created E →
      p ∈ (txs.flatMap fun tx => tx.spent ++ tx.created E).toFinset := by
    intro tx htx p hp
    rw [List.mem_toFinset, List.mem_flatMap]
    exact ⟨tx, htx, List.mem_append.2 hp⟩
  rw [← sum_claimed h fun tx htx p hp => hmem tx htx p (.inl hp),
    ← sum_touchedAt height hmem]
  exact Finset.sum_le_sum fun p _ => claimed_le_touchedAt h ha (hcov p)

theorem Covered.start (u : UtxoSet) (p : OutPoint) : Covered u u .start p 0 := by
  right
  simp only [inputValue, TxCheck.start, UtxoSet.valueAt, Finmap.weightAt, UtxoSet.getUtxo]
  cases u.utxos.lookup p <;> simp

/-! ## Conservation -/

/-- The cap of `validate_block_transactions` in unbounded integers: all outputs, the coinbase's
included, are covered by the reward and by what the block spends or overwrites. -/
def ExactCap (E : Env) (u : UtxoSet) (b : Block) : Prop :=
  b.outputTotal ≤ b.reward E + UtxoSet.intake E b.header.blueScore b.transactions u

theorem validate_exactCap {b : Block} (h : validateBlockTransactions E b u = .ok ())
    (hns : b.NoSaturation) : ExactCap E u b := by
  obtain ⟨c, hc, -⟩ := validateBlockTransactions_ok h
  obtain ⟨w, ds, hw⟩ := checkTransactions_apply b.header.blueScore .start hc
  exact Nat.le_trans (validate_cap h hns)
    (Nat.add_le_add_left (blockInputs_le_intake hc hw (Covered.start u)) _)

/-- Applying a block conserves value exactly under the exact cap. -/
theorem conserves_iff_exactCap {b : Block} {u' : UtxoSet} {ds : List TxUndoData}
    (h : UtxoSet.applyTransactions E b.header.blueScore b.transactions u = (u', .ok ds)) :
    u'.value + b.burnTotal ≤ u.value + b.reward E ↔ ExactCap E u b := by
  have hv := UtxoSet.applyTransactions_value h
  have hsb := b.standardTotal_add_burnTotal
  unfold ExactCap
  omega

namespace Sample

end Sample

end Zentra

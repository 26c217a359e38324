import ZentraChain.Consensus.Miner
import ZentraChain.Lib.Wrapping
import ZentraChain.Node.Converge
import ZentraChain.Node.Payable

/-!
# The mining worker (`node.rs`)

One round of the worker: it takes all tips as parents, selects transactions of the mempool against
the UTXO set, and asks the miner for a template.

* `template_valid_iff`: the template passes the structural checks as long as every accepted block
  left few enough other tips.
* `selectTransactions_spec`: what is selected, with which fees.
* `assembled_validates_iff`: when the template's transactions validate.
-/

namespace Zentra

/-- The plain sum of the output amounts, which wraps. -/
def Transaction.plainOutputSum (tx : Transaction) : Amount :=
  ⟨Wrapping.sum (2 ^ 64) (tx.outputs.map (·.amount.zents)), by
    rw [Wrapping.sum_eq, u64Max]
    exact Nat.le_sub_one_of_lt (Nat.mod_lt _ (by decide))⟩

/-! ## Selection -/

/-- What the selection has come to. -/
structure Selection where
  mempool : Mempool
  spent : Finset OutPoint
  chosen : List Transaction
  feeSum : Amount

section
variable (E : Env) (u : UtxoSet) (height : Nat)

/-- The input loop: the saturating sum of the inputs, if all are good. -/
def selectInputs (spent : Finset OutPoint) : List TxInput → Amount → Option Amount
  | [], inSum => some inSum
  | i :: is, inSum =>
    if i.outpoint ∈ spent then none
    else
      match u.getUtxo i.outpoint with
      | some e =>
        if (¬e.isCoinbase ∨ height ≥ satAdd e.blockHeight coinbaseMaturity) ∧
            Block.addressOf E i.publicKey = e.address then
          selectInputs spent is (inSum.saturatingAdd e.amount)
        else none
      | none => none

/-- One candidate: chosen, or evicted from the mempool. -/
def selectStep (s : Selection) (tx : Transaction) : Selection :=
  let evicted := { s with mempool := s.mempool.removeTransaction (tx.txid E) }
  if tx.isCoinbase then evicted
  else
    match tx.verifySignatures E with
    | .error _ => evicted
    | .ok _ =>
      match selectInputs E u height s.spent tx.inputs .zero with
      | none => evicted
      | some inSum =>
        let outSum := tx.plainOutputSum
        if outSum.zents > inSum.zents then evicted
        else
          { s with
            spent := tx.inputs.foldl (fun spent i => insert i.outpoint spent) s.spent
            feeSum := s.feeSum.saturatingAdd (inSum.saturatingSub outSum)
            chosen := s.chosen ++ [tx] }

/-- The candidates in their order, until ten are chosen. -/
def selectLoop : List Transaction → Selection → Selection
  | [], s => s
  | tx :: txs, s =>
    let s := selectStep E u height s tx
    if s.chosen.length ≥ 10 then s else selectLoop txs s

/-- The transactions of a template at this height, and the mempool without what does not fit. -/
def selectTransactions (m : Mempool) : Selection :=
  selectLoop E u height (m.getTransactionsForBlock 20) ⟨m, ∅, [], .zero⟩

end

/-- A round of the mining worker, at time `now`: its template, and the node it leaves. -/
def Node.mineTemplate (E : Env) (n : Node) (now : Nat) (miner : Miner) : Node × Block :=
  let parents := n.dag.tips
  let gd := GhostdagManager.defaultK.processBlock n.dag.getGhostdag parents
  let s := selectTransactions E n.utxo gd.blueScore n.mempool
  let bits := n.difficulty.getNextDifficulty miner.lane
  ({ n with mempool := s.mempool },
    miner.buildBlockTemplate E now parents s.chosen bits gd.blueScore gd.blueWork s.feeSum
      E.emission)

/-! ## The structure of a template -/

/-- How many tips a block leaves besides itself. -/
def Dag.tipsLeft (d : Dag) (b : Block) : Nat :=
  (d.tips.filter fun t => t ∉ b.header.parents).length

namespace Node

variable {E : Env} {n n' : Node} {b : Block} {now : Nat}

theorem mineTemplate_valid_iff (miner : Miner) : (n.mineTemplate E now miner).2.header.validateBasic =
    .ok () ↔ n.dag.tips.length ≤ maxBlockParents := Miner.validateBasic_template

theorem tips_length_extend (E : Env) (d : Dag) (b : Block) :
    (d.extend E b).tips.length = d.tipsLeft b + 1 := by
  rw [Dag.tips_extend, List.length_append]
  rfl

/-- The tips are those that the last block left, and the block. -/
theorem Move.tips_length (hm : Move E n n')
    (h : n.dag.tips.length = 1 ∨ ∃ (s : NodeState) (b : Block), .inserting s b ∈ n.log ∧
      n.dag.tips.length = s.dag.tipsLeft b + 1) :
    n'.dag.tips.length = 1 ∨ ∃ (s : NodeState) (b : Block), .inserting s b ∈ n'.log ∧
      n'.dag.tips.length = s.dag.tipsLeft b + 1 := by
  cases hm with
  | blind hb =>
    rw [hb.dag, hb.log]
    exact h
  | aside _ _ =>
    exact .inr ⟨n.toNodeState, _, List.mem_cons_self, tips_length_extend E n.dag _⟩
  | reorganized _ _ hr =>
    have hl := reorganize_eq_ledger hr
    refine .inr ⟨n.toNodeState, _, hl.log.subset List.mem_cons_self, ?_⟩
    obtain ⟨m, u, evs, rfl, -⟩ := hl
    exact tips_length_extend E n.dag _

theorem Reachable.tips_length (hn : n.Reachable E) :
    n.dag.tips.length = 1 ∨ ∃ (s : NodeState) (b : Block), .inserting s b ∈ n.log ∧
      n.dag.tips.length = s.dag.tipsLeft b + 1 := by
  have hm := hn.moves
  clear hn
  induction hm with
  | refl =>
    rw [(new_empty E).1, Dag.tips_first]
    exact .inl rfl
  | tail _ hm ih => exact hm.tips_length ih

/-- **The worker's template is valid** in every state of a run whose blocks all leave fewer than
ten other tips, and after a block exactly when it does. -/
theorem template_valid_iff (E : Env) (n : Node) (hn : n.Reachable E) :
    ((∀ (s : NodeState) (b : Block), .inserting s b ∈ n.log →
        s.dag.tipsLeft b < maxBlockParents) →
      ∀ now miner, (n.mineTemplate E now miner).2.header.validateBasic = .ok ()) ∧
    ∀ now b, Enters E now n b → ∀ now' miner,
      ((connectBlock E now n b).2.mineTemplate E now' miner).2.header.validateBasic = .ok () ↔
        n.dag.tipsLeft b < maxBlockParents := by
  refine ⟨fun hleft now miner => (mineTemplate_valid_iff miner).2 ?_, fun now b he now' miner => ?_⟩
  · rcases hn.tips_length with h1 | ⟨s, b, hin, hlen⟩
    · rw [h1]
      decide
    · rw [hlen]
      exact hleft s b hin
  · obtain ⟨u, hu⟩ := he.dag
    rw [mineTemplate_valid_iff, hu]
    show (n.dag.extend E b).tips.length ≤ _ ↔ _
    rw [tips_length_extend]
    rfl

end Node

namespace Sample

/-- Eleven blocks on the genesis block. -/
def sides : List Block :=
  (List.range 11).map fun k => block (k + 1) .gpu [genesisHash] 1 1 [coinbase (k + 1) [subsidy]]

end Sample

open Sample in
/-- Eleven side blocks are eleven tips. -/
theorem template_too_many_parents :
    ¬∀ n : Node, n.Reachable env → ∀ now miner,
      (n.mineTemplate env now miner).2.header.validateBasic = .ok () := by
  intro h
  have hv := h (run sides) (reachable_run _) 0 ⟨.gpu, owner, []⟩
  rw [Node.mineTemplate_valid_iff] at hv
  exact absurd hv (by decide +kernel)

open Sample in
theorem template_valid_first :
    ((run [first]).mineTemplate env 0 ⟨.gpu, owner, []⟩).2.header.validateBasic = .ok () := by
  refine (Node.template_valid_iff env (run [first]) (reachable_run _)).1 (fun s b hin => ?_) _ _
  have hlog : ∀ x ∈ (run [first]).log.filterMap Event.inserting?,
      x.1.dag.tipsLeft x.2 < maxBlockParents := by decide +kernel
  exact hlog (s, b) (List.mem_filterMap.2 ⟨_, hin, rfl⟩)

/-! ## The transactions of a template -/

section
variable {E : Env} {u : UtxoSet} {height : Nat} {tx : Transaction} {txs : List Transaction}
  {s : Selection} {spent : Finset OutPoint}

/-- The fee that the selection finds: the outputs are a plain sum. -/
def UtxoSet.plainFee (u : UtxoSet) (tx : Transaction) : Nat :=
  min (u.inputTotal tx) u64Max - tx.outputTotal % 2 ^ 64

theorem plainOutputSum_zents (tx : Transaction) : tx.plainOutputSum.zents = tx.outputTotal % 2 ^ 64 :=
  Wrapping.sum_eq _ _

theorem selectInputs_some : ∀ {is : List TxInput} {inSum r : Amount},
    selectInputs E u height spent is inSum = some r →
      (∀ i ∈ is, i.outpoint ∉ spent ∧ Owns E u height i) ∧
        r.zents = (is.map fun i => u.valueAt i.outpoint).foldl satAdd inSum.zents
  | [], inSum, r, h => by
    cases h
    exact ⟨by simp, rfl⟩
  | i :: is, inSum, r, h => by
    simp only [selectInputs] at h
    split at h
    · cases h
    · rename_i hs
      split at h
      · rename_i e he
        split at h
        · rename_i hok
          obtain ⟨hall, hr⟩ := selectInputs_some h
          refine ⟨List.forall_mem_cons.2 ⟨⟨hs, e, he, fun hc => ?_, hok.2⟩, hall⟩, ?_⟩
          · exact hok.1.resolve_left (not_not.2 hc)
          · rw [hr, List.map_cons, List.foldl_cons, UtxoSet.valueAt_some he]
            rfl
        · cases h
      · cases h

/-- What holds of the selection after every candidate. -/
structure Selection.Sound (E : Env) (u : UtxoSet) (height : Nat) (s : Selection) : Prop where
  payable : ∀ tx ∈ s.chosen, Payable E u height tx
  fresh : FreshIn ∅ s.chosen
  spent : ∀ p, p ∈ s.spent ↔ ∃ tx ∈ s.chosen, p ∈ tx.inputs.map (·.outpoint)
  plain : ∀ tx ∈ s.chosen, tx.outputTotal % 2 ^ 64 ≤ min (u.inputTotal tx) u64Max
  fees : s.feeSum.zents = Saturating.sum u64Max (s.chosen.map u.plainFee)

theorem mem_foldl_insert {α β : Type} [DecidableEq β] (f : α → β) : ∀ {l : List α} {s : Finset β}
    {y : β}, y ∈ l.foldl (fun s x => insert (f x) s) s ↔ y ∈ s ∨ y ∈ l.map f
  | [], _, _ => by simp
  | x :: l, s, y => by
    rw [List.foldl_cons, mem_foldl_insert f, Finset.mem_insert, List.map_cons, List.mem_cons, or_assoc]
    exact or_left_comm

/-- A candidate is evicted, or chosen with inputs that nobody before it spends. -/
theorem selectStep_cases (E : Env) (u : UtxoSet) (height : Nat) (s : Selection) (tx : Transaction) :
    selectStep E u height s tx = { s with mempool := s.mempool.removeTransaction (tx.txid E) } ∨
      (Payable E u height tx ∧ (∀ i ∈ tx.inputs, i.outpoint ∉ s.spent) ∧
        tx.outputTotal % 2 ^ 64 ≤ min (u.inputTotal tx) u64Max ∧
        ∃ fee : Amount, fee.zents = u.plainFee tx ∧
          selectStep E u height s tx = { s with
            spent := tx.inputs.foldl (fun spent i => insert i.outpoint spent) s.spent
            feeSum := s.feeSum.saturatingAdd fee
            chosen := s.chosen ++ [tx] }) := by
  unfold selectStep
  cases hc : tx.isCoinbase with
  | true => exact .inl rfl
  | false =>
    cases hv : tx.verifySignatures E with
    | error e => exact .inl rfl
    | ok _ =>
      cases hi : selectInputs E u height s.spent tx.inputs .zero with
      | none => exact .inl (by simp)
      | some inSum =>
        obtain ⟨hall, hr⟩ := selectInputs_some hi
        have hin : inSum.zents = min (u.inputTotal tx) u64Max := hr.trans (Saturating.sum_eq _ _)
        by_cases hle : tx.plainOutputSum.zents > inSum.zents
        · exact .inl (by simp [hle])
        · refine .inr ⟨⟨hc, hv, fun i him => (hall i him).2⟩, fun i him => (hall i him).1, ?_,
            inSum.saturatingSub tx.plainOutputSum, ?_, by simp [hle]⟩
          · rw [← plainOutputSum_zents, ← hin]
            exact Nat.not_lt.1 hle
          · rw [Amount.saturatingSub_zents, plainOutputSum_zents, hin, UtxoSet.plainFee]

theorem Selection.Sound.step (hs : s.Sound E u height) (tx : Transaction) :
    (selectStep E u height s tx).Sound E u height := by
  rcases selectStep_cases E u height s tx with
    he | ⟨hpay, hnew, hplain, fee, hfee, he⟩
  · rw [he]
    obtain ⟨h1, h2, h3, h4, h5⟩ := hs
    exact ⟨h1, h2, h3, h4, h5⟩
  · rw [he]
    refine ⟨fun t ht => ?_, freshIn_concat.2 ⟨hs.fresh, fun i hi => ?_⟩, fun p => ?_, fun t ht => ?_,
      ?_⟩
    · rcases List.mem_append.1 ht with ht | ht
      · exact hs.payable t ht
      · exact List.mem_singleton.1 ht ▸ hpay
    · refine ⟨Finset.notMem_empty _, fun t ht hp => hnew i hi ?_⟩
      exact (hs.spent _).2 ⟨t, ht, hp⟩
    · show p ∈ tx.inputs.foldl _ s.spent ↔ _
      rw [mem_foldl_insert, hs.spent]
      simp only [List.mem_append, List.mem_singleton, or_and_right, exists_or, exists_eq_left]
    · rcases List.mem_append.1 ht with ht | ht
      · exact hs.plain t ht
      · exact List.mem_singleton.1 ht ▸ hplain
    · show satAdd s.feeSum.zents fee.zents = _
      rw [hs.fees, hfee, List.map_append, Saturating.sum, Saturating.sum, List.foldl_append]
      rfl

theorem Selection.Sound.loop : ∀ {txs : List Transaction} {s : Selection}, s.Sound E u height →
    (selectLoop E u height txs s).Sound E u height
  | [], _, hs => hs
  | tx :: txs, s, hs => by
    simp only [selectLoop]
    split
    · exact hs.step tx
    · exact (hs.step tx).loop

/-- **What the selection chooses** spends different outputs of the set, payable at the height, and
no transaction pays out more than it takes in, in plain sums. -/
theorem selectTransactions_sound (E : Env) (u : UtxoSet) (height : Nat) (m : Mempool) :
    (selectTransactions E u height m).Sound E u height :=
  .loop ⟨by simp, trivial, by simp, by simp, rfl⟩

/-- When the selection counts as the validator does: no transaction names an outpoint twice, and
output totals above `u64::MAX` do no harm. -/
structure Assembles (u : UtxoSet) (subsidy : Nat) (txs : List Transaction) : Prop where
  nodup : ∀ tx ∈ txs, (tx.inputs.map (·.outpoint)).Nodup
  /-- the outputs are no more than the inputs in saturating sums too -/
  outputs : ∀ tx ∈ txs, tx.outputTotal ≤ u64Max ∨ u64Max ≤ u.inputTotal tx
  /-- the fees are the same, or the cap saturates -/
  fees : (∀ tx ∈ txs, tx.outputTotal ≤ u64Max ∨ tx.outputTotal % 2 ^ 64 = u64Max) ∨
    u64Max ≤ subsidy + (txs.map u.feeOf).sum

/-- Different outpoints and output totals up to `u64::MAX` are enough. -/
theorem assembles_of_plain {subsidy : Nat} (h : ∀ tx ∈ txs,
    (tx.inputs.map (·.outpoint)).Nodup ∧ tx.outputTotal ≤ u64Max) : Assembles u subsidy txs where
  nodup := fun tx htx => (h tx htx).1
  outputs := fun tx htx => .inl (h tx htx).2
  fees := .inl fun tx htx => .inl (h tx htx).2

/-- The chosen transactions are candidates. -/
theorem mem_candidates : ∀ {txs : List Transaction} {s : Selection},
    ∀ tx ∈ (selectLoop E u height txs s).chosen, tx ∈ s.chosen ∨ tx ∈ txs
  | [], _, tx, h => .inl h
  | t :: txs, s, tx, h => by
    have hstep : ∀ tx ∈ (selectStep E u height s t).chosen, tx ∈ s.chosen ∨ tx ∈ t :: txs := by
      intro tx htx
      rcases selectStep_cases E u height s t with he | ⟨-, -, -, fee, -, he⟩
      · rw [he] at htx
        exact .inl htx
      · rw [he] at htx
        rcases List.mem_append.1 htx with htx | htx
        · exact .inl htx
        · exact .inr (List.mem_singleton.1 htx ▸ List.mem_cons_self)
    simp only [selectLoop] at h
    split at h
    · exact hstep tx h
    · rcases mem_candidates tx h with h | h
      · exact hstep tx h
      · exact .inr (List.mem_cons_of_mem _ h)

theorem mod_eq_self_of_le {n : Nat} (h : n ≤ u64Max) : n % 2 ^ 64 = n :=
  Nat.mod_eq_of_lt (Nat.lt_of_le_of_lt h (by decide))

/-- A transaction whose plain sum is within the inputs fits when its saturating sum is. -/
theorem fits_iff_of_plain (hplain : tx.outputTotal % 2 ^ 64 ≤ min (u.inputTotal tx) u64Max) :
    Fits u tx ↔ (tx.inputs.map (·.outpoint)).Nodup ∧
      (tx.outputTotal ≤ u64Max ∨ u64Max ≤ u.inputTotal tx) := by
  refine ⟨fun h => ⟨h.nodup, ?_⟩, fun h => ⟨h.1, ?_⟩⟩
  · have := h.covered
    omega
  · rcases h.2 with hle | hle
    · rw [mod_eq_self_of_le hle] at hplain
      omega
    · omega

/-- The plain fee is no lower than the validator's, and the same when the outputs do not wrap. -/
theorem feeOf_le_plainFee (hplain : tx.outputTotal % 2 ^ 64 ≤ min (u.inputTotal tx) u64Max)
    (hf : Fits u tx) : u.feeOf tx ≤ u.plainFee tx ∧ (u.plainFee tx = u.feeOf tx ↔
      tx.outputTotal ≤ u64Max ∨ tx.outputTotal % 2 ^ 64 = u64Max) := by
  have hcov := hf.covered
  unfold UtxoSet.feeOf UtxoSet.plainFee
  by_cases hle : tx.outputTotal ≤ u64Max
  · rw [mod_eq_self_of_le hle, Nat.min_eq_left hle] at *
    exact ⟨Nat.le_refl _, fun _ => .inl hle, fun _ => rfl⟩
  · have hmod : tx.outputTotal % 2 ^ 64 ≤ u64Max := Nat.le_sub_one_of_lt (Nat.mod_lt _ (by decide))
    rw [Nat.min_eq_right (Nat.le_of_not_le hle)] at *
    omega

/-- Sums of larger terms are equal exactly when the terms are. -/
theorem sum_map_le_iff {f g : Transaction → Nat} : ∀ (txs : List Transaction),
    (∀ tx ∈ txs, f tx ≤ g tx) → (txs.map f).sum ≤ (txs.map g).sum ∧
      ((txs.map g).sum ≤ (txs.map f).sum ↔ ∀ tx ∈ txs, g tx = f tx)
  | [], _ => by simp
  | tx :: txs, h => by
    obtain ⟨hle, hiff⟩ := sum_map_le_iff txs fun t ht => h t (List.mem_cons_of_mem _ ht)
    have ht := h tx List.mem_cons_self
    rw [List.forall_mem_cons, ← hiff, List.map_cons, List.map_cons, List.sum_cons, List.sum_cons]
    omega

/-- A template for what the selection has chosen. -/
theorem Selection.Sound.template_iff (hs : s.Sound E u height) (miner : Miner) (now : Nat)
    (parents : List Hash) (bits blueWork : Nat) :
    validateBlockTransactions E (miner.buildBlockTemplate E now parents s.chosen bits height blueWork
        s.feeSum E.emission) u = .ok () ↔
      Assembles u (E.emission.blockReward height).zents s.chosen := by
  have hv := validate_payable_iff (b := miner.buildBlockTemplate E now parents s.chosen bits height
    blueWork s.feeSum E.emission) rfl rfl Miner.validateMerkleRoot_template hs.payable hs.fresh
  rw [hv, Miner.templateCoinbase_zents, hs.fees, Saturating.sum_eq, Saturating.sum_eq]
  show (_ ∧ min ((E.emission.blockReward height).zents + _) u64Max ≤
    min ((E.emission.blockReward height).zents + _) u64Max) ↔ _
  have hfits : (∀ tx ∈ s.chosen, Fits u tx) ↔ (∀ tx ∈ s.chosen, (tx.inputs.map (·.outpoint)).Nodup) ∧
      ∀ tx ∈ s.chosen, tx.outputTotal ≤ u64Max ∨ u64Max ≤ u.inputTotal tx := by
    rw [← forall₂_and]
    exact forall₂_congr fun tx htx => fits_iff_of_plain (hs.plain tx htx)
  have hfees : (∀ tx ∈ s.chosen, Fits u tx) →
      (min ((E.emission.blockReward height).zents +
          min (s.chosen.map u.plainFee).sum u64Max) u64Max ≤
        min ((E.emission.blockReward height).zents +
          min (s.chosen.map u.feeOf).sum u64Max) u64Max ↔
      (∀ tx ∈ s.chosen, tx.outputTotal ≤ u64Max ∨ tx.outputTotal % 2 ^ 64 = u64Max) ∨
        u64Max ≤ (E.emission.blockReward height).zents + (s.chosen.map u.feeOf).sum) := by
    intro hf
    obtain ⟨hle, hiff⟩ := sum_map_le_iff (g := u.plainFee) s.chosen fun tx htx =>
      (feeOf_le_plainFee (hs.plain tx htx) (hf tx htx)).1
    have hall : (∀ tx ∈ s.chosen, u.plainFee tx = u.feeOf tx) ↔
        ∀ tx ∈ s.chosen, tx.outputTotal ≤ u64Max ∨ tx.outputTotal % 2 ^ 64 = u64Max :=
      forall₂_congr fun tx htx => (feeOf_le_plainFee (hs.plain tx htx) (hf tx htx)).2
    rw [← hall, ← hiff]
    omega
  refine ⟨fun h => ?_, fun h => ?_⟩
  · obtain ⟨hnd, hout⟩ := hfits.1 h.1
    exact ⟨hnd, hout, (hfees h.1).1 h.2⟩
  · have hf := hfits.2 ⟨h.nodup, h.outputs⟩
    exact ⟨hf, (hfees hf).2 h.fees⟩

/-- **When an assembled block validates**: the transactions that the selection chooses and the
coinbase that the miner builds for their fees, at any height and against any set. It does whenever
no candidate names an outpoint twice or pays out more than `u64::MAX`. -/
theorem assembled_validates_iff (E : Env) (mempool : Mempool) (u : UtxoSet) (height : Nat)
    (miner : Miner) (now : Nat) (parents : List Hash) (bits blueWork : Nat) :
    let s := selectTransactions E u height mempool
    (validateBlockTransactions E (miner.buildBlockTemplate E now parents s.chosen bits height blueWork
        s.feeSum E.emission) u = .ok () ↔
      Assembles u (E.emission.blockReward height).zents s.chosen) ∧
    ((∀ tx ∈ mempool.getTransactionsForBlock 20,
        (tx.inputs.map (·.outpoint)).Nodup ∧ tx.outputTotal ≤ u64Max) →
      validateBlockTransactions E (miner.buildBlockTemplate E now parents s.chosen bits height
        blueWork s.feeSum E.emission) u = .ok ()) := by
  intro s
  have hiff := (selectTransactions_sound E u height mempool).template_iff miner now parents bits
    blueWork
  refine ⟨hiff, fun h => hiff.2 (assembles_of_plain fun tx htx => h tx ?_)⟩
  exact (mem_candidates tx htx).resolve_left (by simp)

end

namespace Sample

/-- A set with one output of ten zents. -/
def tenZents : UtxoSet := UtxoSet.empty.insert ⟨⟨1001⟩, 0⟩ ⟨⟨10, by decide⟩, owner, 0, false⟩

/-- A transfer of fifteen zents that names this output twice. -/
def doubled : Transaction :=
  transfer 5 [⟨⟨1001⟩, 0⟩, ⟨⟨1001⟩, 0⟩] [⟨15, by decide⟩]

/-- A transfer of all of it. -/
def whole : Transaction := transfer 5 [⟨⟨1001⟩, 0⟩] [⟨10, by decide⟩]

/-- A mempool after some transactions were added. -/
def pool (txs : List Transaction) : Mempool :=
  txs.foldl (fun m tx => (m.addTransaction env 0 tx .zero).toOption.getD m) (.new 100)

end Sample

open Sample in
/-- The transfer that names an output twice is selected, and the block does not validate. -/
theorem assembled_double_spend :
    ¬∀ (mempool : Mempool) (u : UtxoSet) (height : Nat) (miner : Miner) (now : Nat)
      (parents : List Hash) (bits blueWork : Nat),
      let s := selectTransactions env u height mempool
      validateBlockTransactions env (miner.buildBlockTemplate env now parents s.chosen bits height
        blueWork s.feeSum env.emission) u = .ok () := by
  intro h
  exact absurd (h (pool [doubled]) tenZents 1 ⟨.gpu, owner, []⟩ 0 [genesisHash] 0 1)
    (by decide +kernel)

open Sample in
theorem assembled_validates_whole :
    let s := selectTransactions env tenZents 1 (pool [whole])
    s.chosen = [whole] ∧
      validateBlockTransactions env (Miner.buildBlockTemplate env ⟨.gpu, owner, []⟩ 0 [genesisHash]
        s.chosen 0 1 1 s.feeSum env.emission) tenZents = .ok () :=
  ⟨by decide +kernel, (assembled_validates_iff env (pool [whole]) tenZents 1 ⟨.gpu, owner, []⟩ 0
    [genesisHash] 0 1).2 (by decide +kernel)⟩

end Zentra

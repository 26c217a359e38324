import ZentraChain.Consensus.Miner
import ZentraChain.Lib.Collisions
import ZentraChain.Node.CoinbaseOnce

/-!
# Payment of merged blocks (`node.rs`, `utxo.rs`, `miner.rs`)

A chain block pays its own coinbase and those of the blue blocks it merges. A coinbase is credited under
its transaction id, and not again while an output with this id is there.

* `Miner.templateCoinbase_eq_iff`: which templates have the same coinbase.
* `mem_newCoinbases`: what is credited.
* `coinbases_paid_iff`: every block is paid exactly if the coinbases differ, none is in the set, and the
  chain block does not spend its own.
-/

namespace Zentra

/-- Templates with the same coinbase. -/
theorem Miner.templateCoinbase_eq_iff {m m' : Miner} {score score' : Nat} {fees fees' : Amount}
    {em em' : EmissionSchedule} :
    m.templateCoinbase score fees em = m'.templateCoinbase score' fees' em' ↔
      m.address = m'.address ∧ m.coinbaseTag = m'.coinbaseTag ∧ score = score' ∧
        (em.blockReward score).saturatingAdd fees = (em'.blockReward score').saturatingAdd fees' := by
  constructor
  · intro h
    have hscore : score = score' := congrArg Transaction.lockTime h
    have hout := congrArg Transaction.outputs h
    have hpay := congrArg Transaction.payload h
    simp only [templateCoinbase, Transaction.createCoinbase, List.cons.injEq, and_true,
      TxOutput.standard.injEq] at hout hpay
    rw [hscore] at hpay
    exact ⟨hout.1, List.append_cancel_left hpay, hscore, hout.2⟩
  · rintro ⟨ha, ht, rfl, hr⟩
    unfold templateCoinbase Transaction.createCoinbase
    simp only [ha, ht, hr]

namespace Block

/-- Built by `build_block_template`, with the nonce that was found. -/
def Templated (E : Env) (b : Block) : Prop :=
  ∃ (m : Miner) (now : Nat) (ps : List Hash) (txs : List Transaction) (bits score work : Nat)
    (fees : Amount) (em : EmissionSchedule) (nonce : Nat),
    let t := m.buildBlockTemplate E now ps txs bits score work fees em
    b = { t with header := { t.header with nonce := nonce } }

/-- Where a block is paid: the first output of its coinbase. -/
def paidAt (E : Env) (b : Block) : OutPoint := ⟨(b.coinbase?.map (·.txid E)).getD .zero, 0⟩

/-- The coinbase of a template: one spendable output. -/
theorem Templated.coinbase {E : Env} {b : Block} (h : b.Templated E) :
    ∃ cb txs address reward, b.transactions = cb :: txs ∧ cb.isCoinbase = true ∧
      cb.outputs = [.standard address reward []] ∧ b.coinbase? = some cb ∧
      b.paidAt E = ⟨cb.txid E, 0⟩ ∧ b.coinbaseStandardTotal = reward.zents := by
  obtain ⟨m, now, ps, txs, bits, score, work, fees, em, nonce, rfl⟩ := h
  exact ⟨m.templateCoinbase score fees em, txs, m.address, (em.blockReward score).saturatingAdd fees,
    rfl, rfl, rfl, rfl, rfl, Nat.add_zero _⟩

variable {E : Env} {b c : Block}

/-- With injective hashes, blocks paid at one output have one coinbase. -/
theorem Templated.coinbase_eq (hinj : Function.Injective E.hashTx) (hb : b.Templated E)
    (hc : c.Templated E) : b.coinbase? = c.coinbase? ↔ b.paidAt E = c.paidAt E := by
  obtain ⟨cb, -, -, -, -, -, -, h1, h2, -⟩ := hb.coinbase
  obtain ⟨cc, -, -, -, -, -, -, h3, h4, -⟩ := hc.coinbase
  rw [h1, h2, h3, h4, Option.some.injEq, OutPoint.mk.injEq]
  constructor
  · rintro rfl
    exact ⟨rfl, rfl⟩
  · rintro ⟨h, -⟩
    exact hinj h

theorem Templated.total_eq (hinj : Function.Injective E.hashTx) (hb : b.Templated E)
    (hc : c.Templated E) (h : b.paidAt E = c.paidAt E) :
    b.coinbaseStandardTotal = c.coinbaseStandardTotal := by
  unfold Block.coinbaseStandardTotal
  rw [(hb.coinbase_eq hinj hc).2 h]

theorem Templated.isCoinbaseOutpoint (hb : b.Templated E) : IsCoinbaseOutpoint E (b.paidAt E) := by
  obtain ⟨cb, txs, address, reward, -, hc, ho, -, h2, -⟩ := hb.coinbase
  refine ⟨cb, hc, ?_⟩
  rw [h2, Transaction.created, ho]
  exact List.mem_cons_self

end Block

namespace UtxoSet

variable {E : Env} {u u' w : UtxoSet} {b m : Block} {ms : List Block} {p : OutPoint} {e : UtxoEntry}
  {height : Nat}

/-- The coinbase outputs that a set has and an earlier one does not. -/
def newCoinbases (u u' : UtxoSet) : Finset OutPoint :=
  u'.utxos.keys.filter fun p => u.getUtxo p = none ∧ (u'.getUtxo p).any (·.isCoinbase) = true

/-- Their exact sum. -/
def newCoinbaseValue (u u' : UtxoSet) : Nat := ∑ p ∈ newCoinbases u u', u'.valueAt p

theorem mem_newCoinbases_iff : p ∈ newCoinbases u u' ↔
    u.getUtxo p = none ∧ ∃ e, u'.getUtxo p = some e ∧ e.isCoinbase = true := by
  unfold newCoinbases
  rw [Finset.mem_filter, Finmap.mem_keys, Finmap.mem_iff, Option.any_eq_true]
  constructor
  · rintro ⟨-, h, e, he, hc⟩
    exact ⟨h, e, he, hc⟩
  · rintro ⟨h, e, he, hc⟩
    exact ⟨⟨e, he⟩, h, e, he, hc⟩

/-! ## The transactions of the chain block -/

/-- Regular transactions add no coinbase entry. -/
theorem applyTransactions_coinbase_old : ∀ {txs : List Transaction} {u w : UtxoSet}
    {ds : List TxUndoData}, (∀ tx ∈ txs, tx.isCoinbase = false) →
      applyTransactions E height txs u = (w, .ok ds) → w.getUtxo p = some e → e.isCoinbase = true →
      u.getUtxo p = some e
  | [], _, _, _, _, h, hp, _ => by
    cases h
    exact hp
  | tx :: txs, u, w, ds, hreg, h, hp, hc => by
    obtain ⟨v, d, ds', hd, hds, rfl⟩ := applyTransactions_cons_ok h
    have ha := applyTransaction_ok hd
    have hv := applyTransactions_coinbase_old (fun t ht => hreg t (List.mem_cons_of_mem _ ht)) hds hp hc
    by_cases hcr : p ∈ tx.created E
    · obtain ⟨e', he', -, hnot⟩ := ha.new p hcr
      cases hv.symm.trans he'
      rw [hc, hreg tx List.mem_cons_self] at hnot
      cases hnot
    · rw [ha.keep p hcr] at hv
      split at hv
      · cases hv
      · exact hv

/-- What they do to a coinbase output: it is spent or kept. -/
theorem applyTransactions_kept (hinj : Function.Injective E.hashTx) (hp : IsCoinbaseOutpoint E p) :
    ∀ {txs : List Transaction} {u w : UtxoSet} {ds : List TxUndoData},
      (∀ tx ∈ txs, tx.isCoinbase = false) → applyTransactions E height txs u = (w, .ok ds) →
      w.getUtxo p = if ∃ tx ∈ txs, p ∈ tx.spent then none else u.getUtxo p
  | [], _, _, _, _, h => by
    cases h
    simp
  | tx :: txs, u, w, ds, hreg, h => by
    obtain ⟨v, d, ds', hd, hds, rfl⟩ := applyTransactions_cons_ok h
    have hcr := hp.not_created hinj (hreg tx List.mem_cons_self)
    rw [applyTransactions_kept hinj hp (fun t ht => hreg t (List.mem_cons_of_mem _ ht)) hds,
      (applyTransaction_ok hd).keep p hcr]
    simp only [List.exists_mem_cons_iff]
    by_cases h1 : p ∈ tx.spent <;> by_cases h2 : ∃ t ∈ txs, p ∈ t.spent <;> simp [h1, h2]

/-- A templated block applied: its coinbase is entered, then its transactions are applied. -/
theorem applyTransactions_templated {ds : List TxUndoData} (hb : b.Templated E)
    (hfirst : b.CoinbaseFirst) (h : applyTransactions E height b.transactions u = (w, .ok ds)) :
    ∃ e txs ds', e.isCoinbase = true ∧ e.amount.zents = b.coinbaseStandardTotal ∧
      (∀ tx ∈ txs, tx.isCoinbase = false) ∧
      (∀ p, (∃ tx ∈ b.transactions, p ∈ tx.spent) ↔ ∃ tx ∈ txs, p ∈ tx.spent) ∧
      applyTransactions E height txs (u.insert (b.paidAt E) e) = (w, .ok ds') := by
  obtain ⟨cb, txs, address, reward, htx, hc, ho, h1, h2, h3⟩ := hb.coinbase
  obtain ⟨cb', txs', htx', -, hreg⟩ := hfirst
  rw [htx] at htx' h
  cases htx'
  obtain ⟨v, d, ds', hd, hds, rfl⟩ := applyTransactions_cons_ok h
  have hv : v = u.insert (b.paidAt E) ⟨reward, address, height, true⟩ := by
    unfold applyTransaction at hd
    rw [hc, ho, if_pos rfl] at hd
    rw [h2]
    exact (congrArg Prod.fst hd).symm
  refine ⟨⟨reward, address, height, true⟩, txs, ds', rfl, h3.symm, hreg, fun p => ?_, hv ▸ hds⟩
  rw [htx, List.exists_mem_cons_iff, Transaction.spent_coinbase hc]
  simp

/-! ## The merge blocks -/

theorem applyMergeCoinbase_templated (hm : m.Templated E) : ∃ e : UtxoEntry, e.isCoinbase = true ∧
    e.amount.zents = m.coinbaseStandardTotal ∧ u.applyMergeCoinbase E m height =
      if (u.getUtxo (m.paidAt E)).isSome then (u, [])
      else (u.insert (m.paidAt E) e, [m.paidAt E]) := by
  obtain ⟨cb, txs, address, reward, htx, hc, ho, h1, h2, h3⟩ := hm.coinbase
  refine ⟨⟨reward, address, height, true⟩, rfl, h3.symm, ?_⟩
  unfold applyMergeCoinbase
  rw [h1, h2]
  simp only [ho, creditOutputs]

/-- A merge block pays its reward where nothing is. -/
theorem getUtxo_applyMergeCoinbase (hm : m.Templated E) : ∃ e : UtxoEntry, e.isCoinbase = true ∧
    e.amount.zents = m.coinbaseStandardTotal ∧
    ∀ p, (u.applyMergeCoinbase E m height).1.getUtxo p =
      if p = m.paidAt E ∧ u.getUtxo p = none then some e else u.getUtxo p := by
  obtain ⟨e, hc, ha, happly⟩ := @applyMergeCoinbase_templated _ u _ height hm
  refine ⟨e, hc, ha, fun p => ?_⟩
  rw [happly]
  cases hpaid : u.getUtxo (m.paidAt E) with
  | none =>
    rw [if_neg (by simp), getUtxo_insert]
    by_cases hp : p = m.paidAt E
    · rw [if_pos hp, if_pos ⟨hp, hp ▸ hpaid⟩]
    · rw [if_neg hp, if_neg fun h => hp h.1]
  | some e' =>
    rw [if_pos (show (some e').isSome = true from rfl), if_neg]
    rintro ⟨rfl, hnone⟩
    rw [hpaid] at hnone
    cases hnone

/-- Merge blocks are credited where nothing is. -/
theorem creditMerges_templated : ∀ {ms : List Block} {u : UtxoSet}, (∀ m ∈ ms, m.Templated E) →
    (∀ p, (u.getUtxo p).isSome ∨ p ∉ ms.map (·.paidAt E) →
      (creditMerges E ms u).1.getUtxo p = u.getUtxo p) ∧
    ∀ p, u.getUtxo p = none → p ∈ ms.map (·.paidAt E) → ∃ e m, m ∈ ms ∧ m.paidAt E = p ∧
      (creditMerges E ms u).1.getUtxo p = some e ∧ e.isCoinbase = true ∧
      e.amount.zents = m.coinbaseStandardTotal
  | [], u, _ => by simp [creditMerges]
  | m :: ms, u, ht => by
    obtain ⟨e, hc, ha, hu⟩ :=
      @getUtxo_applyMergeCoinbase _ u _ m.header.blueScore (ht m List.mem_cons_self)
    have hstep : (creditMerges E (m :: ms) u).1 =
        (creditMerges E ms (u.applyMergeCoinbase E m m.header.blueScore).1).1 := rfl
    obtain ⟨ih1, ih2⟩ := creditMerges_templated (u := (u.applyMergeCoinbase E m m.header.blueScore).1)
      fun m' hm' => ht m' (List.mem_cons_of_mem _ hm')
    rw [hstep]
    refine ⟨fun p hp => ?_, fun p hnone hp => ?_⟩
    · have hkeep : ¬(p = m.paidAt E ∧ u.getUtxo p = none) := by
        rintro ⟨rfl, hnone⟩
        rcases hp with hp | hp
        · rw [hnone] at hp
          cases hp
        · exact hp (by simp)
      rw [ih1 p, hu, if_neg hkeep]
      rw [hu, if_neg hkeep]
      exact hp.imp id fun h hin => h (List.mem_cons_of_mem _ hin)
    · by_cases hpm : p = m.paidAt E
      · have hsome := hu p
        rw [if_pos ⟨hpm, hnone⟩] at hsome
        refine ⟨e, m, List.mem_cons_self, hpm.symm, ?_, hc, ha⟩
        rw [ih1 p (.inl (by rw [hsome]; rfl)), hsome]
      · have hold := hu p
        rw [if_neg fun h => hpm h.1, hnone] at hold
        rw [List.map_cons] at hp
        obtain ⟨e', m', hm', h⟩ := ih2 p hold ((List.mem_cons.1 hp).resolve_left hpm)
        exact ⟨e', m', List.mem_cons_of_mem _ hm', h⟩

/-! ## What is credited -/

section
variable {undo : BlockUndoData} (hinj : Function.Injective E.hashTx) (hb : b.Templated E)
  (hms : ∀ m ∈ ms, m.Templated E) (hfirst : b.CoinbaseFirst)
  (h : u.applyBlockWithMerges E b ms = (u', .ok undo))
include hinj hb hms hfirst h

/-- **The new coinbase outputs** are those of the merge blocks that were absent, and that of the chain
block if it is not spent at once. -/
theorem mem_newCoinbases : p ∈ newCoinbases u u' ↔ u.getUtxo p = none ∧
    (p ∈ ms.map (·.paidAt E) ∨ (p = b.paidAt E ∧ ∀ tx ∈ b.transactions, p ∉ tx.spent)) := by
  obtain ⟨w, ds, hds, rfl, -⟩ := applyBlockWithMerges_ok h
  obtain ⟨e, txs, ds', hc, -, hreg, hspent, hrest⟩ := applyTransactions_templated hb hfirst hds
  obtain ⟨hkeep, hnew⟩ := creditMerges_templated (u := w) hms
  -- what the chain block leaves at an output that is paid
  have hw : IsCoinbaseOutpoint E p → w.getUtxo p =
      if ∃ tx ∈ b.transactions, p ∈ tx.spent then none
      else if p = b.paidAt E then some e else u.getUtxo p := fun hp => by
    rw [applyTransactions_kept hinj hp hreg hrest, getUtxo_insert]
    simp only [hspent]
  rw [mem_newCoinbases_iff]
  refine and_congr_right fun hnone => ?_
  constructor
  · rintro ⟨e', he', hc'⟩
    by_cases hin : p ∈ ms.map (·.paidAt E)
    · exact .inl hin
    · rw [hkeep p (.inr hin)] at he'
      have hold := applyTransactions_coinbase_old hreg hrest he' hc'
      rw [getUtxo_insert] at hold
      split at hold
      · rename_i hp
        refine .inr ⟨hp, fun tx htx hs => ?_⟩
        rw [hw (hp ▸ hb.isCoinbaseOutpoint), if_pos ⟨tx, htx, hs⟩] at he'
        cases he'
      · rw [hnone] at hold
        cases hold
  · have hcase : w.getUtxo p = some e → ∃ e', (creditMerges E ms w).1.getUtxo p = some e' ∧
        e'.isCoinbase = true := by
      intro hsome
      exact ⟨e, by rw [hkeep p (.inl (by rw [hsome]; rfl)), hsome], hc⟩
    rintro (hin | ⟨hp, hns⟩)
    · obtain ⟨m, hm, hpm⟩ := List.mem_map.1 hin
      have hwp := hw (hpm ▸ (hms m hm).isCoinbaseOutpoint)
      cases hcur : w.getUtxo p with
      | none =>
        obtain ⟨e', m', -, -, he', hc', -⟩ := hnew p hcur hin
        exact ⟨e', he', hc'⟩
      | some e' =>
        -- then it is the output of the chain block
        refine hcase ?_
        rw [hwp] at hcur ⊢
        split at hcur
        · cases hcur
        · rename_i hns
          split at hcur
          · rename_i hp
            rw [if_neg hns, if_pos hp]
          · rw [hnone] at hcur
            cases hcur
    · refine hcase ?_
      rw [hw (hp ▸ hb.isCoinbaseOutpoint), if_neg, if_pos hp]
      rintro ⟨tx, htx, hs⟩
      exact hns tx htx hs

/-- A new coinbase output has the whole reward of each block paid there. -/
theorem valueAt_newCoinbases {x : Block} (hx : x ∈ b :: ms) (hp : x.paidAt E ∈ newCoinbases u u') :
    u'.valueAt (x.paidAt E) = x.coinbaseStandardTotal := by
  obtain ⟨w, ds, hds, rfl, -⟩ := applyBlockWithMerges_ok h
  obtain ⟨e, txs, ds', hc, ha, hreg, hspent, hrest⟩ := applyTransactions_templated hb hfirst hds
  obtain ⟨hkeep, hnew⟩ := creditMerges_templated (u := w) hms
  have hxt : x.Templated E := by
    rcases List.mem_cons.1 hx with rfl | hx
    · exact hb
    · exact hms x hx
  obtain ⟨hnone, e', he', hc'⟩ := mem_newCoinbases_iff.1 hp
  rw [valueAt_some he']
  by_cases hcred : w.getUtxo (x.paidAt E) = none ∧ x.paidAt E ∈ ms.map (·.paidAt E)
  · obtain ⟨e'', m', hm', hpm, he'', -, ha''⟩ := hnew _ hcred.1 hcred.2
    cases he'.symm.trans he''
    rw [ha'', (hms m' hm').total_eq hinj hxt hpm]
  · rw [hkeep] at he'
    · have hold := applyTransactions_coinbase_old hreg hrest he' hc'
      rw [getUtxo_insert] at hold
      split at hold
      · rename_i hpb
        cases hold
        rw [ha, hb.total_eq hinj hxt hpb.symm]
      · rw [hnone] at hold
        cases hold
    · by_contra hnot
      obtain ⟨h1, h2⟩ := not_or.1 hnot
      exact hcred ⟨by simpa using h1, not_not.1 h2⟩

end

end UtxoSet

/-- The blocks with a positive reward. -/
def Block.rewarded (bs : List Block) : List Block := bs.filter (0 < ·.coinbaseStandardTotal)

/-- The reward of the blocks paid at an output. -/
def Block.rewardAt (E : Env) (bs : List Block) (p : OutPoint) : Nat :=
  ((bs.find? (·.paidAt E = p)).map (·.coinbaseStandardTotal)).getD 0

section
variable {E : Env} {bs : List Block} {x : Block} (hinj : Function.Injective E.hashTx)
  (ht : ∀ y ∈ bs, y.Templated E)

theorem Block.mem_rewarded : x ∈ Block.rewarded bs ↔ x ∈ bs ∧ 0 < x.coinbaseStandardTotal := by
  simp [Block.rewarded]

include hinj ht

theorem Block.rewardAt_paidAt (hx : x ∈ bs) :
    Block.rewardAt E bs (x.paidAt E) = x.coinbaseStandardTotal := by
  unfold Block.rewardAt
  cases hf : bs.find? (·.paidAt E = x.paidAt E) with
  | none => exact absurd (List.find?_eq_none.1 hf x hx) (by simp)
  | some y =>
    have hy := List.mem_of_find?_eq_some hf
    have hp : y.paidAt E = x.paidAt E := by simpa using List.find?_some hf
    exact (ht y hy).total_eq hinj (ht x hx) hp

/-- Different outputs are different coinbases. -/
theorem Block.rewarded_nodup : ((Block.rewarded bs).map (·.paidAt E)).Nodup ↔
    ((Block.rewarded bs).map (·.coinbase?)).Nodup := by
  unfold List.Nodup
  rw [List.pairwise_map, List.pairwise_map]
  refine List.Pairwise.iff_of_mem fun hy hz => not_congr ?_
  exact ((ht _ (Block.mem_rewarded.1 hy).1).coinbase_eq hinj (ht _ (Block.mem_rewarded.1 hz).1)).symm

end

section
variable {E : Env} {b : Block} {ms : List Block} {u u' : UtxoSet} {undo : BlockUndoData}
  (hinj : Function.Injective E.hashTx) (hb : b.Templated E) (hms : ∀ m ∈ ms, m.Templated E)
  (hfirst : b.CoinbaseFirst) (h : u.applyBlockWithMerges E b ms = (u', .ok undo))
include hinj hb hms hfirst h

theorem UtxoSet.newCoinbases_paidAt :
    ∀ p ∈ u.newCoinbases u', p ∈ (b :: ms).map (·.paidAt E) := by
  intro p hp
  rw [List.map_cons, List.mem_cons]
  rcases ((UtxoSet.mem_newCoinbases hinj hb hms hfirst h).1 hp).2 with hin | ⟨hpb, -⟩
  · exact .inr hin
  · exact .inl hpb

/-- **No reward is lost** exactly if the outputs paid differ and all of them are new. -/
theorem UtxoSet.newCoinbaseValue_iff :
    u.newCoinbaseValue u' = ((b :: ms).map (·.coinbaseStandardTotal)).sum ↔
      ((Block.rewarded (b :: ms)).map (·.paidAt E)).Nodup ∧
        ∀ x ∈ Block.rewarded (b :: ms), x.paidAt E ∈ u.newCoinbases u' := by
  have hkey := UtxoSet.newCoinbases_paidAt hinj hb hms hfirst h
  have hw : ∀ x ∈ b :: ms, Block.rewardAt E (b :: ms) (x.paidAt E) = x.coinbaseStandardTotal :=
    fun x hx => Block.rewardAt_paidAt hinj (List.forall_mem_cons.2 ⟨hb, hms⟩) hx
  have hvalue : u.newCoinbaseValue u' = ∑ p ∈ u.newCoinbases u', Block.rewardAt E (b :: ms) p := by
    refine Finset.sum_congr rfl fun p hp => ?_
    obtain ⟨x, hx, rfl⟩ := List.mem_map.1 (hkey p hp)
    rw [UtxoSet.valueAt_newCoinbases hinj hb hms hfirst h hx hp, hw x hx]
  have htotal : (b :: ms).map (·.coinbaseStandardTotal) =
      (b :: ms).map fun x => Block.rewardAt E (b :: ms) (x.paidAt E) :=
    List.map_congr_left fun x hx => (hw x hx).symm
  have hfilter : ((b :: ms).filter fun x => 0 < Block.rewardAt E (b :: ms) (x.paidAt E)) =
      Block.rewarded (b :: ms) :=
    List.filter_congr fun x hx => by rw [hw x hx]
  rw [hvalue, htotal, Collisions.sum_eq_iff _ _ _ _ hkey, hfilter]
  refine and_congr_right fun _ => ⟨fun hall x hx => ?_, fun hall x hx hpos => ?_⟩
  · obtain ⟨hin, hpos⟩ := Block.mem_rewarded.1 hx
    exact hall x hin (by rwa [hw x hin])
  · rw [hw x hx] at hpos
    exact hall x (Block.mem_rewarded.2 ⟨hx, hpos⟩)

end

/-- **Every block is paid exactly if** those with a reward have different coinbases, the set has none of
these outputs yet, and the chain block does not spend its own. -/
theorem coinbases_paid_iff (E : Env) (d : Dag) (b : Block) (u u' : UtxoSet) (undo : BlockUndoData)
    (hinj : Function.Injective E.hashTx) (hb : b.Templated E)
    (hms : ∀ m ∈ d.mergeBlocks (b.hash E), m.Templated E) (hfirst : b.CoinbaseFirst)
    (h : u.applyBlockWithMerges E b (d.mergeBlocks (b.hash E)) = (u', .ok undo)) :
    u.newCoinbaseValue u' =
        ((b :: d.mergeBlocks (b.hash E)).map (·.coinbaseStandardTotal)).sum ↔
      ((Block.rewarded (b :: d.mergeBlocks (b.hash E))).map (·.coinbase?)).Nodup ∧
        (∀ x ∈ Block.rewarded (b :: d.mergeBlocks (b.hash E)), u.getUtxo (x.paidAt E) = none) ∧
        (0 < b.coinbaseStandardTotal → ∀ tx ∈ b.transactions, b.paidAt E ∉ tx.spent) := by
  generalize d.mergeBlocks (b.hash E) = ms at hms h ⊢
  have hnodup := Block.rewarded_nodup hinj (List.forall_mem_cons.2 ⟨hb, hms⟩)
  have hnew : ∀ p, p ∈ u.newCoinbases u' ↔ _ := fun p =>
    UtxoSet.mem_newCoinbases (p := p) hinj hb hms hfirst h
  rw [UtxoSet.newCoinbaseValue_iff hinj hb hms hfirst h, hnodup]
  refine and_congr_right fun hnd => ?_
  constructor
  · intro hall
    refine ⟨fun x hx => ((hnew _).1 (hall x hx)).1, fun hpos tx htx hs => ?_⟩
    have hself := hall b (Block.mem_rewarded.2 ⟨List.mem_cons_self, hpos⟩)
    rcases ((hnew _).1 hself).2 with hm | ⟨-, hns⟩
    · -- a merge block with the same coinbase would have the same reward
      obtain ⟨m, hm, hp⟩ := List.mem_map.1 hm
      have htot := (hms m hm).total_eq hinj hb hp
      rw [← hnodup, Block.rewarded, List.filter_cons_of_pos (by simpa using hpos), List.map_cons,
        List.nodup_cons] at hnd
      refine hnd.1 (List.mem_map.2 ⟨m, List.mem_filter.2 ⟨hm, ?_⟩, hp⟩)
      rw [htot]
      exact decide_eq_true hpos
    · exact hns tx htx hs
  · rintro ⟨habsent, hown⟩ x hx
    refine (hnew _).2 ⟨habsent x hx, ?_⟩
    obtain ⟨hin, hpos⟩ := Block.mem_rewarded.1 hx
    rcases List.mem_cons.1 hin with rfl | hin
    · exact .inr ⟨rfl, hown hpos⟩
    · exact .inl (List.mem_map_of_mem hin)

namespace Sample

/-- The sample network with a transaction hash that tells the coinbases of some templates apart. -/
def payEnv : Env :=
  { env with hashTx := fun tx => ⟨1000 + 100 * tx.payload.length + tx.lockTime⟩ }

/-- A template of `owner` with its nonce. -/
def template (E : Env) (nonce : Nat) (tag : List UInt8) (parents : List Hash) (score work : Nat) :
    Block :=
  let t := (Miner.mk .gpu owner tag).buildBlockTemplate E (1717372800000 + nonce) parents []
    (first).header.bits score work .zero (.new .devnet)
  { t with header := { t.header with nonce := nonce } }

theorem template_templated (E : Env) (nonce : Nat) (tag : List UInt8) (parents : List Hash)
    (score work : Nat) : (template E nonce tag parents score work).Templated E :=
  ⟨.mk .gpu owner tag, 1717372800000 + nonce, parents, [], (first).header.bits, score, work, .zero,
    .new .devnet, nonce, rfl⟩

/-- Two templates on the genesis block that differ in time and nonce, and one with a tag. -/
def rivals (E : Env) : List Block :=
  [template E 1 [] [genesisHash] 1 1, template E 2 [] [genesisHash] 1 1,
    template E 3 [1] [genesisHash] 1 1]

/-- A template that merges the second of them on the first or the third. -/
def joining (E : Env) (selected : Nat) : Block :=
  template E (2 + selected) [] [⟨3⟩, ⟨selected⟩] 3 2

/-- This network with injective hashes. -/
def payInjEnv : Env :=
  let blocks := .genesis payEnv :: rivals payEnv ++ [joining payEnv 2, joining payEnv 4]
  { payEnv with
    hashTx := pinned (blocks.flatMap (·.transactions)).dedup
      (fun tx => 1000 + 100 * tx.payload.length + tx.lockTime) 2000
    hashHeader := pinned (blocks.map (·.header)) (fun h => 1 + h.nonce) 1000 }

theorem payInjEnv_hashTx : Function.Injective payInjEnv.hashTx :=
  pinned_injective (by decide +kernel) (by decide +kernel)

theorem payInjEnv_hashHeader : Function.Injective payInjEnv.hashHeader :=
  pinned_injective (by decide +kernel) (by decide +kernel)

/-- A node of this network after some peer blocks. -/
def payRun (blocks : List Block) : Node := accept payInjEnv (.new payInjEnv .empty) blocks

end Sample

open Sample in
/-- One miner's two templates on the genesis block have one coinbase: the merged one is not paid. -/
theorem rivals_paid_once :
    ¬∀ (E : Env) (n : Node) (b : Block) (u : UtxoSet), Function.Injective E.hashTx →
      Function.Injective E.hashHeader → n.Reachable E →
      .applied b (n.dag.mergeBlocks (b.hash E)) u ∈ n.log →
      (∀ x ∈ b :: n.dag.mergeBlocks (b.hash E), x.Templated E) →
      (b :: n.dag.mergeBlocks (b.hash E)).Nodup →
      u.newCoinbaseValue (u.applyBlockWithMerges E b (n.dag.mergeBlocks (b.hash E))).1 =
        ((b :: n.dag.mergeBlocks (b.hash E)).map (·.coinbaseStandardTotal)).sum := by
  intro h
  have hlog : ((payRun (rivals payInjEnv ++ [joining payInjEnv 2])).log.filterMap
        Event.applied?).any (fun e =>
      e.1 = joining payInjEnv 2 ∧ e.2.1 = [template payInjEnv 2 [] [genesisHash] 1 1] ∧
        e.2.1 = (payRun (rivals payInjEnv ++ [joining payInjEnv 2])).dag.mergeBlocks
          (e.1.hash payInjEnv) ∧ (e.1 :: e.2.1).Nodup ∧
        e.2.2.newCoinbaseValue (e.2.2.applyBlockWithMerges payInjEnv e.1 e.2.1).1 <
          ((e.1 :: e.2.1).map (·.coinbaseStandardTotal)).sum) = true := by decide +kernel
  obtain ⟨⟨b, ms, u⟩, hin, he⟩ := List.any_eq_true.1 hlog
  obtain ⟨rfl, hms, hmerge, hnd, hlt⟩ := of_decide_eq_true he
  obtain ⟨e, hin, he⟩ := List.mem_filterMap.1 hin
  cases e <;> cases he
  dsimp only at hms hmerge hnd hlt
  rw [hmerge] at hin hms hnd hlt
  refine hlt.ne (h payInjEnv _ _ u payInjEnv_hashTx payInjEnv_hashHeader
    (reachable_accept .refl _) hin ?_ hnd)
  rw [hms]
  simp only [List.mem_cons, List.not_mem_nil, or_false, forall_eq_or_imp, forall_eq]
  exact ⟨template_templated _ _ _ _ _ _, template_templated _ _ _ _ _ _⟩

open Sample in
theorem coinbases_paid_joining :
    (payRun (rivals payInjEnv ++ [joining payInjEnv 4])).dag.mergeBlocks
        ((joining payInjEnv 4).hash payInjEnv) = [template payInjEnv 2 [] [genesisHash] 1 1] ∧
      UtxoSet.empty.newCoinbaseValue (UtxoSet.empty.applyBlockWithMerges payInjEnv
        (joining payInjEnv 4) [template payInjEnv 2 [] [genesisHash] 1 1]).1 =
          2 * initialRewardZents := by
  have hmerge : (payRun (rivals payInjEnv ++ [joining payInjEnv 4])).dag.mergeBlocks
      ((joining payInjEnv 4).hash payInjEnv) = [template payInjEnv 2 [] [genesisHash] 1 1] := by
    decide +kernel
  refine ⟨hmerge, ?_⟩
  have hiff := coinbases_paid_iff payInjEnv
    (payRun (rivals payInjEnv ++ [joining payInjEnv 4])).dag (joining payInjEnv 4) .empty
    (UtxoSet.empty.applyBlockWithMerges payInjEnv (joining payInjEnv 4)
      [template payInjEnv 2 [] [genesisHash] 1 1]).1 ⟨[⟨[]⟩], [⟨⟨1801⟩, 0⟩]⟩ payInjEnv_hashTx
    (template_templated _ _ _ _ _ _)
  rw [hmerge] at hiff
  have hpaid := (hiff (by simpa using template_templated _ _ _ _ _ _) ⟨_, [], rfl, rfl, nofun⟩
    (Prod.ext rfl (by decide +kernel))).2
  refine (hpaid ?_).trans (by decide +kernel)
  decide +kernel

end Zentra

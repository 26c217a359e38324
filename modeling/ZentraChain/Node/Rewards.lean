import ZentraChain.Node.Conservation
import ZentraChain.Node.Live

/-!
# The rewards a run pays out

* `validate_coinbase_le`: a validated block without saturating totals pays its coinbase no more
  than the subsidy and its fees.
* `PaidOut`: the coinbase outputs that a run puts into the set, and with which fees.
* `Reachable.coinbase_paidOut`: every coinbase entry of the set was paid out.
* `rewards_keep_subsidy`: when every reward obeys the subsidy rule.
-/

namespace Zentra

namespace Block

/-- The exact fees that the transactions of a block pay. -/
def fees (E : Env) (u : UtxoSet) (b : Block) : Nat :=
  blockInputs E u b.transactions ∅ - b.regularTotal

theorem reward_genesis (E : Env) : (genesis E).coinbaseTotal = (genesis E).reward E :=
  (EmissionSchedule.new_blockReward_zero E.network).symm

/-- The coinbase of a block is its only transaction without inputs to spend. -/
theorem CoinbaseFirst.coinbase? {b : Block} {tx : Transaction} (hb : b.CoinbaseFirst)
    (hm : tx ∈ b.transactions) (hc : tx.isCoinbase = true) : b.coinbase? = some tx := by
  obtain ⟨cb, txs, ht, hcb, hreg⟩ := hb
  rw [ht] at hm
  rcases List.mem_cons.1 hm with rfl | hm
  · exact coinbase?_cons ht hcb
  · rw [hreg tx hm] at hc
    cases hc

end Block

variable {E : Env} {u u' : UtxoSet} {b m : Block} {ms : List Block} {p : OutPoint}
  {e : UtxoEntry} {undo : BlockUndoData}

/-- **A validated block without saturating totals** pays its coinbase from subsidy and fees. -/
theorem validate_coinbase_le (h : validateBlockTransactions E b u = .ok ())
    (hns : b.NoSaturation) : b.coinbaseTotal ≤ b.reward E + b.fees E u := by
  by_cases hne : b.transactions = []
  · simp [Block.coinbaseTotal, Block.coinbase?, hne]
  · have hcap := validate_cap h hns
    rw [Block.outputTotal_eq (validate_coinbaseFirst h hne)] at hcap
    unfold Block.fees
    omega

namespace UtxoSet

/-- A coinbase entry after some transactions was there before, or a coinbase created it. -/
theorem applyTransactions_coinbase {height : Nat} : ∀ {txs : List Transaction} {u u' : UtxoSet}
    {ds : List TxUndoData}, applyTransactions E height txs u = (u', .ok ds) →
      u'.getUtxo p = some e → e.isCoinbase = true →
        u.getUtxo p = some e ∨ ∃ tx ∈ txs, tx.isCoinbase = true ∧ p ∈ tx.created E
  | [], _, _, _, h, hp, _ => by cases h; exact .inl hp
  | tx :: txs, u, u', ds, h, hp, hc => by
    obtain ⟨w, d, ds', h1, h2, -⟩ := applyTransactions_cons_ok h
    have ha := applyTransaction_ok h1
    rcases applyTransactions_coinbase h2 hp hc with hw | ⟨t, ht, hrest⟩
    · by_cases hm : p ∈ tx.created E
      · obtain ⟨e', he', -, hcb⟩ := ha.new p hm
        rw [hw] at he'
        cases he'
        exact .inr ⟨tx, List.mem_cons_self, hcb ▸ hc, hm⟩
      · rw [ha.keep p hm] at hw
        split at hw
        · cases hw
        · exact .inl hw
    · exact .inr ⟨t, List.mem_cons_of_mem _ ht, hrest⟩

/-- A coinbase entry after a block was there before, or it is of the block's or a merge block's
coinbase. -/
theorem applyBlockWithMerges_coinbase (h : u.applyBlockWithMerges E b ms = (u', .ok undo))
    (hp : u'.getUtxo p = some e) (hc : e.isCoinbase = true) :
    u.getUtxo p = some e ∨
      (∃ tx ∈ b.transactions, tx.isCoinbase = true ∧ p ∈ tx.created E) ∨
      ∃ m ∈ ms, p ∈ m.coinbaseOutpoints E ∧ p ∈ undo.mergeCoinbases := by
  obtain ⟨w, ds, hw, rfl, rfl⟩ := applyBlockWithMerges_ok h
  by_cases hm : p ∈ (creditMerges E ms w).2
  · obtain ⟨m, hmem, hpm⟩ := List.mem_flatMap.1 (mem_creditMerges.1 hm).1
    exact .inr (.inr ⟨m, hmem, hpm, hm⟩)
  · rw [creditMerges_keep hm] at hp
    exact (applyTransactions_coinbase hw hp hc).imp id .inl

end UtxoSet

/-! ## What a run pays out -/

/-- The output `p` of the coinbase of a block is put into the set: with its own block, whose
transactions pay the fees, or with a block that merges it, without any of its transactions. -/
inductive PaidOut (E : Env) (log : List Event) : Block → Nat → OutPoint → Prop
  | own {b : Block} {ms : List Block} {u : UtxoSet} {p : OutPoint} :
      .applied b ms u ∈ log → p ∈ b.coinbaseOutpoints E → PaidOut E log b (b.fees E u) p
  | merged {b m : Block} {ms : List Block} {u u' : UtxoSet} {undo : BlockUndoData}
      {p : OutPoint} : .applied b ms u ∈ log →
      u.applyBlockWithMerges E b ms = (u', .ok undo) → m ∈ ms → p ∈ m.coinbaseOutpoints E →
      p ∈ undo.mergeCoinbases → PaidOut E log m 0 p

/-- Where coinbase entries come from. -/
def AllPaidOut (E : Env) (log : List Event) (u : UtxoSet) : Prop :=
  ∀ p e, u.getUtxo p = some e → e.isCoinbase = true → ∃ m fees, PaidOut E log m fees p

theorem AllPaidOut.apply {log : List Event} (hu : AllPaidOut E log u)
    (ha : .applied b ms u ∈ log) (hcb : b.CoinbaseFirst ∨ b.transactions = [])
    (h : u.applyBlockWithMerges E b ms = (u', .ok undo)) : AllPaidOut E log u' := by
  intro p e hp hc
  rcases UtxoSet.applyBlockWithMerges_coinbase h hp hc with hold | ⟨tx, htx, htc, hpc⟩ | hm
  · exact hu p e hold hc
  · rcases hcb with hcb | hnil
    · refine ⟨b, _, .own ha ?_⟩
      rw [Block.coinbaseOutpoints, hcb.coinbase? htx htc]
      exact hpc
    · rw [hnil] at htx
      cases htx
  · obtain ⟨m, hm, hpm, hpu⟩ := hm
    exact ⟨m, 0, .merged ha h hm hpm hpu⟩

namespace Node

variable {n : Node}

theorem allPaidOut_genesis {log : List Event} (h : .applied (.genesis E) [] .empty ∈ log) :
    AllPaidOut E log (genesisSet E) := by
  have happ : UtxoSet.empty.applyBlockWithMerges E (.genesis E) [] =
      (genesisSet E, .ok ⟨[⟨[]⟩], []⟩) := rfl
  refine AllPaidOut.apply ?_ h ?_ happ
  · intro p e hp
    cases hp
  · exact .inl ⟨_, [], rfl, rfl, by simp⟩

theorem Live.allPaidOut {tip : Hash} {ps rest : List Hash} {u₀ : UtxoSet} {L : List Event}
    (hl : Live E n tip ps rest u₀) (hn : n.log <:+ L) (hu : AllPaidOut E L u₀) :
    AllPaidOut E L n.utxo := by
  have hst := hl.stack
  clear hl
  generalize n.utxo = u at hst
  induction hst with
  | nil => exact hu
  | cons _ ha _ hq ih =>
    obtain ⟨b, hb, happ⟩ := Dag.machine_apply_iff.1 ha
    obtain ⟨b', hb', hv, -, hlog⟩ := hq
    rw [hb] at hb'
    cases hb'
    refine ih.apply (hn.subset hlog) ?_ happ
    by_cases hne : b.transactions = []
    · exact .inr hne
    · exact .inl (validate_coinbaseFirst hv hne)

/-- **Every coinbase entry of the set was paid out** in the run. -/
theorem Reachable.coinbase_paidOut (hn : n.Reachable E) (hu : Undoable E n.log) :
    AllPaidOut E n.log n.utxo := by
  have hstart : .applied (.genesis E) [] .empty ∈ n.log := by
    refine hn.moves.log.subset ?_
    rw [(new_empty E).2.2]
    exact List.mem_singleton_self _
  have hc : Chained E (fun _ _ u₀ => AllPaidOut E n.log u₀) n := by
    refine Chained.moves hu (fun _ h => h) (fun hc _ _ hin _ _ _ => ?_) hn.moves
      (chained_new fun _ _ => allPaidOut_genesis hstart) (List.suffix_refl _)
    obtain ⟨tip, ps, rest, u₀, hl, hk⟩ := hc.live
    exact hl.allPaidOut ((List.suffix_cons _ _).trans hin) hk
  obtain ⟨tip, ps, rest, u₀, hl, hk⟩ := hc.live
  exact hl.allPaidOut (List.suffix_refl _) hk

/-! ## The subsidy rule -/

/-- What the code leaves unchecked: a validated block has no saturating total, and the coinbase of
a merge block that creates anything stays within its subsidy. -/
structure SubsidyKept (E : Env) (log : List Event) : Prop where
  validated : ∀ b u, .validated b u ∈ log → b.NoSaturation
  merged : ∀ b ms u, .applied b ms u ∈ log → ∀ m ∈ ms, m.coinbaseOutpoints E ≠ [] →
    m.coinbaseTotal ≤ m.reward E

/-- **Every coinbase put into the set obeys the subsidy rule** in a run that is undoable and keeps
the rule where the code does not check it. -/
theorem rewards_keep_subsidy (E : Env) (n : Node) (hn : n.Reachable E) (hu : Undoable E n.log)
    (hk : SubsidyKept E n.log) :
    AllPaidOut E n.log n.utxo ∧
      ∀ m fees p, PaidOut E n.log m fees p → m.coinbaseTotal ≤ m.reward E + fees := by
  refine ⟨hn.coinbase_paidOut hu, fun m fees p hp => ?_⟩
  have hlog := hn.logOk hu
  cases hp with
  | own ha hp =>
    rcases hlog.applied ha with rfl | hv
    · exact Nat.le_trans (Block.reward_genesis E).le (Nat.le_add_right _ _)
    · exact validate_coinbase_le (hlog.mem hv) (hk.validated _ _ hv)
  | merged ha _ hm hp _ => exact hk.merged _ _ _ ha m hm (List.ne_nil_of_mem hp)

end Node

namespace Sample

/-- A side block of `first`. -/
def side : Block := block 2 .gpu [genesisHash] 1 1 [coinbase 2 [subsidy]]

/-- A side block that pays itself six billion coins. -/
def greedy : Block :=
  block 2 .gpu [genesisHash] 1 1 [coinbase 2 [⟨6 * 10 ^ 15, by decide⟩]]

/-- A block on `first` that merges the block with the hash of `side` and `greedy`. -/
def merging : Block := block 3 .gpu [⟨3⟩, ⟨2⟩] 3 2 [coinbase 3 [subsidy]]

/-- A block that merges `side` nine more times and spends its coinbase. -/
def again : Block :=
  block 4 .ltcAsic (⟨4⟩ :: List.replicate 9 ⟨3⟩) 13 3
    [coinbase 4 [subsidy], transfer 5 [⟨⟨1002⟩, 0⟩] [subsidy]]

end Sample

open Sample in
/-- The greedy block is paid when it is merged. -/
theorem merge_breaks_subsidy :
    ¬∀ n : Node, n.Reachable env → ∀ m fees p, PaidOut env n.log m fees p →
      m.coinbaseTotal ≤ m.reward env + fees := by
  intro h
  have hlog : ((run [first, greedy, merging]).log.filterMap Event.applied?).any (fun e =>
      e.1 = merging ∧ e.2.1 = [greedy] ∧ (e.2.2.applyBlockWithMerges env merging [greedy]).2 =
        .ok ⟨[⟨[]⟩], [⟨⟨1002⟩, 0⟩]⟩) = true := by decide +kernel
  obtain ⟨⟨b, ms, u⟩, hin, he⟩ := List.any_eq_true.1 hlog
  obtain ⟨rfl, rfl, happ⟩ := of_decide_eq_true he
  obtain ⟨e, hin, he⟩ := List.mem_filterMap.1 hin
  cases e <;> cases he
  have happ' : u.applyBlockWithMerges env merging [greedy] =
      ((u.applyBlockWithMerges env merging [greedy]).1, .ok ⟨[⟨[]⟩], [⟨⟨1002⟩, 0⟩]⟩) :=
    Prod.ext rfl happ
  have hp : PaidOut env (run [first, greedy, merging]).log greedy 0 ⟨⟨1002⟩, 0⟩ :=
    .merged hin happ' (by decide) (by decide) (by decide)
  exact absurd (h _ (reachable_run _) _ _ _ hp) (by decide +kernel)

open Sample in
theorem rewards_keep_subsidy_merging :
    AllPaidOut env (run [first, side, merging]).log (run [first, side, merging]).utxo ∧
      ∀ m fees p, PaidOut env (run [first, side, merging]).log m fees p →
        m.coinbaseTotal ≤ m.reward env + fees := by
  refine Node.rewards_keep_subsidy env (run [first, side, merging]) (reachable_run _)
    (Node.undoable_of_connects (by decide +kernel)) ⟨fun b u hv => ?_, fun b ms u ha m hm _ => ?_⟩
  · have hlog : ∀ v ∈ (run [first, side, merging]).log.filterMap Event.validated?,
        v.1.NoSaturation := by decide +kernel
    exact hlog (b, u) (List.mem_filterMap.2 ⟨_, hv, rfl⟩)
  · have hlog : ∀ a ∈ (run [first, side, merging]).log.filterMap Event.applied?,
        ∀ m ∈ a.2.1, m.coinbaseTotal ≤ m.reward env := by decide +kernel
    exact hlog (b, ms, u) (List.mem_filterMap.2 ⟨_, ha, rfl⟩) m hm

end Zentra

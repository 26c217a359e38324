import ZentraChain.Node.Rewards

/-!
# The supply cap

Along the selected chain the set holds, with what was burned, at most what the emission schedule
has paid out up to the height of the chain, as long as every block merges no more than the
subsidies of the heights that it skips.

* `applyBlockWithMerges_supply_le`: one validated block.
* `Live.supply_le`: the selected chain; `Reachable.supply_le`: a run, failed reorganizations
  included.
* `supply_capped`: the cap.
-/

namespace Zentra

variable {E : Env} {u u' : UtxoSet} {b : Block} {ms : List Block} {undo : BlockUndoData}

/-- What the schedule has paid out below a height. -/
def Env.emitted (E : Env) (height : Nat) : Nat := (E.emission.totalEmittedAtHeight height).zents

theorem Env.emitted_succ (E : Env) (height : Nat) :
    E.emitted (height + 1) = E.emitted height + (E.emission.blockReward height).zents :=
  EmissionSchedule.totalEmitted_succ (EmissionSchedule.new_interval_pos _) height

theorem Env.emitted_mono (E : Env) {h k : Nat} (hle : h ≤ k) : E.emitted h ≤ E.emitted k :=
  EmissionSchedule.totalEmitted_mono (EmissionSchedule.new_interval_pos _) hle

/-- **A validated block** adds at most its subsidy and its merge coinbases to the supply. -/
theorem applyBlockWithMerges_supply_le (hv : validateBlockTransactions E b u = .ok ())
    (hns : b.NoSaturation) (h : u.applyBlockWithMerges E b ms = (u', .ok undo)) :
    u'.supply ≤ u.supply + b.reward E + (ms.map (·.coinbaseStandardTotal)).sum := by
  obtain ⟨w, ds, hw, rfl, -⟩ := UtxoSet.applyBlockWithMerges_ok h
  have hcons := (conserves_iff_exactCap hw).2 (validate_exactCap hv hns)
  have hburn := UtxoSet.applyTransactions_burned hw
  have hcredit := UtxoSet.creditMerges_value_le (E := E) ms w
  have hsame : (UtxoSet.creditMerges E ms w).1.totalBurned = w.totalBurned :=
    UtxoSet.creditMerges_totalBurned
  rw [← Block.burnTotal] at hburn
  unfold UtxoSet.supply
  rw [hsame]
  omega

namespace Node

/-- What the code leaves unchecked: a validated block has no saturating total, and the coinbases
that a block merges pay no more than the subsidies of the heights it skips. -/
structure EmissionKept (E : Env) (log : List Event) : Prop where
  validated : ∀ b u, .validated b u ∈ log → b.NoSaturation
  merged : ∀ b ms u, .applied b ms u ∈ log →
    (ms.map (·.coinbaseStandardTotal)).sum + E.emitted (b.header.blueScore - ms.length) ≤
      E.emitted b.header.blueScore

variable {n n' : Node} {h p tip : Hash} {ps rest chain : List Hash} {u₀ : UtxoSet}
  {L : List Event}

theorem length_mergeBlocks {d : Dag} (hw : d.Wf E) (hs : (d.getBlock h).isSome) :
    (d.mergeBlocks h).length = (d.mergesetBluesOf h).length := by
  have hall := hw.mergesetBlues_stored hs
  unfold Dag.mergeBlocks
  rw [List.length_filterMap_eq_countP, List.countP_eq_length]
  exact hall

/-- The set at a block of the chain, one step up. -/
theorem supply_step {d : Dag} (hw : d.Wf E) (hk : EmissionKept E L)
    (hn : d.chainNext h = some p) (hb : d.getBlock h = some b) {log : List Event}
    (hacc : Accepted E d log h u) (hlog : ∀ e ∈ log, e ∈ L)
    (happ : u.applyBlockWithMerges E b (d.mergeBlocks (b.hash E)) = (u', .ok undo))
    (hu : u.supply ≤ E.emitted (d.score p + 1)) : u'.supply ≤ E.emitted (d.score h + 1) := by
  obtain ⟨b', hb', hv, hvl, hal⟩ := hacc
  rw [hb] at hb'
  cases hb'
  have hstep := applyBlockWithMerges_supply_le hv (hk.validated _ _ (hlog _ hvl)) happ
  have hm := hk.merged _ _ _ (hlog _ hal)
  -- the heights skipped are those of the merge blocks
  have hscore := (hw.chainNext_some hb hn).2
  have hlen := length_mergeBlocks hw (h := b.hash E) (by rw [hw.hash h b hb, hb]; rfl)
  rw [hw.hash h b hb] at hm hlen hstep
  have hskip : b.header.blueScore - (d.mergeBlocks h).length = d.score p + 1 := by
    rw [← hw.score_eq hb]
    omega
  rw [hskip] at hm
  rw [hw.score_eq hb, E.emitted_succ, ← Block.reward]
  omega

/-- **The supply on the selected chain** of a live node. -/
theorem Live.supply_le (hs : Sound E n) (hl : Live E n tip ps rest u₀) (hn : n.log <:+ L)
    (hk : EmissionKept E L) (hne : rest ≠ [])
    (hu : ∀ x ∈ rest.head?, u₀.supply ≤ E.emitted (n.dag.score x + 1)) :
    n.utxo.supply ≤ E.emitted (n.dag.score tip + 1) := by
  have hst := hl.stack
  have hc := hl.chain
  clear hl
  generalize n.utxo = u at hst
  induction hst generalizing tip with
  | nil =>
    obtain ⟨x, xs, rfl⟩ := List.exists_cons_of_ne_nil hne
    rw [hc.head]
    exact hu x rfl
  | @cons i is s s' undo _ ha _ hq ih =>
    obtain ⟨b, hb, happ⟩ := Dag.machine_apply_iff.1 ha
    obtain ⟨p, ys, hys⟩ := List.exists_cons_of_ne_nil (List.append_ne_nil_of_right_ne_nil is hne)
    rw [List.cons_append, hys] at hc
    obtain ⟨rfl, hnext, htail⟩ := hc.step
    rw [← hys] at htail
    exact supply_step hs.wf hk hnext hb hq (fun e he => hn.subset he) happ (ih htail)

/-- A new tip that cannot be reached has the score of the old one at least. -/
theorem score_le_of_failed (hs : Sound E n) (ht : n.dag.getSelectedTip = some tip)
    (hj : Joins E n.dag b) (hl : Ledger E (n.enter E b) n') {t : Hash}
    (ht' : n'.dag.getSelectedTip = some t) : n.dag.score tip ≤ n'.dag.score t := by
  obtain ⟨m, v, evs, rfl, -⟩ := hl
  have hle := (hj.wf hs.wf).selectedTip_score_le ht ht'
  have hsame : (n.dag.extend E b).score tip = n.dag.score tip := by
    unfold Dag.score GhostdagManager.scoreOf
    rw [Dag.getGhostdag_extend_of_isSome hj.new (hs.wf.selectedTip_stored ht)]
  rw [hsame] at hle
  exact hle

theorem genesisSet_supply_le (E : Env) : (genesisSet E).supply ≤ E.emitted 1 := by
  have hset : genesisSet E = UtxoSet.empty.insert ⟨(Block.genesisCoinbase E).txid E, 0⟩
      ⟨⟨initialRewardZents, initialRewardZents_le⟩, Block.addressOf E 0, 0, true⟩ := rfl
  have hv := UtxoSet.value_insert .empty ⟨(Block.genesisCoinbase E).txid E, 0⟩
    ⟨⟨initialRewardZents, initialRewardZents_le⟩, Block.addressOf E 0, 0, true⟩
  have h0 : UtxoSet.empty.value = 0 := rfl
  have hr : (E.emission.blockReward 0).zents = initialRewardZents :=
    EmissionSchedule.new_blockReward_zero E.network
  have hb : (genesisSet E).totalBurned.zents = 0 := rfl
  rw [← hset, h0] at hv
  rw [E.emitted_succ, hr, UtxoSet.supply, hb]
  simp only at hv
  omega

/-- **The supply after a run** stays within what the schedule has paid out at the selected tip. -/
theorem Reachable.supply_le (hn : n.Reachable E) (hz : NoZeroHash E n.log) (hu : Undoable E n.log)
    (hk : EmissionKept E n.log) :
    ∃ tip, n.dag.getSelectedTip = some tip ∧ n.utxo.supply ≤ E.emitted (n.dag.score tip + 1) := by
  have hc : Chained E (fun d rest u₀ => ∀ x ∈ rest.head?, (d.getBlock x).isSome ∧
      u₀.supply ≤ E.emitted (d.score x + 1)) n := by
    refine Chained.moves hu (fun hwi hK x hx => ?_) ?_ hn.moves (chained_new fun rest hr x hx => ?_)
      (List.suffix_refl _)
    · obtain ⟨h1, h2⟩ := hK x hx
      refine ⟨hwi.stored h1, ?_⟩
      unfold Dag.score GhostdagManager.scoreOf at h2 ⊢
      rw [hwi.ghostdag x h1]
      exact h2
    · intro n n₁ b chain hc hj _ hin hs₁ hledger hl₁ x hx
      obtain ⟨tip, ps, rest, u₀, hl, hK⟩ := hc.live
      have hsub := (List.suffix_cons _ _).trans hin
      have hz' := hc.sound.getBlock_zero (hz.suffix hsub)
      have hle := hl.supply_le hc.sound hsub hk (hl.root hz')
        fun x hx => (hK x hx).2
      have hx' : b.hash E = x := by
        obtain ⟨ys, rfl⟩ : ∃ ys, chain = x :: ys := by
          cases chain with
          | nil => cases hx
          | cons y ys => cases hx; exact ⟨ys, rfl⟩
        exact hl₁.chain.head
      refine ⟨?_, Nat.le_trans hle (E.emitted_mono ?_)⟩
      · exact hx' ▸ hs₁.wf.selectedTip_stored hl₁.selected
      · exact Nat.succ_le_succ (hx' ▸ score_le_of_failed hc.sound hl.selected hj hledger hl₁.selected)
    · rw [hr hz.genesis] at hx
      cases hx
      have hw := Dag.wf_first E
      rw [hw.score_eq hw.genesis]
      exact ⟨by rw [hw.genesis]; rfl, genesisSet_supply_le E⟩
  obtain ⟨tip, ps, rest, u₀, hl, hK⟩ := hc.live
  exact ⟨tip, hl.selected, hl.supply_le hc.sound (List.suffix_refl _) hk
    (hl.root (hc.sound.getBlock_zero hz))    fun x hx => (hK x hx).2⟩

/-- **The supply cap** holds in every run that is undoable and merges no more than the schedule
has left out. -/
theorem supply_capped (E : Env) (n : Node) (hn : n.Reachable E) (hz : NoZeroHash E n.log)
    (hu : Undoable E n.log) (hk : EmissionKept E n.log) : n.utxo.supply ≤ maxSupplyZents := by
  obtain ⟨tip, -, hle⟩ := hn.supply_le hz hu hk
  exact Nat.le_trans hle (EmissionSchedule.totalEmitted_le_max _)

end Node

open Sample in
/-- The greedy block takes the supply above the cap when it is merged. -/
theorem merge_breaks_cap : ¬∀ n : Node, n.Reachable env → n.utxo.supply ≤ maxSupplyZents :=
  fun h => absurd (h (run [first, greedy, merging]) (reachable_run _)) (by decide +kernel)

open Sample in
theorem supply_capped_merging : (run [first, side, merging]).utxo.supply ≤ maxSupplyZents := by
  refine Node.supply_capped env (run [first, side, merging]) (reachable_run _)
    ⟨hash_ne_zero _, fun s b _ => hash_ne_zero b⟩ (Node.undoable_of_connects (by decide +kernel))
    ⟨fun b u hv => ?_, fun b ms u ha => ?_⟩
  · have hlog : ∀ v ∈ (run [first, side, merging]).log.filterMap Event.validated?,
        v.1.NoSaturation := by decide +kernel
    exact hlog (b, u) (List.mem_filterMap.2 ⟨_, hv, rfl⟩)
  · have hlog : ∀ a ∈ (run [first, side, merging]).log.filterMap Event.applied?,
        (a.2.1.map (·.coinbaseStandardTotal)).sum +
            env.emitted (a.1.header.blueScore - a.2.1.length) ≤
          env.emitted a.1.header.blueScore := by decide +kernel
    exact hlog (b, ms, u) (List.mem_filterMap.2 ⟨_, ha, rfl⟩)

end Zentra

import ZentraChain.Node.BlueScore
import ZentraChain.Node.Mining

/-!
# Miner and validator

The worker stamps the bits of the manager, whose history is that of the selected tip's chain. The
validator walks back from the heaviest parent, the last of those with the highest score.

* `heaviestParent_eq`: the heaviest parent is the one that GhostDAG selects.
* `expected_eq_rebuilt`: the bounded walk and the rebuilt history give the same bits.
* `Reachable.synced`: the manager has the history of the selected tip, if the chain could be moved
  there.
* `miner_agrees_iff`: when the worker's bits and selected parent are the validator's.
-/

namespace Zentra

namespace Dag

variable {E : Env} {d d' : Dag} {h t : Hash} {chain parents : List Hash} {lane : LaneId}
  {m m' : DifficultyManager} {network : NetworkType}

/-! ## The heaviest parent -/

/-- The fold of `calculate_expected_difficulty` goes on with the score of its best. -/
theorem heaviestParent_foldl (hw : d.Wf E) : ∀ (l : List Hash) (a : Hash),
    (∀ p ∈ l, (d.getBlock p).isSome) →
      l.foldl (fun (best : Hash × Nat) p =>
        match d.getHeader p with
        | some h => if h.blueScore ≥ best.2 then (p, h.blueScore) else best
        | none => best) (a, d.score a) =
      (l.foldl (fun best x => if d.score best ≤ d.score x then x else best) a,
        d.score (l.foldl (fun best x => if d.score best ≤ d.score x then x else best) a))
  | [], _, _ => rfl
  | p :: l, a, hs => by
    obtain ⟨b, hb⟩ := Option.isSome_iff_exists.1 (hs p List.mem_cons_self)
    have ih := heaviestParent_foldl hw l (if d.score a ≤ d.score p then p else a)
      fun q hq => hs q (List.mem_cons_of_mem _ hq)
    rw [List.foldl_cons, List.foldl_cons, ← ih, hw.header, hb]
    simp only [Option.map_some]
    rw [← hw.score_eq hb]
    split <;> rfl

/-- **The heaviest parent** is the one that GhostDAG selects. -/
theorem heaviestParent_eq (hw : d.Wf E) (hs : ∀ p ∈ parents, (d.getBlock p).isSome) :
    d.heaviestParent parents = GhostdagManager.selectParent d.getGhostdag parents := by
  cases parents with
  | nil => rfl
  | cons a l =>
    obtain ⟨b, hb⟩ := Option.isSome_iff_exists.1 (hs a List.mem_cons_self)
    have hl := heaviestParent_foldl hw l a fun q hq => hs q (List.mem_cons_of_mem _ hq)
    unfold heaviestParent
    rw [List.foldl_cons, hw.header, hb]
    simp only [Option.map_some, ge_iff_le, Nat.zero_le, if_true]
    rw [← hw.score_eq hb]
    exact congrArg Prod.fst hl

/-! ## The two histories -/

theorem rebuild_congr (hm : m.clear = m'.clear) :
    d.rebuildDifficultyHistory m t = d.rebuildDifficultyHistory m' t := by
  rw [rebuildDifficultyHistory, rebuildDifficultyHistory, hm]

theorem clear_rebuild : (d.rebuildDifficultyHistory m t).clear = m.clear :=
  DifficultyManager.clear_foldl_recordBlock _

theorem rebuild_zero : d.rebuildDifficultyHistory m .zero = m.clear := by
  rw [rebuildDifficultyHistory, headerWalk_zero]
  rfl

/-- A larger graph rebuilds the same history. -/
theorem Within.rebuild (hwi : d.Within d') (hw : d.Wf E) (hw' : d'.Wf E)
    (hs : (d.getBlock t).isSome) :
    d'.rebuildDifficultyHistory m t = d.rebuildDifficultyHistory m t := by
  obtain ⟨chain, hc⟩ := hw.exists_chain hs
  have hheader : ∀ x ∈ chain, d'.getHeader x = d.getHeader x := fun x hx =>
    hwi.getHeader hw hw' (hw.chain_stored hs hc x hx)
  have hc' := hc.within hwi hw hs
  rw [rebuildDifficultyHistory, rebuildDifficultyHistory, headerWalk_eq hc (hw.chain_headers hs hc),
    headerWalk_eq hc' (hw'.chain_headers (hwi.stored hs) hc'), List.filterMap_congr hheader]

/-- **The bounded walk sees all that matters**: from the same block, it gives the bits that the
history rebuilt there gives. -/
theorem expected_eq_rebuilt (hw : d.Wf E) (hs : (d.getBlock t).isSome)
    (ht : d.heaviestParent parents = t) : d.calculateExpectedDifficulty network parents lane =
      (d.rebuildDifficultyHistory (.newWithNetwork network) t).getNextDifficulty lane := by
  unfold calculateExpectedDifficulty
  simp only [ht]
  split
  · rename_i hz
    rw [hz, rebuild_zero]
    rfl
  · obtain ⟨chain, hc⟩ := hw.exists_chain hs
    have hsome := hw.chain_headers hs hc
    rw [laneWalk_eq hc hsome, DifficultyEngine.foldl_recordBlock_take rfl
      (DifficultyEngine.windowSize_newWithNetwork lane network)]
    rw [rebuildDifficultyHistory, headerWalk_eq hc hsome, DifficultyManager.getNextDifficulty,
      DifficultyManager.foldl_recordBlock, List.filter_reverse, List.map_reverse]
    rfl

/-! ## The selected tip -/

/-- The last tip of the highest score has the most work of them, and the lowest hash of these. -/
def LastIsBest (d : Dag) : Prop :=
  ∃ pre t post, d.tips = pre ++ t :: post ∧ (∀ x ∈ post, d.score x < d.score t) ∧
    ∀ x ∈ pre, better (d.key x) (d.key t) = false

theorem Wf.selectParent_tips (hw : d.Wf E) : GhostdagManager.selectParent d.getGhostdag d.tips = t ↔
    GhostdagManager.maxByKey d.score d.tips = some t := by
  obtain ⟨a, l, hal⟩ := List.exists_cons_of_ne_nil hw.tips_ne
  rw [hal]
  exact (Option.some_inj (a := GhostdagManager.selectParent d.getGhostdag (a :: l))).symm

/-- **GhostDAG selects the selected tip** of all tips when the last of the highest score is the
best. -/
theorem Wf.selectParent_iff (hw : d.Wf E) (ht : d.getSelectedTip = some t) :
    GhostdagManager.selectParent d.getGhostdag d.tips = t ↔ d.LastIsBest := by
  have hmax := hw.score_le_selectedTip ht
  have hbest : ∀ x ∈ d.tips, better (d.key x) (d.key t) = false := fun x hx =>
    getSelectedTip_max ht x hx (hw.getHeader_isSome ▸ hw.tips x hx)
  rw [hw.selectParent_tips, GhostdagManager.maxByKey_eq_some hmax]
  constructor
  · rintro ⟨pre, post, he, hpost⟩
    exact ⟨pre, t, post, he, hpost, fun x hx => hbest x (he ▸ List.mem_append_left _ hx)⟩
  · rintro ⟨pre, t', post, he, hpost, hpre⟩
    have hmem' : t' ∈ d.tips := he ▸ List.mem_append_right _ List.mem_cons_self
    have hmem := (getSelectedTip_mem ht).1
    -- the selected tip is not listed later, as it would score lower, and not before a better one
    have heq : t' = t := by
      rw [he, List.mem_append, List.mem_cons] at hmem
      rcases hmem with hmem | rfl | hmem
      · exact better_antisymm (hbest t' hmem') (hpre t hmem)
      · rfl
      · exact absurd (hmax t' hmem') (Nat.not_le.2 (hpost t hmem))
    rw [heq] at he hpost
    exact ⟨pre, post, he, hpost⟩

end Dag

namespace Node

variable {E : Env} {n n' : Node} {b : Block} {now : Nat}

/-! ## The history of a node -/

/-- The manager has the history of the selected tip's chain. -/
def Synced (E : Env) (n : Node) : Prop :=
  ∀ tip, n.dag.getSelectedTip = some tip →
    n.difficulty = n.dag.rebuildDifficultyHistory (.newWithNetwork E.network) tip

/-- The block takes the selected tip. -/
def TakesTip (E : Env) (s : NodeState) (b : Block) : Prop :=
  some ((⟨s, []⟩ : Node).newTip E b) ≠ s.dag.getSelectedTip

instance (E : Env) (s : NodeState) (b : Block) : Decidable (TakesTip E s b) :=
  inferInstanceAs (Decidable (_ ≠ _))

/-- The chain could be moved to the last block that took the selected tip. -/
def LastMoved (E : Env) (log : List Event) : Prop :=
  ∀ i ∈ (log.filterMap Event.inserting?).find? fun i => TakesTip E i.1 i.2, ¬ReorgFails E i.1 i.2

instance (E : Env) (log : List Event) : Decidable (LastMoved E log) :=
  inferInstanceAs (Decidable (∀ i ∈ List.find? _ _, _))

/-- What a run keeps of the manager. -/
structure History (E : Env) (n : Node) : Prop where
  clear : n.difficulty.clear = .newWithNetwork E.network
  synced : LastMoved E n.log → Synced E n

/-- The manager of a new node has the genesis block, unless that hashes to the sentinel. -/
theorem new_difficulty (E : Env) : (new E .empty).difficulty =
    if (Block.genesis E).hash E = .zero then .newWithNetwork E.network
    else (DifficultyManager.newWithNetwork E.network).recordBlock (Block.genesis E).header.laneId
      (Block.genesis E).header.timestamp (Block.genesis E).header.bits := by
  have hd : (fresh E .empty).dag = .first E := rfl
  unfold new
  simp only [hd]
  rw [startPath_first]
  split <;> rfl

theorem headerWalk_first {fuel : Nat} (hz : (Block.genesis E).hash E ≠ .zero) :
    (Dag.first E).headerWalk (fuel + 1) ((Block.genesis E).hash E) = [(Block.genesis E).header] := by
  have hh : (Dag.first E).getHeader ((Block.genesis E).hash E) = some (Block.genesis E).header := by
    rw [(Dag.wf_first E).header, (Dag.wf_first E).genesis]
    rfl
  have hprev : (Dag.first E).prev ((Block.genesis E).hash E) = .zero := by
    rw [(Dag.wf_first E).prev_eq (Dag.wf_first E).genesis]
    rfl
  rw [Dag.headerWalk, if_neg hz, hh, hprev]
  simp only [Dag.headerWalk_zero]

theorem synced_new (E : Env) : Synced E (new E .empty) := by
  intro tip htip
  rw [(new_empty E).1] at htip ⊢
  obtain rfl := Option.some_inj.1 (Dag.getSelectedTip_first.symm.trans htip)
  rw [new_difficulty]
  split
  · rename_i hz
    rw [hz, Dag.rebuild_zero, DifficultyManager.clear_newWithNetwork]
  · rename_i hz
    unfold Dag.rebuildDifficultyHistory
    rw [Dag.fuel, headerWalk_first hz]
    rfl

theorem history_new (E : Env) : History E (new E .empty) where
  clear := by
    rw [new_difficulty]
    split
    · rfl
    · rw [DifficultyManager.clear_recordBlock, DifficultyManager.clear_newWithNetwork]
  synced := fun _ => synced_new E

theorem inserting_cons (s : NodeState) (b : Block) (log : List Event) :
    (.inserting s b :: log : List Event).filterMap Event.inserting? =
      (s, b) :: log.filterMap Event.inserting? := rfl

theorem lastMoved_aside {s : NodeState} {log : List Event} (hs : ¬TakesTip E s b) :
    LastMoved E (.inserting s b :: log) ↔ LastMoved E log := by
  unfold LastMoved
  rw [inserting_cons, List.find?_cons_of_neg (by simpa using hs)]

theorem not_lastMoved_failed {s : NodeState} {evs log : List Event} (hs : TakesTip E s b)
    (hf : ReorgFails E s b) (hi : evs.filterMap Event.inserting? = []) :
    ¬LastMoved E (evs ++ .inserting s b :: log) := by
  unfold LastMoved
  rw [List.filterMap_append, hi, List.nil_append, inserting_cons,
    List.find?_cons_of_pos (by simpa using hs)]
  exact fun h => h (s, b) rfl hf

/-- A block that leaves the selected tip leaves its history. -/
theorem Synced.aside (hsy : Synced E n) (hs : Sound E n) (hj : Joins E n.dag b)
    (heq : some (n.newTip E b) = n.dag.getSelectedTip) : Synced E (connected E (n.enter E b) b) := by
  intro tip htip
  have hold : n.dag.getSelectedTip = some tip := by
    rw [← heq, newTip]
    exact congrArg some (by rw [show (n.enter E b).dag.getSelectedTip = some tip from htip]; rfl)
  have hwi : n.dag.Within (n.dag.extend E b) := .extend hj.new
  show n.difficulty = (n.dag.extend E b).rebuildDifficultyHistory _ tip
  rw [hwi.rebuild hs.wf (hj.wf hs.wf) (hs.wf.selectedTip_stored hold)]
  exact hsy tip hold

/-- **A block keeps the history that of the selected tip**, unless the chain cannot be moved to
it. -/
theorem History.connect (hh : History E n) (hs : Sound E n) (hp : n.parentsStored b = true) :
    History E (connectBlock E now n b).2 := by
  have ho := connectBlock_outcome E now n b
  generalize (connectBlock E now n b).1 = r at ho
  generalize (connectBlock E now n b).2 = n' at ho ⊢
  cases ho with
  | refused _ => exact hh
  | aside he heq =>
    refine ⟨hh.clear, fun hlast => ?_⟩
    have hlast' := (lastMoved_aside fun ht => ht heq).1 hlast
    exact (hh.synced hlast').aside hs (he.joins hp) heq
  | moved he _ hr =>
    obtain ⟨m, u, evs, rfl, -⟩ := reorganize_eq_ledger hr
    have hclear : n.difficulty.clear = (DifficultyManager.newWithNetwork E.network).clear :=
      hh.clear.trans (DifficultyManager.clear_newWithNetwork _).symm
    refine ⟨Dag.clear_rebuild.trans hh.clear, fun _ tip htip => ?_⟩
    have hnew : n.newTip E b = tip := by
      rw [newTip, show (n.enter E b).dag.getSelectedTip = some tip from htip]
      rfl
    rw [← hnew]
    exact Dag.rebuild_congr hclear
  | failed he hne hr =>
    have hfail : ReorgFails E n.toNodeState b :=
      reorgFails_iff.2 ⟨hne, fun h => by rw [hr] at h; cases h⟩
    obtain ⟨m, u, evs, rfl, -, -, hi⟩ := reorganize_eq_ledger hr
    exact ⟨hh.clear, fun hlast => absurd hlast (not_lastMoved_failed hne hfail hi)⟩

theorem Actions.history (ha : Actions E (new E .empty) n) : History E n := by
  induction ha with
  | refl => exact history_new E
  | @tail m n hm ha ih =>
    have hs : Sound E m := (sound_new E).moves (Actions.moves hm)
    cases ha with
    | connect now hp => exact ih.connect hs hp
    | park _ _ _ => exact ⟨ih.clear, ih.synced⟩

/-- **The manager has the history of the selected tip**, if the chain could be moved there. -/
theorem Reachable.synced (hn : n.Reachable E) (hlast : LastMoved E n.log) : Synced E n :=
  hn.actions.history.synced hlast

/-! ## Agreement -/

/-- The bits that the worker stamps are those expected on its parents, and the parent that GhostDAG
selects of them is the selected tip. -/
structure Agrees (E : Env) (n : Node) : Prop where
  bits : ∀ now miner, (n.mineTemplate E now miner).2.header.bits =
    n.dag.calculateExpectedDifficulty E.network n.dag.tips miner.lane
  selectedParent : some (n.dag.ghostdagFor n.dag.tips).selectedParent = n.dag.getSelectedTip

theorem selectedParent_tips (hn : n.Reachable E) : (n.dag.ghostdagFor n.dag.tips).selectedParent =
    GhostdagManager.selectParent n.dag.getGhostdag n.dag.tips :=
  (GhostdagManager.processBlock_spec .defaultK n.dag.getGhostdag hn.sound.wf.tips_ne).1

/-- **Miner and validator agree** exactly when the last tip of the highest score is the best of
them, in every state in which the chain was moved to the last block that took the selected tip. -/
theorem miner_agrees_iff (E : Env) (n : Node) (hn : n.Reachable E) (hlast : LastMoved E n.log) :
    Agrees E n ↔ n.dag.LastIsBest := by
  have hw := hn.sound.wf
  obtain ⟨t, ht⟩ := hw.exists_selectedTip
  have hiff := hw.selectParent_iff ht
  constructor
  · intro ha
    refine hiff.1 (Option.some_inj.1 ?_)
    rw [← ht, ← ha.selectedParent, selectedParent_tips hn]
  · intro hbest
    have hsel := hiff.2 hbest
    have hheaviest : n.dag.heaviestParent n.dag.tips = t :=
      (Dag.heaviestParent_eq hw hw.tips).trans hsel
    refine ⟨fun now miner => ?_, ?_⟩
    · rw [Dag.expected_eq_rebuilt hw (hw.selectedTip_stored ht) hheaviest, ← hn.synced hlast t ht]
      rfl
    · rw [selectedParent_tips hn, hsel, ht]

end Node

namespace Sample

/-- Two blocks of one lane in quick succession, then two of other lanes beside them. -/
def tied : List Block := fast.take 2 ++ easy.take 2

/-- A block on the overpaid one, to which the chain is moved again. -/
def recovered : List Block := [overpaid, block 2 .gpu [⟨2⟩] 2 2 [coinbase 2 [subsidy]]]

end Sample

open Sample in
/-- The two tips have one score: the first is the selected tip, the last the heaviest parent. The
worker stamps harder bits on the lane of the first. -/
theorem miner_disagrees :
    (¬∀ n : Node, n.Reachable env → ∀ now miner, (n.mineTemplate env now miner).2.header.bits =
      n.dag.calculateExpectedDifficulty env.network n.dag.tips miner.lane) ∧
    ¬∀ n : Node, n.Reachable env →
      some (n.dag.ghostdagFor n.dag.tips).selectedParent = n.dag.getSelectedTip :=
  ⟨fun h => absurd (h (run tied) (reachable_run _) 0 ⟨.gpu, owner, []⟩) (by decide +kernel),
    fun h => absurd (h (run tied) (reachable_run _)) (by decide +kernel)⟩

open Sample in
theorem miner_agrees_recovered : Node.Agrees env (run recovered) := by
  refine (Node.miner_agrees_iff env (run recovered) (reachable_run _) (by decide +kernel)).2
    ⟨[], ⟨3⟩, [], by decide +kernel, ?_, ?_⟩
  · simp
  · simp

end Zentra

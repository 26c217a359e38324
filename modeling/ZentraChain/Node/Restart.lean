import ZentraChain.Node.Rewards

/-!
# Restarts

`ZentraNode::new` walks the selected chain of the stored graph and applies its blocks again, without
validating them. Where no reorganization has failed, that is the chain the running node has applied,
on the same sets.

* `startPath_eq`: the path of a restart is the selected chain.
* `Chained.new_db`: the set that a restart rebuilds; `Chained.restart`: the node after it.
* `restart_equals_live`, `applied_validated`.
-/

namespace Zentra

open UndoStack

variable {E : Env}

namespace Dag

variable {d : Dag} {h p tip : Hash} {b : Block} {chain : List Hash}
  {m : Finmap fun _ : Hash => List Hash}

/-! ## The stored graph -/

/-- The same graph with other children in the cache. -/
def withCache (d : Dag) (m : Finmap fun _ : Hash => List Hash) : Dag := { d with childrenCache := m }

theorem Wf.withCache (hw : d.Wf E) : (d.withCache m).Wf E := by
  obtain ⟨h1, h2, h3, h4, h5, h6, h7, h8, h9, h10, h11⟩ := hw
  exact ⟨h1, h2, h3, h4, h5, h6, h7, h8, h9, h10, h11⟩

theorem within_withCache : d.Within (d.withCache m) := ⟨fun _ _ => id, fun _ _ => rfl⟩

/-- A restart reads the graph back. -/
theorem Wf.initGenesis (hw : d.Wf E) : (new d.db).initGenesis E = d.withCache ∅ := by
  have hh : (new d.db).getHeader ((Block.genesis E).hash E) = some (Block.genesis E).header := by
    have := hw.header ((Block.genesis E).hash E)
    rw [hw.genesis] at this
    exact this
  have ht : (new d.db).db.dagTips = some d.tips := hw.dagTips
  obtain ⟨t, ts, htips⟩ := List.exists_cons_of_ne_nil hw.tips_ne
  rw [Dag.initGenesis, hh]
  simp only [ht, htips]
  rw [Dag.withCache, ← htips]
  rfl

/-! ## The path of a restart -/

theorem replayNext_some (hw : d.Wf E) (hb : d.getBlock h = some b) (hn : d.chainNext h = some p) :
    Node.replayNext d h b = some p := by
  obtain ⟨hp, hz⟩ := chainNext_eq_some.1 hn
  rw [hw.prev_eq hb] at hp
  rw [Node.replayNext, hw.ghostdag h b hb]
  simp only [hp, if_pos hz]

theorem replayNext_root (hw : d.Wf E) (hb : d.getBlock h = some b) (hp : b.header.parents = []) :
    Node.replayNext d h b = none := by
  rw [Node.replayNext, hw.ghostdag h b hb, hp]
  rfl

/-- The restart's walk over a chain down to the genesis block. -/
theorem replayPath_eq (hw : d.Wf E) : ∀ {hs : List Hash} {tip : Hash} {fuel : Nat},
    d.Chain tip (hs ++ [(Block.genesis E).hash E]) → hs.length < fuel →
      (∀ x ∈ hs, (d.getBlock x).isSome) →
      Node.replayPath d fuel tip = (hs ++ [(Block.genesis E).hash E]).filterMap d.getBlock
  | [], tip, fuel + 1, hc, _, _ => by
    have ht : tip = (Block.genesis E).hash E := hc.head
    have hz : (Block.genesis E).hash E ≠ .zero := by
      rcases hc with ⟨-, hnil⟩ | ⟨hz, -⟩
      · cases hnil
      · exact ht ▸ hz
    rw [ht, Node.replayPath, if_neg hz, hw.genesis]
    simp [replayNext_root hw hw.genesis rfl, hw.genesis]
  | h :: hs, tip, fuel + 1, hc, hlt, hst => by
    obtain ⟨p, ys, hys⟩ := List.exists_cons_of_ne_nil (l := hs ++ [(Block.genesis E).hash E])
      (by simp)
    obtain ⟨b, hb⟩ := Option.isSome_iff_exists.1 (hst h List.mem_cons_self)
    have hz : h ≠ .zero := by
      rcases hc with ⟨-, hnil⟩ | ⟨hz, hp⟩
      · cases hnil
      · obtain ⟨t, ht⟩ := hp.head
        cases ht
        exact hz
    rw [List.cons_append, hys] at hc
    obtain ⟨rfl, hnext, htail⟩ := hc.step
    rw [← hys] at htail
    have ih : Node.replayPath d fuel p = _ := replayPath_eq hw htail (Nat.lt_of_succ_lt_succ hlt)
      fun x hx => hst x (List.mem_cons_of_mem _ hx)
    rw [Node.replayPath, if_neg hz, hb]
    simp only [replayNext_some hw hb hnext, ih]
    rw [List.cons_append, List.filterMap_cons, hb]

end Dag

namespace Node

variable {n n' m : Node} {h tip : Hash} {ps rest : List Hash} {u₀ u : UtxoSet} {b : Block}
  {Q : Hash → UtxoSet → Prop}

/-- Replaying the blocks of a stack rebuilds its set. -/
theorem foldl_replayBlock (hst : m.dag.Stack E Q m.utxo ps u) :
    ∃ evs, ((ps.reverse.filterMap m.dag.getBlock).foldl (replayBlock E) m).utxo = u ∧
      ((ps.reverse.filterMap m.dag.getBlock).foldl (replayBlock E) m).dag = m.dag ∧
      ((ps.reverse.filterMap m.dag.getBlock).foldl (replayBlock E) m).log = evs ++ m.log ∧
      ∀ e ∈ evs, ∃ h ∈ ps, ∃ b t, m.dag.getBlock h = some b ∧
        e = .applied b (m.dag.mergeBlocks (b.hash E)) t ∧ Q h t := by
  generalize hu₀ : m.utxo = u₀ at hst
  induction hst with
  | nil => exact ⟨[], hu₀, rfl, rfl, by simp⟩
  | @cons h hs t u' undo _ ha _ hq ih =>
    obtain ⟨evs, h1, h2, h3, h4⟩ := ih
    obtain ⟨b, hb, happ⟩ := Dag.machine_apply_iff.1 ha
    rw [List.reverse_cons, List.filterMap_append, List.foldl_append]
    generalize (hs.reverse.filterMap m.dag.getBlock).foldl (replayBlock E) m = m' at h1 h2 h3
    simp only [List.filterMap_cons, hb, List.filterMap_nil, List.foldl_cons, List.foldl_nil]
    refine ⟨.applied b (m.dag.mergeBlocks (b.hash E)) t :: evs, ?_, h2, ?_, ?_⟩
    · obtain ⟨w, ds, hw, rfl, -⟩ := UtxoSet.applyBlockWithMerges_ok happ
      simp only [replayBlock, h1, h2, UtxoSet.applyBlock, hw]
    · simp only [replayBlock, h1, h2, h3]; rfl
    · intro e he
      rcases List.mem_cons.1 he with rfl | he
      · exact ⟨h, List.mem_cons_self, b, t, hb, rfl, hq⟩
      · obtain ⟨h', hh', hrest⟩ := h4 e he
        exact ⟨h', List.mem_cons_of_mem _ hh', hrest⟩

/-- The restart's path is the selected chain, down to the genesis block. -/
theorem startPath_eq (hw : n.dag.Wf E) (ht : n.dag.getSelectedTip = some tip)
    (hc : n.dag.Chain tip (ps ++ [(Block.genesis E).hash E])) :
    startPath n.dag = .genesis E :: ps.reverse.filterMap n.dag.getBlock := by
  have hst := hw.chain_stored (hw.selectedTip_stored ht) hc
  have hsub : ∀ x ∈ ps, x ∈ n.dag.db.blocks.keys := fun x hx => by
    rw [Finmap.mem_keys, ← Finmap.lookup_isSome]
    exact hst x (List.mem_append_left _ hx)
  have hlen : ps.length ≤ n.dag.db.blocks.keys.card := by
    have hnd := (List.nodup_append.1 hc.nodup).1
    rw [← List.toFinset_card_of_nodup hnd]
    exact Finset.card_le_card fun x hx => hsub x (List.mem_toFinset.1 hx)
  rw [startPath, ht]
  simp only
  rw [Dag.replayPath_eq hw hc (Nat.lt_succ_of_le hlen)
    fun x hx => hst x (List.mem_append_left _ hx)]
  simp [hw.genesis, List.filterMap_append, List.filterMap_reverse]

/-- **What a restart rebuilds**: the set of the running node, by applying blocks that were validated
against the sets they are applied to. -/
theorem Live.new_db (hs : Sound E n)
    (hl : Live E n tip ps [(Block.genesis E).hash E] (genesisSet E)) :
    ∃ evs, (new E n.dag.db).dag = n.dag.withCache ∅ ∧ (new E n.dag.db).utxo = n.utxo ∧
      (new E n.dag.db).log = evs ++ [.applied (.genesis E) [] .empty] ∧
      ∀ e ∈ evs, ∃ h ∈ ps, ∃ b t, n.dag.getBlock h = some b ∧
        e = .applied b (n.dag.mergeBlocks (b.hash E)) t ∧ Accepted E n.dag n.log h t := by
  have hw : (n.dag.withCache ∅).Wf E := hs.wf.withCache
  have hd : (fresh E n.dag.db).dag = n.dag.withCache ∅ := hs.wf.initGenesis
  have hpath : startPath (n.dag.withCache ∅) =
      .genesis E :: ps.reverse.filterMap n.dag.getBlock :=
    startPath_eq (n := { n with dag := n.dag.withCache ∅ }) hw hl.selected hl.chain
  -- the node after the genesis block
  have hm : (replayBlock E (fresh E n.dag.db) (.genesis E)).dag = n.dag.withCache ∅ ∧
      (replayBlock E (fresh E n.dag.db) (.genesis E)).utxo = genesisSet E ∧
      (replayBlock E (fresh E n.dag.db) (.genesis E)).log = [.applied (.genesis E) [] .empty] := by
    simp only [replayBlock, hd, mergeBlocks_genesis hw]
    exact ⟨trivial, rfl, rfl⟩
  obtain ⟨hm1, hm2, hm3⟩ := hm
  have hst : (replayBlock E (fresh E n.dag.db) (.genesis E)).dag.Stack E
      (Accepted E n.dag n.log) (replayBlock E (fresh E n.dag.db) (.genesis E)).utxo ps n.utxo := by
    rw [hm1, hm2]
    exact hl.stack
  obtain ⟨evs, h1, h2, h3, h4⟩ := foldl_replayBlock hst
  have hget : ∀ h, (n.dag.withCache ∅).getBlock h = n.dag.getBlock h := fun _ => rfl
  rw [hm1] at h1 h2 h3 h4
  unfold new
  simp only [hd, hpath, List.isEmpty_cons, Bool.false_eq_true, if_false, List.foldl_cons]
  exact ⟨evs, h2, h1, by rw [← hm3]; exact h3, h4⟩

/-! ## Runs without failed reorganizations -/

/-- The bottom of the chain is the genesis block. -/
def FromGenesis (E : Env) (_ : Dag) (rest : List Hash) (u₀ : UtxoSet) : Prop :=
  rest = [(Block.genesis E).hash E] ∧ u₀ = genesisSet E

/-- The chain could be moved to every block that joined the graph as the new tip. -/
def NoFail (E : Env) (log : List Event) : Prop :=
  ∀ s b, .inserting s b ∈ log → ¬ReorgFails E s b

theorem Chained.moves_fromGenesis (hm : Moves E n n') (hc : Chained E (FromGenesis E) n)
    (hu : Undoable E n'.log) (hf : NoFail E n'.log) : Chained E (FromGenesis E) n' :=
  Chained.moves hu (fun _ h => h)
    (fun _ _ hfail hin _ _ _ => absurd hfail (hf _ _ (hin.subset List.mem_cons_self)))
    hm hc (List.suffix_refl _)

theorem chained_new_fromGenesis (hg : (Block.genesis E).hash E ≠ .zero) :
    Chained E (FromGenesis E) (new E .empty) := chained_new fun _ hr => ⟨hr hg, rfl⟩

/-- **A restart keeps a chain that goes down to the genesis block.** -/
theorem Chained.restart (hc : Chained E (FromGenesis E) n) :
    Chained E (FromGenesis E) (restart E n) := by
  obtain ⟨hs, hlog, tip, ps, rest, u₀, hl, rfl, rfl⟩ := hc
  obtain ⟨evs, h1, h2, h3, h4⟩ := hl.new_db hs
  have hd : (Node.restart E n).dag = n.dag.withCache ∅ := h1
  have hu : (Node.restart E n).utxo = n.utxo := h2
  have hlog' : (Node.restart E n).log =
      evs ++ ([.applied (.genesis E) [] .empty, .restarted] ++ n.log) := by
    rw [Node.restart, h3, List.append_assoc]
    rfl
  refine ⟨⟨hd ▸ hs.wf.withCache, fun b ms u hin => ?_, fun h b hb => ?_⟩, ?_,
    tip, ps, _, _, ⟨?_, ?_, ?_, ?_, ?_⟩, rfl, rfl⟩
  · -- the blocks applied again are stored
    rw [hd]
    rw [hlog', List.mem_append, List.mem_append] at hin
    rcases hin with hin | hin | hin
    · obtain ⟨h, -, b', t, hb', he, -⟩ := h4 _ hin
      cases he
      exact ⟨⟨h, hb'⟩, rfl⟩
    · simp only [List.mem_cons, reduceCtorEq, List.not_mem_nil, or_false] at hin
      cases hin
      exact ⟨⟨_, hs.wf.genesis⟩, (mergeBlocks_genesis hs.wf).symm⟩
    · exact hs.applied b ms u hin
  · rw [hd] at hb
    refine (hs.joined h b hb).imp id ?_
    rintro ⟨s, hin, hj, hwi⟩
    refine ⟨s, ?_, hj, by rw [hd]; exact hwi.trans Dag.within_withCache⟩
    rw [hlog']
    exact List.mem_append_right _ (List.mem_append_right _ hin)
  · rw [hlog']
    have hstart : LogOk E ([.applied (.genesis E) [] .empty, .restarted] ++ n.log) :=
      ⟨.inl rfl, trivial, hlog⟩
    exact hstart.append (eventOk_redo h4)
  · rw [hd]; exact hl.selected
  · rw [hd]; exact hl.chain
  · rw [hd, hu, hlog', ← List.append_assoc]
    exact hl.stack.mono (fun _ _ => rfl) fun _ _ _ ha => ha.append _
  · rw [hd]; exact hl.bottom
  · rw [hd]; exact hl.root

theorem Reachable.life (hn : n.Reachable E) : n.LifeReachable E := by
  induction hn with
  | refl => exact .refl
  | tail _ hs ih => exact ih.tail (.call hs)

theorem LifeStep.log (hs : LifeStep E n n') : n.log <:+ n'.log := by
  cases hs with
  | call hs => exact hs.moves.log
  | restart => exact ⟨(new E n.dag.db).log ++ [.restarted], by simp [Node.restart]⟩

/-- No reorganization has failed before a restart. -/
def NoFailBeforeRestart (E : Env) (log : List Event) : Prop :=
  ∀ l₁ l₂, log = l₁ ++ .restarted :: l₂ → NoFail E l₂

theorem NoFail.beforeRestart {log : List Event} (hf : NoFail E log) :
    NoFailBeforeRestart E log := by
  rintro l₁ l₂ rfl s b hin
  exact hf s b (List.mem_append_right _ (List.mem_cons_of_mem _ hin))

theorem noFail_of_forall {log : List Event}
    (h : ∀ i ∈ log.filterMap Event.inserting?, ¬ReorgFails E i.1 i.2) : NoFail E log :=
  fun s b hin => h (s, b) (List.mem_filterMap.2 ⟨_, hin, rfl⟩)

theorem NoFailBeforeRestart.suffix {l l' : List Event} (hf : NoFailBeforeRestart E l')
    (hl : l <:+ l') : NoFailBeforeRestart E l := by
  obtain ⟨l₀, rfl⟩ := hl
  rintro l₁ l₂ rfl
  exact hf (l₀ ++ l₁) l₂ (List.append_assoc ..).symm

/-- **The node after a life**: chained, and from genesis when no reorganization has failed. -/
theorem LifeReachable.chained (hg : (Block.genesis E).hash E ≠ .zero) (hn : n.LifeReachable E)
    (hu : Undoable E n.log) (hf : NoFailBeforeRestart E n.log) :
    Chained E (fun _ _ _ => True) n ∧ (NoFail E n.log → Chained E (FromGenesis E) n) := by
  induction hn with
  | refl => exact ⟨chained_new fun _ _ => trivial, fun _ => chained_new_fromGenesis hg⟩
  | @tail n₁ n₂ _ hs ih =>
    obtain ⟨hc, hc'⟩ := ih (hu.suffix hs.log) (hf.suffix hs.log)
    cases hs with
    | call hs =>
      refine ⟨Chained.moves hu (fun _ h => h) (fun _ _ _ _ _ _ _ => trivial) hs.moves hc
        (List.suffix_refl _), fun hno => ?_⟩
      exact Chained.moves_fromGenesis hs.moves (hc' fun s b hin => hno s b (hs.moves.log.subset hin))
        hu hno
    | restart =>
      have hr := (hc' (hf (new E n₁.dag.db).log n₁.log rfl)).restart
      obtain ⟨tip, ps, rest, u₀, hl, -⟩ := hr.live
      exact ⟨⟨hr.sound, hr.log, tip, ps, rest, u₀, hl, trivial⟩, fun _ => hr⟩

/-- **A restart rebuilds the set of the running node** in every undoable run in which no
reorganization fails. -/
theorem restart_equals_live (E : Env) (n : Node) (hg : (Block.genesis E).hash E ≠ .zero)
    (hn : n.Reachable E) (hu : Undoable E n.log) (hf : NoFail E n.log) :
    (new E n.dag.db).utxo = n.utxo := by
  obtain ⟨hs, -, tip, ps, rest, u₀, hl, rfl, rfl⟩ :=
    Chained.moves_fromGenesis hn.moves (chained_new_fromGenesis hg) hu hf
  obtain ⟨evs, -, hutxo, -⟩ := hl.new_db hs
  exact hutxo

/-- **Nothing unvalidated is applied** in a life that is undoable and in which no reorganization
fails before a restart. -/
theorem applied_validated (E : Env) (n : Node) (hg : (Block.genesis E).hash E ≠ .zero)
    (hn : n.LifeReachable E) (hu : Undoable E n.log) (hf : NoFailBeforeRestart E n.log) :
    ∀ l₁ b ms u l₂, n.log = l₁ ++ .applied b ms u :: l₂ → b ≠ .genesis E →
      .validated b u ∈ l₂ ∧ validateBlockTransactions E b u = .ok () := by
  intro l₁ b ms u l₂ he hb
  have hlog := (hn.chained hg hu hf).1.log
  rw [he] at hlog
  obtain ⟨hev, hrest⟩ := hlog.of_append
  have hv : .validated b u ∈ l₂ := hev.resolve_left hb
  exact ⟨hv, hrest.mem hv⟩

end Node

open Sample in
/-- The overpaid block is applied by the restart after it was rejected. -/
theorem restart_applies_rejected :
    ¬∀ n : Node, n.LifeReachable env →
      ∀ l₁ b ms u l₂, n.log = l₁ ++ .applied b ms u :: l₂ → b ≠ .genesis env →
        .validated b u ∈ l₂ ∧ validateBlockTransactions env b u = .ok () := by
  intro h
  have hlife : (Node.restart env (run [overpaid])).LifeReachable env :=
    (reachable_run [overpaid]).life.tail (.restart _)
  have happ : ((Node.restart env (run [overpaid])).log.filterMap Event.applied?).any
      (·.1 = overpaid) = true := by decide +kernel
  have hval : (Node.restart env (run [overpaid])).log.filterMap Event.validated? = [] := by
    decide +kernel
  obtain ⟨⟨b, ms, u⟩, hin, he⟩ := List.any_eq_true.1 happ
  obtain rfl : b = overpaid := of_decide_eq_true he
  obtain ⟨e, hin, he⟩ := List.mem_filterMap.1 hin
  cases e <;> cases he
  obtain ⟨l₁, l₂, hsplit⟩ := List.append_of_mem hin
  have hv := (h _ hlife l₁ overpaid ms u l₂ hsplit (by decide +kernel)).1
  have hin' : (overpaid, u) ∈
      (Node.restart env (run [overpaid])).log.filterMap Event.validated? := by
    rw [hsplit]
    exact List.mem_filterMap.2 ⟨_, List.mem_append_right _ (List.mem_cons_of_mem _ hv), rfl⟩
  rw [hval] at hin'
  cases hin'

open Sample in
/-- The restart credits the overpaid block, which the running node has not applied. -/
theorem restart_differs_from_live :
    ¬∀ n : Node, n.Reachable env → (Node.new env n.dag.db).utxo = n.utxo := fun h =>
  absurd (congrArg (fun u => (u.getUtxo ⟨⟨1001⟩, 0⟩).isSome)
    (h (run [overpaid]) (reachable_run _))) (by decide +kernel)

open Sample in
theorem restart_equals_live_merging :
    (Node.new env (run [first, side, merging]).dag.db).utxo = (run [first, side, merging]).utxo :=
  Node.restart_equals_live env (run [first, side, merging]) (hash_ne_zero _) (reachable_run _)
    (Node.undoable_of_connects (by decide +kernel)) (Node.noFail_of_forall (by decide +kernel))

namespace Sample

/-- A node restarted after a merge. -/
def restarted : Node := .restart env (run [first, side, merging])

end Sample

open Sample in
theorem applied_validated_restarted :
    (restarted.log.filterMap Event.applied?).map (·.1) =
        [merging, first, .genesis env, merging, first, .genesis env] ∧
      ∀ l₁ b ms u l₂, restarted.log = l₁ ++ .applied b ms u :: l₂ → b ≠ .genesis env →
        .validated b u ∈ l₂ ∧ validateBlockTransactions env b u = .ok () :=
  ⟨by decide +kernel,
    Node.applied_validated env restarted (hash_ne_zero _) ((reachable_run _).life.tail (.restart _))
      (Node.undoable_of_connects (by decide +kernel))
      (Node.noFail_of_forall (by decide +kernel)).beforeRestart⟩

end Zentra

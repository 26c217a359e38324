import ZentraChain.Node.Reorg

/-!
# `reorganize` on fresh outpoints

When the blocks of a branch create each outpoint once, and none that the common ancestor has, every
block of the branch is undone exactly (`stack_safe_of_fresh`).

* `reorganize_correct`: `reorganize` then moves the set from the replay of one chain to that of the
  other, or leaves it as it was.
-/

namespace Zentra

open UndoStack

/-- The outpoints a block's transactions create. -/
def Block.created (E : Env) (b : Block) : List OutPoint := b.transactions.flatMap (·.created E)

namespace UtxoSet

variable {E : Env} {u u' : UtxoSet} {p : OutPoint} {b : Block} {merges : List Block}
  {undo : BlockUndoData} {e : UtxoEntry} {txs : List Transaction}

theorem firstTouch_created_mem : ∀ {txs : List Transaction},
    firstTouch E p txs = .created → p ∈ txs.flatMap (·.created E)
  | [], h => by cases h
  | tx :: txs, h => by
    simp only [firstTouch] at h
    rw [List.flatMap_cons, List.mem_append]
    split_ifs at h with h1 h2
    · exact .inl h2
    · exact .inr (firstTouch_created_mem h)

theorem lastTouch_created_mem : ∀ {txs : List Transaction},
    lastTouch E p txs = .created → p ∈ txs.flatMap (·.created E)
  | [], h => by cases h
  | tx :: txs, h => by
    simp only [lastTouch] at h
    rw [List.flatMap_cons, List.mem_append]
    cases ht : lastTouch E p txs with
    | untouched =>
      rw [ht] at h
      simp only at h
      split_ifs at h with h1
      exact .inl h1
    | created => exact .inr (lastTouch_created_mem ht)
    | spent => rw [ht] at h; cases h

/-- What is in the set after a block was there before, or the block or a merge coinbase created
it. -/
theorem applyBlockWithMerges_source (h : u.applyBlockWithMerges E b merges = (u', .ok undo))
    (hp : u'.getUtxo p = some e) :
    (∃ e', u.getUtxo p = some e') ∨ p ∈ b.created E ∨ p ∈ undo.mergeCoinbases := by
  obtain ⟨w, ds, h1, rfl, rfl⟩ := applyBlockWithMerges_ok h
  by_cases hm : p ∈ (creditMerges E merges w).2
  · exact .inr (.inr hm)
  · rw [creditMerges_keep hm] at hp
    have hl := applyTransactions_lookup (p := p) h1
    cases ht : lastTouch E p b.transactions with
    | untouched => rw [ht] at hl; exact .inl ⟨e, hl ▸ hp⟩
    | spent => rw [ht] at hl; rw [show w.getUtxo p = none from hl] at hp; cases hp
    | created => exact .inr (.inl (lastTouch_created_mem ht))

/-- A block that creates no outpoint of the set is undone exactly. -/
theorem undoSafe_of_fresh (h : u.applyBlockWithMerges E b merges = (u', .ok undo))
    (hf : ∀ p ∈ b.created E ++ undo.mergeCoinbases, u.getUtxo p = none) :
    UndoSafe E u b merges := by
  intro p e hp
  refine ⟨fun hc => ?_, fun hl hm => ?_⟩
  · have := hf p (List.mem_append_left _ (firstTouch_created_mem hc))
    rw [hp] at this
    cases this
  · have := hf p (List.mem_append_right _ ((mem_mergeCoinbases_iff h hp).2 ⟨hl, hm⟩))
    rw [hp] at this
    cases this

end UtxoSet

namespace Dag

variable (E : Env) (d : Dag)

/-- The outpoints created by the transactions and merge credits of some blocks, oldest first, from
`u` on, as far as the blocks apply. -/
def createdAlong : List Hash → UtxoSet → List OutPoint
  | [], _ => []
  | h :: hs, u =>
    match d.getBlock h with
    | none => []
    | some b =>
      match u.applyBlockWithMerges E b (d.mergeBlocks (b.hash E)) with
      | (u', .ok undo) => (b.created E ++ undo.mergeCoinbases) ++ createdAlong hs u'
      | (_, .error _) => []

/-- The exact total burned by some blocks. -/
def burnsAlong (hs : List Hash) : Nat := ((hs.filterMap d.getBlock).map (·.burnTotal)).sum

/-- A branch, oldest block first, on the set `u`: it creates each outpoint once and none of `u`,
and its burns do not saturate. -/
structure FreshBranch (hs : List Hash) (u : UtxoSet) : Prop where
  nodup : (d.createdAlong E hs u).Nodup
  absent : ∀ p ∈ d.createdAlong E hs u, u.getUtxo p = none
  burns : u.totalBurned.zents + d.burnsAlong hs ≤ u64Max

/-- Every undo record of a chain, tip first, is the one its replay makes. -/
def UndoOfReplay : List Hash → Prop
  | [] => True
  | h :: rest =>
    (∀ undo ∈ d.getUndo h, ∀ u ∈ d.replay E .empty rest,
      ((d.machine E).apply h u).map (·.2) = some undo) ∧ UndoOfReplay rest

instance decidableUndoOfReplay : ∀ chain, Decidable (d.UndoOfReplay E chain)
  | [] => .isTrue trivial
  | _ :: rest =>
    haveI := decidableUndoOfReplay rest
    inferInstanceAs (Decidable (_ ∧ _))

variable {E d} {Q : Hash → UtxoSet → Prop} {u₀ u : UtxoSet}

/-- A replayed chain is a stack as far down as it has undo records. -/
theorem UndoOfReplay.stack : ∀ {ps rest : List Hash} {u : UtxoSet},
    d.UndoOfReplay E (ps ++ rest) → d.replay E .empty (ps ++ rest) = some u →
    (∀ h ∈ ps, (d.getUndo h).isSome) →
      ∃ u₁, d.replay E .empty rest = some u₁ ∧ d.Stack E (fun _ _ => True) u₁ ps u
  | [], rest, u, _, hr, _ => ⟨u, hr, .nil⟩
  | h :: ps, rest, u, hu, hr, hp => by
    simp only [List.cons_append, replay, Machine.replay] at hr
    split at hr
    · cases hr
    · rename_i v hv
      obtain ⟨undo, hundo⟩ := Option.isSome_iff_exists.1 (hp h List.mem_cons_self)
      obtain ⟨⟨u', undo'⟩, ha, rfl⟩ := Option.map_eq_some_iff.1 (hu.1 undo hundo v hv)
      rw [ha] at hr
      cases hr
      obtain ⟨u₁, h1, h2⟩ := UndoOfReplay.stack hu.2 hv
        fun h' hh' => hp h' (List.mem_cons_of_mem _ hh')
      exact ⟨u₁, h1, .cons h2 ha hundo trivial⟩

theorem FreshBranch.cons {h : Hash} {hs : List Hash} {b : Block} {u' : UtxoSet}
    {undo : BlockUndoData} (hf : d.FreshBranch E (h :: hs) u) (hb : d.getBlock h = some b)
    (ha : u.applyBlockWithMerges E b (d.mergeBlocks (b.hash E)) = (u', .ok undo)) :
    d.SafeAt E h u ∧ d.FreshBranch E hs u' := by
  have hcr : d.createdAlong E (h :: hs) u =
      (b.created E ++ undo.mergeCoinbases) ++ d.createdAlong E hs u' := by
    simp only [createdAlong, hb, ha]
  have hbu : d.burnsAlong (h :: hs) = b.burnTotal + d.burnsAlong hs := by
    simp only [burnsAlong, List.filterMap_cons, hb, List.map_cons, List.sum_cons]
  obtain ⟨h1, h2, h3⟩ := hf
  rw [hcr] at h1 h2
  rw [hbu] at h3
  refine ⟨fun b' hb' => ?_, ?_, fun p hp => ?_, ?_⟩
  · rw [hb] at hb'
    cases hb'
    exact ⟨UtxoSet.undoSafe_of_fresh ha fun p hp => h2 p (List.mem_append_left _ hp), by omega⟩
  · exact (List.nodup_append.1 h1).2.1
  · -- a later outpoint that were there now would have been created twice
    by_contra hne
    obtain ⟨e, he⟩ := Option.ne_none_iff_exists'.1 hne
    rcases UtxoSet.applyBlockWithMerges_source ha he with ⟨e', he'⟩ | hm
    · rw [h2 p (List.mem_append_right _ hp)] at he'
      cases he'
    · exact (List.nodup_append.1 h1).2.2 p (List.mem_append.2 hm) p hp rfl
  · obtain ⟨w, ds, hw, rfl, -⟩ := UtxoSet.applyBlockWithMerges_ok ha
    rw [UtxoSet.creditMerges_totalBurned, UtxoSet.applyTransactions_burned hw, ← Block.burnTotal]
    omega

/-- **Every block of a fresh branch is undone exactly.** -/
theorem stack_safe_of_fresh {store : Hash → Option BlockUndoData} :
    ∀ {hs : List Hash} {u₀ : UtxoSet}, d.FreshBranch E hs u₀ →
      Machine.Stack (d.machine E) store Q u₀ hs.reverse u →
        Machine.Stack (d.machine E) store (fun h t => Q h t ∧ d.SafeAt E h t) u₀ hs.reverse u
  | [], _, _, hst => by
    cases hst
    exact .nil
  | h :: hs, u₀, hf, hst => by
    rw [List.reverse_cons] at hst ⊢
    obtain ⟨u₁, hlast, hrest⟩ := hst.split
    cases hlast with
    | cons hnil ha hd hq =>
      cases hnil
      obtain ⟨b, hb, happ⟩ := machine_apply_iff.1 ha
      obtain ⟨hsafe, hf'⟩ := hf.cons hb happ
      exact .append (.cons .nil ha hd ⟨hq, hsafe⟩) (stack_safe_of_fresh hf' hrest)

theorem createdAlong_isPrefix : ∀ (pre post : List Hash) (u : UtxoSet),
    d.createdAlong E pre u <+: d.createdAlong E (pre ++ post) u
  | [], _, _ => List.nil_prefix
  | h :: pre, post, u => by
    simp only [List.cons_append, createdAlong]
    split
    · exact List.nil_prefix
    · split
      · exact List.prefix_append_right_inj _ |>.2 (createdAlong_isPrefix pre post _)
      · exact List.nil_prefix

/-- The first blocks of a fresh branch are one. -/
theorem FreshBranch.prefix {pre post : List Hash} (hf : d.FreshBranch E (pre ++ post) u) :
    d.FreshBranch E pre u where
  nodup := hf.nodup.sublist (createdAlong_isPrefix pre post u).sublist
  absent := fun p hp => hf.absent p ((createdAlong_isPrefix pre post u).subset hp)
  burns := by
    have := hf.burns
    simp only [burnsAlong, List.filterMap_append, List.map_append, List.sum_append] at this
    simp only [burnsAlong]
    omega

/-- The later blocks of a fresh branch are one, on the set after the first. -/
theorem FreshBranch.drop : ∀ {pre post : List Hash} {u v : UtxoSet},
    d.FreshBranch E (pre ++ post) u → d.replay E u pre.reverse = some v → d.FreshBranch E post v
  | [], post, u, v, hf, hr => by
    cases hr
    exact hf
  | h :: pre, post, u, v, hf, hr => by
    rw [List.reverse_cons, replay, Machine.replay_append] at hr
    cases ha : (d.machine E).apply h u with
    | none => simp [Machine.replay, ha] at hr
    | some r =>
      obtain ⟨u', undo⟩ := r
      obtain ⟨b, hb, happ⟩ := machine_apply_iff.1 ha
      have hone : (d.machine E).replay u [h] = some u' := by simp [Machine.replay, ha]
      rw [hone] at hr
      exact (hf.cons hb happ).2.drop hr

end Dag

namespace Node

open Dag

variable {E : Env}

/-- A list of blocks down to the first one without an undo record. -/
theorem exists_undoPart (d : Dag) (hs : List Hash) : ∃ ps stop, hs = ps ++ stop ∧
    (∀ h ∈ ps, (d.getUndo h).isSome) ∧ ∀ x rest, stop = x :: rest → d.getUndo x = none := by
  refine ⟨_, _, (List.takeWhile_append_dropWhile (p := fun h => (d.getUndo h).isSome)).symm,
    fun h hh => List.mem_takeWhile_imp (p := fun h => (d.getUndo h).isSome) hh,
    fun x rest hx => ?_⟩
  have := List.head?_dropWhile_not (fun h => (d.getUndo h).isSome) hs
  rw [hx] at this
  simpa using this

/-- The old chain down to a block without an undo record: if its part above the fork is fresh, each
block is undone exactly. -/
theorem stack_undoPart {d : Dag} {u uA : UtxoSet} {ps stop common : List Hash}
    (hundo : d.UndoOfReplay E (ps ++ (stop ++ common)))
    (hutxo : d.replay E .empty (ps ++ (stop ++ common)) = some u)
    (hA : d.replay E .empty common = some uA) (hfo : d.FreshBranch E (ps ++ stop).reverse uA)
    (hsome : ∀ h ∈ ps, (d.getUndo h).isSome) :
    ∃ u₁, d.replay E .empty (stop ++ common) = some u₁ ∧
      d.Stack E (fun _ _ => True) u₁ ps u ∧
      d.Stack E (fun h t => True ∧ d.SafeAt E h t) u₁ ps u := by
  obtain ⟨u₁, hu₁, hst⟩ := UndoOfReplay.stack hundo hutxo hsome
  have hstop : d.replay E uA stop.reverse.reverse = some u₁ := by
    rw [replay, Machine.replay_append, ← replay, hA] at hu₁
    rw [List.reverse_reverse]
    exact hu₁
  rw [List.reverse_append] at hfo
  have hsafe := stack_safe_of_fresh (Q := fun _ _ => True) (u := u) (hfo.drop hstop)
    (by rw [List.reverse_reverse]; exact hst)
  rw [List.reverse_reverse] at hsafe
  exact ⟨u₁, hu₁, hst, hsafe⟩

/-- **`reorganize` is correct and atomic on fresh outpoints.** The set is the replay of the old
chain, with the undo records of that replay; both branches are fresh on the set `uA` of the common
part. Then `Ok` means that the set is the replay of the new chain, and `Err` that it is as
before. -/
theorem reorganize_correct (E : Env) (n : Node) (old new : Hash) (oldChain newChain : List Hash)
    (uA : UtxoSet) (hold : n.dag.Chain old oldChain) (hnew : n.dag.Chain new newChain)
    (hutxo : n.dag.replay E .empty oldChain = some n.utxo) (hundo : n.dag.UndoOfReplay E oldChain)
    (hA : n.dag.replay E .empty (commonPart oldChain newChain) = some uA)
    (hfo : n.dag.FreshBranch E (toDisconnect oldChain newChain).reverse uA)
    (hfn : n.dag.FreshBranch E (toConnect oldChain newChain) uA) :
    (∀ n', n.reorganize E (some old) new = (n', .ok ()) →
      n'.dag.replay E .empty newChain = some n'.utxo) ∧
    (∀ n' x, n.reorganize E (some old) new = (n', .error x) → n'.utxo = n.utxo) := by
  by_cases heq : old = new
  · subst heq
    obtain rfl := hold.unique hnew
    simp only [reorganize, if_pos]
    refine ⟨fun n' h => ?_, fun n' x h => ?_⟩ <;> cases h
    exact hutxo
  simp only [reorganize, if_neg heq, getSelectedChain_eq hold, getSelectedChain_eq hnew]
  obtain ⟨hxs, hys, hnd, hdisj⟩ := chains_fork hold hnew
  -- the blocks to disconnect, as far as they have undo records
  obtain ⟨ps, stop, hps, hsome, hstop⟩ := exists_undoPart n.dag (toDisconnect oldChain newChain)
  have hchain : oldChain = ps ++ (stop ++ commonPart oldChain newChain) := by
    rw [← List.append_assoc, ← hps, ← hxs]
  obtain ⟨u₁, hu₁, hst, hsafe⟩ := stack_undoPart (hchain ▸ hundo) (hchain ▸ hutxo) hA (hps ▸ hfo)
    hsome
  cases stop with
  | cons x rest =>
    rw [switchChains_blocked hst (hstop x rest rfl) hps]
    obtain ⟨evs, hevs, -⟩ := redo_afterUndo hsafe fun h _ t ht => ht.2
    rw [hevs]
    refine ⟨fun n' h => ?_, fun n' x h => ?_⟩ <;> cases h
    rfl
  | nil =>
    rw [List.append_nil] at hps
    obtain rfl : u₁ = uA := Option.some.inj (hu₁.symm.trans hA)
    have hbase : (afterUndo E n ps).utxo = u₁ :=
      hsafe.undoAll fun h _ t ht => ht.2.reversible
    obtain ⟨pre, post, m, evs, n₂, hsplit, hc, hres⟩ := switchChains_open hst hps hnd
    rcases hres with ⟨rfl, hok⟩ | ⟨-, x, herr⟩
    · rw [hok]
      refine ⟨fun n' h => ?_, fun n' x h => ?_⟩ <;> cases h
      have hrep := hc.stack_new.replay
      rw [hbase, hc.dag_eq] at hrep
      rw [hc.dag_eq, hys, hsplit, List.append_nil, replay, machine_withUndo,
        Machine.replay_append]
      have hcommon : ((afterUndo E n ps).dag.machine E).replay .empty
          (commonPart oldChain newChain) = some u₁ := hA
      rw [hcommon]
      exact hrep
    · rw [herr]
      refine ⟨fun n' h => ?_, fun n' x h => ?_⟩ <;> cases h
      -- the blocks connected so far are a fresh branch too
      have hst₂ := hc.stack_new
      rw [hbase] at hst₂
      rw [hsplit] at hfn
      have hsafe₂ : n₂.dag.Stack E (fun h t => Accepted E (afterUndo E n ps).dag n₂.log h t ∧
          n.dag.SafeAt E h t) u₁ pre.reverse n₂.utxo := by
        have hst₃ := hst₂
        rw [hc.dag_eq] at hst₃ ⊢
        exact stack_safe_of_fresh (d := n.dag) hfn.prefix hst₃
      have hpre : ∀ h ∈ pre, h ∉ ps := fun h hm hp =>
        hdisj h (hsplit ▸ List.mem_append_left _ hm) (hchain ▸ List.mem_append_left _ hp)
      obtain ⟨evs', hevs, -⟩ := rollback_connected hsafe (fun h _ t ht => ht.2) hc hpre
        (hbase.symm ▸ hsafe₂) fun h _ t ht => ht.2
      rw [hevs]

end Node

namespace Sample

def b1 : Block := block 2 .btcAsic [genesisHash] 1 1 [coinbase 2 [subsidy]]

def b2 : Block := block 3 .ltcAsic [⟨3⟩] 2 2 [coinbase 3 [subsidy]]

/-- The chain of `first`, with `b2` on its side branch just inserted. -/
def forked : Node :=
  let n := run [first, b1]
  n.insertBlock env b2 (GhostdagManager.defaultK.processBlock n.dag.getGhostdag [⟨3⟩])

end Sample

open Sample Node in
theorem reorganize_correct_forked :
    (∀ n', forked.reorganize env (some ⟨2⟩) ⟨4⟩ = (n', .ok ()) →
      n'.dag.replay env .empty [⟨4⟩, ⟨3⟩, ⟨1⟩] = some n'.utxo) ∧
    (∀ n' x, forked.reorganize env (some ⟨2⟩) ⟨4⟩ = (n', .error x) → n'.utxo = forked.utxo) :=
  Node.reorganize_correct env forked ⟨2⟩ ⟨4⟩ [⟨2⟩, ⟨1⟩] [⟨4⟩, ⟨3⟩, ⟨1⟩]
    (UtxoSet.empty.applyBlock env (Block.genesis env) 0).1
    (.inr ⟨by decide, .step (b := ⟨1⟩) (by decide +kernel) (.last (by decide +kernel))⟩)
    (.inr ⟨by decide, .step (b := ⟨3⟩) (by decide +kernel)
      (.step (b := (⟨1⟩ : Hash)) (by decide +kernel) (.last (by decide +kernel)))⟩)
    (by decide +kernel) (by decide +kernel) (by decide +kernel)
    ⟨by decide +kernel, by decide +kernel, by decide +kernel⟩
    ⟨by decide +kernel, by decide +kernel, by decide +kernel⟩

end Zentra

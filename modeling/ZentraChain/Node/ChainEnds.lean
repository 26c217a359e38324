import ZentraChain.Lib.Cursor
import ZentraChain.Node.Converge

/-!
# Walks to the root (`node.rs`, `ghostdag.rs`)

Four loops of the source follow selected parents until the zero hash, with no bound on their turns:
two `get_selected_chain`, `calculate_expected_difficulty` and `rebuild_difficulty_history`. Here each
is given by its single turn, and `Walk.Visits` says that it returns.

* `WorkExact`: headers repeat the blue work of the GhostDAG data.
* `Wf.chain_root`: the chain of a block ends at a block without parents.
* `chains_end`: scores fall along parents, and all four loops return from every stored block.
-/

namespace Zentra

/-- A turn of `GhostdagManager::get_selected_chain`. -/
def GhostdagManager.selectedChainTurn (get : Hash → Option GhostdagData) (chain : List Hash)
    (current : Hash) : (List Hash × Hash) ⊕ List Hash :=
  match get current with
  | some data =>
    if data.selectedParent ≠ .zero then
      .inl (chain ++ [data.selectedParent], data.selectedParent)
    else .inr chain
  | none => .inr chain

namespace Dag

/-- A turn of `get_selected_chain`. -/
def selectedChainTurn (d : Dag) (chain : List Hash) (current : Hash) :
    (List Hash × Hash) ⊕ List Hash :=
  if current = .zero then .inr chain
  else
    let chain := chain ++ [current]
    match d.getGhostdag current with
    | some data => .inl (chain, data.selectedParent)
    | none =>
      match d.getHeader current with
      | some header => .inl (chain, header.parents.headD .zero)
      | none => .inr chain

/-- A turn of the loop of `calculate_expected_difficulty`: times and bits of up to 20 blocks of a
lane. -/
def expectedDifficultyTurn (d : Dag) (lane : LaneId) (history : List (Nat × Nat))
    (current : Hash) : (List (Nat × Nat) × Hash) ⊕ List (Nat × Nat) :=
  if current = .zero ∨ 20 ≤ history.length then .inr history
  else
    match d.getHeader current with
    | some header =>
      let history :=
        if header.laneId = lane then history ++ [(header.timestamp, header.bits)] else history
      match d.getGhostdag current with
      | some data => .inl (history, data.selectedParent)
      | none => .inl (history, header.parents.headD .zero)
    | none => .inr history

/-- A turn of `rebuild_difficulty_history`: lane, time and bits of every block. -/
def rebuildTurn (d : Dag) (blocksToRecord : List (LaneId × Nat × Nat)) (current : Hash) :
    (List (LaneId × Nat × Nat) × Hash) ⊕ List (LaneId × Nat × Nat) :=
  if current = .zero then .inr blocksToRecord
  else
    match d.getHeader current with
    | some header =>
      let blocksToRecord := blocksToRecord ++ [(header.laneId, header.timestamp, header.bits)]
      match d.getGhostdag current with
      | some data => .inl (blocksToRecord, data.selectedParent)
      | none => .inl (blocksToRecord, header.parents.headD .zero)
    | none => .inr blocksToRecord

variable {E : Env} {d : Dag} {b : Block} {h p : Hash} {chain : List Hash} {lane : LaneId}

/-! ## Blue work -/

/-- The blue work of a stored header is that of its GhostDAG data. -/
def WorkExact (d : Dag) : Prop :=
  ∀ h b, d.getBlock h = some b → b.header.blueWork = (d.ghostdagFor b.header.parents).blueWork

theorem workExact_first (E : Env) : (first E).WorkExact := by
  intro h b hb
  rw [getBlock_first] at hb
  split at hb
  · cases hb
    rfl
  · cases hb

theorem WorkExact.extend (hx : d.WorkExact) (hw : d.Wf E) (hnew : d.getBlock (b.hash E) = none)
    (hps : ∀ p ∈ b.header.parents, (d.getBlock p).isSome)
    (hwork : b.header.blueWork = (d.ghostdagFor b.header.parents).blueWork) :
    (d.extend E b).WorkExact := by
  intro h b' hb'
  rw [getBlock_extend] at hb'
  split at hb'
  · cases hb'
    rw [ghostdagFor_extend hnew hps]
    exact hwork
  · rw [ghostdagFor_extend hnew (hw.parents h b' hb')]
    exact hx h b' hb'

/-! ## The root of a chain -/

/-- A stored block goes on to its selected parent; it has one unless it has no parents. -/
theorem Wf.chainNext_none (hw : d.Wf E) (hz : d.getBlock .zero = none) (hb : d.getBlock h = some b)
    (hn : d.chainNext h = none) : b.header.parents = [] := by
  by_contra hne
  have hmem : (d.ghostdagFor b.header.parents).selectedParent ∈ b.header.parents :=
    GhostdagManager.selectedParent_mem hne
  have hsel : d.prev h ≠ .zero := by
    rw [hw.prev_eq hb]
    exact ne_zero hz (hw.parents h b hb _ hmem)
  rw [chainNext, if_neg hsel] at hn
  cases hn

/-- **The chain of a stored block ends at a block without parents.** -/
theorem Wf.chain_root (hw : d.Wf E) (hz : d.getBlock .zero = none)
    (hp : Walk.Path d.chainNext h chain) (hs : (d.getBlock h).isSome) :
    ∃ root b, chain.getLast? = some root ∧ d.getBlock root = some b ∧ b.header.parents = [] := by
  induction hp with
  | @last a hn =>
    obtain ⟨b, hb⟩ := Option.isSome_iff_exists.1 hs
    exact ⟨a, b, rfl, hb, hw.chainNext_none hz hb hn⟩
  | @step a c l hn hp ih =>
    obtain ⟨root, b, hlast, hroot⟩ := ih (hw.chainNext_fall hs hn).1
    obtain ⟨t, rfl⟩ := hp.head
    exact ⟨root, b, by rw [List.getLast?_cons_cons]; exact hlast, hroot⟩

/-! ## The loops on stored blocks -/

theorem prev_eq_getD (h : Hash) : d.prev h = (d.chainNext h).getD .zero := by
  unfold chainNext
  split
  · rename_i hz
    exact hz
  · rfl

/-- What the loops read at a stored block. -/
theorem Wf.turn (hw : d.Wf E) (hz : d.getBlock .zero = none) (hs : (d.getBlock h).isSome) :
    h ≠ .zero ∧ ∃ header data, d.getHeader h = some header ∧ d.getGhostdag h = some data ∧
      data.selectedParent = (d.chainNext h).getD .zero := by
  obtain ⟨b, hb⟩ := Option.isSome_iff_exists.1 hs
  refine ⟨ne_zero hz hs, b.header, _, by rw [hw.header, hb]; rfl, hw.ghostdag h b hb, ?_⟩
  rw [← prev_eq_getD, hw.prev_eq hb]

/-- What a block adds to the history of a lane. -/
def laneEntry (d : Dag) (lane : LaneId) (h : Hash) : Option (Nat × Nat) :=
  (d.getHeader h).bind fun hd => if hd.laneId = lane then some (hd.timestamp, hd.bits) else none

theorem laneHistory_eq : d.laneHistory lane chain = chain.filterMap (d.laneEntry lane) := by
  induction chain with
  | nil => rfl
  | cons x xs ih =>
    rw [List.filterMap_cons, ← ih, laneEntry]
    cases hhd : d.getHeader x with
    | none => rw [laneHistory, List.filterMap_cons, hhd]; rfl
    | some hd =>
      rw [laneHistory_cons hhd, Option.bind_some]
      split <;> rfl

section
variable (hw : d.Wf E) (hz : d.getBlock .zero = none) (hp : Walk.Path d.chainNext h chain)
  (hs : ∀ x ∈ chain, (d.getBlock x).isSome)
include hw hz hp hs

theorem visits_selectedChain :
    Walk.Visits d.selectedChainTurn [] h (chain ++ [.zero]) chain := by
  have hturn : ∀ acc, ∀ x ∈ chain, d.selectedChainTurn acc x =
      .inl (acc ++ (some x).toList, (d.chainNext x).getD .zero) := by
    intro acc x hx
    obtain ⟨hne, _, data, -, hg, hsel⟩ := hw.turn hz (hs x hx)
    rw [selectedChainTurn, if_neg hne, hg, ← hsel]
    rfl
  have hv := hp.collects (fun acc => if_pos rfl) hturn []
  rwa [List.nil_append, List.filterMap_some] at hv

theorem visits_managerChain :
    Walk.Visits (GhostdagManager.selectedChainTurn d.getGhostdag) [h] h chain chain := by
  have hlast : ∀ acc, ∀ x ∈ chain, d.chainNext x = none →
      GhostdagManager.selectedChainTurn d.getGhostdag acc x = .inr acc := by
    intro acc x hx hn
    obtain ⟨-, _, data, -, hg, hsel⟩ := hw.turn hz (hs x hx)
    rw [hn] at hsel
    rw [GhostdagManager.selectedChainTurn, hg]
    exact if_neg (not_not.2 hsel)
  have hturn : ∀ acc, ∀ x ∈ chain, ∀ y, d.chainNext x = some y →
      GhostdagManager.selectedChainTurn d.getGhostdag acc x = .inl (acc ++ [y], y) := by
    intro acc x hx y hn
    obtain ⟨-, _, data, -, hg, hsel⟩ := hw.turn hz (hs x hx)
    rw [hn] at hsel
    rw [GhostdagManager.selectedChainTurn, hg]
    simp only [hsel, Option.getD_some]
    exact if_pos (chainNext_eq_some.1 hn).2
  have hv := hp.pushes hlast hturn [h]
  obtain ⟨t, rfl⟩ := hp.head
  exact hv

/-- It stops short of the root once it has 20 blocks of the lane. -/
theorem visits_expectedDifficulty (lane : LaneId) : ∃ seen, seen <+: chain ++ [.zero] ∧
    Walk.Visits (d.expectedDifficultyTurn lane) [] h seen ((d.laneHistory lane chain).take 20) ∧
      (((d.laneHistory lane chain).take 20).length = 20 ∨ seen = chain ++ [.zero]) := by
  have hturn : ∀ acc : List (Nat × Nat), acc.length < 20 → ∀ x ∈ chain,
      d.expectedDifficultyTurn lane acc x =
        .inl (acc ++ (d.laneEntry lane x).toList, (d.chainNext x).getD .zero) := by
    intro acc hlt x hx
    obtain ⟨hne, header, data, hhd, hg, hsel⟩ := hw.turn hz (hs x hx)
    rw [expectedDifficultyTurn, if_neg (not_or.2 ⟨hne, Nat.not_le.2 hlt⟩), hhd, hg, ← hsel, laneEntry,
      hhd, Option.bind_some]
    simp only
    split
    · rfl
    · rw [Option.toList_none, List.append_nil]
  rw [laneHistory_eq]
  exact hp.collects_upto (fun acc => if_pos (.inl rfl)) (fun acc x hm => if_pos (.inr hm)) hturn []
    (Nat.zero_le _)

theorem visits_rebuild : Walk.Visits d.rebuildTurn [] h (chain ++ [.zero])
    ((chain.filterMap d.getHeader).map fun hd => (hd.laneId, hd.timestamp, hd.bits)) := by
  have hturn : ∀ acc, ∀ x ∈ chain, d.rebuildTurn acc x =
      .inl (acc ++ ((d.getHeader x).map fun hd => (hd.laneId, hd.timestamp, hd.bits)).toList,
        (d.chainNext x).getD .zero) := by
    intro acc x hx
    obtain ⟨hne, header, data, hhd, hg, hsel⟩ := hw.turn hz (hs x hx)
    rw [rebuildTurn, if_neg hne, hhd, hg, ← hsel]
    rfl
  rw [List.map_filterMap]
  exact hp.collects (fun acc => if_pos rfl) hturn []

end

/-- From `h`, the loops go along `chain`, each block of it once, and return. -/
structure Walked (d : Dag) (h : Hash) (chain : List Hash) : Prop where
  path : Walk.Path d.chainNext h chain
  nodup : chain.Nodup
  root : ∃ root b, chain.getLast? = some root ∧ d.getBlock root = some b ∧ b.header.parents = []
  selectedChain : Walk.Visits d.selectedChainTurn [] h (chain ++ [.zero]) chain
  managerChain :
    Walk.Visits (GhostdagManager.selectedChainTurn d.getGhostdag) [h] h chain chain
  /-- on the whole chain, unless the 20 blocks are found before -/
  expectedDifficulty : ∀ lane, ∃ seen history, seen <+: chain ++ [.zero] ∧
    Walk.Visits (d.expectedDifficultyTurn lane) [] h seen history ∧
      (history.length = 20 ∨ seen = chain ++ [.zero])
  rebuild : ∃ blocks, Walk.Visits d.rebuildTurn [] h (chain ++ [.zero]) blocks

theorem Wf.walked (hw : d.Wf E) (hz : d.getBlock .zero = none) (hs : (d.getBlock h).isSome) :
    ∃ chain, d.Walked h chain := by
  obtain ⟨chain, hc⟩ := hw.exists_chain hs
  have hstored := hw.chain_stored hs hc
  rcases hc with ⟨hzero, -⟩ | ⟨-, hp⟩
  · exact absurd hzero (ne_zero hz hs)
  · refine ⟨chain, hp, hp.nodup, hw.chain_root hz hp hs, visits_selectedChain hw hz hp hstored,
      visits_managerChain hw hz hp hstored, fun lane => ?_, ⟨_, visits_rebuild hw hz hp hstored⟩⟩
    obtain ⟨seen, hpre, hv, hend⟩ := visits_expectedDifficulty hw hz hp hstored lane
    exact ⟨seen, _, hpre, hv, hend⟩

/-- **The bounded walks are exact**: with any fuel over their bound, the loops return what these
compute. -/
theorem Wf.bounded_walks (hw : d.Wf E) (hz : d.getBlock .zero = none)
    (hs : (d.getBlock h).isSome) {fuel : Nat} (hf : d.fuel < fuel) :
    Walk.run d.selectedChainTurn fuel [] h = some (d.getSelectedChain h) ∧
      (∀ lane, Walk.run (d.expectedDifficultyTurn lane) fuel [] h =
        some (d.laneWalk lane d.fuel 20 h)) ∧
      Walk.run d.rebuildTurn fuel [] h =
        some ((d.headerWalk d.fuel h).map fun hd => (hd.laneId, hd.timestamp, hd.bits)) := by
  obtain ⟨chain, hc⟩ := hw.exists_chain hs
  have hstored := hw.chain_stored hs hc
  have hlen : (chain ++ [Hash.zero]).length ≤ fuel := by
    have := hc.length_le
    rw [List.length_append, List.length_singleton]
    omega
  rw [getSelectedChain_eq hc, headerWalk_eq hc (hw.chain_headers hs hc)]
  have hp : Walk.Path d.chainNext h chain := by
    rcases hc with ⟨hzero, -⟩ | ⟨-, hp⟩
    · exact absurd hzero (ne_zero hz hs)
    · exact hp
  refine ⟨(visits_selectedChain hw hz hp hstored).run hlen, fun lane => ?_,
    (visits_rebuild hw hz hp hstored).run hlen⟩
  rw [laneWalk_eq hc (hw.chain_headers hs hc)]
  obtain ⟨seen, hpre, hv, -⟩ := visits_expectedDifficulty hw hz hp hstored lane
  exact hv.run (hpre.length_le.trans hlen)

end Dag

namespace Node

variable {E : Env} {n : Node}

theorem Reachable.workExact (hn : n.Reachable E) : n.dag.WorkExact :=
  hn.dag_rec (Dag.workExact_first E)
    (fun _ _ _ hw hj he hx => hx.extend hw hj.new hj.parents he.blueWork) fun _ _ hx => hx

/-- **Scores fall and chains end.** When no stored header hashes to the zero hash, the header of a
stored block repeats its GhostDAG data, its parents are stored with lower scores, and all loops along
selected parents return, at a block without parents. -/
theorem chains_end (E : Env) (n : Node) (hn : n.Reachable E)
    (hz : ∀ h b, n.dag.getBlock h = some b → E.hashHeader b.header ≠ .zero) (h : Hash) (b : Block)
    (hb : n.dag.getBlock h = some b) :
    (∃ data, n.dag.getGhostdag h = some data ∧ b.header.blueScore = data.blueScore ∧
      b.header.blueWork = data.blueWork) ∧
    (∀ p ∈ b.header.parents, ∃ parent, n.dag.getBlock p = some parent ∧
      parent.header.blueScore < b.header.blueScore) ∧
    ∃ chain, n.dag.Walked h chain := by
  have hw := hn.sound.wf
  refine ⟨⟨_, hw.ghostdag h b hb, hw.blueScore h b hb, hn.workExact h b hb⟩, fun p hp => ?_,
    hw.walked ?_ (by rw [hb]; rfl)⟩
  · obtain ⟨parent, hparent⟩ := Option.isSome_iff_exists.1 (hw.parents h b hb p hp)
    refine ⟨parent, hparent, ?_⟩
    rw [← hw.score_eq hparent, ← hw.score_eq hb]
    exact hw.score_parent_lt hb hp
  · by_contra hsome
    obtain ⟨z, hzb⟩ := Option.ne_none_iff_exists'.1 hsome
    exact hz .zero z hzb (hw.hash .zero z hzb)

end Node

open Sample in
/-- The chain of a block with two parents. -/
theorem chains_end_merging :
    ∃ chain, (run [first, side, merging]).dag.Walked ⟨4⟩ chain :=
  (Node.chains_end env (run [first, side, merging]) (reachable_run _) (fun _ b _ => hash_ne_zero b)
    ⟨4⟩ merging (by decide +kernel)).2.2

end Zentra

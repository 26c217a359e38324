import ZentraChain.Consensus.Retarget
import ZentraChain.Node.Orphans

/-!
# Exact retargeting on accepted chains (`node.rs`, `difficulty.rs`)

The header of the genesis block has an easier target than any other block may have. It has no
predecessor, so in the history of a lane it is the oldest block, which the average leaves out.

* `Retargeted`: no other header has an easier target than the easiest.
* `Dag.Accepted.exact`: so no sum and no product of the difficulty calculation overflows.
-/

namespace Zentra

/-! ## Accepted graphs -/

namespace Dag

/-- What blocks that `validate_block_header` accepts make of the genesis block. -/
inductive Accepted (E : Env) : Dag → Prop
  | first : Accepted E (first E)
  | insert {d : Dag} {b : Block} {now : Nat} : Accepted E d → d.getBlock (b.hash E) = none →
      (∀ p ∈ b.header.parents, (d.getBlock p).isSome) →
      validateBlockHeader E d now b.header = .ok () → Accepted E (d.extend E b)
  | undo {d : Dag} {m : Finmap fun _ : Hash => BlockUndoData} : Accepted E d →
      Accepted E (d.withUndo m)

/-- The engine of `calculate_expected_difficulty`, with the history of a lane. -/
def laneEngine (network : NetworkType) (d : Dag) (parents : List Hash) (lane : LaneId) :
    DifficultyEngine :=
  .recorded lane network (d.laneWalk lane d.fuel 20 (d.heaviestParent parents)).reverse

/-- Only the genesis block has an easier target than the easiest, and nothing comes before it. -/
structure Retargeted (E : Env) (d : Dag) : Prop where
  genesis : (d.getBlock ((Block.genesis E).hash E)).isSome
  root : d.prev ((Block.genesis E).hash E) = .zero
  target : ∀ h hd, d.getHeader h = some hd → h ≠ (Block.genesis E).hash E →
    (Header.targetFromBits hd.bits).val ≤ DifficultyEngine.genesisTarget

variable {E : Env} {d : Dag} {b : Block} {h : Hash} {now : Nat} {lane : LaneId}

/-- The engine gives the bits that are expected. -/
theorem calculateExpectedDifficulty_engine (network : NetworkType) (d : Dag) (parents : List Hash)
    (lane : LaneId) : d.calculateExpectedDifficulty network parents lane =
      if d.heaviestParent parents = .zero then DifficultyEngine.genesisDifficulty
      else (d.laneEngine network parents lane).nextDifficulty := rfl

/-- Whatever is expected is no easier than the easiest. -/
theorem expected_le (network : NetworkType) (d : Dag) (parents : List Hash) (lane : LaneId) :
    (Header.targetFromBits (d.calculateExpectedDifficulty network parents lane)).val ≤
      DifficultyEngine.genesisTarget := by
  rw [calculateExpectedDifficulty_engine]
  split
  · exact Nat.le_refl _
  · exact DifficultyEngine.nextTarget_le
      (DifficultyEngine.recorded_time lane network _ ▸ by decide)

theorem Retargeted.first (E : Env) : (first E).Retargeted E where
  genesis := by rw [getBlock_first, if_pos rfl]; rfl
  root := by
    unfold prev
    rw [getGhostdag_first, if_pos rfl]
    rfl
  target := fun h hd hh hne => by
    rw [(wf_first E).header, getBlock_first, if_neg hne] at hh
    cases hh

/-- An accepted block keeps the bound. -/
theorem Retargeted.extend (hd : d.Retargeted E) (hnew : d.getBlock (b.hash E) = none)
    (hv : validateBlockHeader E d now b.header = .ok ()) : (d.extend E b).Retargeted E := by
  refine ⟨?_, ?_, fun h hd' hh hne => ?_⟩
  · rw [getBlock_extend_of_isSome hnew hd.genesis]
    exact hd.genesis
  · have hne : (Block.genesis E).hash E ≠ b.hash E := by
      intro he
      have hs := hd.genesis
      rw [he, hnew] at hs
      cases hs
    have hroot := hd.root
    unfold prev at hroot ⊢
    rw [getGhostdag_extend_of_isSome hnew hd.genesis, getHeader_extend, if_neg hne]
    exact hroot
  · rw [getHeader_extend] at hh
    split at hh
    · cases hh
      rw [(validateBlockHeader_iff.1 hv).bits]
      exact expected_le ..
    · exact hd.target h hd' hh hne

theorem Accepted.retargeted (hd : d.Accepted E) : d.Retargeted E := by
  induction hd with
  | first => exact .first E
  | insert _ hnew _ hv ih => exact ih.extend hnew hv
  | undo _ ih => exact ⟨ih.genesis, ih.root, ih.target⟩

/-! ## The history of a lane -/

/-- All blocks of a lane's history but the oldest are within the bound. -/
theorem Retargeted.laneWalk (hd : d.Retargeted E) : ∀ (fuel room : Nat) (h : Hash),
    ∀ x ∈ (d.laneWalk lane fuel room h).dropLast,
      (Header.targetFromBits x.2).val ≤ DifficultyEngine.genesisTarget
  | 0, _, _ => nofun
  | fuel + 1, room, h => by
    intro x hx
    rw [Dag.laneWalk] at hx
    split at hx
    · cases hx
    · split at hx
      · cases hx
      · rename_i hh
        by_cases hg : h = (Block.genesis E).hash E
        · -- the walk ends with the genesis block
          rw [hg, hd.root, laneWalk_zero, laneWalk_zero] at hx
          split at hx
          · cases hx
          · cases hx
        · split at hx
          · cases hrest : d.laneWalk lane fuel (room - 1) (d.prev h) with
            | nil =>
              rw [hrest] at hx
              cases hx
            | cons y ys =>
              rw [hrest, List.dropLast_cons_cons] at hx
              rcases List.mem_cons.1 hx with rfl | hx
              · exact hd.target h _ hh hg
              · exact hd.laneWalk fuel (room - 1) (d.prev h) x (hrest ▸ hx)
          · exact hd.laneWalk fuel room (d.prev h) x hx

/-- The targets of the window are within the bound. -/
theorem Retargeted.window (hd : d.Retargeted E) (network : NetworkType) (parents : List Hash)
    (lane : LaneId) : ∀ v ∈ (d.laneEngine network parents lane).windowTargets,
      v ≤ DifficultyEngine.genesisTarget := by
  intro v hv
  obtain ⟨x, hx, rfl⟩ := List.mem_map.1 hv
  suffices hmem : x ∈ (d.laneWalk lane d.fuel 20 (d.heaviestParent parents)).dropLast from
    hd.laneWalk d.fuel 20 (d.heaviestParent parents) x hmem
  rw [laneEngine, DifficultyEngine.recorded_eq] at hx
  -- the window drops the oldest block, or has dropped it before
  have hsub : x ∈ ((d.laneWalk lane d.fuel 20 (d.heaviestParent parents)).reverse).drop 1 := by
    rw [List.rtake, List.drop_drop] at hx
    exact List.drop_subset_drop_left _ (Nat.le_add_left _ _) hx
  rwa [List.drop_one, List.tail_reverse, List.mem_reverse] at hsub

/-- **The difficulty calculation is exact** on every graph of accepted blocks, for any parents and any
lane: no sum is carried out of 256 bits, nor the product. -/
theorem Accepted.exact (hd : d.Accepted E) (parents : List Hash) (lane : LaneId) :
    TargetBytes.Exact (d.laneEngine E.network parents lane) := by
  have hwindow := hd.retargeted.window E.network parents lane
  exact DifficultyEngine.exact_of_window (DifficultyEngine.recorded_time ..)
    (DifficultyEngine.recorded_short ..) hwindow

end Dag

namespace Node

variable {E : Env} {n : Node}

/-- The graph of a running node is made of accepted blocks. -/
theorem Reachable.accepted (hn : n.Reachable E) : n.dag.Accepted E :=
  hn.dag_rec .first
    (fun _ _ _ _ hj he hd => .insert hd hj.new hj.parents (validateBlockHeader_iff.2 he.checks.1))
    fun _ _ hd => .undo hd

end Node

namespace Sample

/-- A block of the lane of the genesis block. -/
def cpuSecond : Block := block 5 .cpu [genesisHash] 1 1 [coinbase 5 [subsidy]]

end Sample

open Sample in
/-- The window of one block after the genesis block. -/
theorem exact_cpuSecond :
    TargetBytes.Exact ((run [cpuSecond]).dag.laneEngine .devnet (run [cpuSecond]).dag.tips .cpu) ∧
      ((run [cpuSecond]).dag.laneEngine .devnet (run [cpuSecond]).dag.tips .cpu).windowTargets ≠ [] :=
  ⟨(reachable_run [cpuSecond]).accepted.exact (run [cpuSecond]).dag.tips .cpu, by decide +kernel⟩

end Zentra

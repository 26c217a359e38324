import Mathlib.Data.List.Sort
import ZentraChain.Consensus.Difficulty
import ZentraChain.Core.Dag

/-!
# Walks along the selected chain (`node.rs`)

From a block the source goes to its GhostDAG selected parent, else to its first header parent, and
stops at the zero hash. The source's loops have no bound; here a walk gets one more step than there
are hashes to go on from, which is enough whenever the walk ends (`getSelectedChain_eq`).

* `Chain d tip chain`: the walk from `tip` ends and meets `chain`.
-/

namespace Zentra

namespace Dag

/-- The block a walk goes to from `h`. -/
def prev (d : Dag) (h : Hash) : Hash :=
  match d.getGhostdag h with
  | some g => g.selectedParent
  | none =>
    match d.getHeader h with
    | some hd => hd.parents.headD .zero
    | none => .zero

/-- The next block of a walk, up to the zero hash. -/
def chainNext (d : Dag) (h : Hash) : Option Hash :=
  if d.prev h = .zero then none else some (d.prev h)

/-- Steps enough for any walk that ends. -/
def fuel (d : Dag) : Nat := (d.db.ghostdag.keys ∪ d.db.headers.keys).card + 1

/-- `get_selected_chain`: the chain from `start` back to its root. -/
def getSelectedChain (d : Dag) (start : Hash) : List Hash :=
  if start = .zero then [] else Walk.walk d.chainNext d.fuel start

/-- The parent that `calculate_expected_difficulty` walks back from: the last of the heaviest. -/
def heaviestParent (d : Dag) (parents : List Hash) : Hash :=
  (parents.foldl (fun (best : Hash × Nat) p =>
    match d.getHeader p with
    | some h => if h.blueScore ≥ best.2 then (p, h.blueScore) else best
    | none => best) (.zero, 0)).1

/-- Up to `room` blocks of a lane, newest first, met on the walk from `h`. -/
def laneWalk (d : Dag) (lane : LaneId) : Nat → Nat → Hash → List (Nat × Nat)
  | 0, _, _ => []
  | fuel + 1, room, h =>
    if h = .zero ∨ room = 0 then []
    else
      match d.getHeader h with
      | none => []
      | some hd =>
        if hd.laneId = lane then
          (hd.timestamp, hd.bits) :: laneWalk d lane fuel (room - 1) (d.prev h)
        else laneWalk d lane fuel room (d.prev h)

/-- The bits a block with these parents must have on a lane. -/
def calculateExpectedDifficulty (network : NetworkType) (d : Dag) (parents : List Hash)
    (lane : LaneId) : Nat :=
  let selectedParent := d.heaviestParent parents
  -- genesis region
  if selectedParent = .zero then DifficultyEngine.genesisDifficulty
  else
    let history := d.laneWalk lane d.fuel 20 selectedParent
    (history.reverse.foldl (fun e h => e.recordBlock h.1 h.2)
      (DifficultyEngine.newWithNetwork lane network)).nextDifficulty

/-- What `rebuild_difficulty_history` records, newest first: the headers met from `h`. -/
def headerWalk (d : Dag) : Nat → Hash → List Header
  | 0, _ => []
  | fuel + 1, h =>
    if h = .zero then []
    else
      match d.getHeader h with
      | none => []
      | some hd => hd :: headerWalk d fuel (d.prev h)

/-- The manager's history from the selected chain of `tip` alone. -/
def rebuildDifficultyHistory (d : Dag) (m : DifficultyManager) (tip : Hash) : DifficultyManager :=
  (d.headerWalk d.fuel tip).reverse.foldl
    (fun m hd => m.recordBlock hd.laneId hd.timestamp hd.bits) m.clear

/-! ## Median time past -/

/-- The unvisited block of `cursor` with the highest score, the first of them. -/
def pickNext (d : Dag) (visited : Finset Hash) (cursor : List Hash) : Option (Hash × Header) :=
  cursor.foldl (fun next p =>
    if p ∈ visited then next
    else
      match d.getHeader p with
      | none => next
      | some h =>
        match next with
        | none => some (p, h)
        | some (q, nh) => if h.blueScore > nh.blueScore then some (p, h) else some (q, nh)) none

/-- Up to `n` times, going back through the best unvisited parent. -/
def pastTimes (d : Dag) : Nat → Finset Hash → List Hash → List Nat
  | 0, _, _ => []
  | n + 1, visited, cursor =>
    match d.pickNext visited cursor with
    | some (h, hd) => hd.timestamp :: pastTimes d n (insert h visited) hd.parents
    | none => []

/-- The median of the last eleven times before a block with these parents, if there are eleven. -/
def medianTimePast (d : Dag) (parents : List Hash) : Option Nat :=
  let times := d.pastTimes 11 ∅ parents
  if times.length ≥ 11 then some ((times.insertionSort (· ≤ ·)).getD (times.length / 2) 0)
  else none

/-! ## Chains -/

/-- The walk of `get_selected_chain` from `tip` ends and meets `chain`. -/
def Chain (d : Dag) (tip : Hash) (chain : List Hash) : Prop :=
  (tip = .zero ∧ chain = []) ∨ (tip ≠ .zero ∧ Walk.Path d.chainNext tip chain)

variable {d d' : Dag} {tip h p : Hash} {chain chain' : List Hash}

theorem chainNext_eq_some : d.chainNext h = some p ↔ d.prev h = p ∧ p ≠ .zero := by
  unfold chainNext
  split
  · rename_i hz
    rw [hz]
    exact ⟨nofun, fun h => absurd h.1.symm h.2⟩
  · rename_i hz
    rw [Option.some.injEq]
    exact ⟨fun h => ⟨h, h ▸ hz⟩, fun h => h.1⟩

/-- A walk goes on only from a hash with GhostDAG data or a header. -/
theorem chainNext_mem_keys (h' : d.chainNext h = some p) :
    h ∈ d.db.ghostdag.keys ∪ d.db.headers.keys := by
  obtain ⟨hp, hz⟩ := chainNext_eq_some.1 h'
  rw [Finset.mem_union, Finmap.mem_keys, Finmap.mem_keys]
  unfold prev at hp
  split at hp
  · rename_i g hg
    exact .inl (Finmap.mem_iff.2 ⟨g, hg⟩)
  · split at hp
    · rename_i hd hhd
      exact .inr (Finmap.mem_iff.2 ⟨hd, hhd⟩)
    · exact absurd hp.symm hz

theorem Chain.unique (h : Chain d tip chain) (h' : Chain d tip chain') : chain = chain' := by
  rcases h with ⟨hz, rfl⟩ | ⟨hz, hp⟩ <;> rcases h' with ⟨hz', rfl⟩ | ⟨hz', hp'⟩
  · rfl
  · exact absurd hz hz'
  · exact absurd hz' hz
  · exact hp.unique hp'

theorem Chain.nodup (h : Chain d tip chain) : chain.Nodup := by
  rcases h with ⟨-, rfl⟩ | ⟨-, hp⟩
  · exact List.nodup_nil
  · exact hp.nodup

/-- **`get_selected_chain` returns the chain whenever its loop ends.** -/
theorem getSelectedChain_eq (h : Chain d tip chain) : d.getSelectedChain tip = chain := by
  unfold getSelectedChain
  rcases h with ⟨hz, rfl⟩ | ⟨hz, hp⟩
  · rw [if_pos hz]
  · rw [if_neg hz]
    exact Walk.walk_eq hp (hp.length_le fun x y hxy => chainNext_mem_keys hxy)

/-- The rest of a chain is the chain of its first block. -/
theorem Chain.tail {c : Hash} {ys : List Hash} (hc : Chain d tip chain)
    {xs : List Hash} (he : chain = xs ++ c :: ys) : Chain d c (c :: ys) := by
  rcases hc with ⟨-, rfl⟩ | ⟨hz, hp⟩
  · simp at he
  · refine .inr ⟨?_, hp.suffix he⟩
    rcases xs with _ | ⟨x, xs⟩
    · obtain ⟨t, ht⟩ := hp.head
      rw [he] at ht
      cases ht
      exact hz
    · -- `c` was reached by a step, and steps do not lead to the zero hash
      obtain ⟨x', hx'⟩ : ∃ x', d.chainNext x' = some c := by
        obtain ⟨zs, z, hzs⟩ : ∃ zs z, x :: xs = zs ++ [z] := by
          exact ⟨_, _, (List.dropLast_append_getLast (by simp)).symm⟩
        rw [hzs, List.append_assoc] at he
        exact ⟨z, hp.next_tail he⟩
      exact (chainNext_eq_some.1 hx').2

/-- A chain is its tip, then the chain of the next block. -/
theorem Chain.step {ys : List Hash} (hc : Chain d tip (h :: p :: ys)) :
    tip = h ∧ d.chainNext h = some p ∧ Chain d p (p :: ys) := by
  have htail : Chain d p (p :: ys) := hc.tail (show h :: p :: ys = [h] ++ p :: ys from rfl)
  rcases hc with ⟨-, hnil⟩ | ⟨-, hp⟩
  · cases hnil
  · cases hp with
    | step hnext hpath =>
      obtain ⟨t, ht⟩ := hpath.head
      cases ht
      exact ⟨rfl, hnext, htail⟩

theorem Chain.head {ys : List Hash} (hc : Chain d tip (h :: ys)) : tip = h := by
  rcases hc with ⟨-, hnil⟩ | ⟨-, hp⟩
  · cases hnil
  · obtain ⟨t, ht⟩ := hp.head
    cases ht
    rfl

end Dag

end Zentra

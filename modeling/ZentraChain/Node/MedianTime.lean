import Mathlib.Data.List.MinMax
import ZentraChain.Node.Root
import ZentraChain.Node.Window

/-!
# Median time past and the selected chain (`node.rs`)

Among parents of one score, the walk of the median time goes on from the first, and GhostDAG
selects the last.

* `pickNext_eq`, `selectParent_eq`: the first and the last of the heaviest.
* `medianTime_follows_iff`: when the walk is along the selected chain.
-/

namespace Zentra

namespace GhostdagManager

theorem maxByKey_concat {α : Type} (key : α → Nat) (l : List α) (x : α) : maxByKey key (l ++ [x]) =
    match maxByKey key l with
    | none => some x
    | some best => some (if key best ≤ key x then x else best) := by
  cases l with
  | nil => rfl
  | cons a l =>
    rw [List.cons_append, maxByKey, List.foldl_append]
    rfl

/-- The last of the largest is the first of the reversed list. -/
theorem maxByKey_eq_argmax {α : Type} (key : α → Nat) (l : List α) :
    maxByKey key l = l.reverse.argmax key := by
  induction l using List.reverseRecOn with
  | nil => rfl
  | append_singleton l x ih =>
    rw [maxByKey_concat, ih, List.reverse_append, List.reverse_singleton, List.singleton_append,
      List.argmax_cons]
    cases l.reverse.argmax key with
    | none => rfl
    | some best =>
      simp only
      split <;> split <;> first | rfl | omega

end GhostdagManager

namespace Dag

/-- Up to `n` blocks, going back through the best unvisited parent. -/
def pastHeaders (d : Dag) : Nat → Finset Hash → List Hash → List (Hash × Header)
  | 0, _, _ => []
  | n + 1, visited, cursor =>
    match d.pickNext visited cursor with
    | some (h, hd) => (h, hd) :: pastHeaders d n (insert h visited) hd.parents
    | none => []

/-- The blocks whose times `validate_block_header` collects, for a header with these parents. -/
def medianBlocks (d : Dag) (parents : List Hash) : List Hash := (d.pastHeaders 11 ∅ parents).map (·.1)

/-- The first and the last of the parents of the highest score are the same. -/
def OneHeaviest (d : Dag) (parents : List Hash) : Prop :=
  parents.argmax d.score = parents.reverse.argmax d.score

instance (d : Dag) (parents : List Hash) : Decidable (d.OneHeaviest parents) :=
  inferInstanceAs (Decidable (_ = _))

variable {E : Env} {d : Dag} {h s : Hash} {parents chain rest : List Hash} {visited : Finset Hash}

/-- The collected times are those of the blocks met. -/
theorem pastTimes_eq (d : Dag) : ∀ (n : Nat) (visited : Finset Hash) (cursor : List Hash),
    d.pastTimes n visited cursor = (d.pastHeaders n visited cursor).map (·.2.timestamp)
  | 0, _, _ => rfl
  | n + 1, visited, cursor => by
    unfold pastTimes pastHeaders
    cases d.pickNext visited cursor with
    | none => rfl
    | some x => simp only [pastTimes_eq d n, List.map_cons]

/-! ## One step -/

/-- The walk goes on from a stored parent. -/
theorem Wf.pickNext_some (hw : d.Wf E) (hs : ∀ p ∈ parents, (d.getBlock p).isSome) {q : Hash}
    {hd : Header} (hq : d.pickNext visited parents = some (q, hd)) :
    q ∈ parents ∧ ∃ b, d.getBlock q = some b ∧ b.header = hd := by
  obtain ⟨hmem, hhd⟩ := pickNext_mem _ hq
  obtain ⟨b, hb⟩ := Option.isSome_iff_exists.1 (hs q hmem)
  rw [hw.header, hb] at hhd
  exact ⟨hmem, b, hb, Option.some.inj hhd⟩

theorem pickNext_concat {p : Hash} {hd : Header} (hp : p ∉ visited) (hhd : d.getHeader p = some hd) :
    d.pickNext visited (parents ++ [p]) = (d.pickNext visited parents).elim (some (p, hd)) fun next =>
      if hd.blueScore > next.2.blueScore then some (p, hd) else some next := by
  cases hq : d.pickNext visited parents <;>
  · unfold pickNext at hq ⊢
    rw [List.foldl_append, List.foldl_cons, List.foldl_nil, if_neg hp, hhd, hq]
    rfl

/-- **The walk goes on from the first of the heaviest.** -/
theorem Wf.pickNext_eq (hw : d.Wf E) (hs : ∀ p ∈ parents, (d.getBlock p).isSome)
    (hv : ∀ p ∈ parents, p ∉ visited) :
    (d.pickNext visited parents).map (·.1) = parents.argmax d.score := by
  induction parents using List.reverseRecOn with
  | nil => rfl
  | append_singleton l p ih =>
    rw [List.forall_mem_append, List.forall_mem_singleton] at hs hv
    have ih := ih hs.1 hv.1
    obtain ⟨b, hb⟩ := Option.isSome_iff_exists.1 hs.2
    have hhd : d.getHeader p = some b.header := by
      rw [hw.header, hb]
      rfl
    rw [pickNext_concat hv.2 hhd, List.argmax_concat, ← ih]
    cases hq : d.pickNext visited l with
    | none => rfl
    | some x =>
      obtain ⟨q, nh⟩ := x
      obtain ⟨-, c, hc, rfl⟩ := hw.pickNext_some hs.1 hq
      simp only [Option.map_some, Option.elim_some, hw.score_eq hb, hw.score_eq hc, gt_iff_lt]
      split <;> rfl

/-- **GhostDAG selects the last of the heaviest.** -/
theorem selectParent_eq (hne : parents ≠ []) : parents.reverse.argmax d.score =
    some (GhostdagManager.selectParent d.getGhostdag parents) := by
  cases parents with
  | nil => exact absurd rfl hne
  | cons a l => exact (GhostdagManager.maxByKey_eq_argmax _ _).symm

theorem selectedParent_ghostdagFor (d : Dag) (parents : List Hash) :
    (d.ghostdagFor parents).selectedParent =
      GhostdagManager.selectParent d.getGhostdag parents := by
  cases parents with
  | nil => rfl
  | cons a l => rfl

/-- On stored parents, the walk goes on from the selected parent exactly when it is the one heaviest. -/
theorem Wf.pickNext_selected (hw : d.Wf E) (hs : ∀ p ∈ parents, (d.getBlock p).isSome)
    (hv : ∀ p ∈ parents, p ∉ visited) (hne : parents ≠ []) :
    ∃ q b, d.getBlock q = some b ∧ q ∈ parents ∧ d.pickNext visited parents = some (q, b.header) ∧
      (q = GhostdagManager.selectParent d.getGhostdag parents ↔ d.OneHeaviest parents) := by
  have hpick := hw.pickNext_eq hs hv
  rw [OneHeaviest, selectParent_eq hne, ← hpick]
  cases hq : d.pickNext visited parents with
  | none =>
    rw [hq, Option.map_none, eq_comm, List.argmax_eq_none] at hpick
    exact absurd hpick hne
  | some x =>
    obtain ⟨q, nh⟩ := x
    obtain ⟨hmem, b, hb, rfl⟩ := hw.pickNext_some hs hq
    exact ⟨q, b, hb, hmem, rfl, by simp⟩

/-! ## The walk -/

/-- **The walk is along the chain** as long as one parent is the heaviest, for as many steps. -/
theorem Wf.pastHeaders_eq_iff (hw : d.Wf E) : ∀ (k : Nat) (visited : Finset Hash)
    {parents : List Hash} {s : Hash} {rest : List Hash}, (∀ p ∈ parents, (d.getBlock p).isSome) →
      (∀ v ∈ visited, ∀ p ∈ parents, d.score p < d.score v) → parents ≠ [] →
      s = GhostdagManager.selectParent d.getGhostdag parents → d.Chain s (s :: rest) →
      k ≤ rest.length + 1 →
      ((d.pastHeaders k visited parents).map (·.1) = (s :: rest).take k ↔
        ∀ ps ∈ (parents :: (s :: rest).map d.getParents).take k, d.OneHeaviest ps)
  | 0, _, _, _, _, _, _, _, _, _, _ => by simp [pastHeaders]
  | k + 1, visited, parents, s, rest, hs, hv, hne, hsel, hc, hk => by
    have hfresh : ∀ p ∈ parents, p ∉ visited := fun p hp hm => Nat.lt_irrefl _ (hv p hm p hp)
    obtain ⟨q, b, hb, hq, hpick, hiff⟩ := hw.pickNext_selected hs hfresh hne
    rw [← hsel] at hiff
    simp only [pastHeaders, hpick, List.map_cons, List.take_succ_cons, List.forall_mem_cons,
      List.cons.injEq, hiff]
    refine and_congr_right fun hone => ?_
    obtain rfl := hiff.2 hone
    rw [hw.getParents_eq hb]
    cases k with
    | zero => simp [pastHeaders]
    | succ k =>
      -- there is a next block, the selected parent of `q`
      cases rest with
      | nil => simp at hk
      | cons s' rest =>
        obtain ⟨-, hnext, hc'⟩ := hc.step
        obtain ⟨hprev, -⟩ := chainNext_eq_some.1 hnext
        rw [hw.prev_eq hb, selectedParent_ghostdagFor] at hprev
        refine hw.pastHeaders_eq_iff (k + 1) (insert q visited) (hw.parents q b hb) ?_ ?_
          hprev.symm hc' (by simpa using hk)
        · intro v hm p hp
          have hlt := hw.score_parent_lt hb hp
          rcases Finset.mem_insert.1 hm with rfl | hm
          · exact hlt
          · exact hlt.trans (hv v hm q hq)
        · exact List.ne_nil_of_mem (hw.chainNext_some hb hnext).1

/-! ## Scores fall -/

theorem Wf.pastHeaders_le (hw : d.Wf E) : ∀ (k : Nat) (visited : Finset Hash) {parents : List Hash},
    (∀ p ∈ parents, (d.getBlock p).isSome) →
      ∀ x ∈ d.pastHeaders k visited parents, ∃ p ∈ parents, d.score x.1 ≤ d.score p
  | 0, _, _, _ => by simp [pastHeaders]
  | k + 1, visited, parents, hs => by
    unfold pastHeaders
    split
    · rename_i q hd hq
      obtain ⟨hmem, b, hb, rfl⟩ := hw.pickNext_some hs hq
      intro x hx
      refine ⟨q, hmem, ?_⟩
      rcases List.mem_cons.1 hx with rfl | hx
      · exact Nat.le_refl _
      · obtain ⟨p, hp, hle⟩ := hw.pastHeaders_le k _ (hw.parents q b hb) x hx
        exact (hle.trans_lt (hw.score_parent_lt hb hp)).le
    · simp

/-- Scores fall on the walk. -/
theorem Wf.pastHeaders_pairwise (hw : d.Wf E) : ∀ (k : Nat) (visited : Finset Hash)
    {parents : List Hash}, (∀ p ∈ parents, (d.getBlock p).isSome) →
      (d.pastHeaders k visited parents).Pairwise fun x y => d.score y.1 < d.score x.1
  | 0, _, _, _ => by simp [pastHeaders]
  | k + 1, visited, parents, hs => by
    unfold pastHeaders
    split
    · rename_i q hd hq
      obtain ⟨hmem, b, hb, rfl⟩ := hw.pickNext_some hs hq
      refine List.pairwise_cons.2 ⟨fun x hx => ?_, hw.pastHeaders_pairwise k _ (hw.parents q b hb)⟩
      obtain ⟨p, hp, hle⟩ := hw.pastHeaders_le k _ (hw.parents q b hb) x hx
      exact hle.trans_lt (hw.score_parent_lt hb hp)
    · exact List.Pairwise.nil

/-- No block of another order has the same blocks. -/
theorem mem_iff_eq {l l' : List Hash} (h : l.Pairwise fun x y => d.score y < d.score x)
    (h' : l'.Pairwise fun x y => d.score y < d.score x) : (∀ x, x ∈ l ↔ x ∈ l') ↔ l = l' := by
  have : Std.Irrefl fun x y => d.score y < d.score x := ⟨fun _ => Nat.lt_irrefl _⟩
  have : Std.Antisymm fun x y => d.score y < d.score x :=
    ⟨fun _ _ hlt hgt => absurd hlt (Nat.lt_asymm hgt)⟩
  exact ⟨fun hmem => h.eq_of_mem_iff h' fun {x} => hmem x, fun he x => by rw [he]⟩

/-- Scores fall on a chain. -/
theorem Wf.path_pairwise (hw : d.Wf E) (hp : Walk.Path d.chainNext h chain)
    (hs : (d.getBlock h).isSome) : chain.Pairwise fun x y => d.score y < d.score x := by
  induction hp with
  | last _ => exact List.pairwise_singleton _ _
  | @step a c l hn hp ih =>
    obtain ⟨hstored, hlt⟩ := hw.chainNext_fall hs hn
    have htail := ih hstored
    refine List.pairwise_cons.2 ⟨fun x hx => ?_, htail⟩
    obtain ⟨t, rfl⟩ := hp.head
    rcases List.mem_cons.1 hx with rfl | hx
    · exact hlt
    · exact ((List.pairwise_cons.1 htail).1 x hx).trans hlt

end Dag

namespace Node

/-- **Median time past**: the blocks whose times are collected are the first eleven of the selected
chain, exactly when at each of these steps one parent is the heaviest, however often it is listed. -/
theorem medianTime_follows_iff (E : Env) (n : Node) (hn : n.Reachable E) (parents : List Hash)
    (hs : ∀ p ∈ parents, (n.dag.getBlock p).isSome)
    (hlen : 11 ≤ (n.dag.getSelectedChain (n.dag.ghostdagFor parents).selectedParent).length) :
    (∀ h, h ∈ n.dag.medianBlocks parents ↔
      h ∈ (n.dag.getSelectedChain (n.dag.ghostdagFor parents).selectedParent).take 11) ↔
    ∀ ps ∈ (parents :: (n.dag.getSelectedChain (n.dag.ghostdagFor parents).selectedParent).map
      n.dag.getParents).take 11, n.dag.OneHeaviest ps := by
  have hw := hn.sound.wf
  rw [Dag.selectedParent_ghostdagFor] at hlen ⊢
  have hne : parents ≠ [] := by
    rintro rfl
    simp [GhostdagManager.selectParent, GhostdagManager.maxByKey, Dag.getSelectedChain] at hlen
  have hstored : (n.dag.getBlock (GhostdagManager.selectParent n.dag.getGhostdag parents)).isSome :=
    hs _ (GhostdagManager.selectParent_mem hne)
  obtain ⟨chain, hc⟩ := hw.exists_chain hstored
  rw [Dag.getSelectedChain_eq hc] at hlen ⊢
  obtain ⟨-, rfl⟩ | ⟨-, hp⟩ := id hc
  · simp at hlen
  · have hwalk := hw.pastHeaders_pairwise 11 ∅ hs
    have hchain := (hw.path_pairwise hp hstored).sublist (List.take_sublist 11 chain)
    obtain ⟨rest, rfl⟩ := hp.head
    refine (Dag.mem_iff_eq (List.pairwise_map.2 hwalk) hchain).trans ?_
    exact hw.pastHeaders_eq_iff 11 ∅ hs (by simp) hne rfl hc hlen

end Node

namespace Sample

/-- A block with hash `1 + i` and the bits expected of it. -/
def stamped (n : Node) (i score : Nat) (parents : List Hash) : Block :=
  let b := block i .gpu parents score score [coinbase i [subsidy]]
  { b with header :=
    { b.header with bits := n.dag.calculateExpectedDifficulty .devnet parents .gpu } }

/-- A node after blocks one on the other. -/
def tower : Nat → Node
  | 0 => run []
  | k + 1 => accept env (tower k) [stamped (tower k) (k + 1) (k + 1) [⟨k + 1⟩]]

/-- Two more blocks of one score. -/
def twins : Node :=
  accept env (tower 9) [stamped (tower 9) 10 10 [⟨10⟩], stamped (tower 9) 11 10 [⟨10⟩]]

theorem reachable_twins : twins.Reachable env := by
  have htower : ∀ k, (tower k).Reachable env := fun k => by
    induction k with
    | zero => exact reachable_run []
    | succ k ih => exact reachable_accept ih _
  exact reachable_accept (htower 9) _

end Sample

open Sample in
/-- A header on the two blocks: the walk starts with the first, the chain with the second. -/
theorem medianTime_leaves_chain :
    ¬∀ n : Node, n.Reachable env → ∀ parents : List Hash, (∀ p ∈ parents, (n.dag.getBlock p).isSome) →
      11 ≤ (n.dag.getSelectedChain (n.dag.ghostdagFor parents).selectedParent).length →
        ∀ h, h ∈ n.dag.medianBlocks parents ↔
          h ∈ (n.dag.getSelectedChain (n.dag.ghostdagFor parents).selectedParent).take 11 := by
  intro h
  have hfirst := (h twins reachable_twins [⟨11⟩, ⟨12⟩] (by decide +kernel) (by decide +kernel)
    ⟨11⟩).1
  exact absurd (hfirst (by decide +kernel)) (by decide +kernel)

open Sample in
/-- A header on the second of the blocks alone. -/
theorem medianTime_follows_single : (twins.dag.getBlock ⟨12⟩).isSome ∧
    ∀ h, h ∈ twins.dag.medianBlocks [⟨12⟩] ↔
      h ∈ (twins.dag.getSelectedChain (twins.dag.ghostdagFor [⟨12⟩]).selectedParent).take 11 :=
  ⟨by decide +kernel,
    (Node.medianTime_follows_iff env twins reachable_twins [⟨12⟩] (by decide +kernel)
      (by decide +kernel)).2 (by decide +kernel)⟩

end Zentra

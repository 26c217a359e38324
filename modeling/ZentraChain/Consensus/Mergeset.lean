import ZentraChain.Consensus.Ghostdag
import ZentraChain.Lib.Ancestry
import ZentraChain.Lib.Walk

/-!
# Mergesets and pasts

`Computed m P parents get`: in the graph `parents` of the blocks `P`, `get` has the data that the
manager `m` computes for each block from its parents' data.

* `Computed.score_lt`: a block scores higher than its parents, so the graph has no cycles.
* `mergeset_perm`: the mergeset is the other parents, whatever their pasts.
* `Computed.past_eq`, `Computed.past_chain`: the past of a block, from its mergeset and along its
  selected chain.
* `mergeset_exact`: the four together.
-/

namespace Zentra

open Ancestry

namespace GhostdagManager

variable {m : GhostdagManager} {P : Hash → Prop} {parents : Hash → List Hash}
  {get : Hash → Option GhostdagData} {b h p q : Hash}

/-- A graph whose GhostDAG data was computed by `process_block`. -/
structure Computed (m : GhostdagManager) (P : Hash → Prop) (parents : Hash → List Hash)
    (get : Hash → Option GhostdagData) : Prop where
  /-- Only the blocks of the graph have parents. -/
  block : ∀ h p, p ∈ parents h → P h
  closed : ∀ h, P h → ∀ p ∈ parents h, P p
  data : ∀ h, P h → get h = some (m.processBlock get (parents h))

/-- The blue and the red blocks that a block merges. -/
def mergeset (get : Hash → Option GhostdagData) (h : Hash) : List Hash :=
  (dataOf get h).mergesetBlues ++ (dataOf get h).mergesetReds

namespace Computed

theorem dataOf_eq (hc : Computed m P parents get) (hb : P b) :
    dataOf get b = m.processBlock get (parents b) := by
  rw [dataOf, hc.data b hb]
  rfl

theorem scoreOf_eq (hc : Computed m P parents get) (hb : P b) :
    scoreOf get b = (m.processBlock get (parents b)).blueScore := by
  rw [← blueScore_dataOf, hc.dataOf_eq hb]

theorem score_lt (hc : Computed m P parents get) :
    ∀ p b, p ∈ parents b → scoreOf get p < scoreOf get b := by
  intro p b hp
  obtain ⟨hs, hscore, -⟩ := processBlock_spec m get (List.ne_nil_of_mem hp)
  have hmax : scoreOf get p ≤ _ := selectParent_max hp
  rw [hc.scoreOf_eq (hc.block b p hp), hscore, blueScore_dataOf, hs]
  omega

theorem notMem_past_self (hc : Computed m P parents get) (b : Hash) : b ∉ past parents b :=
  Ancestry.notMem_past_self hc.score_lt b

theorem selectedParent_mem (hc : Computed m P parents get) (hb : P b) (hne : parents b ≠ []) :
    (dataOf get b).selectedParent ∈ parents b := by
  rw [hc.dataOf_eq hb]
  exact GhostdagManager.selectedParent_mem hne

end Computed

/-! ## The mergeset -/

theorem classifyLoop_perm : ∀ (ps : List Hash) (blueSet : Finset Hash),
    ((m.classifyLoop get ps blueSet).1 ++ (m.classifyLoop get ps blueSet).2).Perm ps
  | [], _ => .refl _
  | p :: ps, blueSet => by
    simp only [classifyLoop]
    split
    · exact (classifyLoop_perm ps _).cons p
    · exact List.perm_middle.trans ((classifyLoop_perm ps _).cons p)

/-- The mergeset of a block is its other parents, each as often as the block names it. -/
theorem mergeset_perm (hc : Computed m P parents get) (hb : P b) (hne : parents b ≠ []) :
    (mergeset get b).Perm ((parents b).filter (· ≠ (dataOf get b).selectedParent)) := by
  have he : (parents b).isEmpty = false := by simpa using hne
  rw [mergeset, hc.dataOf_eq hb]
  unfold processBlock
  rw [he]
  exact classifyLoop_perm _ _

theorem mem_mergeset_iff (hc : Computed m P parents get) (hb : P b) (hne : parents b ≠ []) :
    q ∈ mergeset get b ↔ q ∈ parents b ∧ q ≠ (dataOf get b).selectedParent := by
  rw [(mergeset_perm hc hb hne).mem_iff, List.mem_filter, decide_eq_true_iff]

theorem mergeset_root (hc : Computed m P parents get) (hb : P b) (hnil : parents b = []) :
    mergeset get b = [] := by
  rw [mergeset, hc.dataOf_eq hb, hnil]
  rfl

theorem mem_parents_of_mergeset (hc : Computed m P parents get) (hb : P b)
    (hq : q ∈ mergeset get b) : q ∈ parents b := by
  by_cases hne : parents b = []
  · rw [mergeset_root hc hb hne] at hq
    cases hq
  · exact ((mem_mergeset_iff hc hb hne).1 hq).1

/-! ## The past -/

/-- The merge blocks of a block and all their ancestors. -/
def mergedPast (parents : Hash → List Hash) (get : Hash → Option GhostdagData) (b : Hash) :
    Set Hash := {x | ∃ q ∈ mergeset get b, x = q ∨ x ∈ past parents q}

theorem Computed.past_eq (hc : Computed m P parents get) (hb : P b) (hne : parents b ≠ []) :
    past parents b = past parents (dataOf get b).selectedParent ∪
      {(dataOf get b).selectedParent} ∪ mergedPast parents get b := by
  refine Set.ext fun x => ?_
  simp only [Set.mem_union, Set.mem_singleton_iff, mergedPast, Set.mem_ofPred_eq]
  rw [mem_past_iff]
  refine ⟨?_, ?_⟩
  · rintro ⟨p, hp, hx⟩
    by_cases hps : p = (dataOf get b).selectedParent
    · subst hps
      exact .inl hx.symm
    · exact .inr ⟨p, (mem_mergeset_iff hc hb hne).2 ⟨hp, hps⟩, hx⟩
  · rintro ((hx | rfl) | ⟨q, hq, hx⟩)
    · exact ⟨_, hc.selectedParent_mem hb hne, .inr hx⟩
    · exact ⟨_, hc.selectedParent_mem hb hne, .inl rfl⟩
    · exact ⟨q, ((mem_mergeset_iff hc hb hne).1 hq).1, hx⟩

/-- The block that the selected chain goes to. -/
def selectedNext (parents : Hash → List Hash) (get : Hash → Option GhostdagData) (b : Hash) :
    Option Hash := if parents b = [] then none else some (dataOf get b).selectedParent

theorem selectedNext_some : selectedNext parents get b = some p ↔
    parents b ≠ [] ∧ (dataOf get b).selectedParent = p := by
  unfold selectedNext
  split <;> simp_all

theorem selectedNext_none : selectedNext parents get b = none ↔ parents b = [] := by
  unfold selectedNext
  split <;> simp_all

/-- Every block has a selected chain. -/
theorem Computed.exists_chain (hc : Computed m P parents get) (hb : P b) :
    ∃ chain, Walk.Path (selectedNext parents get) b chain := by
  refine Walk.exists_path (P := P) (scoreOf get) (fun x y hx hn => ?_) hb
  obtain ⟨hne, rfl⟩ := selectedNext_some.1 hn
  have hmem := hc.selectedParent_mem hx hne
  exact ⟨hc.closed x hx _ hmem, hc.score_lt _ _ hmem⟩

/-- **Along the selected chain** every block of the past is on the chain, is merged, or is an
ancestor of a merged block. -/
theorem Computed.past_chain (hc : Computed m P parents get) {chain : List Hash}
    (hp : Walk.Path (selectedNext parents get) b chain) (hb : P b) (x : Hash) :
    (x = b ∨ x ∈ past parents b) ↔ ∃ c ∈ chain, x = c ∨ x ∈ mergedPast parents get c := by
  induction hp with
  | @last a hn =>
    have hnil := selectedNext_none.1 hn
    have hm : mergedPast parents get a = ∅ := by
      rw [mergedPast, mergeset_root hc hb hnil]
      simp
    rw [past_eq_empty hnil]
    simp [hm]
  | @step a s l hn hl ih =>
    obtain ⟨hne, rfl⟩ := selectedNext_some.1 hn
    have ih := ih (hc.closed a hb _ (hc.selectedParent_mem hb hne))
    rw [hc.past_eq hb hne]
    simp only [List.mem_cons, exists_eq_or_imp, ← ih, Set.mem_union, Set.mem_singleton_iff]
    refine ⟨?_, ?_⟩
    · rintro (h | (h | h) | h)
      · exact .inl (.inl h)
      · exact .inr (.inr h)
      · exact .inr (.inl h)
      · exact .inl (.inr h)
    · rintro ((h | h) | (h | h))
      · exact .inl h
      · exact .inr (.inr h)
      · exact .inr (.inl (.inr h))
      · exact .inr (.inl (.inl h))

/-- **The mergeset of a block is exactly its other parents**; with their pasts, and along the
selected chain, it makes up the past of the block. -/
theorem mergeset_exact (m : GhostdagManager) (P : Hash → Prop) (parents : Hash → List Hash)
    (get : Hash → Option GhostdagData) (hc : Computed m P parents get) (b : Hash) (hb : P b)
    (hne : parents b ≠ []) :
    (dataOf get b).selectedParent ∈ parents b ∧
      (∀ q, q ∈ mergeset get b ↔ q ∈ parents b ∧ q ≠ (dataOf get b).selectedParent) ∧
      ((parents b).Nodup → (mergeset get b).Nodup) ∧
      past parents b = past parents (dataOf get b).selectedParent ∪
        {(dataOf get b).selectedParent} ∪ mergedPast parents get b ∧
      ∃ chain, Walk.Path (selectedNext parents get) b chain ∧ chain.Nodup ∧
        ∀ x, (x = b ∨ x ∈ past parents b) ↔ ∃ c ∈ chain, x = c ∨ x ∈ mergedPast parents get c := by
  obtain ⟨chain, hchain⟩ := hc.exists_chain hb
  refine ⟨hc.selectedParent_mem hb hne, fun q => mem_mergeset_iff hc hb hne, fun hnd => ?_,
    hc.past_eq hb hne, chain, hchain, hchain.nodup, hc.past_chain hchain hb⟩
  exact (mergeset_perm hc hb hne).nodup_iff.2 (hnd.filter _)

end GhostdagManager

/-! ## A sample graph -/

namespace Sample

open GhostdagManager

/-- Blocks with their parents, which come first. -/
abbrev Rows := List (Hash × List Hash)

def Rows.parents (rows : Rows) (h : Hash) : List Hash :=
  ((rows.find? (·.1 = h)).map (·.2)).getD []

/-- The data of the blocks, each computed when it comes. -/
def Rows.get (m : GhostdagManager) (rows : Rows) : Hash → Option GhostdagData :=
  rows.foldl (fun get r h => if h = r.1 then some (m.processBlock get r.2) else get h) fun _ => none

/-- Two branches, `⟨2⟩, ⟨3⟩, ⟨4⟩` and `⟨5⟩, ⟨6⟩`, that `⟨7⟩` merges. -/
def branches : Rows :=
  [(⟨1⟩, []), (⟨2⟩, [⟨1⟩]), (⟨3⟩, [⟨2⟩]), (⟨4⟩, [⟨3⟩]), (⟨5⟩, [⟨1⟩]), (⟨6⟩, [⟨5⟩]), (⟨7⟩, [⟨6⟩, ⟨4⟩])]

theorem branches_computed : Computed ⟨1⟩ (· ∈ branches.map (·.1)) branches.parents
    (branches.get ⟨1⟩) where
  block := fun h p hp => by
    by_contra hn
    have hnone : branches.find? (·.1 = h) = none :=
      List.find?_eq_none.2 fun r hr he => hn (List.mem_map.2 ⟨r, hr, of_decide_eq_true he⟩)
    rw [Rows.parents, hnone] at hp
    cases hp
  closed := by decide +kernel
  data := by decide +kernel

/-- The first branch is closed under parents. -/
theorem past_first_branch {b x : Hash} (hb : b ∈ [⟨1⟩, ⟨2⟩, ⟨3⟩, (⟨4⟩ : Hash)])
    (h : x ∈ past branches.parents b) : x ∈ [⟨1⟩, ⟨2⟩, ⟨3⟩, (⟨4⟩ : Hash)] :=
  mem_of_past (P := (· ∈ [⟨1⟩, ⟨2⟩, ⟨3⟩, (⟨4⟩ : Hash)])) (by decide +kernel) hb h

end Sample

open GhostdagManager Sample in
/-- The block `⟨5⟩` of the merged branch is in nobody's mergeset. -/
theorem mergeset_misses_ancestors :
    ¬∀ (m : GhostdagManager) (P : Hash → Prop) (parents : Hash → List Hash)
      (get : Hash → Option GhostdagData), Computed m P parents get →
      ∀ b, P b → parents b ≠ [] → (mergeset get b).Nodup ∧
        ∀ x, x ∈ mergeset get b ↔ x ∈ past parents b ∧
          ¬(x ∈ past parents (dataOf get b).selectedParent ∨
            x = (dataOf get b).selectedParent) := by
  intro h
  have hm := (h _ _ _ _ branches_computed ⟨7⟩ (by decide) (by decide)).2 ⟨5⟩
  have hs : (dataOf (branches.get ⟨1⟩) ⟨7⟩).selectedParent = ⟨4⟩ := by decide +kernel
  rw [hs] at hm
  have hin : (⟨5⟩ : Hash) ∈ past branches.parents ⟨7⟩ :=
    past_trans (b := ⟨6⟩) (parent_mem_past (by decide)) (parent_mem_past (by decide))
  have hout : (⟨5⟩ : Hash) ∉ past branches.parents ⟨4⟩ := fun hx =>
    absurd (past_first_branch (by decide) hx) (by decide)
  have hmem := hm.2 ⟨hin, not_or.2 ⟨hout, by decide⟩⟩
  exact absurd hmem (by decide +kernel)

open GhostdagManager Sample in
theorem mergeset_exact_branches :
    ((⟨4⟩ : Hash) ∈ branches.parents ⟨7⟩) ∧ mergeset (branches.get ⟨1⟩) ⟨7⟩ = [⟨6⟩] ∧
      past branches.parents ⟨7⟩ = past branches.parents ⟨4⟩ ∪ {⟨4⟩} ∪
        mergedPast branches.parents (branches.get ⟨1⟩) ⟨7⟩ := by
  have hs : (dataOf (branches.get ⟨1⟩) ⟨7⟩).selectedParent = ⟨4⟩ := by decide +kernel
  obtain ⟨h1, -, -, h2, -⟩ := mergeset_exact _ _ _ _ branches_computed ⟨7⟩ (by decide) (by decide)
  rw [hs] at h1 h2
  exact ⟨h1, by decide +kernel, h2⟩

end Zentra

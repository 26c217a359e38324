import ZentraChain.Consensus.Mergeset

/-!
# Blue blocks

`classify_mergeset` colours a merge block blue when at most `k` blocks of a running blue set are
outside its known past.

* `anticone_card_le`: the estimate counts the blue set's part of the anticone, and more.
* `mergesetBlues_anticone_le`: hence at most `k` blocks of that set are in the anticone of a blue
  block; blocks blue further down the chain are not in the set (`cluster_too_wide`).
* `blueAlong`, `MergedOnce`: the blue blocks along a selected chain, and when none of them is
  merged twice.
* `blueAlong_card`: the blue score counts them, if none is.
-/

namespace Zentra

open Ancestry

namespace GhostdagManager

variable {m : GhostdagManager} {P : Hash → Prop} {parents : Hash → List Hash}
  {get : Hash → Option GhostdagData} {b p x : Hash} {A blueSet : Finset Hash}

/-- The blue set that the merge block after `pre` is coloured against: `s` is the selected parent,
`pre` the merge blocks found blue before. -/
def blueSetAt (get : Hash → Option GhostdagData) (s : Hash) (pre : List Hash) : Finset Hash :=
  pre.foldl (fun blues q => insert q (blues ∪ (dataOf get q).mergesetBlues.toFinset))
    (insert (dataOf get s).selectedParent (dataOf get s).mergesetBlues.toFinset)

/-- The past that the estimate knows of is past; a block without parents has the zero hash in it. -/
theorem mem_past_of_known (hc : Computed m P parents get) (hp : P p) (hx : x ≠ .zero)
    (hk : x ∈ insert (dataOf get p).selectedParent (mergeset get p).toFinset) :
    x ∈ past parents p := by
  rcases Finset.mem_insert.1 hk with rfl | hm
  · refine parent_mem_past (hc.selectedParent_mem hp fun hnil => hx ?_)
    rw [hc.dataOf_eq hp, hnil]
    rfl
  · exact parent_mem_past (mem_parents_of_mergeset hc hp (List.mem_toFinset.1 hm))

/-- **The estimate is no lower than the anticone**: it counts every block of it that is blue. -/
theorem anticone_card_le (hc : Computed m P parents get) (hp : P p)
    (hA : ∀ x ∈ A, x ∈ blueSet ∧ x ≠ .zero ∧ x ∈ anticone parents p) :
    A.card ≤ estimateAnticoneSize get p blueSet := by
  refine Finset.card_le_card fun x hx => ?_
  obtain ⟨hblue, hzero, hne, hpast, -⟩ := hA x hx
  refine Finset.mem_filter.2 ⟨hblue, fun hk => hpast ?_, hne⟩
  exact mem_past_of_known hc hp hzero hk

/-- A block that comes out blue was estimated against the blue blocks found before it. -/
theorem classifyLoop_blue : ∀ {ps : List Hash} {blueSet : Finset Hash} {pre post : List Hash},
    (m.classifyLoop get ps blueSet).1 = pre ++ p :: post →
      estimateAnticoneSize get p (pre.foldl
        (fun blues q => insert q (blues ∪ (dataOf get q).mergesetBlues.toFinset)) blueSet) ≤ m.k
  | [], _, pre, post, h => by cases pre <;> cases h
  | q :: ps, blueSet, pre, post, h => by
    simp only [classifyLoop] at h
    split at h
    · rename_i hle
      cases pre with
      | nil =>
        obtain ⟨rfl, -⟩ := List.cons.inj h
        exact hle
      | cons a pre =>
        obtain ⟨rfl, -⟩ := List.cons.inj h
        rw [List.foldl_cons]
        exact classifyLoop_blue (List.cons.inj h).2
    · exact classifyLoop_blue h

/-- **At most `k` blocks of the blue set that a merge block was found blue in** are in its
anticone. -/
theorem mergesetBlues_anticone_le (m : GhostdagManager) (P : Hash → Prop)
    (parents : Hash → List Hash) (get : Hash → Option GhostdagData)
    (hc : Computed m P parents get) (b : Hash) (hb : P b) (pre : List Hash) (p : Hash)
    (post : List Hash) (he : (dataOf get b).mergesetBlues = pre ++ p :: post) (A : Finset Hash)
    (hA : ∀ x ∈ A, x ∈ blueSetAt get (dataOf get b).selectedParent pre ∧ x ≠ .zero ∧
      x ∈ anticone parents p) : A.card ≤ m.k := by
  have hmem : p ∈ mergeset get b := List.mem_append_left _ (by rw [he]; simp)
  have hpar := mem_parents_of_mergeset hc hb hmem
  have hne : (parents b).isEmpty = false := by
    rw [List.isEmpty_eq_false_iff]
    exact List.ne_nil_of_mem hpar
  have hblue := hc.dataOf_eq hb
  unfold processBlock at hblue
  rw [hne] at hblue
  refine Nat.le_trans (anticone_card_le hc (hc.closed b hb p hpar) hA) ?_
  rw [hblue] at he ⊢
  exact classifyLoop_blue he

/-! ## Blue blocks along a selected chain -/

/-- The blue blocks that the first block of a selected chain has in its past: the blocks below it
on the chain and the blue merge blocks of the chain. -/
def blueAlong (get : Hash → Option GhostdagData) : List Hash → Finset Hash
  | c :: s :: rest => insert s (blueAlong get (s :: rest) ∪ (dataOf get c).mergesetBlues.toFinset)
  | _ => ∅

theorem mergesetBlues_subset_past (hc : Computed m P parents get) (hb : P b)
    (hx : x ∈ (dataOf get b).mergesetBlues) : x ∈ past parents b :=
  parent_mem_past (mem_parents_of_mergeset hc hb (List.mem_append_left _ hx))

theorem blueAlong_subset_past (hc : Computed m P parents get) (hb : P b) {chain : List Hash}
    (hp : Walk.Path (selectedNext parents get) b chain) :
    ∀ x ∈ blueAlong get chain, x ∈ past parents b := by
  induction hp with
  | last _ => simp [blueAlong]
  | @step a s l hn hl ih =>
    obtain ⟨hne, rfl⟩ := selectedNext_some.1 hn
    have hs := hc.selectedParent_mem hb hne
    obtain ⟨t, rfl⟩ := hl.head
    intro x hx
    simp only [blueAlong, Finset.mem_insert, Finset.mem_union, List.mem_toFinset] at hx
    rcases hx with rfl | hx | hx
    · exact parent_mem_past hs
    · exact past_trans (ih (hc.closed a hb _ hs) x hx) (parent_mem_past hs)
    · exact mergesetBlues_subset_past hc hb hx

/-- No block of a selected chain merges a blue block twice, or one that is blue further down. -/
def MergedOnce (get : Hash → Option GhostdagData) : List Hash → Prop
  | c :: s :: rest => ((dataOf get c).mergesetBlues.Nodup ∧
      ∀ q ∈ (dataOf get c).mergesetBlues, q ∉ blueAlong get (s :: rest)) ∧
        MergedOnce get (s :: rest)
  | _ => True

instance (get : Hash → Option GhostdagData) : ∀ chain, Decidable (MergedOnce get chain)
  | [] => isTrue trivial
  | [_] => isTrue trivial
  | _ :: s :: rest =>
    have := instDecidableMergedOnce get (s :: rest)
    inferInstanceAs (Decidable (_ ∧ _))

/-- A block scores one more than its selected parent, and one for each blue block it merges. -/
theorem Computed.score_step (hc : Computed m P parents get) (hb : P b) (hne : parents b ≠ []) :
    scoreOf get b = scoreOf get (dataOf get b).selectedParent + 1 +
      (dataOf get b).mergesetBlues.length := by
  rw [hc.scoreOf_eq hb, hc.dataOf_eq hb, ← blueScore_dataOf]
  exact (processBlock_spec m get hne).2.1

/-- The card of a chain's blue blocks, one block up. -/
theorem card_insert_blues {s : Hash} {blue : Finset Hash} {blues : List Hash} (hs : s ∉ blue)
    (hs' : s ∉ blues) : (insert s (blue ∪ blues.toFinset)).card ≤ blue.card + 1 + blues.length ∧
      ((insert s (blue ∪ blues.toFinset)).card = blue.card + 1 + blues.length ↔
        blues.Nodup ∧ ∀ q ∈ blues, q ∉ blue) := by
  have hins : s ∉ blue ∪ blues.toFinset := by
    rw [Finset.mem_union, List.mem_toFinset]
    exact not_or.2 ⟨hs, hs'⟩
  have hle := Finset.card_union_le blue blues.toFinset
  have hlen := List.toFinset_card_le blues
  have hnd : blues.toFinset.card = blues.length ↔ blues.Nodup :=
    Multiset.toFinset_card_eq_card_iff_nodup
  have hdisj : (blue ∪ blues.toFinset).card = blue.card + blues.toFinset.card ↔
      ∀ q ∈ blues, q ∉ blue := by
    rw [Finset.card_union_eq_card_add_card, disjoint_comm, Finset.disjoint_left]
    simp only [List.mem_toFinset]
  rw [Finset.card_insert_of_notMem hins, ← hnd, ← hdisj]
  omega

/-- **The blue score counts the blue blocks**, and some of them again if they are merged again. -/
theorem blueAlong_card (hc : Computed m P parents get) (hb : P b) {chain : List Hash}
    (hp : Walk.Path (selectedNext parents get) b chain) :
    (blueAlong get chain).card ≤ scoreOf get b ∧
      ((blueAlong get chain).card = scoreOf get b ↔ MergedOnce get chain) := by
  induction hp with
  | @last a hn =>
    have hscore : scoreOf get a = 0 := by
      rw [hc.scoreOf_eq hb, selectedNext_none.1 hn]
      rfl
    rw [hscore]
    exact ⟨Nat.zero_le _, by simp [blueAlong, MergedOnce]⟩
  | @step a s l hn hl ih =>
    obtain ⟨hne, rfl⟩ := selectedNext_some.1 hn
    have hs := hc.closed a hb _ (hc.selectedParent_mem hb hne)
    obtain ⟨hle, hiff⟩ := ih hs
    have hmine : (dataOf get a).selectedParent ∉ (dataOf get a).mergesetBlues := fun hm =>
      ((mem_mergeset_iff hc hb hne).1 (List.mem_append_left _ hm)).2 rfl
    have hbelow : (dataOf get a).selectedParent ∉ blueAlong get l := fun hm =>
      hc.notMem_past_self _ (blueAlong_subset_past hc hs hl _ hm)
    obtain ⟨t, rfl⟩ := hl.head
    obtain ⟨hcard, hcardiff⟩ := card_insert_blues hbelow hmine
    rw [hc.score_step hb hne]
    simp only [blueAlong, MergedOnce]
    rw [← hiff, ← hcardiff]
    omega

end GhostdagManager

/-- The block `⟨6⟩` of the second branch is apart from the first branch. -/
theorem Sample.branches_apart {x : Hash} (hx : x ∈ [⟨2⟩, ⟨3⟩, (⟨4⟩ : Hash)]) :
    x ∈ anticone branches.parents ⟨6⟩ := by
  have hcases : x ∉ [⟨1⟩, ⟨5⟩, (⟨6⟩ : Hash)] ∧ x ∈ [⟨1⟩, ⟨2⟩, ⟨3⟩, (⟨4⟩ : Hash)] := by
    revert x
    decide
  refine ⟨fun he => hcases.1 (by rw [he]; decide), fun hp => hcases.1 ?_, fun hp => ?_⟩
  · exact mem_of_past (P := (· ∈ [⟨1⟩, ⟨5⟩, (⟨6⟩ : Hash)])) (by decide +kernel) (by decide) hp
  · exact absurd (past_first_branch hcases.2 hp) (by decide)

open GhostdagManager Sample in
/-- With `k = 1`, the blue block `⟨6⟩` of the merged branch has the blue blocks `⟨2⟩`, `⟨3⟩` and
`⟨4⟩` in its anticone. -/
theorem cluster_too_wide :
    ¬∀ (m : GhostdagManager) (P : Hash → Prop) (parents : Hash → List Hash)
      (get : Hash → Option GhostdagData), Computed m P parents get →
      ∀ b chain, P b → Walk.Path (selectedNext parents get) b chain →
        ∀ p ∈ blueAlong get chain, ∀ A : Finset Hash,
          (∀ x ∈ A, x ∈ blueAlong get chain ∧ x ∈ anticone parents p) → A.card ≤ m.k := by
  intro h
  have hchain : Walk.Path (selectedNext branches.parents (branches.get ⟨1⟩)) ⟨7⟩
      [⟨7⟩, ⟨4⟩, ⟨3⟩, ⟨2⟩, ⟨1⟩] := by
    decide +kernel
  have hle := h _ _ _ _ branches_computed ⟨7⟩ _ (by decide) hchain ⟨6⟩ (by decide +kernel)
    {⟨2⟩, ⟨3⟩, ⟨4⟩} fun x hx => by
      have hmem : x ∈ [⟨2⟩, ⟨3⟩, (⟨4⟩ : Hash)] := by simpa using hx
      refine ⟨?_, branches_apart hmem⟩
      revert x
      decide +kernel
  exact absurd hle (by decide)

open GhostdagManager Sample in
/-- The only block that `⟨6⟩` was coloured against is `⟨3⟩`. -/
theorem mergesetBlues_anticone_le_branches :
    blueSetAt (branches.get ⟨1⟩) ⟨4⟩ [] = {⟨3⟩} ∧ ({⟨3⟩} : Finset Hash).card ≤ 1 := by
  have hset : blueSetAt (branches.get ⟨1⟩) ⟨4⟩ [] = {⟨3⟩} := by decide +kernel
  have hs : (dataOf (branches.get ⟨1⟩) ⟨7⟩).selectedParent = ⟨4⟩ := by decide +kernel
  refine ⟨hset, mergesetBlues_anticone_le ⟨1⟩ _ _ _ branches_computed ⟨7⟩ (by decide) [] ⟨6⟩ []
    (by decide +kernel) _ fun x hx => ?_⟩
  obtain rfl := Finset.mem_singleton.1 hx
  rw [hs, hset]
  exact ⟨Finset.mem_singleton_self _, by decide, branches_apart (by decide)⟩

end Zentra

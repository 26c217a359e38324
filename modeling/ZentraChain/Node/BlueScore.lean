import ZentraChain.Consensus.Cluster
import ZentraChain.Node.Rewards
import ZentraChain.Node.Root

/-!
# Blue scores and the selected tip

* `Wf.computed`: the stored graph has computed GhostDAG data.
* `blueScore_counts_iff`: the score in a header is the number of blue blocks in the past, as long as
  none of them is merged twice.
* `selectedTip_most_blue`: no tip has more blocks on its selected chain and blue along it than the
  selected one. It may have more work (`selectedTip_less_work`).
-/

namespace Zentra

open Ancestry GhostdagManager

namespace Dag

variable {E : Env} {d : Dag} {b : Block} {h t : Hash} {chain : List Hash}

theorem Wf.computed (hw : d.Wf E) : Computed .defaultK (fun h => (d.getBlock h).isSome) d.getParents
    d.getGhostdag where
  block := fun h p hp => by
    obtain ⟨b, hb, -⟩ := hw.exists_of_parent hp
    rw [hb]
    rfl
  closed := hw.parents_stored
  data := fun h hs => by
    obtain ⟨b, hb⟩ := Option.isSome_iff_exists.1 hs
    rw [hw.getParents_eq hb]
    exact hw.ghostdag h b hb

/-- The selected chain of a block, down to a block without parents. -/
abbrev SelectedChain (d : Dag) (h : Hash) (chain : List Hash) : Prop :=
  Walk.Path (selectedNext d.getParents d.getGhostdag) h chain

/-- The blue blocks in the past of the first block of a selected chain. -/
abbrev blue (d : Dag) (chain : List Hash) : Finset Hash := blueAlong d.getGhostdag chain

/-- The blocks of a selected chain and the blue blocks merged along it. -/
def chainBlocks (d : Dag) (chain : List Hash) : Finset Hash := chain.toFinset ∪ d.blue chain

theorem chainBlocks_eq (h : Hash) (rest : List Hash) :
    d.chainBlocks (h :: rest) = insert h (d.blue (h :: rest)) := by
  induction rest generalizing h with
  | nil => rfl
  | cons s rest ih =>
    have ihs := ih s
    unfold chainBlocks at ihs ⊢
    -- the chain below the block is blue
    have hsub : ∀ x ∈ s :: rest, x ∈ d.blue (h :: s :: rest) := by
      intro x hx
      have hin : x ∈ (s :: rest).toFinset ∪ d.blue (s :: rest) :=
        Finset.mem_union_left _ (List.mem_toFinset.2 hx)
      rw [ihs] at hin
      simp only [blue, blueAlong, Finset.mem_insert, Finset.mem_union] at hin ⊢
      exact hin.imp_right .inl
    refine Finset.ext fun x => ?_
    rw [Finset.mem_union, List.mem_toFinset, List.mem_cons, Finset.mem_insert]
    refine ⟨?_, ?_⟩
    · rintro ((hx | hx) | hx)
      · exact .inl hx
      · exact .inr (hsub x hx)
      · exact .inr hx
    · rintro (hx | hx)
      · exact .inl (.inl hx)
      · exact .inr hx

theorem Wf.chainBlocks_card (hw : d.Wf E) (hs : (d.getBlock h).isSome)
    (hp : d.SelectedChain h chain) : (d.chainBlocks chain).card = (d.blue chain).card + 1 := by
  have hself : h ∉ d.blue chain := fun hm =>
    hw.notMem_past_self h (blueAlong_subset_past hw.computed hs hp h hm)
  obtain ⟨rest, rfl⟩ := hp.head
  rw [chainBlocks_eq, Finset.card_insert_of_notMem hself]

/-- A block's work: the inverse of its target. -/
def work (d : Dag) (h : Hash) : ℚ :=
  ((d.getHeader h).map fun hd => 1 / ((Header.targetFromBits hd.bits).val : ℚ)).getD 0

/-- The work of a selected chain and of the blue blocks merged along it. -/
def totalWork (d : Dag) (chain : List Hash) : ℚ := ∑ x ∈ d.chainBlocks chain, d.work x

end Dag

namespace Node

/-- **The blue score counts the blue blocks in the past** exactly when no block of the selected
chain merges a blue block twice, or one that is blue further down. -/
theorem blueScore_counts_iff (E : Env) (n : Node) (hn : n.Reachable E) (h : Hash) (b : Block)
    (hb : n.dag.getBlock h = some b) :
    ∃ chain, n.dag.SelectedChain h chain ∧ (∀ x ∈ n.dag.blue chain, x ∈ n.dag.past h) ∧
      (b.header.blueScore = (n.dag.blue chain).card ↔ MergedOnce n.dag.getGhostdag chain) := by
  have hw := hn.sound.wf
  have hs : (n.dag.getBlock h).isSome := by rw [hb]; rfl
  obtain ⟨chain, hp⟩ := hw.computed.exists_chain hs
  refine ⟨chain, hp, blueAlong_subset_past hw.computed hs hp, ?_⟩
  rw [← (blueAlong_card hw.computed hs hp).2, ← hw.score_eq hb]
  exact eq_comm

/-- **The selected tip** is the best by score, then work, then hash; no tip has more blocks on its
selected chain and blue along it, if the selected tip has none twice in its score. -/
theorem selectedTip_most_blue (E : Env) (n : Node) (hn : n.Reachable E) :
    ∃ t chain, n.dag.getSelectedTip = some t ∧ t ∈ n.dag.tips ∧ n.dag.SelectedChain t chain ∧
      ∀ t' ∈ n.dag.tips, Dag.better (n.dag.key t') (n.dag.key t) = false ∧
        ∀ chain', n.dag.SelectedChain t' chain' → MergedOnce n.dag.getGhostdag chain →
          (n.dag.chainBlocks chain').card ≤ (n.dag.chainBlocks chain).card := by
  have hw := hn.sound.wf
  obtain ⟨t, ht⟩ := hw.exists_selectedTip
  have hs := hw.selectedTip_stored ht
  obtain ⟨chain, hp⟩ := hw.computed.exists_chain hs
  refine ⟨t, chain, ht, (Dag.getSelectedTip_mem ht).1, hp, fun t' ht' => ?_⟩
  have hs' := hw.tips t' ht'
  have hbest := Dag.getSelectedTip_max ht t' ht' (hw.getHeader_isSome ▸ hs')
  refine ⟨hbest, fun chain' hp' honce => ?_⟩
  rw [hw.chainBlocks_card hs hp, hw.chainBlocks_card hs' hp', Nat.add_le_add_iff_right]
  calc (n.dag.blue chain').card ≤ n.dag.score t' := (blueAlong_card hw.computed hs' hp').1
    _ ≤ n.dag.score t := hw.score_le_selectedTip ht t' ht'
    _ = (n.dag.blue chain).card := ((blueAlong_card hw.computed hs hp).2.2 honce).symm

end Node

namespace Sample

/-- The second and third block of a lane in quick succession: the third must be harder. -/
def fast : List Block :=
  let third := block 3 .gpu [⟨3⟩] 3 3 [coinbase 3 [subsidy]]
  [first, block 2 .gpu [⟨2⟩] 2 2 [coinbase 2 [subsidy]],
    { third with header := { third.header with bits := 0x1F055555 } }]

/-- Four blocks on the genesis block, each the first of its lane. -/
def easy : List Block :=
  [block 4 .cpu [genesisHash] 1 1 [coinbase 4 [subsidy]],
    block 5 .btcAsic [⟨5⟩] 2 2 [coinbase 5 [subsidy]],
    block 6 .ltcAsic [⟨6⟩] 3 3 [coinbase 6 [subsidy]],
    block 7 .fpga [⟨7⟩] 4 4 [coinbase 7 [subsidy]]]

/-- Their chains: the easy one is selected, has less work, and no block twice in its score. -/
theorem fast_easy :
    (run (fast ++ easy)).dag.SelectedChain ⟨8⟩ [⟨8⟩, ⟨7⟩, ⟨6⟩, ⟨5⟩, ⟨1⟩] ∧
      (run (fast ++ easy)).dag.SelectedChain ⟨4⟩ [⟨4⟩, ⟨3⟩, ⟨2⟩, ⟨1⟩] ∧
      (run (fast ++ easy)).dag.getSelectedTip = some ⟨8⟩ ∧ ⟨4⟩ ∈ (run (fast ++ easy)).dag.tips ∧
      (run (fast ++ easy)).dag.totalWork [⟨8⟩, ⟨7⟩, ⟨6⟩, ⟨5⟩, ⟨1⟩] <
        (run (fast ++ easy)).dag.totalWork [⟨4⟩, ⟨3⟩, ⟨2⟩, ⟨1⟩] ∧
      MergedOnce (run (fast ++ easy)).dag.getGhostdag [⟨8⟩, ⟨7⟩, ⟨6⟩, ⟨5⟩, ⟨1⟩] := by
  decide +kernel

end Sample

open Sample in
/-- Merging `side` nine more times scores nine more. -/
theorem blueScore_counts_again :
    ¬∀ n : Node, n.Reachable env → ∀ h b, n.dag.getBlock h = some b →
      ∀ chain, n.dag.SelectedChain h chain → b.header.blueScore = (n.dag.blue chain).card := by
  intro h
  obtain ⟨hchain, hb, hne⟩ :
      (run [first, side, merging, again]).dag.SelectedChain ⟨5⟩ [⟨5⟩, ⟨4⟩, ⟨2⟩, ⟨1⟩] ∧
        (run [first, side, merging, again]).dag.getBlock ⟨5⟩ = some again ∧
        again.header.blueScore ≠
          ((run [first, side, merging, again]).dag.blue [⟨5⟩, ⟨4⟩, ⟨2⟩, ⟨1⟩]).card := by
    decide +kernel
  exact hne (h _ (reachable_run _) ⟨5⟩ again hb _ hchain)

open Sample in
theorem blueScore_counts_merging :
    merging.header.blueScore = ((run [first, side, merging]).dag.blue [⟨4⟩, ⟨2⟩, ⟨1⟩]).card := by
  obtain ⟨hchain, hb, honce⟩ :
      (run [first, side, merging]).dag.SelectedChain ⟨4⟩ [⟨4⟩, ⟨2⟩, ⟨1⟩] ∧
        (run [first, side, merging]).dag.getBlock ⟨4⟩ = some merging ∧
        MergedOnce (run [first, side, merging]).dag.getGhostdag [⟨4⟩, ⟨2⟩, ⟨1⟩] := by
    decide +kernel
  obtain ⟨chain, hp, -, hiff⟩ := Node.blueScore_counts_iff env (run [first, side, merging])
    (reachable_run _) ⟨4⟩ merging hb
  obtain rfl := hp.unique hchain
  exact hiff.2 honce

open Sample in
/-- The four easy blocks are selected against three of more work. -/
theorem selectedTip_less_work :
    ¬∀ n : Node, n.Reachable env → ∀ t, n.dag.getSelectedTip = some t → ∀ t' ∈ n.dag.tips,
      ∀ chain chain', n.dag.SelectedChain t chain → n.dag.SelectedChain t' chain' →
        n.dag.totalWork chain' ≤ n.dag.totalWork chain := by
  intro h
  obtain ⟨heasy, hfast, ht, ht', hwork, -⟩ := fast_easy
  exact hwork.not_ge (h (run (fast ++ easy)) (reachable_run _) ⟨8⟩ ht ⟨4⟩ ht' _ _ heasy hfast)

open Sample in
theorem selectedTip_most_blue_easy :
    ((run (fast ++ easy)).dag.chainBlocks [⟨4⟩, ⟨3⟩, ⟨2⟩, ⟨1⟩]).card ≤
      ((run (fast ++ easy)).dag.chainBlocks [⟨8⟩, ⟨7⟩, ⟨6⟩, ⟨5⟩, ⟨1⟩]).card := by
  obtain ⟨heasy, hfast, htip, htips, -, honce⟩ := fast_easy
  obtain ⟨t, chain, ht, -, hp, hmax⟩ := Node.selectedTip_most_blue env (run (fast ++ easy))
    (reachable_run _)
  obtain rfl := Option.some.inj (htip.symm.trans ht)
  obtain rfl := hp.unique heasy
  exact (hmax ⟨4⟩ htips).2 _ hfast honce

end Zentra

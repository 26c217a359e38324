import ZentraChain.Node.Connect

/-!
# Well-formed graphs

`Dag.Wf` is what holds of the stored graph of every node: blocks are filed under their hashes, on
stored parents, with the GhostDAG data of these; the tips are blocks without children.

* `Wf.extend`: inserting a block that passed the checks keeps it.
* `Wf.exists_chain`: the chain of a stored block ends.
* `Wf.selectedTip_extend`: an insertion makes the new block the selected tip or leaves it.
-/

namespace Zentra

namespace Dag

variable {E : Env} {d : Dag} {b : Block} {h p t : Hash}

/-- The GhostDAG data of a block on these parents. -/
def ghostdagFor (d : Dag) (parents : List Hash) : GhostdagData :=
  GhostdagManager.defaultK.processBlock d.getGhostdag parents

/-- The graph after `connect_block` inserted a block. -/
def extend (E : Env) (d : Dag) (b : Block) : Dag :=
  (d.putGhostdag (b.hash E) (d.ghostdagFor b.header.parents)).insertBlock E b

/-- The blue score recorded for a block. -/
def score (d : Dag) (h : Hash) : Nat := GhostdagManager.scoreOf d.getGhostdag h

structure Wf (E : Env) (d : Dag) : Prop where
  header : ∀ h, d.getHeader h = (d.getBlock h).map (·.header)
  hash : ∀ h b, d.getBlock h = some b → b.hash E = h
  parents : ∀ h b, d.getBlock h = some b → ∀ p ∈ b.header.parents, (d.getBlock p).isSome
  ghostdag : ∀ h b, d.getBlock h = some b → d.getGhostdag h = some (d.ghostdagFor b.header.parents)
  blueScore : ∀ h b, d.getBlock h = some b →
    b.header.blueScore = (d.ghostdagFor b.header.parents).blueScore
  tips : ∀ t ∈ d.tips, (d.getBlock t).isSome
  childless : ∀ h b, d.getBlock h = some b → ∀ t ∈ d.tips, t ∉ b.header.parents
  tips_ne : d.tips ≠ []
  dagTips : d.db.dagTips = some d.tips
  undo : ∀ h, (d.getUndo h).isSome → (d.getBlock h).isSome
  genesis : d.getBlock ((Block.genesis E).hash E) = some (Block.genesis E)

/-! ## Lookups after an insertion -/

theorem getBlock_extend : (d.extend E b).getBlock h = if h = b.hash E then some b else d.getBlock h :=
  getBlock_insertBlock

theorem getHeader_extend :
    (d.extend E b).getHeader h = if h = b.hash E then some b.header else d.getHeader h :=
  getHeader_insertBlock

theorem getGhostdag_extend : (d.extend E b).getGhostdag h =
    if h = b.hash E then some (d.ghostdagFor b.header.parents) else d.getGhostdag h := by
  refine getGhostdag_insertBlock fun he => ?_
  rw [List.isEmpty_iff.1 he]
  rfl

theorem getUndo_extend : (d.extend E b).getUndo h = d.getUndo h := getUndo_insertBlock

theorem tips_extend : (d.extend E b).tips = d.tips.filter (fun t => t ∉ b.header.parents) ++
    [b.hash E] := (insertBlock_db E _ b).2.2.2.2.1

theorem getBlock_extend_of_isSome (hnew : d.getBlock (b.hash E) = none)
    (hs : (d.getBlock h).isSome) : (d.extend E b).getBlock h = d.getBlock h := by
  rw [getBlock_extend, if_neg]
  rintro rfl
  rw [hnew] at hs
  cases hs

/-- Stored blocks keep their data. -/
theorem getGhostdag_extend_of_isSome (hnew : d.getBlock (b.hash E) = none)
    (hs : (d.getBlock h).isSome) : (d.extend E b).getGhostdag h = d.getGhostdag h := by
  rw [getGhostdag_extend, if_neg]
  rintro rfl
  rw [hnew] at hs
  cases hs

theorem ghostdagFor_extend {ps : List Hash} (hnew : d.getBlock (b.hash E) = none)
    (hps : ∀ p ∈ ps, (d.getBlock p).isSome) : (d.extend E b).ghostdagFor ps = d.ghostdagFor ps :=
  GhostdagManager.processBlock_congr fun p hp => getGhostdag_extend_of_isSome hnew (hps p hp)

/-! ## Insertion keeps the graph well formed -/

/-- **Inserting a block on stored parents, with the expected score.** -/
theorem Wf.extend (hw : d.Wf E) (hnew : d.getBlock (b.hash E) = none)
    (hps : ∀ p ∈ b.header.parents, (d.getBlock p).isSome)
    (hscore : b.header.blueScore = (d.ghostdagFor b.header.parents).blueScore) :
    (d.extend E b).Wf E := by
  have hkeep : ∀ h, (d.getBlock h).isSome → ((d.extend E b).getBlock h).isSome := fun h hs => by
    rw [getBlock_extend_of_isSome hnew hs]; exact hs
  -- a stored block is the new one or an old one
  have hcases : ∀ h b', (d.extend E b).getBlock h = some b' →
      (h = b.hash E ∧ b' = b) ∨ d.getBlock h = some b' := by
    intro h b' hb'
    rw [getBlock_extend] at hb'
    split at hb'
    · cases hb'; exact .inl ⟨‹_›, rfl⟩
    · exact .inr hb'
  have hparents : ∀ h b', (d.extend E b).getBlock h = some b' →
      ∀ p ∈ b'.header.parents, (d.getBlock p).isSome := by
    intro h b' hb'
    rcases hcases h b' hb' with ⟨rfl, rfl⟩ | hold
    · exact hps
    · exact hw.parents h b' hold
  refine ⟨fun h => ?_, fun h b' hb' => ?_, fun h b' hb' p hp => hkeep p (hparents h b' hb' p hp),
    fun h b' hb' => ?_, fun h b' hb' => ?_, fun t ht => ?_, fun h b' hb' t ht hm => ?_, ?_, ?_,
    fun h hu => ?_, ?_⟩
  · rw [getHeader_extend, getBlock_extend]
    split
    · rfl
    · exact hw.header h
  · rcases hcases h b' hb' with ⟨rfl, rfl⟩ | hold
    · rfl
    · exact hw.hash h b' hold
  · rw [ghostdagFor_extend hnew (hparents h b' hb')]
    rcases hcases h b' hb' with ⟨rfl, rfl⟩ | hold
    · rw [getGhostdag_extend, if_pos rfl]
    · rw [getGhostdag_extend_of_isSome hnew (by rw [hold]; rfl)]
      exact hw.ghostdag h b' hold
  · rw [ghostdagFor_extend hnew (hparents h b' hb')]
    rcases hcases h b' hb' with ⟨rfl, rfl⟩ | hold
    · exact hscore
    · exact hw.blueScore h b' hold
  · rw [tips_extend, List.mem_append, List.mem_filter, List.mem_singleton] at ht
    rcases ht with ⟨ht, -⟩ | rfl
    · exact hkeep t (hw.tips t ht)
    · rw [getBlock_extend, if_pos rfl]; rfl
  · rw [tips_extend, List.mem_append, List.mem_filter, List.mem_singleton] at ht
    rcases ht with ⟨ht, hnp⟩ | rfl
    · rcases hcases h b' hb' with ⟨rfl, rfl⟩ | hold
      · exact absurd hm (by simpa using hnp)
      · exact hw.childless h b' hold t ht hm
    · -- the new block is not stored before, so no block's parent
      have := hparents h b' hb' _ hm
      rw [hnew] at this
      cases this
  · rw [tips_extend]; simp
  · exact (insertBlock_db E _ b).2.2.2.2.2
  · rw [getUndo_extend] at hu
    exact hkeep h (hw.undo h hu)
  · rw [getBlock_extend_of_isSome hnew (by rw [hw.genesis]; rfl)]
    exact hw.genesis

/-! ## Chains of stored blocks -/

theorem ne_zero (hz : d.getBlock .zero = none) (hs : (d.getBlock h).isSome) : h ≠ .zero := by
  rintro rfl
  rw [hz] at hs
  cases hs

theorem Wf.score_eq (hw : d.Wf E) (hb : d.getBlock h = some b) : d.score h = b.header.blueScore := by
  rw [score, GhostdagManager.scoreOf, hw.ghostdag h b hb, hw.blueScore h b hb]
  rfl

theorem Wf.prev_eq (hw : d.Wf E) (hb : d.getBlock h = some b) :
    d.prev h = (d.ghostdagFor b.header.parents).selectedParent := by
  rw [prev, hw.ghostdag h b hb]

/-- **The next block of a chain** is a parent, below by one and the blue merge blocks. -/
theorem Wf.chainNext_some (hw : d.Wf E) (hb : d.getBlock h = some b)
    (hn : d.chainNext h = some p) : p ∈ b.header.parents ∧
      d.score p + 1 + (d.mergesetBluesOf h).length = d.score h := by
  obtain ⟨hp, hpz⟩ := chainNext_eq_some.1 hn
  rw [hw.prev_eq hb] at hp
  have hne : b.header.parents ≠ [] := fun he => by
    rw [he] at hp
    exact hpz hp.symm
  have hspec := GhostdagManager.processBlock_spec .defaultK d.getGhostdag hne
  simp only at hspec
  rw [← ghostdagFor, GhostdagManager.blueScore_dataOf, hp] at hspec
  refine ⟨hp ▸ GhostdagManager.selectedParent_mem hne, ?_⟩
  rw [hw.score_eq hb, hw.blueScore h b hb, mergesetBluesOf, hw.ghostdag h b hb]
  exact hspec.2.1.symm

theorem Wf.chainNext_fall (hw : d.Wf E) (hs : (d.getBlock h).isSome) (hn : d.chainNext h = some p) :
    (d.getBlock p).isSome ∧ d.score p < d.score h := by
  obtain ⟨b, hb⟩ := Option.isSome_iff_exists.1 hs
  obtain ⟨hp, hsc⟩ := hw.chainNext_some hb hn
  exact ⟨hw.parents h b hb p hp, by omega⟩

/-- **The chain of a stored block ends**, and has stored blocks only. -/
theorem Wf.exists_chain (hw : d.Wf E) (hs : (d.getBlock t).isSome) :
    ∃ chain, d.Chain t chain := by
  by_cases hz : t = .zero
  · exact ⟨[], .inl ⟨hz, rfl⟩⟩
  obtain ⟨l, hl⟩ := Walk.exists_path (P := fun h => (d.getBlock h).isSome) d.score
    (fun h p hh hn => hw.chainNext_fall hh hn) hs
  exact ⟨l, .inr ⟨hz, hl⟩⟩

theorem Wf.chain_stored {chain : List Hash} (hw : d.Wf E) (hs : (d.getBlock t).isSome)
    (hc : d.Chain t chain) : ∀ x ∈ chain, (d.getBlock x).isSome := by
  rcases hc with ⟨-, rfl⟩ | ⟨-, hp⟩
  · simp
  · exact hp.forall_mem (fun h p hh hn => (hw.chainNext_fall hh hn).1) hs

theorem Chain.head_eq {chain : List Hash} (hc : d.Chain t chain) (ht : t ≠ .zero) :
    ∃ rest, chain = t :: rest := by
  rcases hc with ⟨hz, -⟩ | ⟨-, hp⟩
  · exact absurd hz ht
  · exact hp.head

/-! ## The selected tip -/

theorem Wf.getHeader_isSome (hw : d.Wf E) : (d.getHeader h).isSome = (d.getBlock h).isSome := by
  rw [hw.header]
  cases d.getBlock h <;> rfl

theorem Wf.exists_selectedTip (hw : d.Wf E) : ∃ t, d.getSelectedTip = some t := by
  obtain ⟨t, ht⟩ := List.exists_mem_of_ne_nil _ hw.tips_ne
  exact getSelectedTip_isSome ht (hw.getHeader_isSome ▸ hw.tips t ht)

theorem Wf.selectedTip_stored (hw : d.Wf E) (h : d.getSelectedTip = some t) :
    (d.getBlock t).isSome := hw.tips t (getSelectedTip_mem h).1

theorem Wf.key_eq (hw : d.Wf E) (hb : d.getBlock h = some b) :
    d.key h = (d.score h, b.header.blueWork, h) := by
  rw [key, hw.header, hb, hw.score_eq hb]
  rfl

theorem better_antisymm {x y : Nat × Nat × Hash} (h : better x y = false)
    (h' : better y x = false) : x.2.2 = y.2.2 := by
  rw [Bool.eq_false_iff, ne_eq, better_iff] at h h'
  exact Hash.val_injective (by omega)

theorem key_extend_of_isSome (hnew : d.getBlock (b.hash E) = none) (hs : (d.getBlock h).isSome) :
    (d.extend E b).key h = d.key h := by
  have hne : h ≠ b.hash E := by
    rintro rfl
    rw [hnew] at hs
    cases hs
  rw [key, key, getHeader_extend, if_neg hne]

/-- A block scores higher than its parents. -/
theorem Wf.score_parent_lt (hw : d.Wf E) (hb : d.getBlock h = some b) (hp : p ∈ b.header.parents) :
    d.score p < d.score h := by
  have hne : b.header.parents ≠ [] := List.ne_nil_of_mem hp
  have hspec := GhostdagManager.processBlock_spec .defaultK d.getGhostdag hne
  have hmax : GhostdagManager.scoreOf d.getGhostdag p ≤
      GhostdagManager.scoreOf d.getGhostdag _ := GhostdagManager.selectParent_max hp
  simp only at hspec
  rw [hspec.1, GhostdagManager.blueScore_dataOf] at hspec
  rw [hw.score_eq hb, hw.blueScore h b hb, ghostdagFor, hspec.2.1, score]
  omega

/-- No tip scores higher than the selected one. -/
theorem Wf.score_le_selectedTip (hw : d.Wf E) (ht : d.getSelectedTip = some t) :
    ∀ x ∈ d.tips, d.score x ≤ d.score t := by
  intro x hx
  obtain ⟨b, hb⟩ := Option.isSome_iff_exists.1 (hw.tips x hx)
  obtain ⟨bt, hbt⟩ := Option.isSome_iff_exists.1 (hw.selectedTip_stored ht)
  have hmax := getSelectedTip_max ht x hx (hw.getHeader_isSome ▸ hw.tips x hx)
  rw [hw.key_eq hb, hw.key_eq hbt, Bool.eq_false_iff, ne_eq, better_iff] at hmax
  simp only at hmax
  omega

/-- **An insertion makes the new block the selected tip, or leaves the selected tip.** -/
theorem Wf.selectedTip_extend (hw : d.Wf E) (hw' : (d.extend E b).Wf E)
    (hnew : d.getBlock (b.hash E) = none) {old : Hash} (ho : d.getSelectedTip = some old)
    (ht : (d.extend E b).getSelectedTip = some t) : t = b.hash E ∨ t = old := by
  by_cases htb : t = b.hash E
  · exact .inl htb
  right
  have hold := hw.selectedTip_stored ho
  have htips := (getSelectedTip_mem ht).1
  rw [tips_extend, List.mem_append, List.mem_filter, List.mem_singleton] at htips
  obtain ⟨htold, -⟩ := htips.resolve_right htb
  have hts := hw.tips t htold
  have hmax := getSelectedTip_max ht
  -- `t` was a tip, so it is no better than the old selected tip
  have h1 := getSelectedTip_max ho t htold (hw.getHeader_isSome ▸ hts)
  have hk := key_extend_of_isSome hnew hts
  have hko := key_extend_of_isSome hnew hold
  have hbnew : (d.extend E b).getBlock (b.hash E) = some b := by rw [getBlock_extend, if_pos rfl]
  obtain ⟨bo, hbo⟩ := Option.isSome_iff_exists.1
    ((getBlock_extend_of_isSome hnew hold).symm ▸ hold)
  obtain ⟨bt, hbt⟩ := Option.isSome_iff_exists.1 ((getBlock_extend_of_isSome hnew hts).symm ▸ hts)
  by_cases hop : old ∈ b.header.parents
  · -- the new block is better than its parent, hence than `t`
    have hlt := hw'.score_parent_lt hbnew hop
    have hmb := hmax (b.hash E) (by rw [tips_extend]; simp)
      (by rw [hw'.getHeader_isSome, hbnew]; rfl)
    rw [← hk, ← hko, Bool.eq_false_iff, ne_eq, better_iff, hw'.key_eq hbo, hw'.key_eq hbt] at h1
    rw [hw'.key_eq hbnew, hw'.key_eq hbt, Bool.eq_false_iff, ne_eq, better_iff] at hmb
    simp only at h1 hmb
    omega
  · -- the old selected tip is still a tip
    have h2 := hmax old (by
      rw [tips_extend, List.mem_append, List.mem_filter]
      exact .inl ⟨(getSelectedTip_mem ho).1, by simpa using hop⟩)
      (by rw [hw'.getHeader_isSome, hbo]; rfl)
    rw [hk, hko] at h2
    exact better_antisymm h1 h2

/-- The score of the selected tip does not fall. -/
theorem Wf.selectedTip_score_le (hw' : (d.extend E b).Wf E) {old : Hash}
    (ho : d.getSelectedTip = some old) (ht : (d.extend E b).getSelectedTip = some t) :
    (d.extend E b).score old ≤ (d.extend E b).score t := by
  have hbnew : (d.extend E b).getBlock (b.hash E) = some b := by rw [getBlock_extend, if_pos rfl]
  have hmax := hw'.score_le_selectedTip ht
  by_cases hop : old ∈ b.header.parents
  · have hlt := hw'.score_parent_lt hbnew hop
    have hle := hmax (b.hash E) (by rw [tips_extend]; simp)
    exact Nat.le_of_lt (Nat.lt_of_lt_of_le hlt hle)
  · refine hmax old ?_
    rw [tips_extend, List.mem_append, List.mem_filter]
    exact .inl ⟨(getSelectedTip_mem ho).1, by simpa using hop⟩

end Dag

end Zentra

import ZentraChain.Node.Run

/-!
# The difficulty window and the median time

What the header checks read of the graph lies in the past of the block's parents.

* `laneWalk_eq`, `headerWalk_eq`: the bounded walks, as lists over the chain.
* `Within.calculateExpectedDifficulty`, `Within.medianTimePast`: a larger graph has the same
  difficulty and median time for stored parents.
* `preCheck_within`: so a block passes the checks of `connect_block` in both or in neither.
-/

namespace Zentra

namespace Dag

variable {E : Env} {d d' : Dag} {b : Block} {h p : Hash} {chain parents : List Hash} {lane : LaneId}

/-! ## Walks over a chain -/

/-- Times and bits of the blocks of a lane on a chain, newest first. -/
def laneHistory (d : Dag) (lane : LaneId) (chain : List Hash) : List (Nat × Nat) :=
  ((chain.filterMap d.getHeader).filter (·.laneId = lane)).map fun hd => (hd.timestamp, hd.bits)

theorem laneHistory_cons {hd : Header} (hhd : d.getHeader h = some hd) :
    d.laneHistory lane (h :: chain) = if hd.laneId = lane then
      (hd.timestamp, hd.bits) :: d.laneHistory lane chain else d.laneHistory lane chain := by
  unfold laneHistory
  rw [List.filterMap_cons, hhd]
  simp only [List.filter_cons, decide_eq_true_eq]
  split <;> rfl

theorem laneWalk_zero (room : Nat) : ∀ fuel, d.laneWalk lane fuel room .zero = []
  | 0 => rfl
  | fuel + 1 => by rw [laneWalk, if_pos (.inl rfl)]

theorem headerWalk_zero : ∀ fuel, d.headerWalk fuel .zero = []
  | 0 => rfl
  | fuel + 1 => by rw [headerWalk, if_pos rfl]

/-- One step of the lane's walk, when what follows is the rest of the chain. -/
theorem laneWalk_step {fuel room : Nat} (hz : h ≠ .zero) (hs : (d.getHeader h).isSome)
    (hrest : ∀ room, d.laneWalk lane fuel room (d.prev h) = (d.laneHistory lane chain).take room) :
    d.laneWalk lane (fuel + 1) room h = (d.laneHistory lane (h :: chain)).take room := by
  obtain ⟨hd, hhd⟩ := Option.isSome_iff_exists.1 hs
  rw [laneWalk, laneHistory_cons hhd]
  cases room with
  | zero => rw [if_pos (.inr rfl), List.take_zero]
  | succ room =>
    rw [if_neg (by simp [hz]), hhd]
    simp only
    split
    · rw [hrest, List.take_succ_cons, Nat.add_sub_cancel]
    · exact hrest _

theorem laneWalk_path (hp : Walk.Path d.chainNext h chain) (hz : h ≠ .zero)
    (hs : ∀ x ∈ chain, (d.getHeader x).isSome) : ∀ fuel room, chain.length ≤ fuel →
      d.laneWalk lane fuel room h = (d.laneHistory lane chain).take room := by
  induction hp with
  | @last a hn =>
    intro fuel room hf
    obtain ⟨fuel, rfl⟩ : ∃ k, fuel = k + 1 := ⟨fuel - 1, by simp at hf; omega⟩
    have hprev : d.prev a = .zero := by
      by_contra hne
      rw [chainNext, if_neg hne] at hn
      cases hn
    refine laneWalk_step hz (hs a List.mem_cons_self) fun room => ?_
    rw [hprev, laneWalk_zero]
    exact List.take_nil.symm
  | @step a c l hn _ ih =>
    intro fuel room hf
    obtain ⟨fuel, rfl⟩ : ∃ k, fuel = k + 1 := ⟨fuel - 1, by simp at hf; omega⟩
    obtain ⟨rfl, hcz⟩ := chainNext_eq_some.1 hn
    refine laneWalk_step hz (hs a List.mem_cons_self) fun room => ?_
    exact ih hcz (fun x hx => hs x (List.mem_cons_of_mem _ hx)) fuel room (by simpa using hf)

theorem headerWalk_path (hp : Walk.Path d.chainNext h chain) (hz : h ≠ .zero)
    (hs : ∀ x ∈ chain, (d.getHeader x).isSome) : ∀ fuel, chain.length ≤ fuel →
      d.headerWalk fuel h = chain.filterMap d.getHeader := by
  induction hp with
  | @last a hn =>
    intro fuel hf
    obtain ⟨fuel, rfl⟩ : ∃ k, fuel = k + 1 := ⟨fuel - 1, by simp at hf; omega⟩
    obtain ⟨hd, hhd⟩ := Option.isSome_iff_exists.1 (hs a List.mem_cons_self)
    have hprev : d.prev a = .zero := by
      by_contra hne
      rw [chainNext, if_neg hne] at hn
      cases hn
    rw [headerWalk, if_neg hz, List.filterMap_cons, hhd, hprev]
    simp only [headerWalk_zero, List.filterMap_nil]
  | @step a c l hn _ ih =>
    intro fuel hf
    obtain ⟨fuel, rfl⟩ : ∃ k, fuel = k + 1 := ⟨fuel - 1, by simp at hf; omega⟩
    obtain ⟨hd, hhd⟩ := Option.isSome_iff_exists.1 (hs a List.mem_cons_self)
    obtain ⟨rfl, hcz⟩ := chainNext_eq_some.1 hn
    rw [headerWalk, if_neg hz, List.filterMap_cons, hhd]
    simp only
    rw [ih hcz (fun x hx => hs x (List.mem_cons_of_mem _ hx)) fuel (by simpa using hf)]

theorem Chain.length_le (hc : d.Chain h chain) : chain.length ≤ d.fuel := by
  rcases hc with ⟨-, rfl⟩ | ⟨-, hp⟩
  · exact Nat.zero_le _
  · exact hp.length_le fun x y hxy => chainNext_mem_keys hxy

theorem Wf.chain_headers (hw : d.Wf E) (hs : (d.getBlock h).isSome) (hc : d.Chain h chain) :
    ∀ x ∈ chain, (d.getHeader x).isSome := fun x hx => by
  rw [hw.getHeader_isSome]
  exact hw.chain_stored hs hc x hx

/-- **The window of a lane** is the first of its blocks on the chain. -/
theorem laneWalk_eq (hc : d.Chain h chain) (hs : ∀ x ∈ chain, (d.getHeader x).isSome)
    (room : Nat) : d.laneWalk lane d.fuel room h = (d.laneHistory lane chain).take room := by
  have hlen := hc.length_le
  rcases hc with ⟨rfl, rfl⟩ | ⟨hz, hp⟩
  · rw [laneWalk_zero]
    exact List.take_nil.symm
  · exact laneWalk_path hp hz hs _ _ hlen

/-- The headers that the history is rebuilt from are those of the chain. -/
theorem headerWalk_eq (hc : d.Chain h chain) (hs : ∀ x ∈ chain, (d.getHeader x).isSome) :
    d.headerWalk d.fuel h = chain.filterMap d.getHeader := by
  have hlen := hc.length_le
  rcases hc with ⟨rfl, rfl⟩ | ⟨hz, hp⟩
  · exact headerWalk_zero _
  · exact headerWalk_path hp hz hs _ hlen

/-! ## A larger graph -/

theorem Within.getHeader (hwi : d.Within d') (hw : d.Wf E) (hw' : d'.Wf E)
    (hs : (d.getBlock h).isSome) : d'.getHeader h = d.getHeader h := by
  obtain ⟨b, hb⟩ := Option.isSome_iff_exists.1 hs
  rw [hw.header, hw'.header, hb, hwi.block h b hb]

theorem heaviestParent_mem (d : Dag) (parents : List Hash) :
    d.heaviestParent parents = .zero ∨ d.heaviestParent parents ∈ parents := by
  unfold heaviestParent
  refine List.foldlRecOn (motive := fun best : Hash × Nat => best.1 = .zero ∨
    best.1 ∈ parents) parents _ (.inl rfl) fun best hb p hp => ?_
  split
  · split
    · exact .inr hp
    · exact hb
  · exact hb

theorem Within.heaviestParent (hwi : d.Within d') (hw : d.Wf E) (hw' : d'.Wf E)
    (hps : ∀ p ∈ parents, (d.getBlock p).isSome) :
    d'.heaviestParent parents = d.heaviestParent parents := by
  unfold Dag.heaviestParent
  rw [List.foldl_ext _ _ _ fun best p hp => by rw [hwi.getHeader hw hw' (hps p hp)]]

/-- A larger graph expects the same difficulty. -/
theorem Within.calculateExpectedDifficulty (hwi : d.Within d') (hw : d.Wf E) (hw' : d'.Wf E)
    (hps : ∀ p ∈ parents, (d.getBlock p).isSome) (network : NetworkType) :
    d'.calculateExpectedDifficulty network parents lane =
      d.calculateExpectedDifficulty network parents lane := by
  unfold Dag.calculateExpectedDifficulty
  simp only [hwi.heaviestParent hw hw' hps]
  split
  · rfl
  · rename_i hz
    have hs := hps _ ((d.heaviestParent_mem parents).resolve_left hz)
    obtain ⟨chain, hc⟩ := hw.exists_chain hs
    have hheader : ∀ x ∈ chain, d'.getHeader x = d.getHeader x := fun x hx =>
      hwi.getHeader hw hw' (hw.chain_stored hs hc x hx)
    have hc' := hc.within hwi hw hs
    rw [laneWalk_eq hc' (hw'.chain_headers (hwi.stored hs) hc'),
      laneWalk_eq hc (hw.chain_headers hs hc), laneHistory, List.filterMap_congr hheader]
    rfl

theorem pickNext_mem {visited : Finset Hash} {cursor : List Hash} : ∀ x ∈ d.pickNext visited cursor,
    x.1 ∈ cursor ∧ d.getHeader x.1 = some x.2 := by
  unfold pickNext
  refine List.foldlRecOn (motive := fun next : Option (Hash × Header) => ∀ x ∈ next,
    x.1 ∈ cursor ∧ d.getHeader x.1 = some x.2) cursor _ (by simp) fun next hn q hq => ?_
  split
  · exact hn
  · cases hh : d.getHeader q with
    | none => exact hn
    | some hd =>
      cases next with
      | none =>
        rintro _ ⟨⟩
        exact ⟨hq, hh⟩
      | some x =>
        simp only
        split
        · rintro _ ⟨⟩
          exact ⟨hq, hh⟩
        · exact hn

theorem Within.pastTimes (hwi : d.Within d') (hw : d.Wf E) (hw' : d'.Wf E) :
    ∀ (n : Nat) (visited : Finset Hash) {cursor : List Hash},
      (∀ p ∈ cursor, (d.getBlock p).isSome) →
        d'.pastTimes n visited cursor = d.pastTimes n visited cursor
  | 0, _, _, _ => rfl
  | n + 1, visited, cursor, hs => by
    have hpick : d'.pickNext visited cursor = d.pickNext visited cursor := by
      unfold pickNext
      rw [List.foldl_ext _ _ _ fun next p hp => by rw [hwi.getHeader hw hw' (hs p hp)]]
    simp only [Dag.pastTimes, hpick]
    cases hp : d.pickNext visited cursor with
    | none => rfl
    | some x =>
      obtain ⟨q, hd⟩ := x
      obtain ⟨hq, hhd⟩ := pickNext_mem _ hp
      obtain ⟨b, hb⟩ := Option.isSome_iff_exists.1 (hs q hq)
      rw [hw.header, hb] at hhd
      cases hhd
      simp only
      rw [Within.pastTimes hwi hw hw' n (insert q visited) (hw.parents q b hb)]

/-- A larger graph has the same median time. -/
theorem Within.medianTimePast (hwi : d.Within d') (hw : d.Wf E) (hw' : d'.Wf E)
    (hps : ∀ p ∈ parents, (d.getBlock p).isSome) :
    d'.medianTimePast parents = d.medianTimePast parents := by
  unfold Dag.medianTimePast
  rw [hwi.pastTimes hw hw' 11 ∅ hps]

theorem Within.ghostdagFor (hwi : d.Within d') (hps : ∀ p ∈ parents, (d.getBlock p).isSome) :
    d'.ghostdagFor parents = d.ghostdagFor parents :=
  GhostdagManager.processBlock_congr fun p hp => hwi.ghostdag p (hps p hp)

end Dag

namespace Node

variable {E : Env} {d d' : Dag} {b : Block}

/-- **A block on stored parents passes the checks in a larger graph** exactly when it passes
them. -/
theorem preCheck_within (hwi : d.Within d') (hw : d.Wf E) (hw' : d'.Wf E) (now : Nat)
    (hps : ∀ p ∈ b.header.parents, (d.getBlock p).isSome) :
    preCheck E d' now b = preCheck E d now b := by
  have hgd : GhostdagManager.defaultK.processBlock d'.getGhostdag b.header.parents =
      GhostdagManager.defaultK.processBlock d.getGhostdag b.header.parents := hwi.ghostdagFor hps
  unfold preCheck validateBlockHeader
  rw [hgd, hwi.calculateExpectedDifficulty hw hw' hps, hwi.medianTimePast hw hw' hps]

end Node

end Zentra

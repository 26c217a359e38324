import ZentraChain.Node.ConnectSpec

/-!
# Runs as moves

A call is a sequence of `Action`s: blocks are connected, and orphans parked. What they do to the
graph, the UTXO set and the log is a sequence of `Move`s: a block joins the graph and the chain
stays or is moved, or something else changes.

* `Step.actions`, `Step.moves`: a call is a sequence of actions, and of moves; so is a run.
* `tryConnectOrphans_done`: the rounds over the orphans go on until none is ready.
* `Sound`, `Reachable.sound`: the graph is well formed, and the log has how each block joined it.
* `Sound.applied_joined`: the blocks a run applies, and their merge blocks.
-/

namespace Zentra

namespace Dag

/-- `d'` has every block of `d`, with the same GhostDAG data. -/
structure Within (d d' : Dag) : Prop where
  block : ∀ h b, d.getBlock h = some b → d'.getBlock h = some b
  ghostdag : ∀ h, (d.getBlock h).isSome → d'.getGhostdag h = d.getGhostdag h

variable {E : Env} {d d' d'' : Dag} {b : Block} {h : Hash}

theorem Within.refl (d : Dag) : d.Within d := ⟨fun _ _ => id, fun _ _ => rfl⟩

theorem Within.stored (hw : d.Within d') (hs : (d.getBlock h).isSome) : (d'.getBlock h).isSome := by
  obtain ⟨b, hb⟩ := Option.isSome_iff_exists.1 hs
  rw [hw.block h b hb]
  rfl

theorem Within.getBlock_none (hw : d.Within d') (hn : d'.getBlock h = none) :
    d.getBlock h = none := by
  by_contra hne
  have := hw.stored (Option.isSome_iff_ne_none.2 hne)
  rw [hn] at this
  cases this

theorem Within.trans (hw : d.Within d') (hw' : d'.Within d'') : d.Within d'' :=
  ⟨fun h b hb => hw'.block h b (hw.block h b hb), fun h hs =>
    (hw'.ghostdag h (hw.stored hs)).trans (hw.ghostdag h hs)⟩

theorem Within.extend (hnew : d.getBlock (b.hash E) = none) : d.Within (d.extend E b) := by
  refine ⟨fun h b' hb' => ?_, fun h hs => getGhostdag_extend_of_isSome hnew hs⟩
  rw [getBlock_extend_of_isSome hnew (by rw [hb']; rfl), hb']

/-- A larger graph has the same chains. -/
theorem Chain.within {chain : List Hash} (hc : d.Chain h chain) (hwi : d.Within d') (hw : d.Wf E)
    (hs : (d.getBlock h).isSome) : d'.Chain h chain := by
  have hst := hw.chain_stored hs hc
  rcases hc with ⟨hz, rfl⟩ | ⟨hz, hp⟩
  · exact .inl ⟨hz, rfl⟩
  · refine .inr ⟨hz, hp.congr fun x hx => ?_⟩
    obtain ⟨bx, hbx⟩ := Option.isSome_iff_exists.1 (hst x hx)
    have hprev : d'.prev x = d.prev x := by
      unfold prev
      rw [hwi.ghostdag x (hst x hx), hw.ghostdag x bx hbx]
    rw [chainNext, chainNext, hprev]

theorem Wf.mergesetBlues_stored (hw : d.Wf E) (hs : (d.getBlock h).isSome) :
    ∀ q ∈ d.mergesetBluesOf h, (d.getBlock q).isSome := by
  intro q hq
  obtain ⟨b, hb⟩ := Option.isSome_iff_exists.1 hs
  rw [mergesetBluesOf, hw.ghostdag h b hb] at hq
  exact hw.parents h b hb q (GhostdagManager.mem_mergesetBlues hq)

theorem Within.mergeBlocks (hwi : d.Within d') (hw : d.Wf E) (hs : (d.getBlock h).isSome) :
    d'.mergeBlocks h = d.mergeBlocks h := by
  have hblues : d'.mergesetBluesOf h = d.mergesetBluesOf h := by
    rw [mergesetBluesOf, mergesetBluesOf, hwi.ghostdag h hs]
  rw [Dag.mergeBlocks, hblues]
  refine List.filterMap_congr fun q hq => ?_
  obtain ⟨b, hb⟩ := Option.isSome_iff_exists.1 (hw.mergesetBlues_stored hs q hq)
  rw [hb, hwi.block q b hb]

/-- The blue merge blocks that a block on these parents brings in. -/
def blueMerges (d : Dag) (b : Block) : List Block :=
  (d.ghostdagFor b.header.parents).mergesetBlues.filterMap d.getBlock

/-- Undo records of stored blocks may change. -/
theorem Wf.withUndo {m : Finmap fun _ : Hash => BlockUndoData} (hw : d.Wf E)
    (hm : ∀ h, d.getBlock h = none → m.lookup h = d.getUndo h) : (d.withUndo m).Wf E where
  header := hw.header
  hash := hw.hash
  parents := hw.parents
  ghostdag := hw.ghostdag
  blueScore := hw.blueScore
  tips := hw.tips
  childless := hw.childless
  tips_ne := hw.tips_ne
  dagTips := hw.dagTips
  undo := fun h hu => by
    by_contra hs
    have hb : d.getBlock h = none := by simpa using hs
    rw [getUndo_withUndo, hm h hb] at hu
    exact hs (hw.undo h hu)
  genesis := hw.genesis

/-! ## The graph of the genesis block -/

/-- The graph of a new node. -/
def first (E : Env) : Dag := (Dag.new .empty).initGenesis E

theorem first_eq (E : Env) : first E = (Dag.new .empty).insertBlock E (.genesis E) := rfl

theorem getBlock_first : (first E).getBlock h =
    if h = (Block.genesis E).hash E then some (.genesis E) else none := by
  rw [first_eq, getBlock_insertBlock]
  rfl

theorem getGhostdag_first : (first E).getGhostdag h =
    if h = (Block.genesis E).hash E then some .genesis else none := by
  unfold getGhostdag
  rw [first_eq, (insertBlock_db E _ _).2.2.1, if_pos (by simp), Finmap.lookup_insert_ite]
  rfl

theorem getUndo_first : (first E).getUndo h = none := by
  rw [first_eq, getUndo_insertBlock]
  rfl

theorem tips_first : (first E).tips = [(Block.genesis E).hash E] := by
  rw [first_eq, (insertBlock_db E _ _).2.2.2.2.1]
  rfl

theorem wf_first (E : Env) : (first E).Wf E := by
  have hgen : ∀ h b, (first E).getBlock h = some b →
      h = (Block.genesis E).hash E ∧ b = .genesis E := by
    intro h b hb
    rw [getBlock_first] at hb
    split at hb
    · cases hb; exact ⟨‹_›, rfl⟩
    · cases hb
  refine ⟨fun h => ?_, fun h b hb => ?_, fun h b hb p hp => ?_, fun h b hb => ?_, fun h b hb => ?_,
    fun t ht => ?_, fun h b hb t ht hm => ?_, ?_, ?_, fun h hu => ?_, ?_⟩
  · rw [first_eq, getHeader_insertBlock, getBlock_insertBlock]
    split <;> rfl
  · obtain ⟨rfl, rfl⟩ := hgen h b hb; rfl
  · obtain ⟨rfl, rfl⟩ := hgen h b hb; simp at hp
  · obtain ⟨rfl, rfl⟩ := hgen h b hb
    rw [getGhostdag_first, if_pos rfl]
    rfl
  · obtain ⟨rfl, rfl⟩ := hgen h b hb; rfl
  · rw [tips_first, List.mem_singleton] at ht
    rw [getBlock_first, if_pos ht]
    rfl
  · obtain ⟨rfl, rfl⟩ := hgen h b hb; simp at hm
  · rw [tips_first]; simp
  · rw [first_eq, (insertBlock_db E _ _).2.2.2.2.2]
  · rw [getUndo_first] at hu; cases hu
  · rw [getBlock_first, if_pos rfl]

theorem getSelectedTip_first : (first E).getSelectedTip = some ((Block.genesis E).hash E) := by
  obtain ⟨t, ht⟩ := (wf_first E).exists_selectedTip
  have hm := (getSelectedTip_mem ht).1
  rw [tips_first, List.mem_singleton] at hm
  rw [ht, hm]

end Dag

namespace Node

variable {E : Env} {n n' : Node} {b : Block} {h : Hash} {now : Nat}

/-! ## Moves -/

/-- The same graph, UTXO set and log. -/
structure Blind (n n' : Node) : Prop where
  dag : n'.dag = n.dag
  utxo : n'.utxo = n.utxo
  log : n'.log = n.log

/-- A new block on stored parents that names their score. -/
structure Joins (E : Env) (d : Dag) (b : Block) : Prop where
  new : d.getBlock (b.hash E) = none
  parents : ∀ p ∈ b.header.parents, (d.getBlock p).isSome
  blueScore : b.header.blueScore = (d.ghostdagFor b.header.parents).blueScore

inductive Move (E : Env) : Node → Node → Prop
  | blind {n n' : Node} : Blind n n' → Move E n n'
  | aside {n : Node} {b : Block} : Joins E n.dag b →
      some (n.newTip E b) = n.dag.getSelectedTip → Move E n (n.enter E b)
  | reorganized {n n' : Node} {b : Block} {r : Except ReorgError Unit} : Joins E n.dag b →
      some (n.newTip E b) ≠ n.dag.getSelectedTip →
      (n.enter E b).reorganize E n.dag.getSelectedTip (n.newTip E b) = (n', r) → Move E n n'

/-- Some moves. -/
abbrev Moves (E : Env) : Node → Node → Prop := Relation.ReflTransGen (Move E)

theorem Enters.joins (h : Enters E now n b) (hp : n.parentsStored b = true) :
    Joins E n.dag b :=
  ⟨h.1, fun p hm => List.all_eq_true.1 hp p hm, h.blueScore⟩

theorem connectBlock_moves (now : Nat) (hp : n.parentsStored b = true) :
    Moves E n (connectBlock E now n b).2 := by
  have ho := connectBlock_outcome E now n b
  generalize (connectBlock E now n b).1 = r at ho
  generalize (connectBlock E now n b).2 = n' at ho ⊢
  cases ho with
  | refused _ => exact .refl
  | aside he heq => exact .head (.aside (he.joins hp) heq) (.single (.blind ⟨rfl, rfl, rfl⟩))
  | moved he hne hr =>
    exact .head (.reorganized (he.joins hp) hne hr) (.single (.blind ⟨rfl, rfl, rfl⟩))
  | failed he hne hr => exact .single (.reorganized (he.joins hp) hne hr)

/-! ## Stored blocks stay -/

theorem Ledger.within (hl : Ledger E n n') : n.dag.Within n'.dag := by
  obtain ⟨m, u, evs, rfl, -⟩ := hl
  exact ⟨fun _ _ => id, fun _ _ => rfl⟩

theorem Ledger.parked (hl : Ledger E n n') : n'.orphans = n.orphans ∧ n'.wanted = n.wanted := by
  obtain ⟨m, u, evs, rfl, -⟩ := hl
  exact ⟨rfl, rfl⟩

theorem reorganize_eq_ledger {old : Option Hash} {new : Hash} {r : Except ReorgError Unit}
    (hr : n.reorganize E old new = (n', r)) : Ledger E n n' := by
  have hl := reorganize_ledger (E := E) n old new
  rwa [hr] at hl

theorem Move.within (hm : Move E n n') : n.dag.Within n'.dag := by
  cases hm with
  | blind hb => rw [hb.dag]; exact .refl _
  | aside hj _ => exact .extend hj.new
  | reorganized hj _ hr => exact (Dag.Within.extend hj.new).trans (reorganize_eq_ledger hr).within

theorem Moves.within (hm : Moves E n n') : n.dag.Within n'.dag := by
  induction hm with
  | refl => exact .refl _
  | tail _ hm ih => exact ih.trans hm.within

theorem Moves.parentsStored (hm : Moves E n n') (hp : n.parentsStored b = true) :
    n'.parentsStored b = true :=
  List.all_eq_true.2 fun p h => hm.within.stored (List.all_eq_true.1 hp p h)

/-! ## Calls -/

/-- What calls are made of: a block on stored parents is connected, or the orphans and the wanted
hashes change. -/
inductive Action (E : Env) : Node → Node → Prop
  | connect (now : Nat) {n : Node} {b : Block} : n.parentsStored b = true →
      Action E n (connectBlock E now n b).2
  | park (n : Node) (orphans : List Block) (wanted : Finset Hash) :
      Action E n { n with orphans := orphans, wanted := wanted }

/-- Some actions. -/
abbrev Actions (E : Env) : Node → Node → Prop := Relation.ReflTransGen (Action E)

theorem Actions.moves (ha : Actions E n n') : Moves E n n' := by
  induction ha with
  | refl => exact .refl
  | tail _ ha ih =>
    cases ha with
    | connect now hp => exact ih.trans (connectBlock_moves now hp)
    | park _ _ _ => exact ih.tail (.blind ⟨rfl, rfl, rfl⟩)

theorem connectReady_actions (clock : Hash → Nat) (hp : n.parentsStored b = true) :
    Actions E n (connectReady E clock n b) :=
  .head (.park n (n.orphans.filter fun o => o.hash E ≠ b.hash E) (n.wanted.erase (b.hash E)))
    (.single (.connect _ hp))

theorem foldl_connectReady_actions (clock : Hash → Nat) : ∀ {bs : List Block} {n : Node},
    (∀ b ∈ bs, n.parentsStored b = true) → Actions E n (bs.foldl (connectReady E clock) n)
  | [], _, _ => .refl
  | b :: bs, n, hp => by
    have ha := connectReady_actions (E := E) clock (hp b List.mem_cons_self)
    exact ha.trans (foldl_connectReady_actions clock fun b' hb' =>
      ha.moves.parentsStored (hp b' (List.mem_cons_of_mem _ hb')))

theorem orphanRounds_actions (clock : Hash → Nat) (order : List Block → List Block) :
    ∀ (fuel : Nat) (n : Node), Actions E n (orphanRounds E clock order fuel n)
  | 0, _ => .refl
  | fuel + 1, n => by
    simp only [orphanRounds]
    split
    · exact .refl
    · exact (foldl_connectReady_actions clock fun b hb => (List.mem_filter.1 hb).2).trans
        (orphanRounds_actions clock order fuel _)

/-- **A call is a sequence of actions.** -/
theorem Step.actions (hs : Step E n n') : Actions E n n' := by
  cases hs with
  | connect now _ b hp => exact .single (.connect now hp)
  | accept clock order _ b _ =>
    unfold acceptExternalBlock
    split
    · exact .refl
    · split
      · exact .refl
      · simp only
        split
        · exact .single (.park n _ _)
        · rename_i hmissing
          have hp : n.parentsStored b = true := by
            refine List.all_eq_true.2 fun p hm => ?_
            by_contra hn
            have hin : p ∈ b.header.parents.filter fun p => ¬(n.dag.getBlock p).isSome :=
              List.mem_filter.2 ⟨hm, by simpa using hn⟩
            rw [List.isEmpty_iff.1 (not_not.1 hmissing)] at hin
            cases hin
          have ha : Actions E n (connectBlock E (clock (b.hash E)) n b).2 :=
            .single (.connect (clock (b.hash E)) hp)
          split
          · rename_i n₁ hc
            rw [hc] at ha
            exact ha.trans (orphanRounds_actions clock order _ _)
          · rename_i n₁ hc
            rw [hc] at ha
            exact ha

theorem Reachable.actions (hn : n.Reachable E) : Actions E (new E .empty) n := by
  induction hn with
  | refl => exact .refl
  | tail _ hs ih => exact ih.trans hs.actions

/-- **A call is a sequence of moves.** -/
theorem Step.moves (hs : Step E n n') : Moves E n n' := hs.actions.moves

theorem Reachable.moves (hn : n.Reachable E) : Moves E (new E .empty) n := hn.actions.moves

/-! ## The rounds over the orphans -/

theorem connectBlock_parked (now : Nat) (n : Node) (b : Block) :
    (connectBlock E now n b).2.orphans = n.orphans ∧
      (connectBlock E now n b).2.wanted = n.wanted := by
  have ho := connectBlock_outcome E now n b
  generalize (connectBlock E now n b).1 = r at ho
  generalize (connectBlock E now n b).2 = n' at ho ⊢
  cases ho with
  | refused _ => exact ⟨rfl, rfl⟩
  | aside _ _ => exact ⟨rfl, rfl⟩
  | moved _ _ hr => exact (reorganize_eq_ledger hr).parked
  | failed _ _ hr => exact (reorganize_eq_ledger hr).parked

theorem connectBlock_orphans (now : Nat) (n : Node) (b : Block) :
    (connectBlock E now n b).2.orphans = n.orphans := (connectBlock_parked now n b).1

/-- A round takes its blocks out of the orphans. -/
theorem foldl_connectReady_orphans (clock : Hash → Nat) : ∀ (bs : List Block) (n : Node),
    (bs.foldl (connectReady E clock) n).orphans =
      n.orphans.filter fun o => o.hash E ∉ bs.map (·.hash E)
  | [], n => by simp
  | b :: bs, n => by
    rw [List.foldl_cons, foldl_connectReady_orphans clock bs]
    simp only [connectReady, connectBlock_orphans, List.filter_filter, List.map_cons, List.mem_cons,
      not_or, Bool.decide_and, Bool.and_comm]

theorem orphanRounds_done (clock : Hash → Nat) {order : List Block → List Block}
    (ho : ∀ l, (order l).Perm l) : ∀ (fuel : Nat) (n : Node), n.orphans.length ≤ fuel →
      ∀ o ∈ (orphanRounds E clock order fuel n).orphans,
        (orphanRounds E clock order fuel n).parentsStored o = false
  | 0, n, hl, o, hm => by
    rw [orphanRounds, List.eq_nil_of_length_eq_zero (Nat.le_zero.1 hl)] at hm
    cases hm
  | fuel + 1, n, hl, o, hm => by
    simp only [orphanRounds] at hm ⊢
    split at hm
    · rename_i he
      rw [if_pos he]
      by_contra hp
      have hin : o ∈ (order n.orphans).filter (n.parentsStored ·) :=
        List.mem_filter.2 ⟨(ho _).mem_iff.2 hm, by simpa using hp⟩
      rw [List.isEmpty_iff.1 he] at hin
      cases hin
    · rename_i he
      rw [if_neg he]
      refine orphanRounds_done clock ho fuel _ ?_ o hm
      -- the first ready block is an orphan that goes
      obtain ⟨b, hb⟩ := List.exists_mem_of_ne_nil _ (mt List.isEmpty_iff.2 he)
      have hbo := (ho _).mem_iff.1 (List.mem_filter.1 hb).1
      rw [foldl_connectReady_orphans]
      have hout : b.hash E ∈ ((order n.orphans).filter (n.parentsStored ·)).map (·.hash E) :=
        List.mem_map_of_mem hb
      refine Nat.le_of_lt_succ (Nat.lt_of_lt_of_le ?_ hl)
      exact List.length_filter_lt_length_iff_exists.2 ⟨b, hbo, by simpa [and_assoc] using hout⟩

/-- **The rounds over the orphans end when no orphan is ready.** -/
theorem tryConnectOrphans_done (clock : Hash → Nat) {order : List Block → List Block}
    (ho : ∀ l, (order l).Perm l) (n : Node) :
    ∀ o ∈ (tryConnectOrphans E clock order n).orphans,
      (tryConnectOrphans E clock order n).parentsStored o = false :=
  orphanRounds_done clock ho _ n (Nat.le_refl _)

/-! ## What the log has of the graph -/

theorem Move.log (hm : Move E n n') : n.log <:+ n'.log := by
  cases hm with
  | blind hb => rw [hb.log]
  | aside _ _ => exact List.suffix_cons _ _
  | reorganized _ _ hr => exact (List.suffix_cons _ _).trans (reorganize_eq_ledger hr).log

theorem Moves.log (hm : Moves E n n') : n.log <:+ n'.log := by
  induction hm with
  | refl => exact List.suffix_refl _
  | tail _ hm ih => exact ih.trans hm.log

theorem AppliesStored.within {d d' : Dag} {evs : List Event} (ha : AppliesStored E d evs)
    (hwi : d.Within d') (hw : d.Wf E) : AppliesStored E d' evs := by
  intro b ms u hin
  obtain ⟨⟨h, hb⟩, rfl⟩ := ha b ms u hin
  refine ⟨⟨h, hwi.block h b hb⟩, (hwi.mergeBlocks hw ?_).symm⟩
  rw [hw.hash h b hb, hb]
  rfl

/-- The graph is well formed, and the log has how each block joined it and applies its blocks
only. -/
structure Sound (E : Env) (n : Node) : Prop where
  wf : n.dag.Wf E
  applied : AppliesStored E n.dag n.log
  joined : ∀ h b, n.dag.getBlock h = some b → b = .genesis E ∨
    ∃ s : NodeState, .inserting s b ∈ n.log ∧ Joins E s.dag b ∧ s.dag.Within n.dag

theorem Joins.wf {d : Dag} (hj : Joins E d b) (hw : d.Wf E) : (d.extend E b).Wf E :=
  hw.extend hj.new hj.parents hj.blueScore

theorem Sound.enter (hs : Sound E n) (hj : Joins E n.dag b) : Sound E (n.enter E b) where
  wf := hj.wf hs.wf
  applied := fun b' ms u hin => by
    refine hs.applied.within (.extend hj.new) hs.wf b' ms u ?_
    exact (List.mem_cons.1 hin).resolve_left nofun
  joined := fun h b' hb' => by
    rw [enter_dag, Dag.getBlock_extend] at hb'
    split at hb'
    · cases hb'
      exact .inr ⟨n.toNodeState, List.mem_cons_self, hj, .extend hj.new⟩
    · refine (hs.joined h b' hb').imp id ?_
      rintro ⟨s, h1, h2, h3⟩
      exact ⟨s, List.mem_cons_of_mem _ h1, h2, h3.trans (.extend hj.new)⟩

theorem Sound.ledger (hs : Sound E n) (hl : Ledger E n n') : Sound E n' where
  wf := by
    obtain ⟨m, u, evs, rfl, hm, -⟩ := hl
    exact hs.wf.withUndo hm
  applied := by
    obtain ⟨m, u, evs, rfl, -, ha, -⟩ := hl
    exact fun b ms t hin => (List.mem_append.1 hin).elim (ha b ms t) (hs.applied b ms t)
  joined := fun h b hb => by
    have hback : n.dag.getBlock h = some b := by
      obtain ⟨m, u, evs, rfl, -⟩ := hl
      exact hb
    refine (hs.joined h b hback).imp id ?_
    rintro ⟨s, h1, h2, h3⟩
    exact ⟨s, hl.log.subset h1, h2, h3.trans hl.within⟩

theorem Sound.move (hs : Sound E n) (hm : Move E n n') : Sound E n' := by
  cases hm with
  | blind hb =>
    obtain ⟨h1, h2, h3⟩ := hs
    exact ⟨hb.dag ▸ h1, by rw [hb.dag, hb.log]; exact h2, by rw [hb.dag, hb.log]; exact h3⟩
  | aside hj _ => exact hs.enter hj
  | reorganized hj _ hr => exact (hs.enter hj).ledger (reorganize_eq_ledger hr)

theorem Sound.moves (hs : Sound E n) (hm : Moves E n n') : Sound E n' := by
  induction hm with
  | refl => exact hs
  | tail _ hm ih => exact ih.move hm

/-! ## Merge blocks -/

/-- The GhostDAG data a block joined with stays. -/
theorem Joins.ghostdag {d d' : Dag} (hj : Joins E d b) (hwi : d.Within d') (hw : d'.Wf E)
    (hb : d'.getBlock (b.hash E) = some b) :
    d'.getGhostdag (b.hash E) = some (d.ghostdagFor b.header.parents) := by
  rw [hw.ghostdag _ _ hb]
  exact congrArg some (GhostdagManager.processBlock_congr fun p hp =>
    hwi.ghostdag p (hj.parents p hp))

/-- So do its merge blocks. -/
theorem Joins.mergeBlocks {d d' : Dag} (hj : Joins E d b) (hwi : d.Within d') (hw : d'.Wf E)
    (hb : d'.getBlock (b.hash E) = some b) : d'.mergeBlocks (b.hash E) = d.blueMerges b := by
  rw [Dag.mergeBlocks, Dag.mergesetBluesOf, hj.ghostdag hwi hw hb]
  refine List.filterMap_congr fun q hq => ?_
  obtain ⟨m, hm⟩ := Option.isSome_iff_exists.1
    (hj.parents q (GhostdagManager.mem_mergesetBlues hq))
  rw [hm, hwi.block q m hm]

theorem mergeBlocks_genesis {d : Dag} (hw : d.Wf E) :
    d.mergeBlocks ((Block.genesis E).hash E) = [] := by
  rw [Dag.mergeBlocks, Dag.mergesetBluesOf, hw.ghostdag _ _ hw.genesis]
  rfl

/-- **What is applied** is the genesis block, or a block that joined the graph, with the merge
blocks it brought in then. -/
theorem Sound.applied_joined {ms : List Block} {u : UtxoSet} (hs : Sound E n)
    (ha : .applied b ms u ∈ n.log) : (b = .genesis E ∧ ms = []) ∨
      ∃ s : NodeState, .inserting s b ∈ n.log ∧ Joins E s.dag b ∧ ms = s.dag.blueMerges b := by
  obtain ⟨⟨h, hb⟩, rfl⟩ := hs.applied b ms u ha
  rcases hs.joined h b hb with rfl | ⟨s, h1, h2, h3⟩
  · exact .inl ⟨rfl, mergeBlocks_genesis hs.wf⟩
  · exact .inr ⟨s, h1, h2, h2.mergeBlocks h3 hs.wf (by rw [hs.wf.hash h b hb]; exact hb)⟩

/-! ## The first node -/

/-- No block of a run hashes to the zero hash, which the source uses as a sentinel. -/
structure NoZeroHash (E : Env) (log : List Event) : Prop where
  genesis : (Block.genesis E).hash E ≠ .zero
  joined : ∀ s b, .inserting s b ∈ log → b.hash E ≠ .zero

theorem Sound.getBlock_zero (hs : Sound E n) (hz : NoZeroHash E n.log) :
    n.dag.getBlock .zero = none := by
  by_contra hne
  obtain ⟨b, hb⟩ := Option.ne_none_iff_exists'.1 hne
  have hh := hs.wf.hash _ b hb
  rcases hs.joined _ b hb with rfl | ⟨s, hin, -⟩
  · exact hz.genesis hh
  · exact hz.joined s b hin hh

theorem NoZeroHash.suffix {l l' : List Event} (hz : NoZeroHash E l') (hl : l <:+ l') :
    NoZeroHash E l := ⟨hz.genesis, fun s b hin => hz.joined s b (hl.subset hin)⟩

/-- The set after the genesis block. -/
def genesisSet (E : Env) : UtxoSet := (UtxoSet.empty.applyBlock E (.genesis E) 0).1

/-- The genesis block is all of the first path, unless it hashes to the sentinel. -/
theorem startPath_first (E : Env) : startPath (Dag.first E) =
    if (Block.genesis E).hash E = .zero then [] else [.genesis E] := by
  unfold startPath
  rw [Dag.getSelectedTip_first]
  simp only [replayPath, Dag.getBlock_first]
  split
  · rfl
  · have hn : replayNext (Dag.first E) ((Block.genesis E).hash E) (.genesis E) = none := by
      simp [replayNext, Dag.getGhostdag_first, GhostdagData.genesis]
    simp [hn]

/-- **A new node** has applied the genesis block. -/
theorem new_empty (E : Env) : (new E .empty).dag = .first E ∧
    (new E .empty).utxo = genesisSet E ∧
    (new E .empty).log = [.applied (.genesis E) [] .empty] := by
  have hd : (fresh E .empty).dag = .first E := rfl
  unfold new
  simp only [hd]
  rw [startPath_first]
  split
  · exact ⟨rfl, rfl, rfl⟩
  · refine ⟨rfl, ?_, ?_⟩
    · simp [replayBlock, hd, mergeBlocks_genesis (Dag.wf_first E)]
      rfl
    · simp [replayBlock, hd, mergeBlocks_genesis (Dag.wf_first E)]
      exact ⟨rfl, rfl⟩

theorem sound_new (E : Env) : Sound E (new E .empty) := by
  obtain ⟨hd, -, hl⟩ := new_empty E
  refine ⟨hd ▸ Dag.wf_first E, fun b ms u hin => ?_, fun h b hb => .inl ?_⟩
  · rw [hl, List.mem_singleton] at hin
    cases hin
    rw [hd]
    exact ⟨⟨_, (Dag.wf_first E).genesis⟩, (mergeBlocks_genesis (Dag.wf_first E)).symm⟩
  · rw [hd, Dag.getBlock_first] at hb
    split at hb
    · cases hb; rfl
    · cases hb

theorem Reachable.sound (hn : n.Reachable E) : Sound E n := (sound_new E).moves hn.moves

end Node

end Zentra

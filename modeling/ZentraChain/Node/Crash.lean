import ZentraChain.Node.DagIndex
import ZentraChain.Node.Orphans
import ZentraChain.Node.Restart

/-!
# Crashes within an insertion (`node.rs`, `dag.rs`, `database.rs`)

`connect_block` writes the GhostDAG data of a block, its body, its header, the children of its parents
and at last the tips. A node that stopped in between starts from what was written, and takes the same
blocks again.

* `Mirror`, `deliver_mirror`: graphs that differ in undo records and in the cache take the same blocks.
* `crash_consistent_iff`: the graph comes out the same exactly if the crash was before the body was
  written, or after the tips were.
-/

namespace Zentra

variable {E : Env}

namespace Dag

/-- The same graph but for undo records and what is cached. -/
structure Mirror (d d' : Dag) : Prop where
  same : ∃ u c, d' = (d.withUndo u).withCache c
  cached : d.Cached
  cached' : d'.Cached

/-- The same blocks, headers, children lists and tips. -/
structure SameGraph (d d' : Dag) : Prop where
  blocks : d'.db.blocks = d.db.blocks
  headers : d'.db.headers = d.db.headers
  children : ∀ h, d'.getChildren h = d.getChildren h
  tips : d'.tips = d.tips

variable {d d' : Dag} {b : Block} {h : Hash} {u : Finmap fun _ : Hash => BlockUndoData}
  {c : Finmap fun _ : Hash => List Hash}

theorem Mirror.graph (hm : d.Mirror d') : d.SameGraph d' := by
  obtain ⟨⟨u, c, rfl⟩, hc, hc'⟩ := hm
  refine ⟨rfl, rfl, fun h => ?_, rfl⟩
  rw [hc.getChildren, hc'.getChildren]
  rfl

theorem Mirror.withUndo (hm : d.Mirror d') (u v : Finmap fun _ : Hash => BlockUndoData) :
    (d.withUndo u).Mirror (d'.withUndo v) := by
  obtain ⟨⟨w, c, rfl⟩, hc, hc'⟩ := hm
  exact ⟨⟨v, c, rfl⟩, hc, hc'⟩

/-! ## The same checks -/

theorem laneWalk_mirror (lane : LaneId) : ∀ (fuel room : Nat) (h : Hash),
    ((d.withUndo u).withCache c).laneWalk lane fuel room h = d.laneWalk lane fuel room h
  | 0, _, _ => rfl
  | fuel + 1, room, h => by
    simp only [laneWalk, laneWalk_mirror lane fuel]
    rfl

theorem pastTimes_mirror : ∀ (n : Nat) (visited : Finset Hash) (cursor : List Hash),
    ((d.withUndo u).withCache c).pastTimes n visited cursor = d.pastTimes n visited cursor
  | 0, _, _ => rfl
  | n + 1, visited, cursor => by
    simp only [pastTimes, pastTimes_mirror n]
    rfl

theorem calculateExpectedDifficulty_mirror (network : NetworkType) (parents : List Hash)
    (lane : LaneId) : ((d.withUndo u).withCache c).calculateExpectedDifficulty network parents lane =
      d.calculateExpectedDifficulty network parents lane := by
  unfold calculateExpectedDifficulty
  simp only [laneWalk_mirror]
  rfl

theorem medianTimePast_mirror (parents : List Hash) :
    ((d.withUndo u).withCache c).medianTimePast parents = d.medianTimePast parents := by
  unfold medianTimePast
  rw [pastTimes_mirror]

theorem Mirror.preCheck (hm : d.Mirror d') (now : Nat) (b : Block) :
    Node.preCheck E d' now b = Node.preCheck E d now b := by
  obtain ⟨⟨u, c, rfl⟩, -, -⟩ := hm
  unfold Node.preCheck validateBlockHeader
  simp only [calculateExpectedDifficulty_mirror, medianTimePast_mirror]
  rfl

/-! ## The same insertions -/

theorem Mirror.addChildRelation (hm : d.Mirror d') (p h : Hash) :
    (d.addChildRelation p h).Mirror (d'.addChildRelation p h) := by
  refine ⟨?_, hm.cached.addChildRelation p h, hm.cached'.addChildRelation p h⟩
  have hchildren := hm.graph.children p
  obtain ⟨⟨u, c, rfl⟩, -, -⟩ := hm
  unfold Dag.addChildRelation
  simp only [hchildren]
  split
  · exact ⟨_, _, rfl⟩
  · exact ⟨_, _, rfl⟩

theorem Mirror.foldl_addChildRelation (h : Hash) : ∀ (ps : List Hash) {d d' : Dag}, d.Mirror d' →
    (ps.foldl (fun d p => d.addChildRelation p h) d).Mirror
      (ps.foldl (fun d p => d.addChildRelation p h) d')
  | [], _, _, hm => hm
  | p :: ps, _, _, hm => Mirror.foldl_addChildRelation h ps (hm.addChildRelation p h)

theorem Mirror.putGhostdag (hm : d.Mirror d') (h : Hash) (g : GhostdagData) :
    (d.putGhostdag h g).Mirror (d'.putGhostdag h g) := by
  obtain ⟨⟨u, c, rfl⟩, hc, hc'⟩ := hm
  exact ⟨⟨u, c, rfl⟩, hc, hc'⟩

theorem Mirror.insertBlock (hm : d.Mirror d') (b : Block) :
    (d.insertBlock E b).Mirror (d'.insertBlock E b) := by
  have hput : ({ d with db := d.db.putBlock (b.hash E) b } : Dag).Mirror
      { d' with db := d'.db.putBlock (b.hash E) b } := by
    obtain ⟨⟨u, c, rfl⟩, hc, hc'⟩ := hm
    exact ⟨⟨u, c, rfl⟩, hc, hc'⟩
  refine ⟨?_, hm.cached.insertBlock E b, hm.cached'.insertBlock E b⟩
  unfold Dag.insertBlock
  simp only
  split
  · obtain ⟨⟨u, c, he⟩, -, -⟩ :=
      Mirror.foldl_addChildRelation (b.hash E) b.header.parents (hput.putGhostdag (b.hash E) .genesis)
    rw [he]
    exact ⟨u, c, rfl⟩
  · obtain ⟨⟨u, c, he⟩, -, -⟩ := Mirror.foldl_addChildRelation (b.hash E) b.header.parents hput
    rw [he]
    exact ⟨u, c, rfl⟩

theorem Mirror.extend (hm : d.Mirror d') (b : Block) : (d.extend E b).Mirror (d'.extend E b) := by
  have hgd : d'.ghostdagFor b.header.parents = d.ghostdagFor b.header.parents := by
    obtain ⟨⟨u, c, rfl⟩, -, -⟩ := hm
    rfl
  unfold Dag.extend
  rw [hgd]
  exact (hm.putGhostdag _ _).insertBlock b

/-! ## The graph that a start finds -/

theorem cached_withCache (d : Dag) : (d.withCache ∅).Cached := cached_new d.db

/-- With the genesis block and some tips in the database, a start reads them back. -/
theorem initGenesis_stored {hd : Header} {t : Hash} {ts : List Hash}
    (hh : d.getHeader ((Block.genesis E).hash E) = some hd) (ht : d.db.dagTips = some (t :: ts)) :
    (Dag.new d.db).initGenesis E = { d with tips := t :: ts, childrenCache := ∅ } := by
  have hh' : (Dag.new d.db).getHeader ((Block.genesis E).hash E) = some hd := hh
  have ht' : (Dag.new d.db).db.dagTips = some (t :: ts) := ht
  rw [Dag.initGenesis, hh']
  simp only [ht']
  rfl

/-! ## A stray entry -/

theorem within_putGhostdag {g : GhostdagData} (hnew : d.getBlock h = none) :
    d.Within (d.putGhostdag h g) := by
  refine ⟨fun _ _ => id, fun x hs => Finmap.lookup_insert_of_ne _ ?_⟩
  rintro rfl
  rw [hnew] at hs
  cases hs

theorem Wf.putGhostdag {g : GhostdagData} (hw : d.Wf E) (hnew : d.getBlock h = none) :
    (d.putGhostdag h g).Wf E where
  header := hw.header
  hash := hw.hash
  parents := hw.parents
  ghostdag := fun x b hb => by
    have hwi := within_putGhostdag (g := g) hnew
    rw [hwi.ghostdag x (by rw [show d.getBlock x = some b from hb]; rfl),
      hwi.ghostdagFor (hw.parents x b hb)]
    exact hw.ghostdag x b hb
  blueScore := fun x b hb => by
    rw [(within_putGhostdag (g := g) hnew).ghostdagFor (hw.parents x b hb)]
    exact hw.blueScore x b hb
  tips := hw.tips
  childless := hw.childless
  tips_ne := hw.tips_ne
  dagTips := hw.dagTips
  undo := hw.undo
  genesis := hw.genesis

/-- The entry is overwritten when the block comes. -/
theorem extend_putGhostdag (hnew : d.getBlock (b.hash E) = none)
    (hps : ∀ p ∈ b.header.parents, (d.getBlock p).isSome) :
    (d.putGhostdag (b.hash E) (d.ghostdagFor b.header.parents)).extend E b = d.extend E b := by
  have hgd := (within_putGhostdag (g := d.ghostdagFor b.header.parents) hnew).ghostdagFor hps
  unfold Dag.extend
  rw [hgd]
  simp only [Dag.putGhostdag, Db.putGhostdag, Finmap.insert_insert]

end Dag

namespace Node

variable {n n' m : Node} {b : Block} {now now' : Nat}

theorem foldl_replayBlock_dag (bs : List Block) (n : Node) :
    (bs.foldl (replayBlock E) n).dag = n.dag := by
  induction bs generalizing n with
  | nil => rfl
  | cons b bs ih => rw [List.foldl_cons, ih, replayBlock]

/-- A start does not change the graph it finds. -/
theorem new_dag (E : Env) (db : Db) : (new E db).dag = (Dag.new db).initGenesis E := by
  unfold new
  simp only
  split
  · rfl
  · exact foldl_replayBlock_dag _ _

/-! ## The graphs of a life -/

theorem Move.wf_cached (hm : Move E n n') (hw : n.dag.Wf E) (hc : n.dag.Cached) :
    n'.dag.Wf E ∧ n'.dag.Cached := by
  cases hm with
  | blind hb => exact hb.dag ▸ ⟨hw, hc⟩
  | aside hj _ => exact ⟨hj.wf hw, hc.extend _⟩
  | reorganized hj _ hr =>
    obtain ⟨u, v, evs, rfl, hu, -⟩ := reorganize_eq_ledger hr
    exact ⟨(hj.wf hw).withUndo hu, hc.extend _⟩

theorem LifeReachable.wf_cached (hn : n.LifeReachable E) : n.dag.Wf E ∧ n.dag.Cached := by
  induction hn with
  | refl =>
    rw [(new_empty E).1]
    exact ⟨Dag.wf_first E, Dag.cached_first E⟩
  | tail _ hs ih =>
    cases hs with
    | call hs =>
      have hm := hs.moves
      clear hs
      induction hm with
      | refl => exact ih
      | tail _ hm ih => exact hm.wf_cached ih.1 ih.2
    | restart =>
      rename_i m _
      have hd : (restart E m).dag = m.dag.withCache ∅ := (new_dag E _).trans ih.1.initGenesis
      rw [hd]
      exact ⟨ih.1.withCache, m.dag.cached_withCache⟩

/-! ## Deliveries -/

/-- Blocks that `connect_block` is called with, at these times. -/
def deliver (E : Env) (n : Node) (bs : List (Nat × Block)) : Node :=
  bs.foldl (fun n c => (connectBlock E c.1 n c.2).2) n

theorem connectBlock_mirror (hm : n.dag.Mirror m.dag) (now : Nat) (b : Block) :
    (connectBlock E now n b).2.dag.Mirror (connectBlock E now m b).2.dag := by
  have hiff : Enters E now m b ↔ Enters E now n b := by
    have hgd : m.dag.ghostdagFor b.header.parents = n.dag.ghostdagFor b.header.parents := by
      obtain ⟨⟨u, c, he⟩, -, -⟩ := hm
      rw [he]
      rfl
    have hb : m.dag.getBlock (b.hash E) = n.dag.getBlock (b.hash E) := by
      obtain ⟨⟨u, c, he⟩, -, -⟩ := hm
      rw [he]
      rfl
    unfold Enters
    rw [hm.preCheck, hgd, hb]
  by_cases he : Enters E now n b
  · obtain ⟨u, hu⟩ := he.dag
    obtain ⟨v, hv⟩ := (hiff.2 he).dag
    rw [hu, hv]
    exact (hm.extend b).withUndo u v
  · rw [connectBlock_refused he, connectBlock_refused (mt hiff.1 he)]
    exact hm

/-- **Graphs that differ in undo records and in the cache take the same blocks.** -/
theorem deliver_mirror : ∀ (bs : List (Nat × Block)) {n m : Node}, n.dag.Mirror m.dag →
    (deliver E n bs).dag.Mirror (deliver E m bs).dag
  | [], _, _, hm => hm
  | c :: bs, _, _, hm => deliver_mirror bs (connectBlock_mirror hm c.1 c.2)

/-! ## Crashes -/

/-- What `connect_block` writes for a block, before the undo records of a reorganization. -/
def connectWrites (E : Env) (now : Nat) (n : Node) (b : Block) : List Write :=
  if (n.dag.getBlock (b.hash E)).isSome then []
  else
    match preCheck E n.dag now b with
    | .error _ => []
    | .ok gd => n.dag.insertWrites E b gd

/-- The node that starts from the first writes. -/
def afterCrash (E : Env) (now : Nat) (n : Node) (b : Block) (us : List (Hash × BlockUndoData))
    (k : Nat) : Node := new E (n.dag.db.writes ((connectWrites E now n b ++ undoWrites us).take k))

theorem Enters.connectWrites (he : Enters E now n b) : connectWrites E now n b =
    n.dag.insertWrites E b (n.dag.ghostdagFor b.header.parents) := by
  unfold Node.connectWrites
  rw [he.1, he.2]
  rfl

theorem connectWrites_refused (hne : ¬Enters E now n b) : connectWrites E now n b = [] := by
  unfold Node.connectWrites
  split
  · rfl
  · rename_i hnew
    cases hc : preCheck E n.dag now b with
    | error _ => rfl
    | ok gd =>
      have hb : n.dag.getBlock (b.hash E) = none := by simpa using hnew
      exact absurd ⟨hb, (preCheck_ok hc).1 ▸ hc⟩ hne

/-- What `connect_block` leaves in the database, undo records aside, are its writes. -/
theorem connectBlock_db (E : Env) (now : Nat) (n : Node) (b : Block) :
    ∃ u, (connectBlock E now n b).2.dag.db =
      { n.dag.db.writes (connectWrites E now n b) with undo := u } := by
  by_cases he : Enters E now n b
  · obtain ⟨u, hu⟩ := he.dag
    rw [hu, he.connectWrites, Dag.insertWrites_db]
    exact ⟨u, rfl⟩
  · rw [connectBlock_refused he, connectWrites_refused he]
    exact ⟨n.dag.db.undo, rfl⟩

theorem writes_undo (db : Db) (us : List (Hash × BlockUndoData)) :
    ∃ u, db.writes (undoWrites us) = { db with undo := u } := by
  induction us generalizing db with
  | nil => exact ⟨db.undo, rfl⟩
  | cons r us ih => exact ih (db.putUndo r.1 r.2)

/-- A start from a well-formed graph, whatever its undo records. -/
theorem start_mirror {d : Dag} (hw : d.Wf E) (hc : d.Cached)
    (u : Finmap fun _ : Hash => BlockUndoData) : d.Mirror (new E { d.db with undo := u }).dag := by
  obtain ⟨t, ts, htips⟩ := List.exists_cons_of_ne_nil hw.tips_ne
  have hh : (d.withUndo u).getHeader ((Block.genesis E).hash E) = some (Block.genesis E).header := by
    have hh := hw.header ((Block.genesis E).hash E)
    rw [hw.genesis] at hh
    exact hh
  have ht : (d.withUndo u).db.dagTips = some (t :: ts) := htips ▸ hw.dagTips
  have hd : (new E { d.db with undo := u }).dag = (d.withUndo u).withCache ∅ := by
    rw [new_dag]
    refine (Dag.initGenesis_stored hh ht).trans ?_
    rw [← htips]
    rfl
  rw [hd]
  exact ⟨⟨u, ∅, rfl⟩, hc, (d.withUndo u).cached_withCache⟩

/-- After all writes up to the tips the node starts from the new graph. -/
theorem afterCrash_late {d : Dag} (hw : d.Wf E) (hc : d.Cached)
    (hd : n.dag.db.writes (connectWrites E now n b) = d.db) (us : List (Hash × BlockUndoData))
    {k : Nat} (hk : (connectWrites E now n b).length ≤ k) :
    d.Mirror (afterCrash E now n b us k).dag := by
  have htake : (connectWrites E now n b ++ undoWrites us).take k =
      connectWrites E now n b ++ undoWrites (us.take (k - (connectWrites E now n b).length)) := by
    rw [List.take_append, List.take_of_length_le hk, undoWrites, undoWrites, List.map_take]
  obtain ⟨u, hu⟩ := writes_undo d.db (us.take (k - (connectWrites E now n b).length))
  unfold afterCrash
  rw [htake, Db.writes_append, hd, hu]
  exact start_mirror hw hc u

/-- With a block that entered, it is refused when it comes again. -/
theorem connectBlock_again (hb : n.dag.getBlock (b.hash E) = some b) :
    (connectBlock E now n b).2 = n := by
  rw [connectBlock_refused fun he => ?_]
  have hnone := he.1
  rw [hb] at hnone
  cases hnone

/-- **A crash before the body is written leaves a graph that the block joins as before.** -/
theorem afterCrash_early (hw : n.dag.Wf E) (hc : n.dag.Cached) (he : Enters E now n b)
    (hp : n.parentsStored b = true) (hle : now ≤ now') (us : List (Hash × BlockUndoData)) {k : Nat}
    (hk : k ≤ 1) :
    (n.dag.extend E b).Mirror (connectBlock E now' (afterCrash E now n b us k) b).2.dag := by
  have hps := (he.joins hp).parents
  obtain ⟨d, hd, hwd, hcd, hwi, hext⟩ : ∃ d, (afterCrash E now n b us k).dag = d.withCache ∅ ∧
      d.Wf E ∧ d.Cached ∧ (n.dag.Within d ∧ d.getBlock (b.hash E) = none) ∧
        d.extend E b = n.dag.extend E b := by
    unfold afterCrash
    rw [he.connectWrites, new_dag]
    obtain ⟨mid, heq, -⟩ := n.dag.insertWrites_eq E b (n.dag.ghostdagFor b.header.parents)
    rw [heq]
    cases k with
    | zero => exact ⟨n.dag, hw.initGenesis, hw, hc, ⟨.refl _, he.1⟩, rfl⟩
    | succ k =>
      obtain rfl : k = 0 := by omega
      exact ⟨_, (hw.putGhostdag he.1).initGenesis, hw.putGhostdag he.1, hc,
        ⟨Dag.within_putGhostdag he.1, he.1⟩, Dag.extend_putGhostdag he.1 hps⟩
  have he' : Enters E now' (afterCrash E now n b us k) b := by
    refine (he.later hle).mono ?_ hw ?_ hp ?_
    · rw [hd]
      exact hwi.1.trans Dag.within_withCache
    · rw [hd]
      exact hwd.withCache
    · rw [hd]
      exact hwi.2
  obtain ⟨v, hv⟩ := he'.dag
  have hm : d.Mirror (d.withCache ∅) := ⟨⟨d.db.undo, ∅, rfl⟩, hcd, d.cached_withCache⟩
  rw [hv, hd, ← hext]
  exact (hm.extend b).withUndo (d.extend E b).db.undo v

/-- **A crash between the body and the tips leaves a block that is refused and no tip.** -/
theorem afterCrash_middle (hw : n.dag.Wf E) (he : Enters E now n b)
    (us : List (Hash × BlockUndoData)) {k : Nat} (hk : 1 < k)
    (hlt : k < (connectWrites E now n b).length) :
    (connectBlock E now' (afterCrash E now n b us k) b).2.dag.tips = n.dag.tips := by
  obtain ⟨t, ts, htips⟩ := List.exists_cons_of_ne_nil hw.tips_ne
  obtain ⟨mid, heq, hq⟩ := n.dag.insertWrites_eq E b (n.dag.ghostdagFor b.header.parents)
  rw [he.connectWrites, heq] at hlt
  obtain ⟨k, rfl⟩ : ∃ j, k = j + 2 := ⟨k - 2, by omega⟩
  have hmid : k ≤ mid.length := by
    simp only [List.length_cons, List.length_append, List.length_nil] at hlt
    omega
  -- the writes that are left of those in between
  have htake : (connectWrites E now n b ++ undoWrites us).take (k + 2) =
      .ghostdag (b.hash E) (n.dag.ghostdagFor b.header.parents) :: .block (b.hash E) b ::
        mid.take k := by
    rw [he.connectWrites, heq]
    simp only [List.cons_append, List.take_succ_cons, List.append_assoc]
    rw [List.take_append_of_le_length hmid]
  obtain ⟨h1, h2, h3⟩ := Db.writes_quiet (fun w hw => hq w (List.mem_of_mem_take hw))
    (((n.dag.putGhostdag (b.hash E) (n.dag.ghostdagFor b.header.parents)).db.write
      (.block (b.hash E) b)))
  generalize hdb : ((n.dag.putGhostdag (b.hash E) (n.dag.ghostdagFor b.header.parents)).db.write
      (.block (b.hash E) b)).writes (mid.take k) = db at h1 h2 h3
  have hcrash : afterCrash E now n b us (k + 2) = new E db := by
    unfold afterCrash
    rw [htake, ← hdb]
    rfl
  have hgen : (Block.genesis E).hash E ≠ b.hash E := by
    intro hg
    have hb := he.1
    rw [← hg, hw.genesis] at hb
    cases hb
  have hh : (Dag.mk db [] ∅).getHeader ((Block.genesis E).hash E) = some (Block.genesis E).header := by
    have hh := hw.header ((Block.genesis E).hash E)
    rw [hw.genesis] at hh
    exact (h3 _ hgen).trans hh
  have ht : (Dag.mk db [] ∅).db.dagTips = some (t :: ts) := h2.trans (htips ▸ hw.dagTips)
  have hd : (new E db).dag = { Dag.mk db [] ∅ with tips := t :: ts, childrenCache := ∅ } :=
    (new_dag E db).trans (Dag.initGenesis_stored hh ht)
  have hb : (new E db).dag.getBlock (b.hash E) = some b := by
    rw [hd]
    show db.blocks.lookup (b.hash E) = some b
    rw [h1]
    exact Finmap.lookup_insert _
  rw [hcrash, connectBlock_again hb, hd, htips]

/-- **After a crash within `connect_block`, the same blocks lead to the same graph** exactly if the
body of the block had not been written yet, or the tips had. -/
theorem crash_consistent_iff (hn : n.LifeReachable E) (hp : n.parentsStored b = true)
    (hle : now ≤ now') (us : List (Hash × BlockUndoData)) (k : Nat) :
    (∀ bs, (deliver E (connectBlock E now n b).2 ((now', b) :: bs)).dag.SameGraph
      (deliver E (afterCrash E now n b us k) ((now', b) :: bs)).dag) ↔
    k ≤ 1 ∨ (connectWrites E now n b).length ≤ k := by
  obtain ⟨hw, hc⟩ := hn.wf_cached
  by_cases he : Enters E now n b
  · obtain ⟨u, hu⟩ := he.dag
    have hagain : (connectBlock E now' (connectBlock E now n b).2 b).2 = (connectBlock E now n b).2 := by
      refine connectBlock_again ?_
      rw [he.getBlock, if_pos rfl]
    constructor
    · intro h
      by_contra hk
      have htips := (h []).tips
      have hmid : (connectBlock E now' (afterCrash E now n b us k) b).2.dag.tips = n.dag.tips :=
        afterCrash_middle hw he us (Nat.lt_of_not_le fun h => hk (.inl h))
          (Nat.lt_of_not_le fun h => hk (.inr h))
      have hnew : (connectBlock E now' (connectBlock E now n b).2 b).2.dag.tips =
          n.dag.tips.filter (fun t => t ∉ b.header.parents) ++ [b.hash E] := by
        rw [hagain, hu]
        exact Dag.tips_extend
      have hin : b.hash E ∈ n.dag.tips := by
        rw [← hmid]
        refine htips ▸ ?_
        show b.hash E ∈ (connectBlock E now' (connectBlock E now n b).2 b).2.dag.tips
        rw [hnew]
        simp
      have hs := hw.tips _ hin
      rw [he.1] at hs
      cases hs
    · rintro (hk | hk) bs
      · refine (deliver_mirror bs ?_).graph
        show (connectBlock E now' (connectBlock E now n b).2 b).2.dag.Mirror
          (connectBlock E now' (afterCrash E now n b us k) b).2.dag
        rw [hagain, hu]
        exact (afterCrash_early hw hc he hp hle us hk).withUndo u _
      · refine (deliver_mirror ((now', b) :: bs) ?_).graph
        have hdb : n.dag.db.writes (connectWrites E now n b) = (n.dag.extend E b).db := by
          rw [he.connectWrites, Dag.insertWrites_db]
          rfl
        rw [hu]
        exact (afterCrash_late ((he.joins hp).wf hw) (hc.extend b) hdb us hk).withUndo u _
  · have hnil := connectWrites_refused he
    have hlen : (connectWrites E now n b).length ≤ k := by
      rw [hnil]
      exact Nat.zero_le k
    refine ⟨fun _ => .inr hlen, fun _ bs => (deliver_mirror ((now', b) :: bs) ?_).graph⟩
    rw [connectBlock_refused he]
    exact afterCrash_late hw hc (by rw [hnil]; rfl) us hlen

end Node

open Sample in
/-- A crash after the body of `first` is written loses the tip. -/
theorem crash_loses_tip :
    ¬∀ n : Node, n.LifeReachable env → ∀ now b, n.parentsStored b = true → ∀ us k bs,
      (Node.deliver env (Node.connectBlock env now n b).2 ((now, b) :: bs)).dag.SameGraph
        (Node.deliver env (Node.afterCrash env now n b us k) ((now, b) :: bs)).dag := by
  intro h
  obtain ⟨hp, hne⟩ : (run []).parentsStored first = true ∧
      (Node.deliver env (Node.afterCrash env 1717372800000 (run []) first [] 2)
        [(1717372800000, first)]).dag.tips ≠
      (Node.deliver env (Node.connectBlock env 1717372800000 (run []) first).2
        [(1717372800000, first)]).dag.tips := by
    decide +kernel
  exact hne (h (run []) (reachable_run []).life 1717372800000 first hp [] 2 []).tips

open Sample in
/-- A crash after its GhostDAG data is written does not. -/
theorem crash_consistent_stray :
    (Node.deliver env (Node.connectBlock env 1717372800000 (run []) first).2
      [(1717372800000, first), (1717372800000, side)]).dag.SameGraph
    (Node.deliver env (Node.afterCrash env 1717372800000 (run []) first [] 1)
      [(1717372800000, first), (1717372800000, side)]).dag := by
  have hp : (run []).parentsStored first = true := by decide +kernel
  exact (Node.crash_consistent_iff (reachable_run []).life hp (Nat.le_refl _) [] 1).2
    (.inl (Nat.le_refl 1)) [(1717372800000, side)]

end Zentra

import ZentraChain.Node.DagIndex
import ZentraChain.Node.Database

/-!
# The graph manager over the bytes (`dag.rs`)

`DagGraph` is the manager as it runs: over the byte families, with a cache of headers and one of
children lists that its reads fill. `Dag` has neither the bytes nor the cache of headers.

* `Refines`: the bytes are the maps of the graph, and the caches only repeat them.
* `run_agrees`: after any sequence of insertions, writes, reads and restarts, both answer every
  question in the same way, and nothing fails.
-/

namespace Zentra

open Borsh

structure DagGraph where
  db : RawDb
  tips : List Hash
  childrenCache : Finmap fun _ : Hash => List Hash
  headerCache : Finmap fun _ : Hash => Header

namespace DagGraph

def new (db : RawDb) : DagGraph := ⟨db, [], ∅, ∅⟩

def getBlock (d : DagGraph) (h : Hash) : Except Table.Error (Option Block) := d.db.getBlock h

/-- From the cache, else from the database, and then cached. -/
def getHeader (d : DagGraph) (h : Hash) : Except Table.Error (Option Header × DagGraph) :=
  match d.headerCache.lookup h with
  | some hd => .ok (some hd, d)
  | none =>
    match d.db.getHeader h with
    | .error e => .error e
    | .ok none => .ok (none, d)
    | .ok (some hd) => .ok (some hd, { d with headerCache := d.headerCache.insert h hd })

/-- From the cache, else from the database, and then cached. -/
def getChildren (d : DagGraph) (h : Hash) : Except Table.Error (List Hash × DagGraph) :=
  match d.childrenCache.lookup h with
  | some cs => .ok (cs, d)
  | none =>
    match d.db.getChildren h with
    | .error e => .error e
    | .ok cs => .ok (cs, { d with childrenCache := d.childrenCache.insert h cs })

def addChildRelation (d : DagGraph) (parent child : Hash) : Except Table.Error DagGraph :=
  match d.getChildren parent with
  | .error e => .error e
  | .ok (cs, d) =>
    if child ∈ cs then .ok d
    else
      .ok { d with
        db := d.db.putChildren parent (cs ++ [child])
        childrenCache := d.childrenCache.insert parent (cs ++ [child]) }

/-- The relations of `insert_block`, one parent after the other. -/
def relate (d : DagGraph) : List Hash → Hash → Except Table.Error DagGraph
  | [], _ => .ok d
  | p :: ps, child =>
    match d.addChildRelation p child with
    | .error e => .error e
    | .ok d => d.relate ps child

def insertBlock (E : Env) (d : DagGraph) (b : Block) : Except Table.Error DagGraph :=
  let h := b.hash E
  let d := { d with db := d.db.putBlock h b }
  -- a parentless block gets 64 zero bytes
  let d :=
    if b.header.parents.isEmpty then
      { d with db := d.db.putGhostdagRaw h (List.replicate 64 0) }
    else d
  let d := { d with headerCache := d.headerCache.insert h b.header }
  match d.relate b.header.parents h with
  | .error e => .error e
  | .ok d =>
    let tips := d.tips.filter (fun t => t ∉ b.header.parents) ++ [h]
    .ok { d with tips := tips, db := d.db.putMetadata tipsKey (vec Hash.encode tips) }

/-- The loop of `get_selected_tip`. -/
def bestTip (d : DagGraph) (best : Option (Nat × Nat × Hash)) :
    List Hash → Except Table.Error (Option (Nat × Nat × Hash) × DagGraph)
  | [] => .ok (best, d)
  | tip :: tips =>
    match d.getHeader tip with
    | .error e => .error e
    | .ok (none, d) => d.bestTip best tips
    | .ok (some hd, d) =>
      let cand := (hd.blueScore, hd.blueWork, tip)
      match best with
      | none => d.bestTip (some cand) tips
      | some b => d.bestTip (if Dag.better cand b then some cand else some b) tips

def getSelectedTip (d : DagGraph) : Except Table.Error (Option Hash × DagGraph) :=
  (d.bestTip none d.tips).map fun x => (x.1.map (·.2.2), x.2)

/-- A missing header inserts the genesis block; else the tips are those saved, if any. -/
def initGenesis (E : Env) (d : DagGraph) : Except Table.Error DagGraph :=
  let genesis := Block.genesis E
  let h := genesis.hash E
  match d.db.getHeader h with
  | .error e => .error e
  | .ok none => d.insertBlock E genesis
  | .ok (some _) =>
    match (d.db.getMetadata tipsKey).bind (tryFromSlice (readVec Hash.read)) with
    | some (t :: ts) => .ok { d with tips := t :: ts }
    | _ => .ok (if d.tips.isEmpty then { d with tips := [h] } else d)

def getGhostdag (d : DagGraph) (h : Hash) : Option GhostdagData :=
  (d.db.getGhostdagRaw h).bind (tryFromSlice GhostdagData.read)

def putGhostdag (d : DagGraph) (h : Hash) (g : GhostdagData) : DagGraph :=
  { d with db := d.db.putGhostdagRaw h g.encode }

def getUndo (d : DagGraph) (h : Hash) : Except Table.Error (Option BlockUndoData) := d.db.getUndo h

def putUndo (d : DagGraph) (h : Hash) (u : BlockUndoData) : DagGraph :=
  { d with db := d.db.putUndo h u }

/-! ## Refinement -/

/-- The manager in bytes has the graph, and its caches repeat it. -/
structure Refines (raw : DagGraph) (d : Dag) : Prop where
  db : raw.db.Stores d.db
  cached : d.Cached
  tips : raw.tips = d.tips
  fits : ∀ t ∈ d.tips, t.Fits
  headers : ∀ h hd, raw.headerCache.lookup h = some hd → d.getHeader h = some hd
  children : ∀ h cs, raw.childrenCache.lookup h = some cs → d.storedChildren h = cs

variable {E : Env} {raw : DagGraph} {d : Dag} {b : Block} {h p c : Hash} {ps : List Hash}

theorem refines_new {raw : RawDb} {db : Db} (hs : raw.Stores db) : (new raw).Refines (Dag.new db) where
  db := hs
  cached := Dag.cached_new db
  tips := rfl
  fits _ ht := absurd ht List.not_mem_nil
  headers h hd hl := by
    rw [new, Finmap.lookup_empty] at hl
    cases hl
  children h cs hl := by
    rw [new, Finmap.lookup_empty] at hl
    cases hl

/-! ## Reads -/

theorem Refines.getHeader (hr : raw.Refines d) (hh : h.Fits) :
    ∃ raw', raw.getHeader h = .ok (d.getHeader h, raw') ∧ raw'.Refines d := by
  unfold DagGraph.getHeader
  cases hc : raw.headerCache.lookup h with
  | some hd =>
    refine ⟨raw, ?_, hr⟩
    rw [hr.headers h hd hc]
  | none =>
    have hdb : raw.db.getHeader h = .ok (d.getHeader h) := hr.db.getHeader hh
    cases hd : d.getHeader h with
    | none =>
      rw [hd] at hdb
      exact ⟨raw, by simp only [hdb], hr⟩
    | some hd' =>
      rw [hd] at hdb
      refine ⟨{ raw with headerCache := raw.headerCache.insert h hd' }, by simp only [hdb],
        { hr with headers := fun x y hy => ?_ }⟩
      rw [Finmap.lookup_insert_ite] at hy
      split at hy
      · rename_i hx
        rw [hx, hd]
        exact hy
      · exact hr.headers x y hy

theorem Refines.getChildren (hr : raw.Refines d) (hh : h.Fits) :
    ∃ raw', raw.getChildren h = .ok (d.storedChildren h, raw') ∧ raw'.Refines d ∧
      raw'.db = raw.db ∧ raw'.tips = raw.tips := by
  unfold DagGraph.getChildren
  cases hc : raw.childrenCache.lookup h with
  | some cs =>
    refine ⟨raw, ?_, hr, rfl, rfl⟩
    rw [hr.children h cs hc]
  | none =>
    have hdb : raw.db.getChildren h = .ok (d.storedChildren h) := hr.db.getChildren hh
    refine ⟨{ raw with childrenCache := raw.childrenCache.insert h (d.storedChildren h) },
      by simp only [hdb], { hr with children := fun x y hy => ?_ }, rfl, rfl⟩
    rw [Finmap.lookup_insert_ite] at hy
    split at hy
    · rename_i hx
      rw [hx]
      exact Option.some.inj hy
    · exact hr.children x y hy

theorem Refines.bestTip : ∀ {tips : List Hash} {raw : DagGraph}
    {best : Option (Nat × Nat × Hash)}, raw.Refines d → (∀ t ∈ tips, t.Fits) →
      ∃ raw', raw.bestTip best tips = .ok (tips.foldl d.tipStep best, raw') ∧ raw'.Refines d
  | [], raw, _, hr, _ => ⟨raw, rfl, hr⟩
  | t :: tips, raw, best, hr, ht => by
    obtain ⟨ht', hts⟩ := List.forall_mem_cons.1 ht
    obtain ⟨raw', hget, hr'⟩ := hr.getHeader ht'
    rw [List.foldl_cons]
    simp only [DagGraph.bestTip, hget]
    unfold Dag.tipStep
    cases hd : d.getHeader t with
    | none => exact hr'.bestTip hts
    | some hd' =>
      cases best with
      | none => exact hr'.bestTip hts
      | some b => exact hr'.bestTip hts

theorem Refines.getSelectedTip (hr : raw.Refines d) :
    ∃ raw', raw.getSelectedTip = .ok (d.getSelectedTip, raw') ∧ raw'.Refines d := by
  obtain ⟨raw', hbest, hr'⟩ := @Refines.bestTip d d.tips raw none hr hr.fits
  refine ⟨raw', ?_, hr'⟩
  rw [DagGraph.getSelectedTip, hr.tips, hbest]
  rfl

/-! ## Insertions -/

/-- A list that a child may still be added to. -/
def Room (d : Dag) (c : Hash) : Prop :=
  ∀ p, FitsIn 4 (Dag.withChild (d.storedChildren p) c).length

theorem withChild_withChild (cs : List Hash) (c : Hash) :
    Dag.withChild (Dag.withChild cs c) c = Dag.withChild cs c :=
  if_pos (Dag.mem_withChild.2 (.inr rfl))

theorem Room.addChildRelation (hroom : Room d c) (hc : d.Cached) :
    Room (d.addChildRelation p c) c := by
  intro q
  rw [Dag.storedChildren_addChildRelation hc]
  split
  · rw [withChild_withChild]
    exact hroom p
  · exact hroom q

theorem Refines.addChildRelation (hr : raw.Refines d) (hp : p.Fits) (hc : c.Fits)
    (hroom : Room d c) :
    ∃ raw', raw.addChildRelation p c = .ok raw' ∧ raw'.Refines (d.addChildRelation p c) := by
  obtain ⟨raw', hget, hr', -, -⟩ := hr.getChildren hp
  have hcs : d.getChildren p = d.storedChildren p := hr.cached.getChildren p
  have hcached := hr.cached.addChildRelation p c
  simp only [DagGraph.addChildRelation, hget]
  unfold Dag.addChildRelation at hcached ⊢
  simp only [hcs] at hcached ⊢
  by_cases hm : c ∈ d.storedChildren p
  · simp only [if_pos hm] at hcached ⊢
    exact ⟨raw', rfl, { hr' with cached := hcached }⟩
  · simp only [if_neg hm] at hcached ⊢
    have hlist : FitsIn 4 (d.storedChildren p ++ [c]).length ∧
        ∀ x ∈ d.storedChildren p ++ [c], x.Fits := by
      have hlen := hroom p
      rw [Dag.withChild, if_neg hm] at hlen
      refine ⟨hlen, fun x hx => ?_⟩
      rcases List.mem_append.1 hx with hx | hx
      · unfold Dag.storedChildren at hx
        cases hl : d.db.children.lookup p with
        | none =>
          rw [hl] at hx
          cases hx
        | some cs =>
          rw [hl] at hx
          exact (hr.db.children.ok p hp cs hl).2 x hx
      · rw [List.mem_singleton.1 hx]
        exact hc
    refine ⟨_, rfl, ?_⟩
    exact
      { db := hr'.db.putChildren hp hlist
        cached := hcached
        tips := hr'.tips
        fits := hr'.fits
        headers := hr'.headers
        children := fun x cs hx => by
          rw [Finmap.lookup_insert_ite] at hx
          show ((d.db.children.insert p _).lookup x).getD [] = cs
          rw [Finmap.lookup_insert_ite]
          split at hx
          · rename_i he
            rw [if_pos he]
            exact Option.some.inj hx
          · rename_i he
            rw [if_neg he]
            exact hr'.children x cs hx }

theorem Refines.relate (hc : c.Fits) : ∀ {ps : List Hash} {raw : DagGraph} {d : Dag},
    raw.Refines d → (∀ p ∈ ps, p.Fits) → Room d c →
      ∃ raw', raw.relate ps c = .ok raw' ∧ raw'.Refines (d.relate ps c)
  | [], raw, _, hr, _, _ => ⟨raw, rfl, hr⟩
  | p :: ps, raw, d, hr, hps, hroom => by
    obtain ⟨hp, hps⟩ := List.forall_mem_cons.1 hps
    obtain ⟨raw', hadd, hr'⟩ := hr.addChildRelation hp hc hroom
    simp only [DagGraph.relate, hadd]
    rw [Dag.relate_cons]
    exact hr'.relate hc hps (hroom.addChildRelation hr.cached)

/-- The lists of a graph are no longer than `n`. -/
structure Small (n : Nat) (d : Dag) : Prop where
  tips : d.tips.length ≤ n
  children : ∀ h, (d.storedChildren h).length ≤ n
  dagTips : ∀ l ∈ d.db.dagTips, l.length ≤ n

theorem Small.mono {n m : Nat} (hs : Small n d) (hle : n ≤ m) : Small m d :=
  ⟨hs.tips.trans hle, fun h => (hs.children h).trans hle, fun l hl => (hs.dagTips l hl).trans hle⟩

theorem length_withChild_le (cs : List Hash) (c : Hash) :
    (Dag.withChild cs c).length ≤ cs.length + 1 := by
  unfold Dag.withChild
  split
  · exact Nat.le_succ _
  · rw [List.length_append, List.length_singleton]

theorem storedChildren_relate : ∀ {ps : List Hash} {d : Dag}, d.Cached → ∀ h : Hash,
    (d.relate ps c).storedChildren h =
      if h ∈ ps then Dag.withChild (d.storedChildren h) c else d.storedChildren h
  | [], _, _, h => by rw [if_neg List.not_mem_nil]; rfl
  | p :: ps, d, hc, h => by
    rw [Dag.relate_cons, storedChildren_relate (hc.addChildRelation p c),
      Dag.storedChildren_addChildRelation hc]
    by_cases hp : h = p
    · simp only [hp, List.mem_cons_self, if_true, withChild_withChild, ite_self]
    · simp only [hp, if_false, List.mem_cons, false_or]

theorem genesisData_fits : GhostdagData.genesis.Fits := by
  refine ⟨by decide, by decide, by decide, by decide, by decide⟩

/-- The graph just before the relations of an insertion. -/
def stored (E : Env) (d : Dag) (b : Block) : Dag :=
  let d := { d with db := d.db.putBlock (b.hash E) b }
  if b.header.parents.isEmpty then d.putGhostdag (b.hash E) .genesis else d

theorem storedChildren_stored (h : Hash) : (stored E d b).storedChildren h = d.storedChildren h := by
  unfold stored
  simp only
  split <;> rfl

theorem relate_tips : ∀ (ps : List Hash) (d : Dag),
    (d.relate ps c).tips = d.tips ∧ (d.relate ps c).db.dagTips = d.db.dagTips
  | [], _ => ⟨rfl, rfl⟩
  | p :: ps, d => by
    have hadd : (d.addChildRelation p c).tips = d.tips ∧
        (d.addChildRelation p c).db.dagTips = d.db.dagTips := by
      unfold Dag.addChildRelation
      simp only
      split <;> exact ⟨rfl, rfl⟩
    rw [Dag.relate_cons, (relate_tips ps _).1, (relate_tips ps _).2]
    exact hadd

theorem stored_tips (E : Env) (d : Dag) (b : Block) : (stored E d b).tips = d.tips := by
  unfold stored
  simp only
  split <;> rfl

theorem stored_cached (hc : d.Cached) : (stored E d b).Cached := by
  unfold stored
  simp only
  split <;> exact hc

theorem Small.insertBlock {n : Nat} (hs : Small n d) (hc : d.Cached) :
    Small (n + 1) (d.insertBlock E b) := by
  have htips : (d.insertBlock E b).tips.length ≤ n + 1 := by
    rw [(Dag.insertBlock_db E d b).2.2.2.2.1, List.length_append, List.length_singleton]
    exact Nat.succ_le_succ ((List.length_filter_le _ _).trans hs.tips)
  refine ⟨htips, fun h => ?_, fun l hl => ?_⟩
  · show (((stored E d b).relate b.header.parents (b.hash E)).storedChildren h).length ≤ n + 1
    rw [storedChildren_relate (stored_cached hc), storedChildren_stored]
    split
    · exact (length_withChild_le _ _).trans (Nat.succ_le_succ (hs.children h))
    · exact (hs.children h).trans (Nat.le_succ n)
  · rw [(Dag.insertBlock_db E d b).2.2.2.2.2] at hl
    cases hl
    exact htips

/-- The manager in bytes just before the relations of an insertion. -/
theorem Refines.stored (hr : raw.Refines d) (hb : b.Fits) (hh : (b.hash E).Fits) :
    Refines
      { raw with
        db :=
          if b.header.parents.isEmpty then
            (raw.db.putBlock (b.hash E) b).putGhostdagRaw (b.hash E) (List.replicate 64 0)
          else raw.db.putBlock (b.hash E) b
        headerCache := raw.headerCache.insert (b.hash E) b.header } (stored E d b) := by
  have hput := hr.db.putBlock hh hb
  have hheader : ∀ h, (DagGraph.stored E d b).getHeader h =
      if h = b.hash E then some b.header else d.getHeader h := by
    intro h
    have hl := Finmap.lookup_insert_ite d.db.headers (b.hash E) h b.header
    unfold DagGraph.stored
    simp only
    split <;> exact hl
  refine ⟨?_, stored_cached hr.cached, hr.tips.trans (stored_tips E d b).symm, ?_, ?_, ?_⟩
  · unfold DagGraph.stored
    simp only
    split
    · rw [← GhostdagData.encode_genesis]
      exact hput.putGhostdagRaw hh genesisData_fits
    · exact hput
  · rw [stored_tips]
    exact hr.fits
  · intro h hd hl
    rw [Finmap.lookup_insert_ite] at hl
    rw [hheader]
    split at hl
    · rename_i he
      rw [if_pos he]
      exact hl
    · rename_i he
      rw [if_neg he]
      exact hr.headers h hd hl
  · intro h cs hl
    rw [storedChildren_stored]
    exact hr.children h cs hl

theorem Refines.insertBlock {n : Nat} (hr : raw.Refines d) (hs : Small n d)
    (hn : FitsIn 4 (n + 1)) (hb : b.Fits) (hh : (b.hash E).Fits) :
    ∃ raw', raw.insertBlock E b = .ok raw' ∧ raw'.Refines (d.insertBlock E b) := by
  have hroom : Room (DagGraph.stored E d b) (b.hash E) := by
    intro p
    rw [storedChildren_stored]
    have hle := (length_withChild_le (d.storedChildren p) (b.hash E)).trans
      (Nat.succ_le_succ (hs.children p))
    exact Nat.lt_of_le_of_lt hle hn
  obtain ⟨raw', hrel, hr'⟩ := (hr.stored hb hh).relate hh hb.header.parents.2 hroom
  have hins : raw.insertBlock E b = .ok { raw' with
      tips := raw'.tips.filter (fun t => t ∉ b.header.parents) ++ [b.hash E]
      db := raw'.db.putMetadata tipsKey
        (vec Hash.encode (raw'.tips.filter (fun t => t ∉ b.header.parents) ++ [b.hash E])) } := by
    unfold DagGraph.insertBlock
    cases hp : b.header.parents.isEmpty
    · simp only [hp, Bool.false_eq_true, if_false] at hrel ⊢
      simp only [hrel]
    · simp only [hp, if_true] at hrel ⊢
      simp only [hrel]
  have hsmall := (hs.insertBlock (E := E) (b := b) hr.cached).tips
  have htips : raw'.tips.filter (fun t => t ∉ b.header.parents) ++ [b.hash E] =
      (d.insertBlock E b).tips := by
    rw [hr'.tips]
    rfl
  have hfits : ∀ t ∈ (d.insertBlock E b).tips, t.Fits := by
    intro t ht
    rw [(Dag.insertBlock_db E d b).2.2.2.2.1, List.mem_append] at ht
    rcases ht with ht | ht
    · exact hr.fits t (List.mem_of_mem_filter ht)
    · rw [List.mem_singleton.1 ht]
      exact hh
  rw [htips] at hins
  refine ⟨_, hins, ?_⟩
  exact
    { db := hr'.db.putTips ⟨Nat.lt_of_le_of_lt hsmall hn, hfits⟩
      cached := hr.cached.insertBlock E b
      tips := rfl
      fits := hfits
      headers := hr'.headers
      children := hr'.children }

/-! ## Restarts -/

/-- What is needed of the hashes: they have 32 bytes. -/
structure Hashes (E : Env) : Prop where
  tx : ∀ tx, (E.hashTx tx).Fits
  header : ∀ hd, (E.hashHeader hd).Fits
  key : ∀ k, FitsIn 32 (E.hashKey k)

theorem genesis_fits (hE : Hashes E) : (Block.genesis E).Fits := by
  have hcb : (Block.genesisCoinbase E).Fits :=
    { version := (by decide : FitsIn 4 1)
      inputs := ⟨(by decide : FitsIn 4 0), fun i hi => absurd hi List.not_mem_nil⟩
      outputs := ⟨(by decide : FitsIn 4 1), fun o ho => by
        rw [List.mem_singleton.1 ho]
        exact ⟨hE.key 0, by decide⟩⟩
      payload := (by decide : FitsIn 4 8)
      lockTime := (by decide : FitsIn 8 0) }
  exact
    { header :=
        { version := (by decide : FitsIn 4 1)
          parents := ⟨(by decide : FitsIn 4 0), fun p hp => absurd hp List.not_mem_nil⟩
          merkleRoot := hE.tx _
          timestamp := (by decide : FitsIn 8 1717372800000)
          nonce := (by decide : FitsIn 8 0)
          bits := (by decide : FitsIn 4 Header.easiestBits)
          blueScore := (by decide : FitsIn 8 0)
          blueWork := (by decide : FitsIn 16 0)
          pruningPoint := (by decide : FitsIn 32 0) }
      transactions := ⟨(by decide : FitsIn 4 1), fun tx htx => by
        rw [List.mem_singleton.1 htx]
        exact hcb⟩ }

theorem Refines.initGenesis {n : Nat} (hE : Hashes E) (hr : raw.Refines d) (hs : Small n d)
    (hn : FitsIn 4 (n + 1)) : ∃ raw', raw.initGenesis E = .ok raw' ∧
      raw'.Refines (d.initGenesis E) ∧ Small (n + 1) (d.initGenesis E) := by
  have hh : ((Block.genesis E).hash E).Fits := hE.header _
  have hdb : raw.db.getHeader ((Block.genesis E).hash E) =
      .ok (d.getHeader ((Block.genesis E).hash E)) := hr.db.getHeader hh
  have hsaved : (raw.db.getMetadata tipsKey).bind (tryFromSlice (readVec Hash.read)) =
      d.db.dagTips := by
    have hl := hr.db.dagTips.lookup () trivial
    rw [RawDb.getMetadata, show raw.db.metadata.lookup tipsKey = _ from hl]
    cases ht : d.db.dagTips with
    | none => rfl
    | some l => exact Hash.codec.vec.tryFromSlice_iff.2 ⟨hr.db.dagTips.ok () trivial l ht, rfl⟩
  unfold DagGraph.initGenesis Dag.initGenesis
  simp only [hdb, hsaved]
  cases hd : d.getHeader ((Block.genesis E).hash E) with
  | none =>
    obtain ⟨raw', hins, hr'⟩ := hr.insertBlock hs hn (genesis_fits hE) hh
    exact ⟨raw', hins, hr', hs.insertBlock hr.cached⟩
  | some hd' =>
    have hseed : ∃ raw', (Except.ok (if raw.tips.isEmpty then
          { raw with tips := [(Block.genesis E).hash E] } else raw) : Except Table.Error _) =
            .ok raw' ∧
        raw'.Refines (if d.tips.isEmpty then { d with tips := [(Block.genesis E).hash E] } else d) ∧
        Small (n + 1) (if d.tips.isEmpty then { d with tips := [(Block.genesis E).hash E] } else d) := by
      refine ⟨_, rfl, ?_⟩
      rw [hr.tips]
      split
      · refine ⟨{ hr with tips := rfl, fits := fun t ht => ?_ }, ?_⟩
        · rw [List.mem_singleton.1 ht]
          exact hh
        · exact ⟨Nat.le_add_left 1 n, (hs.mono (Nat.le_succ n)).children,
            (hs.mono (Nat.le_succ n)).dagTips⟩
      · exact ⟨hr, hs.mono (Nat.le_succ n)⟩
    cases ht : d.db.dagTips with
    | none => exact hseed
    | some l =>
      cases l with
      | nil => exact hseed
      | cons t ts =>
        refine ⟨_, rfl, { hr with tips := rfl, fits := ?_ }, ?_⟩
        · exact (hr.db.dagTips.ok () trivial _ ht).2
        · exact ⟨(hs.dagTips _ ht).trans (Nat.le_succ n), (hs.mono (Nat.le_succ n)).children,
            (hs.mono (Nat.le_succ n)).dagTips⟩

/-! ## Runs -/

/-- What the node asks of the manager. -/
inductive Call
  | insertBlock (b : Block)
  | putGhostdag (h : Hash) (g : GhostdagData)
  | putUndo (h : Hash) (u : BlockUndoData)
  | getHeader (h : Hash)
  | getChildren (h : Hash)
  | getSelectedTip
  /-- `DagGraph::new` on the same database, and `init_genesis` -/
  | restart

def Call.Fits (E : Env) : Call → Prop
  | insertBlock b => b.Fits ∧ (b.hash E).Fits
  | putGhostdag h g => h.Fits ∧ g.Fits
  | putUndo h u => h.Fits ∧ u.Fits
  | getHeader h => h.Fits
  | getChildren h => h.Fits
  | getSelectedTip => True
  | restart => True

def call (E : Env) (raw : DagGraph) : Call → Except Table.Error DagGraph
  | .insertBlock b => raw.insertBlock E b
  | .putGhostdag h g => .ok (raw.putGhostdag h g)
  | .putUndo h u => .ok (raw.putUndo h u)
  | .getHeader h => (raw.getHeader h).map (·.2)
  | .getChildren h => (raw.getChildren h).map (·.2)
  | .getSelectedTip => raw.getSelectedTip.map (·.2)
  | .restart => (new raw.db).initGenesis E

def run (E : Env) (raw : DagGraph) : List Call → Except Table.Error DagGraph
  | [] => .ok raw
  | c :: calls =>
    match raw.call E c with
    | .error e => .error e
    | .ok raw => raw.run E calls

end DagGraph

/-- The calls on the graph: reads change nothing. -/
def Dag.call (E : Env) (d : Dag) : DagGraph.Call → Dag
  | .insertBlock b => d.insertBlock E b
  | .putGhostdag h g => d.putGhostdag h g
  | .putUndo h u => d.putUndo h u
  | .restart => (Dag.new d.db).initGenesis E
  | _ => d

namespace DagGraph

variable {E : Env} {raw : DagGraph} {d : Dag} {n : Nat}

theorem Refines.call (hE : Hashes E) (hr : raw.Refines d) (hs : Small n d) (hn : FitsIn 4 (n + 1))
    {c : Call} (hc : c.Fits E) : ∃ raw', raw.call E c = .ok raw' ∧ raw'.Refines (d.call E c) ∧
      Small (n + 1) (d.call E c) := by
  have hs' := hs.mono (Nat.le_succ n)
  cases c with
  | insertBlock b =>
    obtain ⟨raw', hins, hr'⟩ := hr.insertBlock hs hn hc.1 hc.2
    exact ⟨raw', hins, hr', hs.insertBlock hr.cached⟩
  | putGhostdag h g => exact ⟨_, rfl, { hr with db := hr.db.putGhostdagRaw hc.1 hc.2 }, { hs' with }⟩
  | putUndo h u => exact ⟨_, rfl, { hr with db := hr.db.putUndo hc.1 hc.2 }, { hs' with }⟩
  | getHeader h =>
    obtain ⟨raw', hget, hr'⟩ := hr.getHeader hc
    exact ⟨raw', by simp only [DagGraph.call, hget, Except.map], hr', hs'⟩
  | getChildren h =>
    obtain ⟨raw', hget, hr', -, -⟩ := hr.getChildren hc
    exact ⟨raw', by simp only [DagGraph.call, hget, Except.map], hr', hs'⟩
  | getSelectedTip =>
    obtain ⟨raw', hget, hr'⟩ := hr.getSelectedTip
    exact ⟨raw', by simp only [DagGraph.call, hget, Except.map], hr', hs'⟩
  | restart =>
    have hnew : Small n (Dag.new d.db) := ⟨Nat.zero_le n, hs.children, hs.dagTips⟩
    exact (refines_new hr.db).initGenesis hE hnew hn

theorem Refines.run (hE : Hashes E) : ∀ {calls : List Call} {n : Nat} {raw : DagGraph} {d : Dag},
    raw.Refines d → Small n d → FitsIn 4 (n + calls.length) → (∀ c ∈ calls, c.Fits E) →
      ∃ raw', raw.run E calls = .ok raw' ∧ raw'.Refines (calls.foldl (Dag.call E) d)
  | [], _, raw, _, hr, _, _, _ => ⟨raw, rfl, hr⟩
  | c :: calls, n, raw, d, hr, hs, hn, hc => by
    obtain ⟨hc, hcs⟩ := List.forall_mem_cons.1 hc
    rw [List.length_cons] at hn
    have hlt : FitsIn 4 (n + 1) := Nat.lt_of_le_of_lt (by omega) hn
    obtain ⟨raw', hcall, hr', hs'⟩ := hr.call hE hs hlt hc
    simp only [DagGraph.run, hcall]
    refine hr'.run hE hs' ?_ hcs
    rwa [Nat.add_assoc, Nat.add_comm 1]

end DagGraph

namespace Sample

end Sample

end Zentra

import ZentraChain.Consensus.Ghostdag
import ZentraChain.Core.UtxoUndo
import ZentraChain.Lib.Walk

/-!
# The database and the DAG (`database.rs`, `dag.rs`)

`Db` has one map for each column family the modelled code uses; its reads and writes do not fail.
`Dag` is the graph manager over it, with its tips and its children cache in memory (its header
cache only repeats stored headers).

* `insertBlock_blocks`, …: what an insertion stores.
* `getSelectedTip_mem`, `getSelectedTip_max`: the selected tip is one of the tips with a header,
  and none of them is better.
-/

namespace Zentra

/-- The column families. -/
structure Db where
  blocks : Finmap fun _ : Hash => Block
  headers : Finmap fun _ : Hash => Header
  ghostdag : Finmap fun _ : Hash => GhostdagData
  children : Finmap fun _ : Hash => List Hash
  /-- `undo:` keys of the metadata family. -/
  undo : Finmap fun _ : Hash => BlockUndoData
  /-- The `dag_tips` key of the metadata family. -/
  dagTips : Option (List Hash)

namespace Db

def empty : Db := ⟨∅, ∅, ∅, ∅, ∅, none⟩

/-- Store a block and, separately, its header. -/
def putBlock (db : Db) (h : Hash) (b : Block) : Db :=
  { db with blocks := db.blocks.insert h b, headers := db.headers.insert h b.header }

def putGhostdag (db : Db) (h : Hash) (g : GhostdagData) : Db :=
  { db with ghostdag := db.ghostdag.insert h g }

def putChildren (db : Db) (h : Hash) (cs : List Hash) : Db :=
  { db with children := db.children.insert h cs }

def putUndo (db : Db) (h : Hash) (u : BlockUndoData) : Db :=
  { db with undo := db.undo.insert h u }

end Db

/-- The graph manager. -/
structure Dag where
  db : Db
  /-- Blocks with no children, in insertion order. -/
  tips : List Hash
  childrenCache : Finmap fun _ : Hash => List Hash

namespace Dag

/-- `DagGraph::new`. -/
def new (db : Db) : Dag := ⟨db, [], ∅⟩

def getBlock (d : Dag) (h : Hash) : Option Block := d.db.blocks.lookup h

def getHeader (d : Dag) (h : Hash) : Option Header := d.db.headers.lookup h

def getGhostdag (d : Dag) (h : Hash) : Option GhostdagData := d.db.ghostdag.lookup h

def getUndo (d : Dag) (h : Hash) : Option BlockUndoData := d.db.undo.lookup h

/-- The children of a block: from the cache, else from the database. -/
def getChildren (d : Dag) (h : Hash) : List Hash :=
  match d.childrenCache.lookup h with
  | some cs => cs
  | none => (d.db.children.lookup h).getD []

/-- Add a parent-child relation. -/
def addChildRelation (d : Dag) (parent child : Hash) : Dag :=
  let cs := d.getChildren parent
  if child ∈ cs then { d with childrenCache := d.childrenCache.insert parent cs }
  else
    { d with
      db := d.db.putChildren parent (cs ++ [child])
      childrenCache := d.childrenCache.insert parent (cs ++ [child]) }

def putGhostdag (d : Dag) (h : Hash) (g : GhostdagData) : Dag :=
  { d with db := d.db.putGhostdag h g }

def putUndo (d : Dag) (h : Hash) (u : BlockUndoData) : Dag :=
  { d with db := d.db.putUndo h u }

/-- Insert a block: store it, relate it to its parents and make it a tip in their place. -/
def insertBlock (E : Env) (d : Dag) (b : Block) : Dag :=
  let h := b.hash E
  let d := { d with db := d.db.putBlock h b }
  -- a parentless block gets the data of the genesis block
  let d := if b.header.parents.isEmpty then d.putGhostdag h .genesis else d
  let d := b.header.parents.foldl (fun d p => d.addChildRelation p h) d
  let tips := d.tips.filter (fun t => t ∉ b.header.parents) ++ [h]
  { d with tips := tips, db := { d.db with dagTips := some tips } }

/-- `get_selected_tip`'s comparison: score, then work, then the lower hash. -/
def better (cand best : Nat × Nat × Hash) : Bool :=
  cand.1 > best.1 ∨ (cand.1 = best.1 ∧ cand.2.1 > best.2.1) ∨
    (cand.1 = best.1 ∧ cand.2.1 = best.2.1 ∧ cand.2.2 < best.2.2)

/-- One step of the loop of `get_selected_tip`. -/
def tipStep (d : Dag) (best : Option (Nat × Nat × Hash)) (tip : Hash) :
    Option (Nat × Nat × Hash) :=
  match d.getHeader tip with
  | none => best
  | some hd =>
    let cand := (hd.blueScore, hd.blueWork, tip)
    match best with
    | none => some cand
    | some b => if better cand b then some cand else some b

/-- The selected tip. -/
def getSelectedTip (d : Dag) : Option Hash :=
  (d.tips.foldl d.tipStep none).map (·.2.2)

/-- `init_genesis`, at every start of the node. -/
def initGenesis (E : Env) (d : Dag) : Dag :=
  let genesis := Block.genesis E
  let h := genesis.hash E
  match d.getHeader h with
  | none => d.insertBlock E genesis
  | some _ =>
    match d.db.dagTips with
    | some (t :: ts) => { d with tips := t :: ts }
    | _ => if d.tips.isEmpty then { d with tips := [h] } else d

/-! ## Insertion -/

variable {E : Env} {d : Dag} {b : Block} {h p : Hash}

/-- Relating a block to its parents changes the children lists only. -/
theorem foldl_addChildRelation (h : Hash) : ∀ (ps : List Hash) (d : Dag),
    let d' := ps.foldl (fun d p => d.addChildRelation p h) d
    d'.db.blocks = d.db.blocks ∧ d'.db.headers = d.db.headers ∧
      d'.db.ghostdag = d.db.ghostdag ∧ d'.db.undo = d.db.undo ∧ d'.tips = d.tips
  | [], _ => ⟨rfl, rfl, rfl, rfl, rfl⟩
  | p :: ps, d => by
    have ih := foldl_addChildRelation h ps (d.addChildRelation p h)
    simp only [List.foldl_cons] at ih ⊢
    obtain ⟨h1, h2, h3, h4, h5⟩ := ih
    rw [h1, h2, h3, h4, h5]
    dsimp only [addChildRelation]
    split <;> exact ⟨rfl, rfl, rfl, rfl, rfl⟩

/-- What an insertion stores, tips and children aside. -/
theorem insertBlock_db (E : Env) (d : Dag) (b : Block) :
    (d.insertBlock E b).db.blocks = d.db.blocks.insert (b.hash E) b ∧
      (d.insertBlock E b).db.headers = d.db.headers.insert (b.hash E) b.header ∧
      (d.insertBlock E b).db.ghostdag =
        (if b.header.parents.isEmpty then d.db.ghostdag.insert (b.hash E) .genesis
         else d.db.ghostdag) ∧
      (d.insertBlock E b).db.undo = d.db.undo ∧
      (d.insertBlock E b).tips = d.tips.filter (fun t => t ∉ b.header.parents) ++ [b.hash E] ∧
      (d.insertBlock E b).db.dagTips = some (d.insertBlock E b).tips := by
  unfold insertBlock
  cases hp : b.header.parents.isEmpty
  · obtain ⟨h1, h2, h3, h4, h5⟩ := foldl_addChildRelation (b.hash E) b.header.parents
      { d with db := d.db.putBlock (b.hash E) b }
    dsimp only
    rw [if_neg Bool.false_ne_true, if_neg Bool.false_ne_true]
    exact ⟨h1, h2, h3, h4, by rw [h5], rfl⟩
  · obtain ⟨h1, h2, h3, h4, h5⟩ := foldl_addChildRelation (b.hash E) b.header.parents
      (({ d with db := d.db.putBlock (b.hash E) b } : Dag).putGhostdag (b.hash E) .genesis)
    dsimp only
    rw [if_pos rfl, if_pos rfl]
    exact ⟨h1, h2, h3, h4, by rw [h5]; rfl, rfl⟩

theorem getBlock_insertBlock : (d.insertBlock E b).getBlock h =
    if h = b.hash E then some b else d.getBlock h := by
  unfold getBlock
  rw [(insertBlock_db E d b).1, Finmap.lookup_insert_ite]

theorem getHeader_insertBlock : (d.insertBlock E b).getHeader h =
    if h = b.hash E then some b.header else d.getHeader h := by
  unfold getHeader
  rw [(insertBlock_db E d b).2.1, Finmap.lookup_insert_ite]

theorem getUndo_insertBlock : (d.insertBlock E b).getUndo h = d.getUndo h := by
  unfold getUndo
  rw [(insertBlock_db E d b).2.2.2.1]

/-- The GhostDAG data after `put_ghostdag_raw` and `insert_block`: a parentless block's data is
the same either way. -/
theorem getGhostdag_insertBlock {g : GhostdagData}
    (hg : b.header.parents.isEmpty = true → g = .genesis) :
    ((d.putGhostdag (b.hash E) g).insertBlock E b).getGhostdag h =
      if h = b.hash E then some g else d.getGhostdag h := by
  unfold getGhostdag
  rw [(insertBlock_db E _ b).2.2.1]
  cases hp : b.header.parents.isEmpty
  · simp only [Bool.false_eq_true, if_false]
    exact Finmap.lookup_insert_ite _ _ _ _
  · rw [if_pos rfl, Finmap.lookup_insert_ite, hg hp]
    split
    · rfl
    · rw [putGhostdag, Db.putGhostdag, Finmap.lookup_insert_of_ne _ ‹_›]

/-! ## The selected tip -/

theorem tipStep_foldl : ∀ (ts : List Hash) (best : Option (Nat × Nat × Hash)),
    (ts.foldl d.tipStep best).map (·.2.2) = best.map (·.2.2) ∨
      ∃ t ∈ ts, (ts.foldl d.tipStep best).map (·.2.2) = some t ∧ (d.getHeader t).isSome
  | [], _ => .inl rfl
  | t :: ts, best => by
    have ht : (d.tipStep best t).map (·.2.2) = best.map (·.2.2) ∨
        ((d.tipStep best t).map (·.2.2) = some t ∧ (d.getHeader t).isSome) := by
      unfold tipStep
      cases d.getHeader t with
      | none => exact .inl rfl
      | some hd =>
        cases best with
        | none => exact .inr ⟨rfl, rfl⟩
        | some b =>
          simp only
          split
          · exact .inr ⟨rfl, rfl⟩
          · exact .inl rfl
    rw [List.foldl_cons]
    rcases tipStep_foldl ts (d.tipStep best t) with h | ⟨t', ht', h⟩
    · rcases ht with ht | ⟨ht, hd⟩
      · exact .inl (h.trans ht)
      · exact .inr ⟨t, List.mem_cons_self, h.trans ht, hd⟩
    · exact .inr ⟨t', List.mem_cons_of_mem _ ht', h⟩

/-- The selected tip is a tip that has a header. -/
theorem getSelectedTip_mem {t : Hash} (h : d.getSelectedTip = some t) :
    t ∈ d.tips ∧ (d.getHeader t).isSome := by
  rcases tipStep_foldl (d := d) d.tips none with h' | ⟨t', ht', h', hd⟩
  · rw [getSelectedTip, h'] at h; cases h
  · rw [getSelectedTip, h'] at h
    cases h
    exact ⟨ht', hd⟩

theorem tipStep_foldl_isSome : ∀ (ts : List Hash) (best : Option (Nat × Nat × Hash)),
    (best.isSome ∨ ∃ t ∈ ts, (d.getHeader t).isSome) → (ts.foldl d.tipStep best).isSome
  | [], _, h => by simpa using h
  | t :: ts, best, h => by
    refine tipStep_foldl_isSome ts _ ?_
    unfold tipStep
    rcases h with h | ⟨t', ht', h⟩
    · obtain ⟨b, rfl⟩ := Option.isSome_iff_exists.1 h
      left
      split
      · rfl
      · simp only
        split <;> rfl
    · rcases List.mem_cons.1 ht' with rfl | ht'
      · obtain ⟨hd, hhd⟩ := Option.isSome_iff_exists.1 h
        left
        rw [hhd]
        cases best with
        | none => rfl
        | some b => simp only; split <;> rfl
      · exact .inr ⟨t', ht', h⟩

/-- There is a selected tip as soon as one tip has a header. -/
theorem getSelectedTip_isSome {t : Hash} (ht : t ∈ d.tips) (h : (d.getHeader t).isSome) :
    ∃ t', d.getSelectedTip = some t' := by
  have := tipStep_foldl_isSome (d := d) d.tips none (.inr ⟨t, ht, h⟩)
  obtain ⟨c, hc⟩ := Option.isSome_iff_exists.1 this
  exact ⟨c.2.2, by rw [getSelectedTip, hc]; rfl⟩

theorem better_iff {c b : Nat × Nat × Hash} : better c b = true ↔
    c.1 > b.1 ∨ (c.1 = b.1 ∧ c.2.1 > b.2.1) ∨
      (c.1 = b.1 ∧ c.2.1 = b.2.1 ∧ c.2.2.val < b.2.2.val) := by
  unfold better
  exact decide_eq_true_iff

/-- Score, work and hash of a stored header. -/
def key (d : Dag) (h : Hash) : Nat × Nat × Hash :=
  (((d.getHeader h).map (·.blueScore)).getD 0, ((d.getHeader h).map (·.blueWork)).getD 0, h)

theorem tipStep_foldl_max : ∀ (ts : List Hash) (best : Option (Nat × Nat × Hash))
    (c : Nat × Nat × Hash), ts.foldl d.tipStep best = some c →
      (∀ b ∈ best, better b c = false) ∧
        ∀ t ∈ ts, (d.getHeader t).isSome → better (d.key t) c = false
  | [], best, c, h => by
    refine ⟨fun b hb => ?_, by simp⟩
    obtain rfl : b = c := Option.some.inj (hb.symm.trans h)
    exact Bool.eq_false_iff.2 fun hbt => by rw [better_iff] at hbt; omega
  | t :: ts, best, c, h => by
    rw [List.foldl_cons] at h
    obtain ⟨h1, h2⟩ := tipStep_foldl_max ts _ c h
    -- what is kept of `best` and `t` is at least as good as both
    have hstep : (∀ b ∈ best, better b c = false) ∧
        ((d.getHeader t).isSome → better (d.key t) c = false) := by
      unfold tipStep at h1
      unfold key
      cases hd : d.getHeader t with
      | none => rw [hd] at h1; exact ⟨h1, by simp⟩
      | some hd' =>
        rw [hd] at h1
        cases best with
        | none => exact ⟨by simp, fun _ => h1 _ rfl⟩
        | some b =>
          simp only [Option.mem_def, Option.some.injEq, forall_eq', Option.isSome_some,
            forall_const, Option.map_some, Option.getD_some] at h1 ⊢
          split at h1
          all_goals
            rename_i hb
            have h1' := h1 _ rfl
            simp only [Bool.eq_false_iff, ne_eq, better_iff] at h1' hb ⊢
            omega
    refine ⟨hstep.1, fun t' ht' => ?_⟩
    rcases List.mem_cons.1 ht' with rfl | ht'
    · exact hstep.2
    · exact h2 t' ht'

theorem tipStep_foldl_key : ∀ (ts : List Hash) (best : Option (Nat × Nat × Hash)),
    (∀ b ∈ best, b = d.key b.2.2) → ∀ c ∈ ts.foldl d.tipStep best, c = d.key c.2.2
  | [], _, h, c, hc => h c hc
  | t :: ts, best, h, c, hc => by
    refine tipStep_foldl_key ts _ (fun b hb => ?_) c hc
    unfold tipStep at hb
    cases hd : d.getHeader t with
    | none => rw [hd] at hb; exact h b hb
    | some hd' =>
      rw [hd] at hb
      have hk : d.key t = (hd'.blueScore, hd'.blueWork, t) := by simp [key, hd]
      cases best with
      | none => cases hb; exact hk.symm
      | some b' =>
        simp only at hb
        split at hb <;> cases hb
        · exact hk.symm
        · exact h _ rfl

/-- **No tip is better than the selected one.** -/
theorem getSelectedTip_max {t : Hash} (h : d.getSelectedTip = some t) :
    ∀ t' ∈ d.tips, (d.getHeader t').isSome → better (d.key t') (d.key t) = false := by
  unfold getSelectedTip at h
  obtain ⟨c, hc, rfl⟩ := Option.map_eq_some_iff.1 h
  have hk := tipStep_foldl_key d.tips none (by simp) c hc
  rw [← hk]
  exact (tipStep_foldl_max d.tips none c hc).2

/-! ## Other fields -/

theorem getUndo_putUndo {u : BlockUndoData} :
    (d.putUndo p u).getUndo h = if h = p then some u else d.getUndo h :=
  Finmap.lookup_insert_ite _ _ _ _

end Dag

end Zentra

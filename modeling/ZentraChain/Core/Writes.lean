import ZentraChain.Core.Dag

/-!
# Database writes (`database.rs`, `dag.rs`)

An insertion is a sequence of writes, none of them in one batch with another.

* `insertWrites`, `insertWrites_db`: the writes of `put_ghostdag_raw` and `insert_block` in their order,
  and that the graph has them all in its database.
* `Cached`: the children cache only repeats what the database has.
-/

namespace Zentra

/-- One `put` of the database. -/
inductive Write
  | ghostdag (h : Hash) (g : GhostdagData)
  | block (h : Hash) (b : Block)
  | header (h : Hash) (hd : Header)
  | children (p : Hash) (cs : List Hash)
  | dagTips (tips : List Hash)
  | undo (h : Hash) (u : BlockUndoData)

namespace Db

def write (db : Db) : Write → Db
  | .ghostdag h g => db.putGhostdag h g
  | .block h b => { db with blocks := db.blocks.insert h b }
  | .header h hd => { db with headers := db.headers.insert h hd }
  | .children p cs => db.putChildren p cs
  | .dagTips tips => { db with dagTips := some tips }
  | .undo h u => db.putUndo h u

def writes (db : Db) (ws : List Write) : Db := ws.foldl write db

theorem writes_append (db : Db) (ws ws' : List Write) :
    db.writes (ws ++ ws') = (db.writes ws).writes ws' := List.foldl_append

end Db

/-- Undo records, written one after the other. -/
def undoWrites (us : List (Hash × BlockUndoData)) : List Write := us.map fun r => .undo r.1 r.2

namespace Dag

/-- What `add_child_relation` writes, one parent after the other: nothing for a known child. -/
def childWrites (h : Hash) : Dag → List Hash → List Write
  | _, [] => []
  | d, p :: ps =>
    let cs := d.getChildren p
    let rest := childWrites h (d.addChildRelation p h) ps
    if h ∈ cs then rest else .children p (cs ++ [h]) :: rest

/-- What `connect_block` writes to put a block into the graph: its GhostDAG data, its body and its
header, what `insert_block` adds for a block without parents, the children of its parents, and the
tips. -/
def insertWrites (E : Env) (d : Dag) (b : Block) (gd : GhostdagData) : List Write :=
  let h := b.hash E
  let d₁ := d.putGhostdag h gd
  let d₂ := { d₁ with db := d₁.db.putBlock h b }
  let d₃ := if b.header.parents.isEmpty then d₂.putGhostdag h .genesis else d₂
  .ghostdag h gd :: .block h b :: ((.header h b.header ::
    (if b.header.parents.isEmpty then [.ghostdag h .genesis] else []) ++
      childWrites h d₃ b.header.parents) ++
        [.dagTips (d.tips.filter (fun t => t ∉ b.header.parents) ++ [h])])

theorem addChildRelation_db (d : Dag) (p h : Hash) : (d.addChildRelation p h).db =
    if h ∈ d.getChildren p then d.db else d.db.putChildren p (d.getChildren p ++ [h]) := by
  unfold addChildRelation
  simp only
  split
  · rfl
  · rfl

theorem childWrites_db (h : Hash) : ∀ (ps : List Hash) (d : Dag),
    (ps.foldl (fun d p => d.addChildRelation p h) d).db = d.db.writes (childWrites h d ps)
  | [], _ => rfl
  | p :: ps, d => by
    rw [List.foldl_cons, childWrites_db h ps, addChildRelation_db]
    simp only [childWrites]
    split
    · rfl
    · rfl

/-- **An insertion is its writes.** -/
theorem insertWrites_db (E : Env) (d : Dag) (b : Block) (gd : GhostdagData) :
    d.db.writes (d.insertWrites E b gd) = ((d.putGhostdag (b.hash E) gd).insertBlock E b).db := by
  -- relating the block to its parents leaves the tips
  have htips : ∀ d' : Dag, (b.header.parents.foldl (fun d p => d.addChildRelation p (b.hash E)) d').tips =
      d'.tips := fun d' => (foldl_addChildRelation (b.hash E) b.header.parents d').2.2.2.2
  unfold insertWrites insertBlock
  simp only [htips]
  cases hp : b.header.parents.isEmpty
  · simp only [Bool.false_eq_true, if_false, childWrites_db]
    rw [← List.cons_append, ← List.cons_append, Db.writes_append]
    rfl
  · simp only [if_true, childWrites_db]
    rw [← List.cons_append, ← List.cons_append, Db.writes_append]
    rfl

end Dag

/-! ## Incomplete insertions -/

/-- A write that leaves the bodies, the tips and the other headers. -/
def Write.Quiet (h : Hash) : Write → Prop
  | ghostdag _ _ => True
  | header x _ => x = h
  | children _ _ => True
  | _ => False

namespace Db

variable {h : Hash} {ws : List Write}

theorem writes_quiet (hq : ∀ w ∈ ws, w.Quiet h) : ∀ db : Db, (db.writes ws).blocks = db.blocks ∧
    (db.writes ws).dagTips = db.dagTips ∧
      ∀ x, x ≠ h → (db.writes ws).headers.lookup x = db.headers.lookup x := by
  induction ws with
  | nil => exact fun db => ⟨rfl, rfl, fun _ _ => rfl⟩
  | cons w ws ih =>
    intro db
    have hw := hq w List.mem_cons_self
    obtain ⟨h1, h2, h3⟩ := ih (fun w' hw' => hq w' (List.mem_cons_of_mem _ hw')) (db.write w)
    have hstep : (db.write w).blocks = db.blocks ∧ (db.write w).dagTips = db.dagTips ∧
        ∀ x, x ≠ h → (db.write w).headers.lookup x = db.headers.lookup x := by
      cases w with
      | ghostdag _ _ => exact ⟨rfl, rfl, fun _ _ => rfl⟩
      | children _ _ => exact ⟨rfl, rfl, fun _ _ => rfl⟩
      | header y hd =>
        refine ⟨rfl, rfl, fun x hx => Finmap.lookup_insert_of_ne _ ?_⟩
        rw [show y = h from hw]
        exact hx
      | block _ _ => cases hw
      | dagTips _ => cases hw
      | undo _ _ => cases hw
    exact ⟨h1.trans hstep.1, h2.trans hstep.2.1, fun x hx => (h3 x hx).trans (hstep.2.2 x hx)⟩

end Db

namespace Dag

variable {d : Dag}

theorem childWrites_quiet (h : Hash) : ∀ (ps : List Hash) (d : Dag),
    ∀ w ∈ childWrites h d ps, w.Quiet h
  | [], _ => by simp [childWrites]
  | p :: ps, d => by
    intro w hw
    have ih := childWrites_quiet h ps (d.addChildRelation p h)
    simp only [childWrites] at hw
    split at hw
    · exact ih w hw
    · rcases List.mem_cons.1 hw with rfl | hw
      · exact trivial
      · exact ih w hw

/-- The body comes second, the tips come last, and neither is written in between. -/
theorem insertWrites_eq (E : Env) (d : Dag) (b : Block) (gd : GhostdagData) : ∃ mid,
    d.insertWrites E b gd = .ghostdag (b.hash E) gd :: .block (b.hash E) b :: (mid ++
      [.dagTips (d.tips.filter (fun t => t ∉ b.header.parents) ++ [b.hash E])]) ∧
    ∀ w ∈ mid, w.Quiet (b.hash E) := by
  refine ⟨_, rfl, fun w hw => ?_⟩
  simp only [List.cons_append, List.mem_cons, List.mem_append] at hw
  rcases hw with rfl | hw | hw
  · exact rfl
  · split at hw
    · obtain rfl := List.mem_singleton.1 hw
      exact trivial
    · cases hw
  · exact childWrites_quiet _ _ _ w hw

/-! ## The children cache -/

/-- What is cached is in the database. -/
def Cached (d : Dag) : Prop :=
  ∀ p cs, d.childrenCache.lookup p = some cs → d.db.children.lookup p = some cs

theorem Cached.getChildren (hc : d.Cached) (p : Hash) :
    d.getChildren p = (d.db.children.lookup p).getD [] := by
  unfold Dag.getChildren
  cases hp : d.childrenCache.lookup p with
  | none => rfl
  | some cs => rw [hc p cs hp]; rfl

theorem Cached.addChildRelation (hc : d.Cached) (p h : Hash) : (d.addChildRelation p h).Cached := by
  intro q cs hq
  unfold Dag.addChildRelation at hq ⊢
  simp only at hq ⊢
  split at hq
  · rename_i hm
    rw [if_pos hm]
    simp only at hq ⊢
    rw [Finmap.lookup_insert_ite] at hq
    split at hq
    · rename_i hqp
      cases hq
      rw [hc.getChildren] at hm ⊢
      rw [hqp]
      cases hl : d.db.children.lookup p with
      | none => rw [hl] at hm; simp at hm
      | some cs => rfl
    · exact hc q cs hq
  · rename_i hm
    rw [if_neg hm]
    simp only [Db.putChildren] at hq ⊢
    rw [Finmap.lookup_insert_ite] at hq ⊢
    split at hq
    · rename_i hqp
      rw [if_pos hqp]
      exact hq
    · rename_i hqp
      rw [if_neg hqp]
      exact hc q cs hq

theorem Cached.insertBlock (hc : d.Cached) (E : Env) (b : Block) : (d.insertBlock E b).Cached := by
  have hfold : ∀ (ps : List Hash) (d : Dag), d.Cached →
      (ps.foldl (fun d p => d.addChildRelation p (b.hash E)) d).Cached := by
    intro ps
    induction ps with
    | nil => exact fun _ h => h
    | cons p ps ih => exact fun d h => ih _ (h.addChildRelation p (b.hash E))
  unfold Dag.insertBlock
  simp only
  split
  · exact hfold _ _ hc
  · exact hfold _ _ hc

end Dag

end Zentra

import ZentraChain.Core.Writes
import ZentraChain.Node.Converge

/-!
# The tips and the children index (`dag.rs`)

`insert_block` keeps two indexes of the graph as it goes: the list of tips, and for each block the
list of its children, in a cache before the database.

* `Indexed`: the cache repeats the database (`Cached`), and a block's children are the stored blocks
  that name it as a parent, each once.
* `dag_index`: both indexes are right in every state of a running node.
-/

namespace Zentra

namespace Dag

variable {E : Env} {d : Dag} {b : Block} {h p c x : Hash} {ps : List Hash}

/-- The children that the database has for a block. -/
def storedChildren (d : Dag) (h : Hash) : List Hash := (d.db.children.lookup h).getD []

/-- The children index of a graph. -/
structure Indexed (d : Dag) : Prop where
  cached : d.Cached
  nodup : ∀ h, (d.storedChildren h).Nodup
  mem : ∀ h c, c ∈ d.storedChildren h ↔ ∃ b, d.getBlock c = some b ∧ h ∈ b.header.parents

/-! ## One relation -/

/-- `add_child_relation` on the list of the parent. -/
def withChild (cs : List Hash) (c : Hash) : List Hash := if c ∈ cs then cs else cs ++ [c]

theorem mem_withChild {cs : List Hash} : x ∈ withChild cs c ↔ x ∈ cs ∨ x = c := by
  unfold withChild
  split
  · rename_i hm
    exact ⟨.inl, fun hx => hx.elim id fun he => he ▸ hm⟩
  · rw [List.mem_append, List.mem_singleton]

theorem nodup_withChild {cs : List Hash} (hnd : cs.Nodup) : (withChild cs c).Nodup := by
  unfold withChild
  split
  · exact hnd
  · rename_i hm
    refine List.nodup_append.2 ⟨hnd, List.nodup_singleton c, fun x hx y hy hxy => hm ?_⟩
    rw [← List.mem_singleton.1 hy, ← hxy]
    exact hx

theorem storedChildren_addChildRelation (hc : d.Cached) :
    (d.addChildRelation p c).storedChildren h =
      if h = p then withChild (d.storedChildren p) c else d.storedChildren h := by
  have hget : d.getChildren p = d.storedChildren p := hc.getChildren p
  unfold addChildRelation withChild
  rw [hget]
  by_cases hm : c ∈ d.storedChildren p
  · simp only [if_pos hm]
    split
    · rename_i he
      rw [he]
      rfl
    · rfl
  · simp only [if_neg hm]
    show ((d.db.children.insert p _).lookup h).getD [] = _
    rw [Finmap.lookup_insert_ite]
    split <;> rfl

/-! ## All relations of a block -/

/-- The graph after the relations to the parents `ps`, repeated ones included. -/
def relate (d : Dag) (ps : List Hash) (c : Hash) : Dag :=
  ps.foldl (fun d p => d.addChildRelation p c) d

theorem relate_cons : d.relate (p :: ps) c = (d.addChildRelation p c).relate ps c := rfl

theorem mem_relate (hc : d.Cached) :
    x ∈ (d.relate ps c).storedChildren h ↔ x ∈ d.storedChildren h ∨ (x = c ∧ h ∈ ps) := by
  induction ps generalizing d with
  | nil => simp [relate]
  | cons p ps ih =>
    rw [relate_cons, ih (hc.addChildRelation p c), storedChildren_addChildRelation hc, List.mem_cons]
    by_cases he : h = p
    · rw [if_pos he, mem_withChild, he]
      tauto
    · rw [if_neg he]
      tauto

theorem nodup_relate (hc : d.Cached) (hnd : ∀ h, (d.storedChildren h).Nodup) :
    ((d.relate ps c).storedChildren h).Nodup := by
  induction ps generalizing d with
  | nil => exact hnd h
  | cons p ps ih =>
    refine ih (hc.addChildRelation p c) fun h => ?_
    rw [storedChildren_addChildRelation hc]
    split
    · exact nodup_withChild (hnd p)
    · exact hnd h

/-! ## Insertion -/

/-- An insertion leaves the lists that the relations of the new block make. -/
theorem storedChildren_extend (h : Hash) : (d.extend E b).storedChildren h =
    (d.relate b.header.parents (b.hash E)).storedChildren h := by
  -- the relations read and write nothing but the lists, in the cache and in the database
  have hfold : ∀ (ps : List Hash) (d d' : Dag), d'.db.children = d.db.children →
      d'.childrenCache = d.childrenCache →
      (d'.relate ps (b.hash E)).db.children = (d.relate ps (b.hash E)).db.children := by
    intro ps
    induction ps with
    | nil => exact fun _ _ h _ => h
    | cons p ps ih =>
      intro d d' h h'
      have hget : d'.getChildren p = d.getChildren p := by
        unfold Dag.getChildren
        rw [h, h']
      refine ih _ _ ?_ ?_ <;> unfold addChildRelation <;> simp only [hget] <;> split <;>
        simp only [Db.putChildren, h, h']
  have hdb : (d.extend E b).db.children = (d.relate b.header.parents (b.hash E)).db.children := by
    unfold extend insertBlock
    split <;> exact hfold b.header.parents d _ rfl rfl
  rw [storedChildren, storedChildren, hdb]

theorem Cached.extend (hc : d.Cached) (b : Block) : (d.extend E b).Cached :=
  Cached.insertBlock (d := d.putGhostdag (b.hash E) (d.ghostdagFor b.header.parents)) hc E b

/-- **An insertion keeps the children index.** -/
theorem Indexed.extend (hi : d.Indexed) (hnew : d.getBlock (b.hash E) = none) :
    (d.extend E b).Indexed := by
  refine ⟨hi.cached.extend b, fun h => ?_, fun h c => ?_⟩
  · rw [storedChildren_extend]
    exact nodup_relate hi.cached hi.nodup
  · rw [storedChildren_extend, mem_relate hi.cached, hi.mem, getBlock_extend]
    by_cases hcb : c = b.hash E
    · -- the new block was no child before
      rw [if_pos hcb, hcb, hnew]
      simp
    · rw [if_neg hcb]
      simp [hcb]

theorem cached_new (db : Db) : (Dag.new db).Cached := by
  intro p cs hp
  rw [show (Dag.new db).childrenCache.lookup p = none from Finmap.lookup_empty p] at hp
  cases hp

theorem cached_first (E : Env) : (first E).Cached := by
  rw [first_eq]
  exact (cached_new .empty).insertBlock E _

theorem indexed_first (E : Env) : (first E).Indexed := by
  have hempty : ∀ h, (first E).storedChildren h = [] := fun h => rfl
  refine ⟨cached_first E, fun h => ?_, fun h c => ?_⟩
  · rw [hempty]
    exact List.nodup_nil
  · rw [hempty, getBlock_first]
    split <;> simp [Block.genesis, Header.genesis]

end Dag

namespace Node

variable {E : Env} {n : Node}

theorem Reachable.indexed (hn : n.Reachable E) : n.dag.Indexed :=
  hn.dag_rec (Dag.indexed_first E) (fun _ _ _ _ hj _ hi => hi.extend hj.new)
    fun _ _ hi => ⟨hi.cached, hi.nodup, hi.mem⟩

/-- **The indexes of the graph are right.** The tips are, each once, the stored blocks that no stored
block names as a parent. The children of a block, in the cache and in the database, are, each once,
the stored blocks that name it as a parent. -/
theorem dag_index (E : Env) (n : Node) (hn : n.Reachable E) :
    n.dag.tips.Nodup ∧
      (∀ t, t ∈ n.dag.tips ↔ (n.dag.getBlock t).isSome ∧
        ∀ h b, n.dag.getBlock h = some b → t ∉ b.header.parents) ∧
      n.dag.Indexed ∧ ∀ h, n.dag.getChildren h = n.dag.storedChildren h := by
  have hi := hn.indexed
  exact ⟨hn.tips.nodup, fun t => hn.tips.mem_iff hn.sound.wf, hi, hi.cached.getChildren⟩

end Node

open Sample in
/-- A block to which the chain cannot be moved is a child, and one that names a parent nine times is
its child once. -/
theorem dag_index_again : (run [overpaid, side, merging, again]).dag.Indexed ∧
    (run [overpaid, side, merging, again]).dag.getChildren genesisHash = [⟨2⟩, ⟨3⟩] ∧
    (run [overpaid, side, merging, again]).dag.getChildren ⟨3⟩ = [⟨4⟩, ⟨5⟩] := by
  obtain ⟨-, -, hi, hget⟩ :=
    Node.dag_index env (run [overpaid, side, merging, again]) (reachable_run _)
  refine ⟨hi, ?_, ?_⟩
  all_goals
    rw [hget]
    decide +kernel

end Zentra

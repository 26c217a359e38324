import Mathlib.Data.Finmap
import Mathlib.Data.Finset.Sort
import Mathlib.Tactic

/-!
# Listings of finite maps

A hash map gives its entries in an order that says nothing. `Lists l m` says that `l` has the entries
of `m`, each once.

* `mergeSort_graph`: sorted by key, a listing is determined by the keys and what belongs to each.
* `Lists.mergeSort`: so two listings of a map are the same when sorted.
-/

namespace Finmap

variable {α β : Type*} [DecidableEq α]

/-- `l` has the entries of `m`, each once. -/
structure Lists (l : List (α × β)) (m : Finmap fun _ : α => β) : Prop where
  nodup : (l.map Prod.fst).Nodup
  mem : ∀ k b, (k, b) ∈ l ↔ m.lookup k = some b

section
variable {r : α → α → Prop} [DecidableRel r] [IsTrans α r] [Std.Antisymm r] [Std.Total r]

omit [DecidableEq α] in
/-- The keys of a list without repeated keys, sorted by key. -/
theorem mergeSort_fst {s : Finset α} {l : List (α × β)} (hnd : (l.map Prod.fst).Nodup)
    (hmem : ∀ k, k ∈ l.map Prod.fst ↔ k ∈ s) :
    (l.mergeSort fun a b => decide (r a.1 b.1)).map Prod.fst = s.sort r := by
  have hperm : ((l.mergeSort fun a b => decide (r a.1 b.1)).map Prod.fst).Perm (s.sort r) := by
    refine ((List.mergeSort_perm l _).map _).trans ?_
    rw [List.perm_ext_iff_of_nodup hnd (s.sort_nodup r)]
    simpa using hmem
  have hsorted : (l.mergeSort fun a b => decide (r a.1 b.1)).Pairwise fun a b => r a.1 b.1 := by
    have hpair := @List.pairwise_mergeSort (α × β) (fun a b => decide (r a.1 b.1))
      (fun a b c hab hbc => by
        simp only [decide_eq_true_eq] at hab hbc ⊢
        exact trans_of r hab hbc)
      (fun a b => by simpa using total_of r a.1 b.1) l
    exact hpair.imp fun h => by simpa using h
  exact List.Perm.eq_of_pairwise' (r := r) (List.pairwise_map.2 hsorted) (s.pairwise_sort r) hperm

omit [DecidableEq α] in
/-- Sorted by key, a list without repeated keys is the graph of a function on them. -/
theorem mergeSort_graph {s : Finset α} {l : List (α × β)} {f : α → β}
    (hnd : (l.map Prod.fst).Nodup) (hmem : ∀ k, k ∈ l.map Prod.fst ↔ k ∈ s)
    (hf : ∀ e ∈ l, e.2 = f e.1) :
    (l.mergeSort fun a b => decide (r a.1 b.1)) = (s.sort r).map fun k => (k, f k) := by
  rw [← mergeSort_fst hnd hmem, List.map_map]
  symm
  refine (List.map_congr_left fun e he => ?_).trans (List.map_id _)
  have he' := hf e (List.mem_mergeSort.1 he)
  exact Prod.ext rfl he'.symm

end

variable {l : List (α × β)} {m : Finmap fun _ : α => β}

theorem Lists.mem_keys (h : Lists l m) (k : α) : k ∈ l.map Prod.fst ↔ k ∈ m.keys := by
  rw [Finmap.mem_keys, Finmap.mem_iff, List.mem_map]
  constructor
  · intro hk
    obtain ⟨⟨k', b⟩, he, rfl⟩ := hk
    exact ⟨b, (h.mem k' b).1 he⟩
  · intro hk
    obtain ⟨b, hb⟩ := hk
    exact ⟨(k, b), (h.mem k b).2 hb, rfl⟩

/-- **A listing, sorted by key**, is the keys in order, each with its value. -/
theorem Lists.mergeSort {r : α → α → Prop} [DecidableRel r] [IsTrans α r] [Std.Antisymm r]
    [Std.Total r] (h : Lists l m) (b : β) :
    (l.mergeSort fun a b => decide (r a.1 b.1)) =
      (m.keys.sort r).map fun k => (k, (m.lookup k).getD b) :=
  mergeSort_graph h.nodup h.mem_keys fun e he => by simp [(h.mem e.1 e.2).1 he]

/-- Every map has one. -/
theorem exists_lists (m : Finmap fun _ : α => β) : ∃ l, Lists l m := by
  induction m using Finmap.induction_on with
  | H a =>
    refine ⟨a.entries.map fun e => (e.1, e.2), ?_, fun k b => ?_⟩
    · have hnd := a.nodupKeys
      rw [List.map_map]
      exact hnd
    · rw [Finmap.lookup_toFinmap, ← Option.mem_def, AList.mem_lookup_iff, List.mem_map]
      constructor
      · intro he
        obtain ⟨⟨k', b'⟩, he, heq⟩ := he
        cases heq
        exact he
      · intro he
        exact ⟨⟨k, b⟩, he, rfl⟩

end Finmap

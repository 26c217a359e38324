import Mathlib.Algebra.BigOperators.Group.Finset.Basic
import Mathlib.Algebra.Order.BigOperators.Group.Finset
import Mathlib.Tactic

/-!
# Breadth-first search

`search expand fuel queue seen` goes through a queue of nodes. `expand` says whether a node is
collected, as what, and which nodes are queued after it. Each step takes a node out of the queue, so
`fuel` need not be more than the nodes that can be queued (`search_found`).
-/

namespace Worklist

variable {α β : Type*} [DecidableEq α]

/-- What is collected, in the order of the visits. -/
def search (expand : α → Option (β × List α)) : ℕ → List α → Finset α → List β
  | 0, _, _ => []
  | _ + 1, [], _ => []
  | fuel + 1, x :: queue, seen =>
    if x ∈ seen then search expand fuel queue seen
    else
      match expand x with
      | none => search expand fuel queue (insert x seen)
      | some (y, xs) =>
        y :: search expand fuel (queue ++ xs.filter fun z => z ∉ insert x seen) (insert x seen)

variable {expand : α → Option (β × List α)} {x y : α} {queue : List α} {seen : Finset α}

/-- What follows a seen node is seen or queued. -/
def Closed (expand : α → Option (β × List α)) (queue : List α) (seen : Finset α) : Prop :=
  ∀ x ∈ seen, ∀ y xs, expand x = some (y, xs) → ∀ z ∈ xs, z ∈ seen ∨ z ∈ queue

/-- The result `out` of a search: it collected the nodes `nodes`, each once, and visited `all`. -/
structure Found (expand : α → Option (β × List α)) (queue : List α) (seen : Finset α)
    (nodes : List α) (all : Finset α) (out : List β) : Prop where
  nodup : nodes.Nodup
  fresh : ∀ x ∈ nodes, x ∉ seen
  out : out = nodes.filterMap fun x => (expand x).map (·.1)
  sub : seen ⊆ all
  start : ∀ x ∈ queue, x ∈ all
  closed : Closed expand [] all
  found : ∀ x ∈ all, x ∉ seen → (expand x).isSome → x ∈ nodes

/-- Steps enough: the queue and what the nodes not seen can add to it. -/
def cost (size : α → ℕ) (K : Finset α) (queue : List α) (seen : Finset α) : ℕ :=
  queue.length + ∑ x ∈ K \ seen, size x

section
variable {size : α → ℕ} {K : Finset α}

theorem cost_seen_le (size : α → ℕ) (K seen : Finset α) (x : α) (queue : List α) :
    cost size K queue (insert x seen) < cost size K (x :: queue) seen := by
  have hle : ∑ y ∈ K \ insert x seen, size y ≤ ∑ y ∈ K \ seen, size y :=
    Finset.sum_le_sum_of_subset (Finset.sdiff_subset_sdiff (Finset.Subset.refl K)
      (Finset.subset_insert x seen))
  unfold cost
  rw [List.length_cons]
  omega

theorem cost_expand_le {xs : List α} (queue : List α) (hK : x ∈ K) (hx : x ∉ seen) (hl : xs.length ≤ size x) :
    cost size K (queue ++ xs.filter fun z => z ∉ insert x seen) (insert x seen) <
      cost size K (x :: queue) seen := by
  have hsum : ∑ y ∈ K \ seen, size y = size x + ∑ y ∈ K \ insert x seen, size y := by
    rw [Finset.sdiff_insert]
    exact (Finset.add_sum_erase _ _ (Finset.mem_sdiff.2 ⟨hK, hx⟩)).symm
  have hf := List.length_filter_le (fun z => decide (z ∉ insert x seen)) xs
  unfold cost
  rw [List.length_cons, List.length_append]
  omega

end

omit [DecidableEq α] in
theorem Found.done (h : Closed expand [] seen) : Found expand [] seen [] seen [] where
  nodup := List.nodup_nil
  fresh := by simp
  out := rfl
  sub := Finset.Subset.refl seen
  start := by simp
  closed := h
  found := fun _ hx hn => absurd hx hn

/-! ## One step

The node at the head of the queue has been seen, leads nowhere, or is collected. -/

omit [DecidableEq α] in
theorem Closed.skip (hc : Closed expand (x :: queue) seen) (hx : x ∈ seen) :
    Closed expand queue seen := by
  intro y hy v xs he z hz
  rcases hc y hy v xs he z hz with hm | hm
  · exact .inl hm
  · rcases List.mem_cons.1 hm with rfl | hm
    · exact .inl hx
    · exact .inr hm

theorem Closed.leaf (hc : Closed expand (x :: queue) seen) (he : expand x = none) :
    Closed expand queue (insert x seen) := by
  intro y hy v xs hy' z hz
  rcases Finset.mem_insert.1 hy with rfl | hy
  · rw [he] at hy'
    cases hy'
  · rcases hc y hy v xs hy' z hz with hm | hm
    · exact .inl (Finset.mem_insert_of_mem hm)
    · rcases List.mem_cons.1 hm with rfl | hm
      · exact .inl (Finset.mem_insert_self _ _)
      · exact .inr hm

theorem Closed.node {v : β} {xs : List α} (hc : Closed expand (x :: queue) seen)
    (he : expand x = some (v, xs)) :
    Closed expand (queue ++ xs.filter fun z => z ∉ insert x seen) (insert x seen) := by
  intro y hy w ys hy' z hz
  by_cases hzs : z ∈ insert x seen
  · exact .inl hzs
  right
  rcases Finset.mem_insert.1 hy with rfl | hy
  · rw [he] at hy'
    cases hy'
    exact List.mem_append_right _ (List.mem_filter.2 ⟨hz, decide_eq_true hzs⟩)
  · rcases hc y hy w ys hy' z hz with hm | hm
    · exact absurd (Finset.mem_insert_of_mem hm) hzs
    · rcases List.mem_cons.1 hm with rfl | hm
      · exact absurd (Finset.mem_insert_self _ _) hzs
      · exact List.mem_append_left _ hm

section
variable {nodes : List α} {all : Finset α} {out : List β}

omit [DecidableEq α] in
theorem Found.skip (h : Found expand queue seen nodes all out) (hx : x ∈ seen) :
    Found expand (x :: queue) seen nodes all out :=
  { h with start := List.forall_mem_cons.2 ⟨h.sub hx, h.start⟩ }

theorem Found.leaf (h : Found expand queue (insert x seen) nodes all out) (he : expand x = none) :
    Found expand (x :: queue) seen nodes all out where
  nodup := h.nodup
  fresh := fun y hy hm => h.fresh y hy (Finset.mem_insert_of_mem hm)
  out := h.out
  sub := (Finset.subset_insert x seen).trans h.sub
  start := List.forall_mem_cons.2 ⟨h.sub (Finset.mem_insert_self _ _), h.start⟩
  closed := h.closed
  found := by
    intro y hy hn hs
    refine h.found y hy (fun hm => ?_) hs
    rcases Finset.mem_insert.1 hm with rfl | hm
    · rw [he] at hs
      cases hs
    · exact hn hm

theorem Found.node {v : β} {xs : List α}
    (h : Found expand (queue ++ xs.filter fun z => z ∉ insert x seen) (insert x seen) nodes all out)
    (hx : x ∉ seen) (he : expand x = some (v, xs)) :
    Found expand (x :: queue) seen (x :: nodes) all (v :: out) where
  nodup := List.nodup_cons.2 ⟨fun hm => h.fresh x hm (Finset.mem_insert_self _ _), h.nodup⟩
  fresh := List.forall_mem_cons.2 ⟨hx, fun y hy hm => h.fresh y hy (Finset.mem_insert_of_mem hm)⟩
  out := by rw [List.filterMap_cons, he, Option.map_some, ← h.out]
  sub := (Finset.subset_insert x seen).trans h.sub
  start := List.forall_mem_cons.2 ⟨h.sub (Finset.mem_insert_self _ _), fun y hy =>
    h.start y (List.mem_append_left _ hy)⟩
  closed := h.closed
  found := by
    intro y hy hn hs
    by_cases hyx : y = x
    · exact hyx ▸ List.mem_cons_self
    · refine List.mem_cons_of_mem _ (h.found y hy (fun hm => ?_) hs)
      exact (Finset.mem_insert.1 hm).elim hyx hn

end

/-- **A search with steps enough** collects every node that it visits, once, and what it visits is
closed. -/
theorem search_found (size : α → ℕ) (K : Finset α)
    (hK : ∀ x y xs, expand x = some (y, xs) → x ∈ K ∧ xs.length ≤ size x) :
    ∀ (fuel : ℕ) (queue : List α) (seen : Finset α), Closed expand queue seen →
      cost size K queue seen ≤ fuel →
      ∃ nodes all, Found expand queue seen nodes all (search expand fuel queue seen)
  | 0, [], seen, hc, _ => ⟨[], seen, .done hc⟩
  | 0, x :: queue, seen, _, hf => by
    unfold cost at hf
    rw [List.length_cons] at hf
    omega
  | fuel + 1, [], seen, hc, _ => ⟨[], seen, .done hc⟩
  | fuel + 1, x :: queue, seen, hc, hf => by
    rw [search]
    split
    · rename_i hx
      have hcost : cost size K queue seen ≤ fuel := by
        unfold cost at hf ⊢
        rw [List.length_cons] at hf
        omega
      obtain ⟨nodes, all, h⟩ := search_found size K hK fuel queue seen (hc.skip hx) hcost
      exact ⟨nodes, all, h.skip hx⟩
    · rename_i hx
      cases he : expand x with
      | none =>
        have hcost := cost_seen_le size K seen x queue
        obtain ⟨nodes, all, h⟩ :=
          search_found size K hK fuel queue (insert x seen) (hc.leaf he) (by omega)
        exact ⟨nodes, all, h.leaf he⟩
      | some yxs =>
        obtain ⟨v, xs⟩ := yxs
        obtain ⟨hxK, hlen⟩ := hK x v xs he
        have hcost := cost_expand_le queue hxK hx hlen
        obtain ⟨nodes, all, h⟩ :=
          search_found size K hK fuel _ (insert x seen) (hc.node he) (by omega)
        exact ⟨x :: nodes, all, h.node hx he⟩

omit [DecidableEq α] in
/-- What is collected at which node. -/
theorem Found.mem_out {nodes : List α} {all : Finset α} {out : List β} {v : β}
    (h : Found expand queue seen nodes all out) :
    v ∈ out ↔ ∃ x ∈ nodes, ∃ xs, expand x = some (v, xs) := by
  rw [h.out, List.mem_filterMap]
  refine exists_congr fun x => and_congr_right fun _ => ?_
  rw [Option.map_eq_some_iff]
  exact ⟨fun ⟨p, hp, he⟩ => ⟨p.2, by rw [hp, ← he]⟩, fun ⟨xs, hx⟩ => ⟨(v, xs), hx, rfl⟩⟩

end Worklist

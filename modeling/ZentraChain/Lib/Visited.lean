import ZentraChain.Lib.Ancestry

/-!
# Searches with a visited set

A search goes from a node to its parents, to theirs and so on. It marks each node that it meets as
seen, and has the seen nodes that it has yet to expand in a list of pending ones; the order in which it
takes them out does not matter.

* `Searching.turn`: the invariant, over one turn.
* `Searching.mem_iff`: with nothing pending, the seen nodes are the start and its ancestors.
* `Searching.left_lt`: each turn leaves fewer turns, so a search in a finite graph ends.
-/

namespace Visited

open Ancestry

variable {α : Type*}

/-- A search from `start` that has seen `seen` and has yet to expand `pending`. -/
structure Searching (parents : α → List α) (start : α) (pending : List α) (seen : Finset α) :
    Prop where
  start_seen : start ∈ seen
  reached : ∀ x ∈ seen, x = start ∨ x ∈ past parents start
  pending_seen : ∀ x ∈ pending, x ∈ seen
  closed : ∀ x ∈ seen, x ∈ pending ∨ ∀ y ∈ parents x, y ∈ seen

/-- Of the nodes `xs`, those not seen before are now seen and pending, each once. -/
structure Adds (xs pending : List α) (seen : Finset α) (pending' : List α) (seen' : Finset α) :
    Prop where
  mem_seen : ∀ y, y ∈ seen' ↔ y ∈ seen ∨ y ∈ xs
  mem_pending : ∀ y, y ∈ pending' ↔ y ∈ pending ∨ y ∈ xs ∧ y ∉ seen
  length : pending'.length + seen.card = pending.length + seen'.card

variable {parents : α → List α} {start x : α} {xs pending pending' rest : List α}
  {seen seen' K : Finset α}

/-! ## Adding the parents -/

theorem Adds.nil : Adds [] pending seen pending seen :=
  ⟨by simp, by simp, rfl⟩

theorem Adds.old (h : Adds xs pending seen pending' seen') (hx : x ∈ seen) :
    Adds (x :: xs) pending seen pending' seen' where
  mem_seen y := by
    rw [h.mem_seen, List.mem_cons]
    refine or_congr_right' fun hy => ?_
    have hne : y ≠ x := fun he => hy (he ▸ hx)
    simp [hne]
  mem_pending y := by
    rw [h.mem_pending, List.mem_cons]
    refine or_congr_right (and_congr_left fun hy => ?_)
    have hne : y ≠ x := fun he => hy (he ▸ hx)
    simp [hne]
  length := h.length

theorem Adds.fresh [DecidableEq α] (h : Adds xs (x :: pending) (insert x seen) pending' seen')
    (hx : x ∉ seen) : Adds (x :: xs) pending seen pending' seen' where
  mem_seen y := by
    rw [h.mem_seen, Finset.mem_insert, List.mem_cons, or_assoc, or_left_comm]
  mem_pending y := by
    rw [h.mem_pending, List.mem_cons, List.mem_cons, Finset.mem_insert]
    by_cases hy : y = x
    · simp [hy, hx]
    · simp [hy]
  length := by
    have hlen := h.length
    rw [Finset.card_insert_of_notMem hx, List.length_cons] at hlen
    omega

/-! ## One turn -/

theorem Searching.init (parents : α → List α) (start : α) :
    Searching parents start [start] {start} where
  start_seen := Finset.mem_singleton_self start
  reached _ hx := .inl (Finset.mem_singleton.1 hx)
  pending_seen _ hx := Finset.mem_singleton.2 (List.mem_singleton.1 hx)
  closed _ hx := .inl (List.mem_singleton.2 (Finset.mem_singleton.1 hx))

/-- What a seen node has for a parent is an ancestor. -/
theorem Searching.parent_mem_past {y : α} (h : Searching parents start pending seen) (hx : x ∈ seen)
    (hy : y ∈ parents x) : y ∈ past parents start := by
  rcases h.reached x hx with rfl | hp
  · exact Ancestry.parent_mem_past hy
  · exact past_trans (Ancestry.parent_mem_past hy) hp

/-- **One turn** takes a pending node out and adds its parents. -/
theorem Searching.turn (h : Searching parents start (x :: rest) seen)
    (ha : Adds (parents x) rest seen pending' seen') : Searching parents start pending' seen' where
  start_seen := (ha.mem_seen start).2 (.inl h.start_seen)
  reached y hy := by
    rcases (ha.mem_seen y).1 hy with hy | hy
    · exact h.reached y hy
    · exact .inr (h.parent_mem_past (h.pending_seen x List.mem_cons_self) hy)
  pending_seen y hy := by
    rcases (ha.mem_pending y).1 hy with hy | ⟨hy, -⟩
    · exact (ha.mem_seen y).2 (.inl (h.pending_seen y (List.mem_cons_of_mem _ hy)))
    · exact (ha.mem_seen y).2 (.inr hy)
  closed y hy := by
    by_cases hys : y ∈ seen
    · rcases h.closed y hys with hm | hc
      · rcases List.mem_cons.1 hm with rfl | hm
        -- the node taken out
        · exact .inr fun z hz => (ha.mem_seen z).2 (.inr hz)
        · exact .inl ((ha.mem_pending y).2 (.inl hm))
      · exact .inr fun z hz => (ha.mem_seen z).2 (.inl (hc z hz))
    · exact .inl ((ha.mem_pending y).2 (.inr ⟨((ha.mem_seen y).1 hy).resolve_left hys, hys⟩))

/-- **The end of a search**: it has seen the start and its ancestors. -/
theorem Searching.mem_iff (h : Searching parents start [] seen) :
    x ∈ seen ↔ x = start ∨ x ∈ past parents start := by
  refine ⟨h.reached x, fun hx => ?_⟩
  rcases hx with rfl | hx
  · exact h.start_seen
  · have hclosed : ∀ y ∈ seen, ∀ z ∈ parents y, z ∈ seen := fun y hy =>
      (h.closed y hy).resolve_left (by simp)
    exact mem_of_past hclosed h.start_seen hx

/-! ## The number of turns -/

/-- The turns left, where `K` has all nodes that can be seen. -/
def left (K : Finset α) (pending : List α) (seen : Finset α) : ℕ :=
  pending.length + (K.card - seen.card)

theorem left_init (hs : start ∈ K) : left K [start] {start} = K.card := by
  have hpos := Finset.card_pos.2 ⟨start, hs⟩
  simp only [left, List.length_singleton, Finset.card_singleton]
  omega

theorem Searching.card_le (h : Searching parents start pending seen) (hs : start ∈ K)
    (hK : ∀ y ∈ past parents start, y ∈ K) : seen.card ≤ K.card := by
  refine Finset.card_le_card fun y hy => ?_
  rcases h.reached y hy with rfl | hp
  · exact hs
  · exact hK y hp

theorem Searching.left_lt (h : Searching parents start (x :: rest) seen)
    (ha : Adds (parents x) rest seen pending' seen') (hs : start ∈ K)
    (hK : ∀ y ∈ past parents start, y ∈ K) : left K pending' seen' < left K (x :: rest) seen := by
  have hlen := ha.length
  have hle := h.card_le hs hK
  have hle' := (h.turn ha).card_le hs hK
  unfold left
  rw [List.length_cons]
  omega

end Visited

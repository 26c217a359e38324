import ZentraChain.Lib.Ancestry
import ZentraChain.Lib.Worklist

/-!
# Depth-first search

A search takes nodes off a stack. A node that it has not seen is visited, which gives a new state or
ends the search, and the nodes that follow it are pushed. `push` may leave out nodes already seen.

* `run_eq`: the search folds its visits over `order`, the nodes in the order of their visits.
* `order_covers`, `Covers.mem_iff`: with steps enough, `order` has the start and all that follows it,
  each once.
* `foldlM_seek`, `foldlM_ok`, `foldlM_collect`: a search for a node, one that goes through all of
  them, and one that stops after a number of visits or of finds.
-/

namespace DepthFirst

open Ancestry

variable {α σ ρ : Type*} [DecidableEq α]

/-- The search, which a visit ends with `.error`. -/
def run (visit : σ → α → Except ρ σ) (push : Finset α → α → List α) :
    ℕ → List α → Finset α → σ → Except ρ σ
  | 0, _, _, s => .ok s
  | _ + 1, [], _, s => .ok s
  | fuel + 1, x :: stack, seen, s =>
    if x ∈ seen then run visit push fuel stack seen s
    else
      match visit s x with
      | .error r => .error r
      | .ok s => run visit push fuel (push (insert x seen) x ++ stack) (insert x seen) s

/-- The nodes in the order of their visits, where none ends the search. -/
def order (push : Finset α → α → List α) : ℕ → List α → Finset α → List α
  | 0, _, _ => []
  | _ + 1, [], _ => []
  | fuel + 1, x :: stack, seen =>
    if x ∈ seen then order push fuel stack seen
    else x :: order push fuel (push (insert x seen) x ++ stack) (insert x seen)

/-- What a search pushes: all that `next` has and that is not seen, and nothing else. -/
structure Pushes (next : α → List α) (push : Finset α → α → List α) : Prop where
  sub : ∀ seen x, ∀ y ∈ push seen x, y ∈ next x
  all : ∀ seen x, ∀ y ∈ next x, y ∈ seen ∨ y ∈ push seen x
  length : ∀ seen x, (push seen x).length ≤ (next x).length

/-- The visits `nodes` of a search from `stack`, when `seen` was seen before. -/
structure Covers (next : α → List α) (stack : List α) (seen : Finset α) (nodes : List α) : Prop where
  nodup : nodes.Nodup
  fresh : ∀ x ∈ nodes, x ∉ seen
  reached : ∀ x ∈ nodes, ∃ y ∈ stack, x = y ∨ x ∈ past next y
  start : ∀ x ∈ stack, x ∈ seen ∨ x ∈ nodes
  closed : ∀ x ∈ nodes, ∀ y ∈ next x, y ∈ seen ∨ y ∈ nodes

/-- The state that a search ends with, where its visits end it with one too. -/
def final : Except σ σ → σ
  | .ok s => s
  | .error s => s

/-- Look for a node at which `f` finds something. -/
def seek (f : α → Option ρ) (_ : Unit) (x : α) : Except ρ Unit :=
  match f x with
  | some r => .error r
  | none => .ok ()

/-- Collect what `f` finds, over at most `visits` nodes and up to `hits` finds. -/
def collect {β : Type*} (f : α → Option β) (visits hits : ℕ) (s : ℕ × List β) (x : α) :
    Except (ℕ × List β) (ℕ × List β) :=
  if visits < s.1 + 1 ∨ hits ≤ s.2.length then .error (s.1 + 1, s.2)
  else .ok (s.1 + 1, s.2 ++ (f x).toList)

variable {push : Finset α → α → List α} {next : α → List α} {x : α} {stack nodes : List α}
  {seen K : Finset α}

/-! ## The visits -/

/-- **A search folds its visits over the nodes in order.** -/
theorem run_eq (visit : σ → α → Except ρ σ) (push : Finset α → α → List α) : ∀ (fuel : ℕ)
    (stack : List α) (seen : Finset α) (s : σ),
      run visit push fuel stack seen s = (order push fuel stack seen).foldlM visit s
  | 0, _, _, _ => rfl
  | _ + 1, [], _, _ => rfl
  | fuel + 1, x :: stack, seen, s => by
    rw [run, order]
    split
    · exact run_eq visit push fuel stack seen s
    · rw [List.foldlM_cons]
      cases visit s x with
      | error r => rfl
      | ok s => exact run_eq visit push fuel _ _ s

omit [DecidableEq α] in
theorem Covers.nil (next : α → List α) (seen : Finset α) : Covers next [] seen [] := by
  constructor <;> simp

omit [DecidableEq α] in
/-- The first node is already seen. -/
theorem Covers.skip (h : Covers next stack seen nodes) (hx : x ∈ seen) :
    Covers next (x :: stack) seen nodes where
  nodup := h.nodup
  fresh := h.fresh
  reached y hy := by
    obtain ⟨z, hz, hyz⟩ := h.reached y hy
    exact ⟨z, List.mem_cons_of_mem x hz, hyz⟩
  start := List.forall_mem_cons.2 ⟨.inl hx, h.start⟩
  closed := h.closed

/-- The first node is new, and what it pushes comes next. -/
theorem Covers.new (hp : Pushes next push)
    (h : Covers next (push (insert x seen) x ++ stack) (insert x seen) nodes) (hx : x ∉ seen) :
    Covers next (x :: stack) seen (x :: nodes) := by
  have hin : ∀ y, y ∈ insert x seen ∨ y ∈ nodes → y ∈ seen ∨ y ∈ x :: nodes := by
    intro y hy
    simp only [Finset.mem_insert, List.mem_cons] at hy ⊢
    tauto
  refine ⟨List.nodup_cons.2 ⟨fun hm => h.fresh x hm (Finset.mem_insert_self x seen), h.nodup⟩,
    List.forall_mem_cons.2 ⟨hx, fun y hy hm => h.fresh y hy (Finset.mem_insert_of_mem hm)⟩,
    List.forall_mem_cons.2 ⟨⟨x, List.mem_cons_self, .inl rfl⟩, fun y hy => ?_⟩,
    List.forall_mem_cons.2 ⟨.inr List.mem_cons_self, fun y hy => ?_⟩,
    List.forall_mem_cons.2 ⟨fun y hy => ?_, fun z hz y hy => hin y (h.closed z hz y hy)⟩⟩
  · obtain ⟨z, hz, hyz⟩ := h.reached y hy
    rcases List.mem_append.1 hz with hz | hz
    -- what follows a node pushed for `x` follows `x`
    · have hzx : z ∈ past next x := parent_mem_past (hp.sub _ x z hz)
      refine ⟨x, List.mem_cons_self, .inr ?_⟩
      rcases hyz with rfl | hyz
      · exact hzx
      · exact past_trans hyz hzx
    · exact ⟨z, List.mem_cons_of_mem x hz, hyz⟩
  · exact hin y (h.start y (List.mem_append_right _ hy))
  · rcases hp.all (insert x seen) x y hy with hm | hm
    · exact hin y (.inl hm)
    · exact hin y (h.start y (List.mem_append_left _ hm))

omit [DecidableEq α] in
/-- The end of a search that had seen nothing: it visited the start and all that follows it. -/
theorem Covers.mem_iff (h : Covers next stack ∅ nodes) :
    x ∈ nodes ↔ ∃ y ∈ stack, x = y ∨ x ∈ past next y := by
  have hstart : ∀ y ∈ stack, y ∈ nodes := fun y hy =>
    (h.start y hy).resolve_left (Finset.notMem_empty y)
  refine ⟨h.reached x, ?_⟩
  rintro ⟨y, hy, rfl | hx⟩
  · exact hstart x hy
  · have hclosed : ∀ z ∈ nodes, ∀ w ∈ next z, w ∈ nodes := fun z hz w hw =>
      (h.closed z hz w hw).resolve_left (Finset.notMem_empty w)
    exact mem_of_past hclosed (hstart y hy) hx

/-! ## The number of steps -/

/-- Steps enough for a search from `stack`, where only nodes of `K` have any that follow. -/
def steps (next : α → List α) (K : Finset α) (stack : List α) : ℕ :=
  stack.length + ∑ x ∈ K, (next x).length

theorem cost_visit_lt (hp : Pushes next push) (hK : ∀ x ∉ K, next x = []) (hx : x ∉ seen) :
    Worklist.cost (fun y => (next y).length) K (push (insert x seen) x ++ stack) (insert x seen) <
      Worklist.cost (fun y => (next y).length) K (x :: stack) seen := by
  have hlen := hp.length (insert x seen) x
  by_cases hxK : x ∈ K
  · have hsum : ∑ y ∈ K \ seen, (next y).length =
        (next x).length + ∑ y ∈ K \ insert x seen, (next y).length := by
      rw [Finset.sdiff_insert]
      exact (Finset.add_sum_erase _ _ (Finset.mem_sdiff.2 ⟨hxK, hx⟩)).symm
    simp only [Worklist.cost, List.length_cons, List.length_append, hsum]
    omega
  · rw [hK x hxK, List.length_nil, Nat.le_zero, List.length_eq_zero_iff] at hlen
    rw [hlen, List.nil_append]
    exact Worklist.cost_seen_le _ K seen x stack

/-- A search with steps enough. -/
theorem covers_order (hp : Pushes next push) (hK : ∀ x ∉ K, next x = []) : ∀ (fuel : ℕ)
    (stack : List α) (seen : Finset α),
      Worklist.cost (fun y => (next y).length) K stack seen ≤ fuel →
      Covers next stack seen (order push fuel stack seen)
  | 0, [], seen, _ => .nil next seen
  | _ + 1, [], seen, _ => .nil next seen
  | 0, x :: stack, seen, hf => by
    unfold Worklist.cost at hf
    rw [List.length_cons] at hf
    omega
  | fuel + 1, x :: stack, seen, hf => by
    rw [order]
    split
    · rename_i hx
      have hcost : Worklist.cost (fun y => (next y).length) K stack seen ≤ fuel := by
        unfold Worklist.cost at hf ⊢
        rw [List.length_cons] at hf
        omega
      exact (covers_order hp hK fuel stack seen hcost).skip hx
    · rename_i hx
      have hcost : Worklist.cost (fun y => (next y).length) K (push (insert x seen) x ++ stack)
          (insert x seen) < Worklist.cost (fun y => (next y).length) K (x :: stack) seen :=
        cost_visit_lt hp hK hx
      have ih := covers_order hp hK fuel (push (insert x seen) x ++ stack) (insert x seen)
        (by omega)
      exact ih.new hp hx

/-- **With steps enough a search visits the start and all that follows it**, each once. -/
theorem order_covers (hp : Pushes next push) (hK : ∀ x ∉ K, next x = []) (stack : List α) :
    Covers next stack ∅ (order push (steps next K stack) stack ∅) := by
  refine covers_order hp hK _ stack ∅ ?_
  unfold Worklist.cost steps
  rw [Finset.sdiff_empty]

/-! ## Kinds of search -/

omit [DecidableEq α] in
theorem foldlM_seek (f : α → Option ρ) : ∀ xs : List α,
    xs.foldlM (seek f) () = match xs.findSome? f with
      | some r => .error r
      | none => .ok ()
  | [] => rfl
  | x :: xs => by
    rw [List.foldlM_cons, List.findSome?_cons, seek]
    cases f x with
    | some r => rfl
    | none => exact foldlM_seek f xs

omit [DecidableEq α] in
theorem foldlM_ok (f : σ → α → σ) : ∀ (xs : List α) (s : σ),
    xs.foldlM (fun s x => (.ok (f s x) : Except ρ σ)) s = .ok (xs.foldl f s)
  | [], _ => rfl
  | x :: xs, s => by
    rw [List.foldlM_cons, List.foldl_cons]
    exact foldlM_ok f xs (f s x)

omit [DecidableEq α] in
theorem foldlM_collect {β : Type*} (f : α → Option β) (visits hits : ℕ) : ∀ (xs : List α) (n : ℕ)
    (out : List β), out.length ≤ hits →
      (final (xs.foldlM (collect f visits hits) (n, out))).2 =
        out ++ ((xs.take (visits - n)).filterMap f).take (hits - out.length)
  | [], _, out, _ => by simp [final, pure, Except.pure]
  | x :: xs, n, out, hout => by
    rw [List.foldlM_cons, collect]
    by_cases hv : visits < n + 1
    · have h0 : visits - n = 0 := by omega
      rw [if_pos (.inl hv), h0, List.take_zero, List.filterMap_nil, List.take_nil, List.append_nil]
      rfl
    by_cases hh : hits ≤ out.length
    · have h0 : hits - out.length = 0 := by omega
      rw [if_pos (.inr hh), h0, List.take_zero, List.append_nil]
      rfl
    rw [if_neg (not_or.2 ⟨hv, hh⟩)]
    have hlen : (out ++ (f x).toList).length ≤ hits := by
      cases f x <;> simp <;> omega
    have ih := foldlM_collect f visits hits xs (n + 1) _ hlen
    have hn : visits - n = visits - (n + 1) + 1 := by omega
    refine Eq.trans ih ?_
    rw [hn, List.take_succ_cons]
    cases hx : f x with
    | none => rw [List.filterMap_cons_none hx, Option.toList_none, List.append_nil]
    | some y =>
      have hm : hits - out.length = hits - (out ++ [y]).length + 1 := by
        rw [List.length_append, List.length_singleton]
        omega
      rw [List.filterMap_cons_some hx, Option.toList_some, hm, List.take_succ_cons,
        List.append_assoc, List.singleton_append]

end DepthFirst

import Mathlib.Tactic

/-!
# Greedy cover

Things with weights are taken, the heaviest first, until they weigh `need` together.

* `sum_le_take`: no things of a descending list weigh more than as many from its front.
* `Covers`: the front that greedy selection takes; `Covers.length_le`: no fewer things weigh as much.
* `Covers.positions`: the same in terms of the positions of a list that is not sorted.
-/

namespace Greedy

variable {α : Type*} {w : α → ℕ} {need : ℕ} {l t front : List α}

/-- What things weigh together. -/
def weight (w : α → ℕ) (l : List α) : ℕ := (l.map w).sum

@[simp] theorem weight_nil : weight w [] = 0 := rfl

@[simp] theorem weight_cons (a : α) : weight w (a :: l) = w a + weight w l := List.sum_cons

@[simp] theorem weight_append : weight w (l ++ t) = weight w l + weight w t := by
  simp [weight]

theorem weight_perm (h : l.Perm t) : weight w l = weight w t := (h.map w).sum_eq

theorem weight_take_le (n : ℕ) : weight w (l.take n) ≤ weight w l := by
  have hsplit := congrArg (weight w) (List.take_append_drop n l)
  rw [weight_append] at hsplit
  omega

theorem weight_take_mono {n m : ℕ} (h : n ≤ m) : weight w (l.take n) ≤ weight w (l.take m) := by
  have hle := weight_take_le (w := w) (l := l.take m) n
  rwa [List.take_take, Nat.min_eq_left h] at hle

/-- A front weighs no less than what comes one place later. -/
theorem weight_take_cons {a : α} (h : ∀ b ∈ l, w b ≤ w a) (n : ℕ) :
    weight w (l.take (n + 1)) ≤ w a + weight w (l.take n) := by
  rw [List.take_add_one, weight_append]
  cases hget : l[n]? with
  | none => simp
  | some b =>
    have hb := h b (List.mem_of_getElem? hget)
    simp only [Option.toList_some, weight_cons, weight_nil]
    omega

/-- **Exchange.** Things of a descending list weigh at most what as many from its front do. -/
theorem sum_le_take (hs : l.Pairwise fun a b => w b ≤ w a) (h : t.Sublist l) :
    weight w t ≤ weight w (l.take t.length) := by
  induction h with
  | slnil => simp
  | @cons t l a _ ih =>
    obtain ⟨ha, hl⟩ := List.pairwise_cons.1 hs
    refine (ih hl).trans ?_
    cases t with
    | nil => simp
    | cons b t =>
      rw [List.length_cons, List.take_succ_cons, weight_cons]
      exact weight_take_cons ha t.length
  | @cons_cons t l a _ ih =>
    rw [weight_cons, List.length_cons, List.take_succ_cons, weight_cons]
    exact Nat.add_le_add_left (ih (List.pairwise_cons.1 hs).2) _

/-- The front of a list that weighs `need`, and without its last thing does not. -/
structure Covers (w : α → ℕ) (need : ℕ) (l front : List α) : Prop where
  initial : front <+: l
  covers : need ≤ weight w front
  needed : weight w front.dropLast < need

/-- One thing more, that is not enough by itself. -/
theorem Covers.cons {a : α} (ha : w a < need) (h : Covers w (need - w a) l front) :
    Covers w need (a :: l) (a :: front) := by
  obtain ⟨hinitial, hcovers, hneeded⟩ := h
  cases front with
  | nil =>
    rw [weight_nil] at hcovers
    omega
  | cons b front =>
    refine ⟨List.cons_prefix_cons.2 ⟨rfl, hinitial⟩, ?_, ?_⟩
    · rw [weight_cons]
      omega
    · rw [List.dropLast_cons_of_ne_nil (List.cons_ne_nil b front), weight_cons]
      omega

/-- **No fewer things cover the need.** -/
theorem Covers.length_le (h : Covers w need l front) (hs : l.Pairwise fun a b => w b ≤ w a)
    (ht : t.Subperm l) (hneed : need ≤ weight w t) : front.length ≤ t.length := by
  obtain ⟨t', hperm, hsub⟩ := ht
  have htake := sum_le_take hs hsub
  rw [weight_perm hperm, hperm.length_eq] at htake
  by_contra hlt
  have hfront := List.prefix_iff_eq_take.1 h.initial
  have hlast : front.dropLast = l.take (front.length - 1) := by
    rw [List.dropLast_eq_take, List.prefix_iff_eq_take.1
      ((List.take_prefix (front.length - 1) front).trans h.initial), List.length_take,
      Nat.min_eq_left (Nat.sub_le _ _)]
  have hmono : weight w (l.take t.length) ≤ weight w (l.take (front.length - 1)) :=
    weight_take_mono (by omega)
  have hneeded := h.needed
  rw [hlast] at hneeded
  omega

/-! ## Positions -/

/-- A stable sort, the heaviest first. -/
def sortDesc (w : α → ℕ) (l : List α) : List α := l.mergeSort fun a b => decide (w b ≤ w a)

theorem sortDesc_perm (w : α → ℕ) (l : List α) : (sortDesc w l).Perm l := List.mergeSort_perm l _

theorem pairwise_sortDesc (w : α → ℕ) (l : List α) :
    (sortDesc w l).Pairwise fun a b => w b ≤ w a := by
  have hpair := @List.pairwise_mergeSort α (fun a b => decide (w b ≤ w a))
    (fun a b c hab hbc => by
      simp only [decide_eq_true_eq] at hab hbc ⊢
      omega)
    (fun a b => by
      simp only [Bool.or_eq_true, decide_eq_true_eq]
      omega) l
  exact hpair.imp fun h => by simpa using h

/-- A stable sort of things is one of their positions. -/
theorem map_sortDesc (w : α → ℕ) (l : List α) :
    (sortDesc (fun i => w (l.get i)) (List.finRange l.length)).map l.get = sortDesc w l := by
  rw [sortDesc, List.map_mergeSort (s := fun a b => decide (w b ≤ w a)) (fun _ _ _ _ => rfl),
    List.map_get_finRange, sortDesc]

/-- **What a greedy cover takes**: things from different positions of the list, and no fewer things of
the list weigh as much as is needed. -/
theorem Covers.positions {l : List α} (h : Covers w need (sortDesc w l) front) :
    ∃ ps : List (Fin l.length), ps.Nodup ∧ ps.map l.get = front ∧
      ∀ qs : Finset (Fin l.length), need ≤ ∑ q ∈ qs, w (l.get q) → ps.length ≤ qs.card := by
  have hlen : ((sortDesc (fun i => w (l.get i)) (List.finRange l.length)).take
      front.length).map l.get = front := by
    rw [List.map_take, map_sortDesc]
    exact (List.prefix_iff_eq_take.1 h.initial).symm
  refine ⟨_, ?_, hlen, fun qs hqs => ?_⟩
  · have hnd := (sortDesc_perm (fun i => w (l.get i)) (List.finRange l.length)).nodup_iff.2
      (List.nodup_finRange _)
    exact hnd.sublist (List.take_sublist _ _)
  · have hsub : (qs.toList.map l.get).Subperm (sortDesc w l) := by
      obtain ⟨t, hperm, hsub⟩ : qs.toList.Subperm (List.finRange l.length) :=
        List.subperm_of_subset qs.nodup_toList fun _ _ => List.mem_finRange _
      have hmap := hsub.map l.get
      rw [List.map_get_finRange] at hmap
      exact List.Subperm.trans ⟨t.map l.get, hperm.map _, hmap⟩ (sortDesc_perm w l).symm.subperm
    have hweight : weight w (qs.toList.map l.get) = ∑ q ∈ qs, w (l.get q) := by
      rw [weight, List.map_map, ← Finset.sum_map_toList]
      rfl
    have hle := h.length_le (pairwise_sortDesc w l) hsub (hweight ▸ hqs)
    rw [← List.length_map l.get, hlen]
    simpa using hle

end Greedy

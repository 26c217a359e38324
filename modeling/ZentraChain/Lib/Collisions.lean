import Mathlib.Algebra.BigOperators.Group.Finset.Basic
import Mathlib.Algebra.Order.BigOperators.Group.Finset
import Mathlib.Tactic

/-!
# Sums over keys that may coincide

Entries `l` have keys, and keys have weights. Over some of the keys, each counted once, the weights add
up to at most the total over the entries: `sum_eq_iff` is when nothing is lost.
-/

namespace Collisions

variable {ι κ : Type*} [DecidableEq κ]

theorem sum_toFinset_le (w : κ → ℕ) (ks : List κ) : ∑ p ∈ ks.toFinset, w p ≤ (ks.map w).sum := by
  induction ks with
  | nil => simp
  | cons k ks ih =>
    rw [List.toFinset_cons, List.map_cons, List.sum_cons]
    by_cases hk : k ∈ ks.toFinset
    · rw [Finset.insert_eq_of_mem hk]
      exact ih.trans (Nat.le_add_left _ _)
    · rw [Finset.sum_insert hk]
      exact Nat.add_le_add_left ih _

/-- A repeated key of some weight is lost. -/
theorem sum_toFinset_eq_iff {w : κ → ℕ} : ∀ {ks : List κ}, (∀ p ∈ ks, 0 < w p) →
    (∑ p ∈ ks.toFinset, w p = (ks.map w).sum ↔ ks.Nodup)
  | [], _ => by simp
  | k :: ks, hpos => by
    have hk := hpos k List.mem_cons_self
    have ih := sum_toFinset_eq_iff fun p hp => hpos p (List.mem_cons_of_mem _ hp)
    have hle := sum_toFinset_le w ks
    rw [List.toFinset_cons, List.map_cons, List.sum_cons, List.nodup_cons]
    by_cases hm : k ∈ ks
    · rw [Finset.insert_eq_of_mem (List.mem_toFinset.2 hm)]
      constructor
      · intro h
        omega
      · intro h
        exact absurd hm h.1
    · rw [Finset.sum_insert (mt List.mem_toFinset.1 hm), Nat.add_left_cancel_iff, ih]
      exact (and_iff_right hm).symm

omit [DecidableEq κ] in
/-- Entries without weight do not count. -/
theorem sum_map_filter_pos (key : ι → κ) (w : κ → ℕ) (l : List ι) :
    (((l.filter fun x => 0 < w (key x)).map key).map w).sum = (l.map fun x => w (key x)).sum := by
  induction l with
  | nil => rfl
  | cons x l ih =>
    rw [List.map_cons, List.sum_cons, ← ih, List.filter_cons]
    split
    · rw [List.map_cons, List.map_cons, List.sum_cons]
    · rename_i hx
      have h0 : w (key x) = 0 := by simpa using hx
      rw [h0, Nat.zero_add]

/-- **Nothing is lost exactly if the keys of some weight are distinct and all counted.** -/
theorem sum_eq_iff (key : ι → κ) (w : κ → ℕ) (l : List ι) (S : Finset κ)
    (hS : ∀ p ∈ S, p ∈ l.map key) :
    ∑ p ∈ S, w p = (l.map fun x => w (key x)).sum ↔
      ((l.filter fun x => 0 < w (key x)).map key).Nodup ∧ ∀ x ∈ l, 0 < w (key x) → key x ∈ S := by
  rw [← sum_map_filter_pos key w l]
  generalize hks : (l.filter fun x => 0 < w (key x)).map key = ks
  have hmem : ∀ p, p ∈ ks ↔ ∃ x ∈ l, 0 < w (key x) ∧ key x = p := by
    intro p
    rw [← hks, List.mem_map]
    simp only [List.mem_filter, decide_eq_true_eq, and_assoc]
  have hpos : ∀ p ∈ ks, 0 < w p := by
    intro p hp
    obtain ⟨x, -, hx, rfl⟩ := (hmem p).1 hp
    exact hx
  have hsub : S.filter (fun p => 0 < w p) ⊆ ks.toFinset := by
    intro p hp
    obtain ⟨hp, hw⟩ := Finset.mem_filter.1 hp
    obtain ⟨x, hx, rfl⟩ := List.mem_map.1 (hS p hp)
    exact List.mem_toFinset.2 ((hmem _).2 ⟨x, hx, hw, rfl⟩)
  have hsum : ∑ p ∈ S, w p = ∑ p ∈ S.filter (fun p => 0 < w p), w p := by
    refine (Finset.sum_filter_of_ne fun p _ hne => ?_).symm
    exact Nat.pos_of_ne_zero hne
  have hle := Finset.sum_le_sum_of_subset (f := w) hsub
  have hle' := sum_toFinset_le w ks
  rw [hsum]
  constructor
  · intro h
    have hnd : ks.Nodup := (sum_toFinset_eq_iff hpos).1 (by omega)
    refine ⟨hnd, fun x hx hw => ?_⟩
    by_contra hnot
    have hlt : ∑ p ∈ S.filter (fun p => 0 < w p), w p < ∑ p ∈ ks.toFinset, w p := by
      refine Finset.sum_lt_sum_of_subset hsub (i := key x) ?_ ?_ hw fun _ _ _ => Nat.zero_le _
      · exact List.mem_toFinset.2 ((hmem _).2 ⟨x, hx, hw, rfl⟩)
      · exact fun hin => hnot (Finset.mem_filter.1 hin).1
    omega
  · rintro ⟨hnd, hall⟩
    rw [← (sum_toFinset_eq_iff hpos).2 hnd]
    refine Finset.sum_congr (Finset.Subset.antisymm hsub fun p hp => ?_) fun _ _ => rfl
    obtain ⟨x, hx, hw, rfl⟩ := (hmem p).1 (List.mem_toFinset.1 hp)
    exact Finset.mem_filter.2 ⟨hall x hx hw, hw⟩

end Collisions

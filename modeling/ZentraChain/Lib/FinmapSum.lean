import Mathlib.Data.Finmap
import Mathlib.Tactic

/-!
# Totals over finite maps

`Finmap.total f m` is the sum of `f` over the values of `m`, `Finmap.weightAt f m k` the share of
the key `k` in it.

* `total_insert`, `total_erase`: the accounting identities of an insert (which may replace an
  entry) and an erase.
* `total_le_add`: a map that is bounded key by key by two others is bounded by them in total.
* `total_le_sum`: a map whose entries stand in a list is bounded by its total.
* `lookup_insert_ite`, `lookup_erase_ite`, `lookup_retain_eq_some`: what is found after a change.
* `Sub m m'`: every entry of `m` is an entry of `m'`; `Sub.insert`, `Sub.erase`, `Sub.total_le`.
-/

namespace Finmap

variable {α β : Type*} [DecidableEq α]

/-! ## Lookups -/

theorem lookup_insert_ite (m : Finmap fun _ : α => β) (k p : α) (b : β) :
    (m.insert k b).lookup p = if p = k then some b else m.lookup p := by
  by_cases h : p = k
  · subst h; simp
  · rw [lookup_insert_of_ne _ h, if_neg h]

theorem lookup_erase_ite (m : Finmap fun _ : α => β) (k p : α) :
    (m.erase k).lookup p = if p = k then none else m.lookup p := by
  by_cases h : p = k
  · subst h; simp
  · rw [lookup_erase_ne h, if_neg h]

/-- One value for several keys. -/
theorem lookup_foldl_insert (ks : List α) (m : Finmap fun _ : α => β) (p : α) (b : β) :
    (ks.foldl (fun m k => m.insert k b) m).lookup p = if p ∈ ks then some b else m.lookup p := by
  induction ks generalizing m with
  | nil => simp
  | cons k ks ih =>
    rw [List.foldl_cons, ih, lookup_insert_ite]
    by_cases hp : p ∈ ks <;> by_cases hk : p = k <;> simp [hp, hk]

theorem lookup_foldl_erase (ks : List α) (m : Finmap fun _ : α => β) (p : α) :
    (ks.foldl (fun m k => m.erase k) m).lookup p = if p ∈ ks then none else m.lookup p := by
  induction ks generalizing m with
  | nil => simp
  | cons k ks ih =>
    rw [List.foldl_cons, ih, lookup_erase_ite]
    by_cases hp : p ∈ ks <;> by_cases hk : p = k <;> simp [hp, hk]

/-- The entries that meet `p`. -/
def retain (p : α → β → Bool) (m : Finmap fun _ : α => β) : Finmap fun _ : α => β where
  entries := m.entries.filter fun e => p e.1 e.2
  nodupKeys := by
    rw [← Multiset.nodup_keys]
    exact Multiset.nodup_of_le (Multiset.map_le_map (Multiset.filter_le _ _))
      (Multiset.nodup_keys.2 m.nodupKeys)

theorem lookup_retain_eq_some {p : α → β → Bool} {m : Finmap fun _ : α => β} {k : α} {b : β} :
    (m.retain p).lookup k = some b ↔ m.lookup k = some b ∧ p k b := by
  simp only [lookup_eq_some_iff, retain, Multiset.mem_filter]

/-! ## Totals -/

/-- The sum of `f` over the values of `m`. -/
def total (f : β → ℕ) (m : Finmap fun _ : α => β) : ℕ :=
  (m.entries.map fun e => f e.2).sum

/-- The share of the key `k` in `total f m`: `0` when `k` is absent. -/
def weightAt (f : β → ℕ) (m : Finmap fun _ : α => β) (k : α) : ℕ :=
  ((m.lookup k).map f).getD 0

variable {f : β → ℕ} {m m' : Finmap fun _ : α => β} {k p : α} {b : β}

theorem weightAt_some (h : m.lookup k = some b) : weightAt f m k = f b := by
  simp [weightAt, h]

theorem weightAt_none (h : m.lookup k = none) : weightAt f m k = 0 := by
  simp [weightAt, h]

theorem weightAt_insert : weightAt f (m.insert k b) p = if p = k then f b else weightAt f m p := by
  unfold weightAt
  rw [lookup_insert_ite]
  split <;> rfl

theorem weightAt_erase : weightAt f (m.erase k) p = if p = k then 0 else weightAt f m p := by
  unfold weightAt
  rw [lookup_erase_ite]
  split <;> rfl

omit [DecidableEq α] in
@[simp] theorem total_empty : total f (∅ : Finmap fun _ : α => β) = 0 := rfl

theorem total_insert_new (h : k ∉ m) : total f (m.insert k b) = total f m + f b := by
  rw [total, total, entries_insert_of_notMem h, Multiset.map_cons, Multiset.sum_cons, add_comm]

/-- Erasing a key and inserting a value is inserting it. -/
theorem insert_erase_self (m : Finmap fun _ : α => β) (k : α) (b : β) :
    (m.erase k).insert k b = m.insert k b := ext_lookup fun p => by
  rw [lookup_insert_ite, lookup_insert_ite]
  split
  · rfl
  · rename_i h
    exact lookup_erase_ne h

theorem insert_lookup_self (h : m.lookup k = some b) : m.insert k b = m := ext_lookup fun p => by
  rw [lookup_insert_ite]
  split
  · subst_vars; exact h.symm
  · rfl

theorem erase_of_notMem (h : k ∉ m) : m.erase k = m := ext_lookup fun p => by
  rw [lookup_erase_ite]
  split
  · subst_vars; exact (lookup_eq_none.2 h).symm
  · rfl

theorem total_erase (f : β → ℕ) (m : Finmap fun _ : α => β) (k : α) :
    total f (m.erase k) + weightAt f m k = total f m := by
  by_cases h : k ∈ m
  · obtain ⟨b, hb⟩ := mem_iff.1 h
    have hnew := total_insert_new (f := f) (b := b) (notMem_erase_self (a := k) (s := m))
    rw [insert_erase_self, insert_lookup_self hb] at hnew
    rw [weightAt_some hb]
    exact hnew.symm
  · rw [erase_of_notMem h, weightAt_none (lookup_eq_none.2 h), Nat.add_zero]

/-- An insert adds its value and takes away the one it replaces. -/
theorem total_insert (f : β → ℕ) (m : Finmap fun _ : α => β) (k : α) (b : β) :
    total f (m.insert k b) + weightAt f m k = total f m + f b := by
  have h1 := total_insert_new (f := f) (b := b) (notMem_erase_self (a := k) (s := m))
  have h2 := total_erase f m k
  rw [insert_erase_self] at h1
  omega

/-- Induction over a finite map, one fresh key at a time. -/
theorem insert_induction {C : (Finmap fun _ : α => β) → Prop} (empty : C ∅)
    (insert : ∀ k b m, k ∉ m → C m → C (m.insert k b)) (m : Finmap fun _ : α => β) : C m := by
  induction m using Finmap.induction_on with | H a => ?_
  induction a using AList.insertRec with
  | H0 => exact empty
  | IH k b a hk ih =>
    rw [← insert_toFinmap]
    exact insert k b _ (mt mem_toFinmap.1 hk) ih

/-- A map bounded key by key by two others is bounded by them in total. -/
theorem total_le_add {m₁ m₂ : Finmap fun _ : α => β}
    (h : ∀ k, weightAt f m k ≤ weightAt f m₁ k + weightAt f m₂ k) :
    total f m ≤ total f m₁ + total f m₂ := by
  induction m using insert_induction generalizing m₁ m₂ with
  | empty => exact Nat.zero_le _
  | insert k b m hk ih =>
    -- the keys other than `k` are compared in the maps without `k`
    have hrec : total f m ≤ total f (m₁.erase k) + total f (m₂.erase k) := ih fun p => by
      rw [weightAt_erase, weightAt_erase]
      by_cases hp : p = k
      · subst hp
        rw [weightAt_none (lookup_eq_none.2 hk)]
        exact Nat.zero_le _
      · have := h p
        rw [weightAt_insert, if_neg hp] at this
        rw [if_neg hp, if_neg hp]
        exact this
    have h1 := total_erase f m₁ k
    have h2 := total_erase f m₂ k
    have h3 := h k
    rw [weightAt_insert, if_pos rfl] at h3
    rw [total_insert_new hk]
    omega

/-- A map whose entries all stand in a list, but for those that count nothing, has at most the total
of the list. -/
theorem total_le_sum {slots : List (α × ℕ)}
    (h : ∀ k b, m.lookup k = some b → f b = 0 ∨ (k, f b) ∈ slots) :
    total f m ≤ (slots.map (·.2)).sum := by
  induction m using insert_induction generalizing slots with
  | empty => exact Nat.zero_le _
  | insert k b m hk ih =>
    have hkeep : ∀ p c, m.lookup p = some c → p ≠ k ∧ (m.insert k b).lookup p = some c := by
      intro p c hp
      have hne : p ≠ k := by
        rintro rfl
        rw [lookup_eq_none.2 hk] at hp
        cases hp
      exact ⟨hne, by rw [lookup_insert_of_ne _ hne, hp]⟩
    rw [total_insert_new hk]
    rcases h k b (lookup_insert _) with h0 | hin
    · rw [h0, Nat.add_zero]
      exact ih fun p c hp => h p c (hkeep p c hp).2
    · -- the other entries stand in the rest of the list
      obtain ⟨pre, post, rfl⟩ := List.append_of_mem hin
      have hrest : total f m ≤ ((pre ++ post).map (·.2)).sum := ih fun p c hp => by
        obtain ⟨hne, hp'⟩ := hkeep p c hp
        refine (h p c hp').imp_right fun hm => ?_
        rw [List.mem_append, List.mem_cons, Prod.mk.injEq] at hm
        rcases hm with hm | ⟨hpk, -⟩ | hm
        · exact List.mem_append_left _ hm
        · exact absurd hpk hne
        · exact List.mem_append_right _ hm
      rw [List.map_append, List.sum_append] at hrest
      rw [List.map_append, List.sum_append, List.map_cons, List.sum_cons]
      omega

/-! ## Submaps -/

/-- Every entry of `m` is an entry of `m'`. -/
def Sub (m m' : Finmap fun _ : α => β) : Prop :=
  ∀ k b, m.lookup k = some b → m'.lookup k = some b

theorem Sub.refl (m : Finmap fun _ : α => β) : Sub m m := fun _ _ h => h

theorem Sub.trans {m₁ m₂ m₃ : Finmap fun _ : α => β} (h₁ : Sub m₁ m₂) (h₂ : Sub m₂ m₃) :
    Sub m₁ m₃ := fun k b h => h₂ k b (h₁ k b h)

theorem Sub.insert (h : Sub m m') (k : α) (b : β) : Sub (m.insert k b) (m'.insert k b) := by
  intro p c hp
  rw [lookup_insert_ite] at hp ⊢
  split at hp
  · rw [if_pos ‹_›]; exact hp
  · rw [if_neg ‹_›]; exact h p c hp

theorem Sub.erase (h : Sub m m') (k : α) : Sub (m.erase k) (m'.erase k) := by
  intro p c hp
  rw [lookup_erase_ite] at hp ⊢
  split at hp
  · cases hp
  · rw [if_neg ‹_›]; exact h p c hp

theorem Sub.total_le (h : Sub m m') (f : β → ℕ) : total f m ≤ total f m' := by
  have : total f m ≤ total f m' + total f (∅ : Finmap fun _ : α => β) := total_le_add fun k => by
    rcases hk : m.lookup k with _ | b
    · rw [weightAt_none hk]; exact Nat.zero_le _
    · rw [weightAt_some hk, weightAt_some (h k b hk)]; exact Nat.le_add_right _ _
  simpa using this

end Finmap

import Mathlib.Data.List.Nodup
import Mathlib.Tactic

/-!
# Merkle roots of lists

Pairs of neighbours are combined level by level; the last node of an odd level is paired with itself.
`Root f k l r`: `r` is the root of `l`, reached after `k` levels.

With an injective `f` the root determines the list among lists of one length (`Root.unique_length`),
but not among all: an odd list has the root of the list that repeats its last element. It does among
lists without repetitions whose elements are not nodes themselves (`Root.unique_nodup`).

A proof is climbed from a leaf to the root by one combination an entry. With an injective `f`, what
reaches the root in as many steps as there are levels is in the list, and what does so in fewer is a node
of the tree (`Root.reaches_iff`).

`root` computes the root. Of leaves that are not combined but put into a `Tree`, it is the tree itself:
every other root is an evaluation of it (`root_map`), and an injective one tells the trees apart
(`Tree.eval_injective`).
-/

namespace Merkle

variable {α : Type*}

/-- The level above. -/
def next (f : α → α → α) : List α → List α
  | a :: b :: l => f a b :: next f l
  | [a] => [f a a]
  | [] => []

inductive Root (f : α → α → α) : ℕ → List α → α → Prop
  | leaf (a : α) : Root f 0 [a] a
  | up {k : ℕ} {l : List α} {r : α} : 1 < l.length → Root f k (next f l) r → Root f (k + 1) l r

variable {f : α → α → α} {k k' : ℕ} {l l' : List α} {r x : α}

theorem next_length (f : α → α → α) : ∀ l : List α, (next f l).length = (l.length + 1) / 2
  | [] => by simp [next]
  | [_] => by simp [next]
  | _ :: _ :: l => by
    rw [next, List.length_cons, next_length f l]
    simp only [List.length_cons]
    omega

theorem mem_next : ∀ {l : List α}, x ∈ next f l → ∃ a ∈ l, ∃ b ∈ l, x = f a b
  | [], h => by cases h
  | [a], h => ⟨a, List.mem_cons_self, a, List.mem_cons_self, List.mem_singleton.1 h⟩
  | a :: b :: l, h => by
    rcases List.mem_cons.1 h with rfl | h
    · exact ⟨a, List.mem_cons_self, b, List.mem_cons_of_mem _ List.mem_cons_self, rfl⟩
    · obtain ⟨c, hc, d, hd, rfl⟩ := mem_next h
      exact ⟨c, List.mem_cons_of_mem _ (List.mem_cons_of_mem _ hc), d,
        List.mem_cons_of_mem _ (List.mem_cons_of_mem _ hd), rfl⟩

/-! ## Injective combination -/

/-- Pairs are combined injectively. -/
def PairInjective (f : α → α → α) : Prop := ∀ a b c d, f a b = f c d → a = c ∧ b = d

theorem next_inj_length (hf : PairInjective f) : ∀ {l l' : List α}, l.length = l'.length →
    next f l = next f l' → l = l'
  | [], [], _, _ => rfl
  | [a], [c], _, h => by
    obtain ⟨rfl, -⟩ := hf _ _ _ _ (List.cons.inj h).1
    rfl
  | a :: b :: l, c :: d :: l', hl, h => by
    obtain ⟨h1, h2⟩ := List.cons.inj h
    obtain ⟨rfl, rfl⟩ := hf _ _ _ _ h1
    rw [next_inj_length hf (by simpa using hl) h2]
  | [], [_], hl, _ => by cases hl
  | [], _ :: _ :: _, hl, _ => by cases hl
  | [_], [], hl, _ => by cases hl
  | [_], _ :: _ :: _, hl, _ => by cases hl
  | _ :: _ :: _, [], hl, _ => by cases hl
  | _ :: _ :: _, [_], hl, _ => by cases hl

theorem next_eq_nil : ∀ {l : List α}, next f l = [] → l = []
  | [], _ => rfl
  | [_], h => by cases h
  | _ :: _ :: _, h => by cases h

/-- Without repetitions the padding shows. -/
theorem next_inj_nodup (hf : PairInjective f) : ∀ {l l' : List α}, l.Nodup → l'.Nodup →
    next f l = next f l' → l = l'
  | [], l', _, _, h => (next_eq_nil h.symm).symm
  | _ :: _, [], _, _, h => next_eq_nil h
  | [a], [c], _, _, h => by
    obtain ⟨rfl, -⟩ := hf _ _ _ _ (List.cons.inj h).1
    rfl
  | [a], c :: d :: l', _, hn, h => by
    obtain ⟨rfl, rfl⟩ := hf _ _ _ _ (List.cons.inj h).1
    exact absurd List.mem_cons_self (List.nodup_cons.1 hn).1
  | a :: b :: l, [c], hn, _, h => by
    obtain ⟨rfl, rfl⟩ := hf _ _ _ _ (List.cons.inj h).1
    exact absurd List.mem_cons_self (List.nodup_cons.1 hn).1
  | a :: b :: l, c :: d :: l', hn, hn', h => by
    obtain ⟨h1, h2⟩ := List.cons.inj h
    obtain ⟨rfl, rfl⟩ := hf _ _ _ _ h1
    rw [next_inj_nodup hf (List.nodup_cons.1 (List.nodup_cons.1 hn).2).2
      (List.nodup_cons.1 (List.nodup_cons.1 hn').2).2 h2]

theorem nodup_next (hf : PairInjective f) : ∀ {l : List α}, l.Nodup → (next f l).Nodup
  | [], _ => List.nodup_nil
  | [_], _ => List.nodup_singleton _
  | a :: b :: l, hn => by
    obtain ⟨ha, hn⟩ := List.nodup_cons.1 hn
    refine List.nodup_cons.2 ⟨fun hm => ?_, nodup_next hf (List.nodup_cons.1 hn).2⟩
    obtain ⟨c, hc, d, -, he⟩ := mem_next hm
    obtain ⟨rfl, -⟩ := hf _ _ _ _ he
    exact ha (List.mem_cons_of_mem _ hc)

/-! ## Lists with the same root -/

/-- The number of levels depends on the length only. -/
theorem Root.levels (h : Root f k l r) : ∀ {k' : ℕ} {l' : List α} {r' : α}, Root f k' l' r' →
    l.length = l'.length → k = k' := by
  induction h with
  | leaf a =>
    intro k' l' r' h' hl
    cases h' with
    | leaf _ => rfl
    | up hlt _ => exact absurd hl (Nat.ne_of_lt hlt)
  | up hlt _ ih =>
    intro k' l' r' h' hl
    cases h' with
    | leaf _ => exact absurd hl (Nat.ne_of_gt hlt)
    | up _ h' => rw [ih h' (by rw [next_length, next_length, hl])]

/-- **Lists of one length with the same root are the same.** -/
theorem Root.unique_length (hf : PairInjective f) (h : Root f k l r) (h' : Root f k' l' r)
    (hl : l.length = l'.length) : l = l' := by
  obtain rfl := h.levels h' hl
  induction h generalizing l' with
  | leaf a =>
    cases h' with
    | leaf _ => rfl
  | up _ _ ih =>
    cases h' with
    | up _ h' => exact next_inj_length hf hl (ih (by rw [next_length, next_length, hl]) h')

/-- A node `k` levels above elements of `S`. -/
def Above (f : α → α → α) (S : α → Prop) : ℕ → α → Prop
  | 0, x => S x
  | k + 1, x => ∃ a b, x = f a b ∧ Above f S k a

/-- Elements that are not nodes tell the level. -/
theorem Above.level {S : α → Prop} (hf : PairInjective f) (hS : ∀ a b, ¬S (f a b)) :
    ∀ {k k' : ℕ} {x : α}, Above f S k x → Above f S k' x → k = k'
  | 0, 0, _, _, _ => rfl
  | 0, k' + 1, x, h, ⟨a, b, he, _⟩ => absurd (he ▸ h : S (f a b)) (hS a b)
  | k + 1, 0, x, ⟨a, b, he, _⟩, h => absurd (he ▸ h : S (f a b)) (hS a b)
  | k + 1, k' + 1, x, ⟨a, b, he, ha⟩, ⟨c, d, he', hc⟩ => by
    obtain ⟨rfl, -⟩ := hf _ _ _ _ (he.symm.trans he')
    rw [Above.level hf hS ha hc]

theorem Root.above {S : α → Prop} (h : Root f k l r) : ∀ j, (∀ x ∈ l, Above f S j x) →
    Above f S (j + k) r := by
  induction h with
  | leaf a => exact fun j hj => hj a List.mem_cons_self
  | @up k l r _ _ ih =>
    intro j hj
    rw [Nat.add_comm k 1, ← Nat.add_assoc]
    refine ih (j + 1) fun x hx => ?_
    obtain ⟨a, ha, b, -, rfl⟩ := mem_next hx
    exact ⟨a, b, rfl, hj a ha⟩

/-- **Lists without repetitions with the same root are the same**, when their elements are not
nodes. -/
theorem Root.unique_nodup {S : α → Prop} (hf : PairInjective f) (hS : ∀ a b, ¬S (f a b))
    (h : Root f k l r) (h' : Root f k' l' r) (hl : ∀ x ∈ l, S x) (hl' : ∀ x ∈ l', S x)
    (hn : l.Nodup) (hn' : l'.Nodup) : l = l' := by
  have hk : 0 + k = 0 + k' := Above.level hf hS (h.above (S := S) 0 hl) (h'.above (S := S) 0 hl')
  obtain rfl : k = k' := by omega
  clear hk hl hl'
  induction h generalizing l' with
  | leaf a =>
    cases h' with
    | leaf _ => rfl
  | up _ _ ih =>
    cases h' with
    | up _ h' => exact next_inj_nodup hf hn hn' (ih (nodup_next hf hn) (nodup_next hf hn') h')

/-! ## Climbing -/

/-- Where the entries of a proof lead from `x`: each a sibling, and whether it is on the right. -/
def climb (f : α → α → α) (x : α) (p : List (α × Bool)) : α :=
  p.foldl (fun y e => if e.2 then f y e.1 else f e.1 y) x

/-- `y` is combined from `x` and something else. -/
def Part (f : α → α → α) (x y : α) : Prop := ∃ s, y = f x s ∨ y = f s x

/-- `y` is combined from `x` in some steps. -/
def Reaches (f : α → α → α) (x : α) : ℕ → α → Prop
  | 0, y => x = y
  | m + 1, y => ∃ z, Reaches f x m z ∧ Part f z y

theorem climb_concat (p : List (α × Bool)) (e : α × Bool) : climb f x (p ++ [e]) =
    if e.2 then f (climb f x p) e.1 else f e.1 (climb f x p) := by
  rw [climb, List.foldl_append]
  rfl

theorem climb_reaches (x : α) (p : List (α × Bool)) : Reaches f x p.length (climb f x p) := by
  induction p using List.reverseRecOn with
  | nil => exact rfl
  | append_singleton p e ih =>
    rw [List.length_append, climb_concat]
    refine ⟨_, ih, e.1, ?_⟩
    split
    · exact .inl rfl
    · exact .inr rfl

theorem Reaches.exists_climb : ∀ {m : ℕ} {y : α}, Reaches f x m y →
    ∃ p : List (α × Bool), p.length = m ∧ climb f x p = y
  | 0, _, h => ⟨[], rfl, h⟩
  | m + 1, y, ⟨z, hz, s, hy⟩ => by
    obtain ⟨p, hp, rfl⟩ := hz.exists_climb
    rcases hy with rfl | rfl
    · exact ⟨p ++ [(s, true)], by simp [hp], by simp [climb_concat]⟩
    · exact ⟨p ++ [(s, false)], by simp [hp], by simp [climb_concat]⟩

/-- **One level**: what the nodes above are combined from is the level. -/
theorem part_next (hf : PairInjective f) : ∀ {l : List α}, (∃ y ∈ next f l, Part f x y) ↔ x ∈ l
  | [] => by simp [next]
  | [a] => by
    simp only [next, List.mem_singleton, exists_eq_left]
    constructor
    · rintro ⟨s, he | he⟩
      · exact (hf _ _ _ _ he).1.symm
      · exact (hf _ _ _ _ he).2.symm
    · rintro rfl
      exact ⟨x, .inl rfl⟩
  | a :: b :: l => by
    simp only [next, List.mem_cons, exists_eq_or_imp, part_next hf]
    rw [← or_assoc]
    refine or_congr_left ?_
    constructor
    · rintro ⟨s, he | he⟩
      · exact .inl (hf _ _ _ _ he).1.symm
      · exact .inr (hf _ _ _ _ he).2.symm
    · rintro (rfl | rfl)
      · exact ⟨b, .inl rfl⟩
      · exact ⟨a, .inr rfl⟩

/-- **All levels**: what the root is combined from is a node of the tree, or below a leaf. -/
theorem Root.reaches_iff (hf : PairInjective f) (h : Root f k l r) : ∀ m, Reaches f x m r ↔
    if m ≤ k then x ∈ (next f)^[k - m] l else ∃ y ∈ l, Reaches f x (m - k) y := by
  induction h with
  | leaf a =>
    intro m
    cases m with
    | zero => simp [Reaches]
    | succ m => simp
  | @up k l r _ _ ih =>
    intro m
    rw [ih]
    rcases Nat.lt_trichotomy m (k + 1) with hm | rfl | hm
    · rw [if_pos (by omega), if_pos (by omega), Nat.sub_add_comm (by omega), Function.iterate_succ_apply]
    · rw [if_neg (by omega), if_pos (Nat.le_refl _), Nat.sub_self, Nat.add_sub_cancel_left,
        Function.iterate_zero_apply, ← part_next hf]
      simp [Reaches]
    · rw [if_neg (by omega), if_neg (by omega), show m - k = m - (k + 1) + 1 by omega]
      simp only [Reaches, ← part_next (l := l) hf]
      constructor
      · rintro ⟨y, hy, z, hz, hp⟩
        exact ⟨z, ⟨y, hy, hp⟩, hz⟩
      · rintro ⟨z, ⟨y, hy, hp⟩, hz⟩
        exact ⟨y, hy, z, hz, hp⟩

/-- The number of levels. -/
theorem Root.clog (h : Root f k l r) : k = Nat.clog 2 l.length := by
  induction h with
  | leaf a => rfl
  | up hlt _ ih =>
    rw [ih, next_length, Nat.clog_of_two_le (Nat.le_refl 2) hlt]
    rfl

/-! ## Computing the root -/

/-- The root of a list, if it is not empty. -/
def root (f : α → α → α) (l : List α) : Option α :=
  if 1 < l.length then root f (next f l) else l.head?
termination_by l.length
decreasing_by
  rw [next_length]
  omega

/-- It is the root. -/
theorem root_spec (f : α → α → α) {l : List α} (h : l ≠ []) :
    ∃ k r, root f l = some r ∧ Root f k l r := by
  fun_induction root f l with
  | case1 l hlt ih =>
    have hnext : next f l ≠ [] := fun hn => h (next_eq_nil hn)
    obtain ⟨k, r, hr, hroot⟩ := ih hnext
    exact ⟨k + 1, r, hr, .up hlt hroot⟩
  | case2 l hle =>
    cases l with
    | nil => exact absurd rfl h
    | cons a l =>
      obtain rfl : l = [] := List.length_eq_zero_iff.1 (by simpa using hle)
      exact ⟨0, a, rfl, .leaf a⟩

theorem root_eq_some (h : root f l = some r) : ∃ k, Root f k l r := by
  have hne : l ≠ [] := by
    rintro rfl
    simp [root] at h
  obtain ⟨k, r', hr, hroot⟩ := root_spec f hne
  obtain rfl := Option.some.inj (hr.symm.trans h)
  exact ⟨k, hroot⟩

theorem root_eq_none (h : root f l = none) : l = [] := by
  by_contra hne
  obtain ⟨k, r, hr, -⟩ := root_spec f hne
  cases hr.symm.trans h

/-- Lists of one length with the same root are the same. -/
theorem root_inj_length (hf : PairInjective f) (hl : l.length = l'.length)
    (h : root f l = root f l') : l = l' := by
  cases hr : root f l with
  | none => rw [root_eq_none hr, root_eq_none (h.symm.trans hr)]
  | some r =>
    obtain ⟨k, hroot⟩ := root_eq_some hr
    obtain ⟨k', hroot'⟩ := root_eq_some (h.symm.trans hr)
    exact hroot.unique_length hf hroot' hl

section
variable {β : Type*} {f' : β → β → β} {g : α → β}

theorem next_map (hg : ∀ a b, g (f a b) = f' (g a) (g b)) : ∀ l : List α,
    next f' (l.map g) = (next f l).map g
  | [] => rfl
  | [a] => by simp [next, hg]
  | a :: b :: l => by
    simp only [List.map_cons, next, hg]
    rw [next_map hg l]

/-- A map that commutes with the combinations takes the root to the root. -/
theorem root_map (hg : ∀ a b, g (f a b) = f' (g a) (g b)) (l : List α) :
    root f' (l.map g) = (root f l).map g := by
  fun_induction root f l with
  | case1 l hlt ih =>
    rw [← ih, ← next_map hg, root, if_pos (by simpa using hlt)]
  | case2 l hle =>
    rw [root, if_neg (by simpa using hle), List.head?_map]

end

/-! ## Trees -/

/-- What is combined to a root. -/
inductive Tree (α : Type*)
  | leaf (a : α)
  | node (l r : Tree α)

namespace Tree

variable {β : Type*}

/-- The root that a tree is combined to. -/
def eval (h : α → β) (f : β → β → β) : Tree α → β
  | leaf a => h a
  | node l r => f (l.eval h f) (r.eval h f)

def leaves : Tree α → List α
  | leaf a => [a]
  | node l r => l.leaves ++ r.leaves

def map (g : α → β) : Tree α → Tree β
  | leaf a => leaf (g a)
  | node l r => node (l.map g) (r.map g)

theorem node_injective : PairInjective (node : Tree α → Tree α → Tree α) := by
  intro a b c d h
  injection h with hac hbd
  exact ⟨hac, hbd⟩

/-- **Injective hashes** of leaves and of nodes, that are never the same, tell trees apart. -/
theorem eval_injective {h : α → β} {f : β → β → β} (hh : Function.Injective h)
    (hf : PairInjective f) (hd : ∀ a b c, h a ≠ f b c) : Function.Injective (eval h f) := by
  intro s t hst
  induction s generalizing t with
  | leaf a =>
    cases t with
    | leaf b => rw [hh hst]
    | node l r => exact absurd hst (hd _ _ _)
  | node l r ihl ihr =>
    cases t with
    | leaf b => exact absurd hst.symm (hd _ _ _)
    | node l' r' =>
      obtain ⟨hl, hr⟩ := hf _ _ _ _ hst
      rw [ihl hl, ihr hr]

theorem map_injective {g : α → β} (hg : Function.Injective g) : Function.Injective (map g) := by
  intro s t hst
  induction s generalizing t with
  | leaf a =>
    cases t with
    | leaf b => rw [hg (Tree.leaf.inj hst)]
    | node l r => cases hst
  | node l r ihl ihr =>
    cases t with
    | leaf b => cases hst
    | node l' r' =>
      obtain ⟨hl, hr⟩ := Tree.node.inj hst
      rw [ihl hl, ihr hr]

end Tree

/-- The tree over some leaves. -/
def tree (l : List α) : Option (Tree α) := root .node (l.map .leaf)

theorem tree_ne_nil (h : l ≠ []) : ∃ t, tree l = some t := by
  obtain ⟨-, t, ht, -⟩ := root_spec Tree.node (List.map_eq_nil_iff.not.2 h : l.map Tree.leaf ≠ [])
  exact ⟨t, ht⟩

/-- Hashed leaves have the hash of the tree for a root. -/
theorem root_map_eval {β : Type*} (h : α → β) (f : β → β → β) (l : List α) :
    root f (l.map h) = (tree l).map (Tree.eval h f) := by
  rw [tree, ← root_map (fun _ _ => rfl), List.map_map]
  rfl

theorem tree_map {β : Type*} (g : α → β) (l : List α) : tree (l.map g) = (tree l).map (.map g) := by
  rw [tree, tree, ← root_map (fun _ _ => rfl), List.map_map, List.map_map]
  rfl

theorem mem_leaves_next : ∀ {l : List (Tree α)},
    (∃ t ∈ next Tree.node l, x ∈ t.leaves) ↔ ∃ t ∈ l, x ∈ t.leaves
  | [] => Iff.rfl
  | [t] => by simp [next, Tree.leaves]
  | s :: t :: l => by
    simp only [next, List.mem_cons, exists_eq_or_imp, mem_leaves_next, Tree.leaves,
      List.mem_append, or_assoc]

/-- The leaves of a root are those of the list. -/
theorem mem_leaves_root {l : List (Tree α)} {t : Tree α} (h : root Tree.node l = some t) :
    x ∈ t.leaves ↔ ∃ s ∈ l, x ∈ s.leaves := by
  obtain ⟨k, hroot⟩ := root_eq_some h
  clear h
  induction hroot with
  | leaf a => simp
  | up _ _ ih => rw [ih, mem_leaves_next]

theorem mem_leaves_tree {t : Tree α} (h : tree l = some t) : x ∈ t.leaves ↔ x ∈ l := by
  rw [mem_leaves_root h]
  simp [Tree.leaves]

end Merkle

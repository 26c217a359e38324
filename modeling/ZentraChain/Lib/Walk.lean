import Mathlib.Data.Finset.Card
import Mathlib.Tactic

/-!
# Following a successor function

`next : α → Option α` gives each node at most one successor. `walk next n a` lists the nodes met
from `a`, at most `n` of them; `Path next a l` says that the walk from `a` ends and meets exactly
the nodes `l`.

* `Path.unique`, `Path.nodup`, `Path.suffix`: a node has one path, without repetition, and the
  path from any of its nodes is the rest of it.
* `walk_eq`: with enough fuel `walk` computes the path; `Path.length_le`: one more than the number
  of nodes with a successor is enough.
* `exists_path`: a rank that falls along `next` makes every walk end.
-/

namespace Walk

variable {α : Type*}

/-- The nodes met from `a`, at most `n` of them. -/
def walk (next : α → Option α) : ℕ → α → List α
  | 0, _ => []
  | n + 1, a =>
    a :: match next a with
      | none => []
      | some b => walk next n b

/-- The walk from `a` ends and meets the nodes `l`. -/
inductive Path (next : α → Option α) : α → List α → Prop
  | last {a : α} : next a = none → Path next a [a]
  | step {a b : α} {l : List α} : next a = some b → Path next b l → Path next a (a :: l)

variable {next : α → Option α} {a b : α} {l l' : List α}

theorem Path.head (h : Path next a l) : ∃ t, l = a :: t := by
  cases h with
  | last _ => exact ⟨[], rfl⟩
  | step _ _ => exact ⟨_, rfl⟩

theorem Path.unique (h : Path next a l) (h' : Path next a l') : l = l' := by
  induction h generalizing l' with
  | last hn =>
    cases h' with
    | last _ => rfl
    | step hs _ => rw [hn] at hs; cases hs
  | step hs _ ih =>
    cases h' with
    | last hn => rw [hn] at hs; cases hs
    | step hs' hp' =>
      rw [hs] at hs'
      cases hs'
      rw [ih hp']

theorem path_singleton_iff : Path next a [b] ↔ a = b ∧ next a = none := by
  constructor
  · intro h
    cases h with
    | last hn => exact ⟨rfl, hn⟩
    | step _ hp =>
      obtain ⟨t, ht⟩ := hp.head
      cases ht
  · rintro ⟨rfl, hn⟩
    exact .last hn

theorem path_cons_cons_iff {c : α} :
    Path next a (b :: c :: l) ↔ a = b ∧ next a = some c ∧ Path next c (c :: l) := by
  constructor
  · intro h
    cases h with
    | step hs hp =>
      obtain ⟨t, ht⟩ := hp.head
      cases ht
      exact ⟨rfl, hs, hp⟩
  · rintro ⟨rfl, hs, hp⟩
    exact .step hs hp

theorem not_path_nil : ¬Path next a [] := fun h => by
  obtain ⟨t, ht⟩ := h.head
  cases ht

/-- A path is checked node by node. -/
instance Path.decidable [DecidableEq α] (next : α → Option α) :
    ∀ (a : α) (l : List α), Decidable (Path next a l)
  | _, [] => .isFalse not_path_nil
  | _, [_] => decidable_of_iff' _ path_singleton_iff
  | _, _ :: c :: l =>
    have := Path.decidable next c (c :: l)
    decidable_of_iff' _ path_cons_cons_iff

/-- The path from a node on a path is the rest of that path. -/
theorem Path.suffix (h : Path next a l) :
    ∀ {xs ys : List α} {c : α}, l = xs ++ c :: ys → Path next c (c :: ys) := by
  induction h with
  | last hn =>
    intro xs ys c he
    cases xs with
    | nil => cases he; exact .last hn
    | cons x xs => simp at he
  | @step a b l hs hp ih =>
    intro xs ys c he
    cases xs with
    | nil => cases he; exact .step hs hp
    | cons x xs =>
      simp only [List.cons_append, List.cons.injEq] at he
      exact ih he.2

/-- A path never comes back to a node: the rest would be longer than itself. -/
theorem Path.nodup (h : Path next a l) : l.Nodup := by
  induction h with
  | last _ => exact List.nodup_singleton _
  | @step a b l hs hp ih =>
    refine List.nodup_cons.2 ⟨fun hm => ?_, ih⟩
    obtain ⟨xs, ys, rfl⟩ := List.append_of_mem hm
    have h1 := (Path.step hs hp).unique (hp.suffix rfl)
    have h2 := congrArg List.length h1
    simp only [List.length_cons, List.length_append] at h2
    omega

theorem Path.next_tail {xs ys : List α} {c d : α} (h : Path next a l)
    (he : l = xs ++ c :: d :: ys) : next c = some d := by
  cases h.suffix he with
  | step hs hp =>
    obtain ⟨t, ht⟩ := hp.head
    cases ht
    exact hs

/-- With enough fuel the walk is the path. -/
theorem walk_eq (h : Path next a l) : ∀ {n : ℕ}, l.length ≤ n → walk next n a = l := by
  induction h with
  | last hn =>
    intro n hl
    cases n with
    | zero => simp at hl
    | succ n => simp [walk, hn]
  | step hs _ ih =>
    intro n hl
    cases n with
    | zero => simp at hl
    | succ n =>
      simp only [walk, hs]
      rw [ih (by simpa using hl)]

/-- Every node but the last has a successor, so a path is at most one longer than the number of
nodes that have one. -/
theorem Path.length_le [DecidableEq α] {S : Finset α} (hS : ∀ x y, next x = some y → x ∈ S)
    (h : Path next a l) : l.length ≤ S.card + 1 := by
  have hsub : ∀ x ∈ l.dropLast, x ∈ S := by
    have hnd := h.nodup
    induction h with
    | last _ => simp
    | @step a b l hs hp ih =>
      obtain ⟨t, rfl⟩ := hp.head
      intro x hx
      rw [List.dropLast_cons_of_ne_nil (by simp)] at hx
      rcases List.mem_cons.1 hx with rfl | hx
      · exact hS _ _ hs
      · exact ih (List.nodup_cons.1 hnd).2 x hx
  have hnd : l.dropLast.Nodup := h.nodup.sublist (List.dropLast_sublist l)
  have hcard := Finset.card_le_card (s := l.dropLast.toFinset) (t := S)
    fun x hx => hsub x (List.mem_toFinset.1 hx)
  rw [List.toFinset_card_of_nodup hnd, List.length_dropLast] at hcard
  omega

/-- A rank that falls along `next`, on a set that `next` does not leave, makes the walk end. -/
theorem exists_path {P : α → Prop} (rank : α → ℕ)
    (hfall : ∀ x y, P x → next x = some y → P y ∧ rank y < rank x) :
    ∀ {x : α}, P x → ∃ l, Path next x l := by
  intro x hx
  induction hr : rank x using Nat.strong_induction_on generalizing x with
  | _ r ih =>
    cases hn : next x with
    | none => exact ⟨[x], .last hn⟩
    | some y =>
      obtain ⟨hy, hlt⟩ := hfall x y hx hn
      obtain ⟨l, hl⟩ := ih (rank y) (hr ▸ hlt) hy rfl
      exact ⟨x :: l, .step hn hl⟩

/-- The nodes of a path all satisfy a property that `next` keeps. -/
theorem Path.forall_mem {P : α → Prop} (hkeep : ∀ x y, P x → next x = some y → P y)
    (h : Path next a l) (ha : P a) : ∀ x ∈ l, P x := by
  induction h with
  | last _ => simpa using ha
  | step hs _ ih =>
    intro x hx
    rcases List.mem_cons.1 hx with rfl | hx
    · exact ha
    · exact ih (hkeep _ _ ha hs) x hx

/-- Paths of successor functions that agree on the nodes met are the same. -/
theorem Path.congr {next' : α → Option α} (h : Path next a l) (he : ∀ x ∈ l, next' x = next x) :
    Path next' a l := by
  induction h with
  | last hn => exact .last (by rw [he _ List.mem_cons_self, hn])
  | step hs _ ih =>
    exact .step (by rw [he _ List.mem_cons_self, hs])
      (ih fun x hx => he x (List.mem_cons_of_mem _ hx))

end Walk

import Mathlib.Tactic

/-!
# Operations with undo data

A `Machine` applies operations to a state; an operation that succeeds returns data for its undo.
`Stack M store Q s₀ is s` says that applying the operations `is` (last first) to `s₀` gives `s`,
that `store` holds the undo data of each, and that `Q` holds of each and the state it met.

* `Stack.append`, `Stack.split`, `Stack.congr`: stacks are put together, taken apart and moved to
  another machine.
* `Stack.undoAll`: undoing a stack of reversible operations gives back its base.
* `Stack.replay`: a stack's state is the replay of its operations, whatever the store.
-/

namespace UndoStack

variable {ι σ υ : Type*}

structure Machine (ι σ υ : Type*) where
  apply : ι → σ → Option (σ × υ)
  undo : ι → υ → σ → σ

namespace Machine

variable (M : Machine ι σ υ)

/-- Undoing `i` right after it was applied to `s` gives `s` back. -/
def Reversible (i : ι) (s : σ) : Prop := ∀ s' d, M.apply i s = some (s', d) → M.undo i d s' = s

/-- Apply operations, last first in the list, up to the first failure. -/
def replay (s₀ : σ) : List ι → Option σ
  | [] => some s₀
  | i :: is =>
    match replay s₀ is with
    | none => none
    | some s => (M.apply i s).map (·.1)

/-- Undo operations, first in the list first, with the data in the store. -/
def undoAll (store : ι → Option υ) : List ι → σ → σ
  | [], s => s
  | i :: is, s =>
    match store i with
    | some d => undoAll store is (M.undo i d s)
    | none => undoAll store is s

inductive Stack (store : ι → Option υ) (Q : ι → σ → Prop) (s₀ : σ) : List ι → σ → Prop
  | nil : Stack store Q s₀ [] s₀
  | cons {i : ι} {is : List ι} {s s' : σ} {d : υ} : Stack store Q s₀ is s →
      M.apply i s = some (s', d) → store i = some d → Q i s → Stack store Q s₀ (i :: is) s'

variable {M} {store store' : ι → Option υ} {Q Q' : ι → σ → Prop} {s₀ s₁ s s' : σ} {is js : List ι}

namespace Stack

theorem append (h : Stack M store Q s₀ js s₁) (h' : Stack M store Q s₁ is s) :
    Stack M store Q s₀ (is ++ js) s := by
  induction h' with
  | nil => exact h
  | cons _ ha hd hq ih => exact .cons ih ha hd hq

theorem split : ∀ {is : List ι} {s : σ}, Stack M store Q s₀ (is ++ js) s →
    ∃ s₁, Stack M store Q s₀ js s₁ ∧ Stack M store Q s₁ is s
  | [], s, h => ⟨s, h, .nil⟩
  | i :: is, s, h => by
    cases h with
    | cons h ha hd hq =>
      obtain ⟨s₁, h₁, h₂⟩ := split h
      exact ⟨s₁, h₁, .cons h₂ ha hd hq⟩

/-- A stack only depends on the machine and the store at its operations, and `Q` may be weakened
there. -/
theorem congr {M' : Machine ι σ υ} (h : Stack M store Q s₀ is s)
    (ha : ∀ i ∈ is, ∀ t, M'.apply i t = M.apply i t) (hs : ∀ i ∈ is, store' i = store i)
    (hq : ∀ i ∈ is, ∀ t, Q i t → Q' i t) : Stack M' store' Q' s₀ is s := by
  induction h with
  | nil => exact .nil
  | cons _ happ hd hqi ih =>
    exact .cons (ih (fun j hj => ha j (List.mem_cons_of_mem _ hj))
        (fun j hj => hs j (List.mem_cons_of_mem _ hj))
        fun j hj => hq j (List.mem_cons_of_mem _ hj))
      ((ha _ List.mem_cons_self _).trans happ) ((hs _ List.mem_cons_self).trans hd)
      (hq _ List.mem_cons_self _ hqi)

theorem mono (h : Stack M store Q s₀ is s) (hs : ∀ i ∈ is, store' i = store i)
    (hq : ∀ i ∈ is, ∀ t, Q i t → Q' i t) : Stack M store' Q' s₀ is s :=
  h.congr (fun _ _ _ => rfl) hs hq

/-- **Undoing reversible operations gives back the base.** -/
theorem undoAll (h : Stack M store Q s₀ is s) (hr : ∀ i ∈ is, ∀ t, Q i t → M.Reversible i t) :
    M.undoAll store is s = s₀ := by
  induction h with
  | nil => rfl
  | cons _ ha hd hq ih =>
    simp only [Machine.undoAll, hd]
    rw [hr _ List.mem_cons_self _ hq _ _ ha]
    exact ih fun i hi => hr i (List.mem_cons_of_mem _ hi)

theorem replay (h : Stack M store Q s₀ is s) : M.replay s₀ is = some s := by
  induction h with
  | nil => rfl
  | cons _ ha _ _ ih => simp only [Machine.replay, ih, ha, Option.map_some]

end Stack

/-- What can be replayed can be replayed from any point of it. -/
theorem replay_append : ∀ (is : List ι), M.replay s₀ (is ++ js) =
    match M.replay s₀ js with
    | none => none
    | some s => M.replay s is
  | [] => by
    cases h : M.replay s₀ js <;> simp [replay, h]
  | i :: is => by
    simp only [List.cons_append, replay, replay_append is]
    cases M.replay s₀ js <;> rfl

end Machine

end UndoStack

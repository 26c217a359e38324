import Mathlib.Tactic

/-!
# Runs of a machine

A machine takes calls one after the other. `Always P` says that `P` holds in every state of a run,
`Each C` that `C` holds of every call in the state that it finds.

* `always_of_each`: what is kept by the calls that meet `C` holds throughout, if all do.
* `always_of_last`: what is never regained holds throughout, if it does in the end.
* `always_iff_each`: and only then, if the other calls break it.
-/

namespace Runs

variable {σ α : Type*} (step : σ → α → σ)

/-- `P` holds in every state of a run. -/
def Always (P : σ → Prop) : σ → List α → Prop
  | s, [] => P s
  | s, a :: as => P s ∧ Always P (step s a) as

/-- `C` holds of every call of a run, in the state it finds. -/
def Each (C : σ → α → Prop) : σ → List α → Prop
  | _, [] => True
  | s, a :: as => C s a ∧ Each C (step s a) as

variable {step} {P Q : σ → Prop} {C D : σ → α → Prop} {s : σ} {as bs : List α}

theorem Always.head (h : Always step P s as) : P s := by
  cases as with
  | nil => exact h
  | cons a as => exact h.1

theorem Always.last (h : Always step P s as) : P (as.foldl step s) := by
  induction as generalizing s with
  | nil => exact h
  | cons a as ih => exact ih h.2

theorem Always.imp (hPQ : ∀ s, P s → Q s) (h : Always step P s as) : Always step Q s as := by
  induction as generalizing s with
  | nil => exact hPQ _ h
  | cons a as ih => exact ⟨hPQ _ h.1, ih h.2⟩

theorem Always.and (h : Always step P s as) (h' : Always step Q s as) :
    Always step (fun s => P s ∧ Q s) s as := by
  induction as generalizing s with
  | nil => exact ⟨h, h'⟩
  | cons a as ih => exact ⟨⟨h.1, h'.1⟩, ih h.2 h'.2⟩

theorem each_true (as : List α) : Each step (fun _ _ => True) s as := by
  induction as generalizing s with
  | nil => trivial
  | cons a as ih => exact ⟨trivial, ih⟩

/-- **Invariants.** What holds at first, and is kept by calls that meet `C`, holds throughout a run
of such calls. -/
theorem always_of_each (hstep : ∀ s a, P s → C s a → P (step s a)) (hs : P s)
    (h : Each step C s as) : Always step P s as := by
  induction as generalizing s with
  | nil => exact hs
  | cons a as ih => exact ⟨hs, ih (hstep s a hs h.1) h.2⟩

/-- What no call brings back held throughout if it holds in the end. -/
theorem always_of_last (hstep : ∀ s a, P (step s a) → P s) (h : P (as.foldl step s)) :
    Always step P s as := by
  induction as generalizing s with
  | nil => exact h
  | cons a as ih =>
    have hrest := ih h
    exact ⟨hstep s a hrest.head, hrest⟩

/-- **Exact conditions.** If, of the states where `Q` holds, `P` is kept exactly by the calls that
meet `C`, then `P` holds throughout exactly the runs of such calls. All calls meet `D`. -/
theorem always_iff_each {D : α → Prop} (hQ : ∀ s a, D a → Q s → P s → Q (step s a))
    (hstep : ∀ s a, D a → Q s → P s → (P (step s a) ↔ C s a)) (hD : ∀ a ∈ as, D a) (hq : Q s)
    (hs : P s) : Always step P s as ↔ Each step C s as := by
  induction as generalizing s with
  | nil => exact ⟨fun _ => trivial, fun _ => hs⟩
  | cons a as ih =>
    obtain ⟨hd, hds⟩ := List.forall_mem_cons.1 hD
    have hq' := hQ s a hd hq hs
    constructor
    · rintro ⟨-, h⟩
      exact ⟨(hstep s a hd hq hs).1 h.head, (ih hds hq' h.head).1 h⟩
    · rintro ⟨hc, h⟩
      have hs' := (hstep s a hd hq hs).2 hc
      exact ⟨hs, (ih hds hq' hs').2 h⟩

end Runs

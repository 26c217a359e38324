import Mathlib.Tactic

/-!
# A slot that is written, filled and cleared

The history of one cell of a store: a `write` sets it whatever it holds, an `offer` sets it only
when it is empty, a `clear` empties it and needs it set. `Run s ops c s'` says that the operations
lead from occupancy `s` to `s'` and set the cell `c` times.

* `Run.append`: histories are put together.
* `Run.le_one_iff`: from empty, the cell is set at most once exactly when no operation of the
  history `Repeats` an earlier one.
-/

namespace Slot

inductive Op
  | write
  | offer
  | clear
  deriving DecidableEq

inductive Run : Bool → List Op → ℕ → Bool → Prop
  | nil {s : Bool} : Run s [] 0 s
  | write {s s' : Bool} {ops : List Op} {c : ℕ} : Run true ops c s' →
      Run s (.write :: ops) (c + 1) s'
  | offerEmpty {s' : Bool} {ops : List Op} {c : ℕ} : Run true ops c s' →
      Run false (.offer :: ops) (c + 1) s'
  | offerSet {s' : Bool} {ops : List Op} {c : ℕ} : Run true ops c s' →
      Run true (.offer :: ops) c s'
  | clear {s' : Bool} {ops : List Op} {c : ℕ} : Run false ops c s' →
      Run true (.clear :: ops) c s'

/-- The second operation sets a cell that the first one has set before, or has cleared. -/
def Repeats : Op → Op → Prop
  | .write, .write => True
  | .offer, .write => True
  | .clear, .write => True
  | .clear, .offer => True
  | _, _ => False

variable {s s' s'' : Bool} {ops ops' : List Op} {c c' : ℕ}

theorem Run.append (h : Run s ops c s') (h' : Run s' ops' c' s'') :
    Run s (ops ++ ops') (c + c') s'' := by
  induction h with
  | nil => simpa using h'
  | write _ ih => rw [Nat.add_right_comm]; exact .write (ih h')
  | offerEmpty _ ih => rw [Nat.add_right_comm]; exact .offerEmpty (ih h')
  | offerSet _ ih => exact .offerSet (ih h')
  | clear _ ih => exact .clear (ih h')

/-- Operations that never set a cell clear it at most. -/
theorem pairwise_of_clears (hw : .write ∉ ops) (ho : .offer ∉ ops) :
    ops.Pairwise fun x y => ¬Repeats x y := by
  refine List.Pairwise.imp_of_mem (R := fun _ _ => True) (fun {x y} _ hy _ => ?_)
    (List.pairwise_of_forall fun _ _ => trivial)
  cases y with
  | write => exact absurd hy hw
  | offer => exact absurd hy ho
  | clear => cases x <;> exact id

/-- An empty cell is not set. -/
theorem Run.eq_zero_of_empty (h : Run s ops c s') (hs : s = false) :
    c = 0 ↔ .write ∉ ops ∧ .offer ∉ ops := by
  cases h with
  | nil => simp
  | write _ => simp
  | offerEmpty _ => simp
  | offerSet _ => cases hs
  | clear _ => cases hs

/-- A set cell is not set again. -/
theorem Run.eq_zero_of_set (h : Run s ops c s') (hs : s = true) :
    c = 0 ↔ .write ∉ ops ∧ ops.Pairwise fun x y => ¬Repeats x y := by
  induction h with
  | nil => simp
  | write _ => simp
  | offerEmpty _ => cases hs
  | offerSet _ ih =>
    rw [ih rfl, List.mem_cons, List.pairwise_cons]
    refine ⟨fun ⟨hw, hp⟩ => ⟨by simpa using hw, fun y hy hr => ?_, hp⟩,
      fun ⟨hw, _, hp⟩ => ⟨fun hm => hw (.inr hm), hp⟩⟩
    cases y with
    | write => exact hw hy
    | offer => exact hr
    | clear => exact hr
  | clear h _ =>
    rw [h.eq_zero_of_empty rfl, List.mem_cons, List.pairwise_cons]
    refine ⟨fun ⟨hw, ho⟩ => ⟨by simpa using hw, fun y hy hr => ?_, pairwise_of_clears hw ho⟩,
      fun ⟨hw, hr, _⟩ => ⟨fun hm => hw (.inr hm), fun ho => hr _ ho trivial⟩⟩
    cases y with
    | write => exact hw hy
    | offer => exact ho hy
    | clear => exact hr

/-- **From empty, a cell is set at most once** exactly when no operation repeats an earlier one. -/
theorem Run.le_one_iff (h : Run false ops c s') :
    c ≤ 1 ↔ ops.Pairwise fun x y => ¬Repeats x y := by
  have hfirst : ∀ {x : Op} {ops : List Op} {c : ℕ}, x = .write ∨ x = .offer → Run true ops c s' →
      (c + 1 ≤ 1 ↔ (x :: ops).Pairwise fun x y => ¬Repeats x y) := by
    intro x ops c hx h
    rw [show c + 1 ≤ 1 ↔ c = 0 by omega, h.eq_zero_of_set rfl,
      List.pairwise_cons]
    refine and_congr_left fun _ => ⟨fun hw y hy hr => ?_, fun hr hw => hr _ hw ?_⟩
    · rcases hx with rfl | rfl <;> cases y <;> first | exact hw hy | exact hr
    · rcases hx with rfl | rfl <;> trivial
  cases h with
  | nil => simp
  | write h => exact hfirst (.inl rfl) h
  | offerEmpty h => exact hfirst (.inr rfl) h

end Slot

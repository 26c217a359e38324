import Mathlib.Tactic

/-!
# Threads over a shared state

Threads of one program, each in a state of its own, take atomic steps on a shared state in any order.
`stepAt` lets thread `i` take one.

* `inv_stepAt`: an invariant of the shared state and of each thread, kept by a thread's own steps and
  by those of the others.
* `tally_stepAt`: a shared counter that each step moves by as much as what the thread stands for.
-/

namespace Threads

variable {ω σ : Type*}

structure State (ω σ : Type*) where
  threads : List ω
  shared : σ

variable (step : ω → σ → ω × σ)

/-- Thread `i` takes a step. -/
def stepAt (s : State ω σ) (i : ℕ) : State ω σ :=
  match s.threads[i]? with
  | none => s
  | some w => ⟨s.threads.set i (step w s.shared).1, (step w s.shared).2⟩

/-- `G` holds of the shared state, and `L i` of thread `i` beside it. -/
structure Inv (G : σ → Prop) (L : ℕ → ω → σ → Prop) (s : State ω σ) : Prop where
  shared : G s.shared
  thread : ∀ i w, s.threads[i]? = some w → L i w s.shared

variable {step} {G : σ → Prop} {L : ℕ → ω → σ → Prop} {s : State ω σ}

theorem stepAt_none {i : ℕ} (h : s.threads[i]? = none) : stepAt step s i = s := by
  simp only [stepAt, h]

theorem stepAt_some {i : ℕ} {w : ω} (h : s.threads[i]? = some w) :
    stepAt step s i = ⟨s.threads.set i (step w s.shared).1, (step w s.shared).2⟩ := by
  simp only [stepAt, h]

@[simp] theorem length_stepAt (s : State ω σ) (i : ℕ) :
    (stepAt step s i).threads.length = s.threads.length := by
  unfold stepAt
  split
  · rfl
  · exact List.length_set

/-- The threads after a step of thread `i`. -/
theorem getElem?_stepAt {i j : ℕ} {w v : ω} (h : s.threads[i]? = some w)
    (hv : (stepAt step s i).threads[j]? = some v) :
    (j = i ∧ v = (step w s.shared).1) ∨ (j ≠ i ∧ s.threads[j]? = some v) := by
  rw [stepAt_some h] at hv
  by_cases hji : j = i
  · have hlt : i < s.threads.length := (List.getElem?_eq_some_iff.1 h).1
    rw [hji, List.getElem?_set_self hlt] at hv
    exact .inl ⟨hji, (Option.some.inj hv).symm⟩
  · rw [List.getElem?_set_ne (Ne.symm hji)] at hv
    exact .inr ⟨hji, hv⟩

/-- **Steps keep an invariant** that a thread's own step keeps, and that no other thread's step breaks. -/
theorem inv_stepAt
    (own : ∀ i w g, G g → L i w g → G (step w g).2 ∧ L i (step w g).1 (step w g).2)
    (other : ∀ i j w v g, i ≠ j → G g → L i w g → L j v g → L j v (step w g).2)
    (hs : Inv G L s) (i : ℕ) : Inv G L (stepAt step s i) := by
  cases h : s.threads[i]? with
  | none => rwa [stepAt_none h]
  | some w =>
    have hw := hs.thread i w h
    refine ⟨?_, fun j v hv => ?_⟩
    · rw [stepAt_some h]
      exact (own i w s.shared hs.shared hw).1
    · have hsh : (stepAt step s i).shared = (step w s.shared).2 := by rw [stepAt_some h]
      rw [hsh]
      rcases getElem?_stepAt h hv with ⟨hji, hvw⟩ | ⟨hji, hv⟩
      · rw [hji, hvw]
        exact (own i w s.shared hs.shared hw).2
      · exact other i j w v s.shared (Ne.symm hji) hs.shared hw (hs.thread j v hv)

theorem sum_map_set (f : ω → ℕ) : ∀ (l : List ω) (i : ℕ) (w w' : ω), l[i]? = some w →
    ((l.set i w').map f).sum + f w = (l.map f).sum + f w'
  | [], i, w, w', h => by cases h
  | a :: l, 0, w, w', h => by
    cases h
    simp only [List.set_cons_zero, List.map_cons, List.sum_cons]
    omega
  | a :: l, i + 1, w, w', h => by
    have ih := sum_map_set f l i w w' h
    simp only [List.set_cons_succ, List.map_cons, List.sum_cons]
    omega

/-- Only one thread counts. -/
theorem sum_map_eq_single (f : ω → ℕ) : ∀ (l : List ω) (j : ℕ) (w : ω), l[j]? = some w →
    (∀ i v, i ≠ j → l[i]? = some v → f v = 0) → (l.map f).sum = f w
  | [], j, w, h, _ => by cases h
  | a :: l, 0, w, h, hz => by
    cases h
    have hrest : (l.map f).sum = 0 := by
      refine List.sum_eq_zero fun n hn => ?_
      obtain ⟨v, hv, rfl⟩ := List.mem_map.1 hn
      obtain ⟨i, hi⟩ := List.mem_iff_getElem?.1 hv
      exact hz (i + 1) v (Nat.succ_ne_zero i) hi
    rw [List.map_cons, List.sum_cons, hrest, Nat.add_zero]
  | a :: l, j + 1, w, h, hz => by
    have ih := sum_map_eq_single f l j w h fun i v hi hv =>
      hz (i + 1) v (fun he => hi (Nat.succ.inj he)) hv
    rw [List.map_cons, List.sum_cons, ih, hz 0 a (Nat.succ_ne_zero j).symm rfl, Nat.zero_add]

/-- **A counter** stays the sum of what the threads stand for, if each step adds the same to both; modulo
`m`, where `m = 0` is for counters that do not wrap around. -/
theorem tally_stepAt {f : ω → ℕ} {c : σ → ℕ} {m c₀ : ℕ} {i : ℕ}
    (add : ∀ w, s.threads[i]? = some w → ∃ k, f (step w s.shared).1 = f w + k ∧
      c (step w s.shared).2 ≡ c s.shared + k [MOD m])
    (hc : c s.shared ≡ c₀ + (s.threads.map f).sum [MOD m]) :
    c (stepAt step s i).shared ≡ c₀ + ((stepAt step s i).threads.map f).sum [MOD m] := by
  cases h : s.threads[i]? with
  | none => rwa [stepAt_none h]
  | some w =>
    obtain ⟨k, hf, hck⟩ := add w h
    have hsum := sum_map_set f s.threads i w (step w s.shared).1 h
    have hsum' : ((s.threads.set i (step w s.shared).1).map f).sum = (s.threads.map f).sum + k := by
      omega
    rw [stepAt_some h]
    simp only
    rw [hsum', ← Nat.add_assoc]
    exact hck.trans (hc.add_right k)

end Threads

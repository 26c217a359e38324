import Mathlib.Data.Nat.ModEq

/-!
# Wrapping arithmetic

Addition of naturals modulo `c`. A sum of wrapping additions is the exact sum modulo `c`
(`sum_eq`).
-/

namespace Wrapping

/-- `a + b`, modulo `c`. -/
def add (c a b : ℕ) : ℕ := (a + b) % c

/-- The left-to-right wrapping sum of a list. -/
def sum (c : ℕ) (l : List ℕ) : ℕ := l.foldl (add c) 0

variable {c : ℕ}

theorem foldl_add : ∀ (l : List ℕ) (a : ℕ), l.foldl (add c) (a % c) = (a + l.sum) % c
  | [], a => by rw [List.foldl_nil, List.sum_nil, Nat.add_zero]
  | x :: l, a => by
    have hx : add c (a % c) x = (a + x) % c := Nat.mod_add_mod a c x
    rw [List.foldl_cons, hx, foldl_add l (a + x), List.sum_cons, Nat.add_assoc]

theorem sum_eq (c : ℕ) (l : List ℕ) : sum c l = l.sum % c := by
  have h := foldl_add (c := c) l 0
  rwa [Nat.zero_mod, Nat.zero_add] at h

end Wrapping

import Mathlib.Tactic

/-!
# Saturating arithmetic

Addition and multiplication of naturals that stop at a ceiling `c`. A sum of saturating additions
is the exact sum cut at the ceiling (`foldl_add`, `sum_eq`).
-/

namespace Saturating

/-- `a + b`, at most `c`. -/
def add (c a b : ℕ) : ℕ := min (a + b) c

/-- `a * b`, at most `c`. -/
def mul (c a b : ℕ) : ℕ := min (a * b) c

/-- The left-to-right saturating sum of a list. -/
def sum (c : ℕ) (l : List ℕ) : ℕ := l.foldl (add c) 0

variable {c : ℕ}

theorem add_le (c a b : ℕ) : add c a b ≤ c := Nat.min_le_right _ _

theorem add_le_add (c a b : ℕ) : add c a b ≤ a + b := Nat.min_le_left _ _

theorem add_of_le {a b : ℕ} (h : a + b ≤ c) : add c a b = a + b := Nat.min_eq_left h

/-- Cutting an argument at the ceiling first changes nothing. -/
theorem add_min_left (c a b : ℕ) : add c (min a c) b = add c a b := by
  unfold add; omega

theorem foldl_add : ∀ (l : List ℕ) (a : ℕ), l.foldl (add c) (min a c) = min (a + l.sum) c
  | [], a => by simp
  | x :: l, a => by
    have hx : add c (min a c) x = min (a + x) c := add_min_left c a x
    rw [List.foldl_cons, hx, foldl_add l (a + x), List.sum_cons, Nat.add_assoc]

theorem sum_eq (c : ℕ) (l : List ℕ) : sum c l = min l.sum c := by
  have := foldl_add (c := c) l 0
  simpa [sum] using this

end Saturating

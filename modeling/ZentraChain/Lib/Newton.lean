import Mathlib.Data.Nat.Sqrt
import Mathlib.Tactic

/-!
# Newton's iteration for square roots

`step n x` is the mean of `x` and `n / x`, both rounded down.

* `sqrt_le_step`: it is never below the root.
* `eq_sqrt_of_le_step`: from above the root it falls, so where it does not, `x` is the root.
* `add_div_le`: between one and `n`, the sum that is halved is at most `n + 1`.
-/

namespace Newton

/-- One step of the iteration. -/
def step (n x : ℕ) : ℕ := (x + n / x) / 2

variable {n x : ℕ}

theorem step_self (hn : 0 < n) : step n n = (n + 1) / 2 := by
  rw [step, Nat.div_self hn]

/-- The mean is at least the root of the product, also when it is rounded down. -/
theorem sqrt_le_step (hx : 0 < x) : Nat.sqrt n ≤ step n x := by
  rw [step, Nat.le_div_iff_mul_le Nat.two_pos]
  by_cases hle : Nat.sqrt n * 2 ≤ x
  · exact hle.trans (Nat.le_add_right _ _)
  · obtain ⟨k, hk⟩ := Nat.exists_eq_add_of_le (Nat.le_of_not_le hle)
    -- `s² - (2s - x)x` is a square
    have hsq : k * x ≤ Nat.sqrt n * Nat.sqrt n := by
      zify at hk ⊢
      nlinarith [sq_nonneg ((Nat.sqrt n : ℤ) - x)]
    have hdiv : k ≤ n / x := (Nat.le_div_iff_mul_le hx).2 (hsq.trans (Nat.sqrt_le n))
    omega

/-- Where a step from above the root does not fall, there is the root. -/
theorem eq_sqrt_of_le_step (hx : 0 < x) (hs : Nat.sqrt n ≤ x) (hle : x ≤ step n x) :
    x = Nat.sqrt n := by
  have hdiv : x ≤ n / x := by
    unfold step at hle
    omega
  exact Nat.le_antisymm (Nat.le_sqrt.2 ((Nat.le_div_iff_mul_le hx).1 hdiv)) hs

theorem two_le_add_div (hx : 0 < x) (hn : x ≤ n) : 2 ≤ x + n / x := by
  have hdiv := Nat.div_pos hn hx
  omega

/-- The sum is largest at the ends. -/
theorem add_div_le (hx : 0 < x) (hn : x ≤ n) : x + n / x ≤ n + 1 := by
  have hdiv := Nat.div_pos hn hx
  have hprod := Nat.div_mul_le_self n x
  nlinarith

end Newton

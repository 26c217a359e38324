import Mathlib.Tactic

/-!
# Rounding down to leading bits

A number is cut to a multiple of `2 ^ cut L`, where `L` is the place of its highest bit. When the highest
bit is never cut, it stays where it is (`log2_round`), and numbers stay in order (`round_mono`).
`precision` is what is lost.
-/

namespace RoundDown

variable {cut : ℕ → ℕ} {v w : ℕ}

/-- The number without its last `cut L` bits. -/
def round (cut : ℕ → ℕ) (v : ℕ) : ℕ := v / 2 ^ cut v.log2 * 2 ^ cut v.log2

theorem round_zero (cut : ℕ → ℕ) : round cut 0 = 0 := by
  rw [round, Nat.zero_div, Nat.zero_mul]

theorem round_le (v : ℕ) : round cut v ≤ v := Nat.div_mul_le_self _ _

theorem lt_round_add (v : ℕ) : v < round cut v + 2 ^ cut v.log2 := by
  have hmod := Nat.mod_lt v (Nat.two_pow_pos (cut v.log2))
  have hdiv := Nat.div_add_mod' v (2 ^ cut v.log2)
  unfold round
  omega

theorem round_eq (h : cut v.log2 = 0) : round cut v = v := by
  rw [round, h, pow_zero, Nat.div_one, Nat.mul_one]

/-- What is divisible by more than is cut is not below the rounding. -/
theorem le_round {c : ℕ} (hc : cut v.log2 ≤ c) (hd : 2 ^ c ∣ w) (hw : w ≤ v) : w ≤ round cut v := by
  obtain ⟨q, rfl⟩ := (pow_dvd_pow 2 hc).trans hd
  rw [round, Nat.mul_comm]
  exact Nat.mul_le_mul_right _ ((Nat.le_div_iff_mul_le (Nat.two_pow_pos _)).2 (Nat.mul_comm _ _ ▸ hw))

section
variable (hcut : ∀ L, cut L ≤ L)
include hcut

/-- The highest bit stays. -/
theorem pow_le_round (hv : v ≠ 0) : 2 ^ v.log2 ≤ round cut v :=
  le_round (hcut _) (dvd_refl _) (Nat.log2_self_le hv)

theorem round_ne_zero (hv : v ≠ 0) : round cut v ≠ 0 :=
  Nat.ne_of_gt (Nat.lt_of_lt_of_le (Nat.two_pow_pos _) (pow_le_round hcut hv))

theorem log2_round (v : ℕ) : (round cut v).log2 = v.log2 := by
  by_cases hv : v = 0
  · rw [hv, round_zero]
  · rw [Nat.log2_eq_iff (round_ne_zero hcut hv)]
    exact ⟨pow_le_round hcut hv, (round_le v).trans_lt Nat.lt_log2_self⟩

/-- **Rounding keeps the order.** -/
theorem round_mono (h : v ≤ w) : round cut v ≤ round cut w := by
  by_cases hv : v = 0
  · rw [hv, round_zero]
    exact Nat.zero_le _
  · have hw : w ≠ 0 := fun h0 => hv (Nat.le_zero.1 (h0 ▸ h))
    have hlog : v.log2 ≤ w.log2 := (Nat.le_log2 hw).2 ((Nat.log2_self_le hv).trans h)
    rcases Nat.eq_or_lt_of_le hlog with he | hlt
    · rw [round, round, he]
      exact Nat.mul_le_mul_right _ (Nat.div_le_div_right h)
    · -- the highest bit of `w` alone is more than `v`
      calc round cut v ≤ v := round_le v
        _ ≤ 2 ^ (v.log2 + 1) := Nat.lt_log2_self.le
        _ ≤ 2 ^ w.log2 := Nat.pow_le_pow_right (by decide) hlt
        _ ≤ round cut w := pow_le_round hcut hw

end

/-- A part in `2 ^ p` is lost at most, where `p` bits after the highest are kept. -/
theorem precision {p : ℕ} (hv : v ≠ 0) (hp : cut v.log2 + p ≤ v.log2) :
    (v - round cut v) * 2 ^ p < v := by
  have hlt : v < round cut v + 2 ^ cut v.log2 := lt_round_add v
  have hpow := Nat.two_pow_pos (cut v.log2)
  calc (v - round cut v) * 2 ^ p < 2 ^ cut v.log2 * 2 ^ p :=
        Nat.mul_lt_mul_of_pos_right (by omega) (Nat.two_pow_pos _)
    _ = 2 ^ (cut v.log2 + p) := (Nat.pow_add _ _ _).symm
    _ ≤ 2 ^ v.log2 := Nat.pow_le_pow_right (by decide) hp
    _ ≤ v := Nat.log2_self_le hv

end RoundDown

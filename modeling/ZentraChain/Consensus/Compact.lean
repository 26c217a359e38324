import ZentraChain.Consensus.TargetBytes
import ZentraChain.Lib.RoundDown

/-!
# Compact targets (`difficulty.rs`, `header.rs`)

The compact form of a target has an exponent and 23 bits of mantissa. It keeps the first two bytes of
the target, and a third if the highest bit is not set: the decoded target is the target rounded down
(`targetFromBits_targetToBits`).

* `TargetBytes.round_trip`: what survives, on the arrays of the source.
-/

namespace Zentra

namespace Compact

/-- The exponent in the compact form of a value. -/
def exponent (v : Nat) : Nat := (v.log2 + 1) / 8 + 1

/-- Bits that the compact form does not have, of a value with its highest bit at `L`. -/
def cut (L : Nat) : Nat := 8 * ((L + 1) / 8 - 2)

variable {v e m bits : Nat}

theorem pow_256 (n : Nat) : 256 ^ n = 2 ^ (8 * n) := (Nat.pow_mul 2 8 n).symm

/-- Both cases of the source shift by the exponent, to 24 bits. -/
theorem shift_eq (e v : Nat) : (if e ≤ 3 then v * 2 ^ (8 * (3 - e)) else v / 256 ^ (e - 3)) =
    v * 2 ^ 24 / 256 ^ e := by
  rw [pow_256, pow_256]
  split
  · rw [show 24 = 8 * (3 - e) + 8 * e by omega, Nat.pow_add, ← Nat.mul_assoc,
      Nat.mul_div_cancel _ (Nat.two_pow_pos _)]
  · rw [show 8 * e = 8 * (e - 3) + 24 by omega, Nat.pow_add,
      Nat.mul_div_mul_right _ _ (Nat.two_pow_pos _)]

theorem lt_pow_exponent (v : Nat) : v < 2 ^ (8 * exponent v - 1) := by
  refine Nat.lt_of_lt_of_le Nat.lt_log2_self (Nat.pow_le_pow_right (by decide) ?_)
  unfold exponent
  omega

/-- The mantissa leaves the sign bit clear. -/
theorem mantissa_lt (v : Nat) : v * 2 ^ 24 / 256 ^ exponent v < 2 ^ 23 := by
  have hlt := lt_pow_exponent v
  have hpow : 256 ^ exponent v = 2 * 2 ^ (8 * exponent v - 1) := by
    rw [← Nat.pow_succ', pow_256]
    congr 1
  rw [Nat.div_lt_iff_lt_mul (Nat.pow_pos (by decide)), hpow]
  calc v * 2 ^ 24 < 2 ^ (8 * exponent v - 1) * 2 ^ 24 :=
        Nat.mul_lt_mul_of_pos_right hlt (Nat.two_pow_pos _)
    _ = 2 ^ 23 * (2 * 2 ^ (8 * exponent v - 1)) := by ring

/-- The highest bit of the mantissa is that of the first byte. -/
theorem signBit_iff (hv : v ≠ 0) :
    v * 2 ^ 24 / 256 ^ (v.log2 / 8 + 1) / 2 ^ 23 % 2 = 1 ↔ v.log2 % 8 = 7 := by
  have hlo := Nat.log2_self_le hv
  have hhi := Nat.lt_log2_self (n := v)
  have hpow : 256 ^ (v.log2 / 8 + 1) * 2 ^ 23 = 2 ^ (8 * (v.log2 / 8) + 7) * 2 ^ 24 := by
    rw [pow_256, ← Nat.pow_add, ← Nat.pow_add]
    congr 1
  rw [Nat.div_div_eq_div_mul, hpow, Nat.mul_div_mul_right _ _ (Nat.two_pow_pos _)]
  constructor
  · intro hbit
    by_contra h7
    have hle : v < 2 ^ (8 * (v.log2 / 8) + 7) :=
      Nat.lt_of_lt_of_le hhi (Nat.pow_le_pow_right (by decide) (by omega))
    rw [Nat.div_eq_of_lt hle] at hbit
    cases hbit
  · intro h7
    have hL : v.log2 = 8 * (v.log2 / 8) + 7 := by omega
    rw [← hL]
    have hone : v / 2 ^ v.log2 = 1 := by
      refine Nat.div_eq_of_lt_le (by rwa [Nat.one_mul]) ?_
      rw [Nat.pow_succ] at hhi
      omega
    rw [hone]

/-- **The compact form** has the exponent, and as much of the value as 23 bits hold. -/
theorem targetToBits_eq (hv : v ≠ 0) :
    targetToBits ⟨v⟩ = exponent v * 2 ^ 24 + v * 2 ^ 24 / 256 ^ exponent v := by
  have hm := mantissa_lt v
  unfold targetToBits
  dsimp only
  rw [if_neg hv, shift_eq]
  by_cases h7 : v.log2 % 8 = 7
  · have he : v.log2 / 8 + 1 + 1 = exponent v := by unfold exponent; omega
    rw [if_pos ((signBit_iff hv).2 h7), Nat.div_div_eq_div_mul,
      show 256 ^ (v.log2 / 8 + 1) * 256 = 256 ^ exponent v from he ▸ (Nat.pow_succ _ _).symm, he,
      Nat.mod_eq_of_lt hm]
  · have he : v.log2 / 8 + 1 = exponent v := by unfold exponent; omega
    rw [if_neg (mt (signBit_iff hv).1 h7), he, Nat.mod_eq_of_lt hm]

theorem split_bits (e : Nat) (hm : m < 2 ^ 23) :
    (e * 2 ^ 24 + m) / 2 ^ 24 = e ∧ (e * 2 ^ 24 + m) % 2 ^ 23 = m := by
  constructor
  · rw [Nat.mul_comm, Nat.mul_add_div (Nat.two_pow_pos _),
      Nat.div_eq_of_lt (hm.trans (by decide)), Nat.add_zero]
  · rw [show e * 2 ^ 24 = 2 ^ 23 * (2 * e) by ring, Nat.mul_add_mod, Nat.mod_eq_of_lt hm]

/-- Decoding shifts a mantissa of three bytes or fewer back. -/
theorem targetFromBits_short (hdiv : bits / 2 ^ 24 = e) (hmod : bits % 2 ^ 23 = m) (he : 0 < e)
    (he' : e ≤ 3) (hm : m < 2 ^ 23) : (Header.targetFromBits bits).val = m / 256 ^ (3 - e) := by
  unfold Header.targetFromBits
  dsimp only
  rw [hdiv, hmod, if_neg (Nat.ne_of_gt he), if_pos he']
  clear hdiv hmod
  obtain rfl | rfl | rfl : e = 1 ∨ e = 2 ∨ e = 3 := by omega
  · have h1 : m / 2 ^ 16 % 256 = m / 2 ^ 16 := by omega
    simpa [Header.byteAt] using h1
  · have h1 : m / 2 ^ 8 % 256 + m / 2 ^ 8 / 256 % 256 * 256 = m / 2 ^ 8 := by omega
    simpa [Header.byteAt] using h1
  · have h1 : m % 256 + m / 256 % 256 * 256 + m / 65536 % 256 * 65536 = m := by omega
    simpa [Header.byteAt] using h1

theorem targetFromBits_long (hdiv : bits / 2 ^ 24 = e) (hmod : bits % 2 ^ 23 = m) (he : 3 < e)
    (he' : e ≤ 32) : (Header.targetFromBits bits).val = m * 256 ^ (e - 3) := by
  have h1 : 31 - (32 - e) = e - 3 + 2 := by omega
  have h2 : 31 - (32 - e + 1) = e - 3 + 1 := by omega
  have h3 : 31 - (32 - e + 2) = e - 3 := by omega
  have hbytes : m / 65536 % 256 * 65536 + m / 256 % 256 * 256 + m % 256 = m := by omega
  unfold Header.targetFromBits Header.byteAt
  dsimp only
  rw [hdiv, hmod, if_neg (by omega), if_neg (Nat.not_le.2 he), if_pos (by omega), if_pos (by omega),
    if_pos (by omega), h1, h2, h3]
  calc m / 65536 % 256 * 256 ^ (e - 3 + 2) + m / 256 % 256 * 256 ^ (e - 3 + 1) +
        m % 256 * 256 ^ (e - 3)
      = (m / 65536 % 256 * 65536 + m / 256 % 256 * 256 + m % 256) * 256 ^ (e - 3) := by ring
    _ = m * 256 ^ (e - 3) := by rw [hbytes]

/-- **Decoding the compact form rounds down.** -/
theorem targetFromBits_targetToBits (h : v < 2 ^ 255) :
    (Header.targetFromBits (targetToBits ⟨v⟩)).val = RoundDown.round cut v := by
  by_cases hv : v = 0
  · rw [hv, RoundDown.round_zero]
    rfl
  · have he : exponent v ≤ 32 := by
      have hlog := (Nat.log2_lt hv).2 h
      unfold exponent
      omega
    have hcut : cut v.log2 = 8 * (exponent v - 3) := by
      unfold cut exponent
      omega
    have hpos : 0 < exponent v := Nat.succ_pos _
    obtain ⟨hdiv, hmod⟩ := split_bits (exponent v) (mantissa_lt v)
    rw [targetToBits_eq hv, RoundDown.round, hcut, ← pow_256]
    by_cases h3 : exponent v ≤ 3
    · rw [targetFromBits_short hdiv hmod hpos h3 (mantissa_lt v), ← shift_eq, if_pos h3, ← pow_256,
        Nat.sub_eq_zero_of_le h3, pow_zero, Nat.div_one, Nat.mul_one]
      exact Nat.mul_div_cancel _ (Nat.pow_pos (by decide))
    · rw [targetFromBits_long hdiv hmod (Nat.not_le.1 h3) he, ← shift_eq, if_neg h3]

theorem cut_le (L : Nat) : cut L ≤ L := by
  unfold cut
  omega

/-- What is rounded has the compact form that it is decoded from. -/
theorem targetToBits_round (v : Nat) :
    targetToBits ⟨RoundDown.round cut v⟩ = targetToBits ⟨v⟩ := by
  by_cases hv : v = 0
  · rw [hv, RoundDown.round_zero]
  · have hlog := RoundDown.log2_round cut_le v
    have hexp : exponent (RoundDown.round cut v) = exponent v := by rw [exponent, exponent, hlog]
    have hcut : cut v.log2 = 8 * (exponent v - 3) := by
      unfold cut exponent
      omega
    have hm : RoundDown.round cut v * 2 ^ 24 / 256 ^ exponent v = v * 2 ^ 24 / 256 ^ exponent v := by
      rw [← shift_eq, ← shift_eq]
      split
      · rename_i h3
        rw [RoundDown.round_eq]
        rw [hcut, Nat.sub_eq_zero_of_le h3]
      · rw [RoundDown.round, hcut, pow_256, Nat.mul_div_cancel _ (Nat.two_pow_pos _)]
    rw [targetToBits_eq hv, targetToBits_eq (RoundDown.round_ne_zero cut_le hv), hexp, hm]

end Compact

namespace TargetBytes

/-- The number of significant bytes. -/
def significant (t : TargetBytes) : Nat := (t.bytes.dropWhile (· = 0)).length

variable {t t' : TargetBytes}

theorem significant_eq (ht : t.val ≠ 0) : t.significant = t.val.log2 / 8 + 1 := by
  unfold significant
  rcases BigEndian.leading t.bytes with hz | ⟨n, d, rest, hd, hbytes⟩
  · refine absurd ?_ ht
    rw [val, List.eq_replicate_iff.2 ⟨t.length_eq, hz⟩, BigEndian.value_replicate_zero]
  · have hdrop : t.bytes.dropWhile (· = 0) = d :: rest := by
      rw [hbytes, List.dropWhile_append_of_pos (by simp), List.dropWhile_cons_of_neg (by simpa)]
    rw [hdrop, show t.val = _ from val_rest hbytes, log2_div hd (digits_rest hbytes), List.length_cons]

theorem decoded_val (ht : t.val < 2 ^ 255) :
    (targetFromBits (targetToBits t)).val = RoundDown.round Compact.cut t.val := by
  calc (targetFromBits (targetToBits t)).val
      = (Header.targetFromBits (targetToBits t)).val :=
        congrArg Hash.val (targetFromBits_toHash (targetToBits t))
    _ = (Header.targetFromBits (Zentra.targetToBits t.toHash)).val := by rw [targetToBits_toHash]
    _ = RoundDown.round Compact.cut t.val := Compact.targetFromBits_targetToBits ht

/-- **The round trip of a target** keeps two bytes or more of it, and is not changed by another. Targets
stay in order. -/
theorem round_trip (t : TargetBytes) (ht : t.val < 2 ^ 255) :
    (t.significant ≤ 2 → targetFromBits (targetToBits t) = t) ∧
    (2 < t.significant → (targetFromBits (targetToBits t)).val ≤ t.val ∧
      t.val < (targetFromBits (targetToBits t)).val + 256 ^ (t.significant - 2)) ∧
    targetToBits (targetFromBits (targetToBits t)) = targetToBits t ∧
    ∀ t' : TargetBytes, t'.val < 2 ^ 255 → t.val ≤ t'.val →
      (targetFromBits (targetToBits t)).val ≤ (targetFromBits (targetToBits t')).val := by
  have hd := decoded_val ht
  refine ⟨fun hn => ?_, fun hn => ⟨?_, ?_⟩, ?_, fun t' ht' hle => ?_⟩
  · refine val_injective (hd.trans ?_)
    by_cases h0 : t.val = 0
    · rw [h0, RoundDown.round_zero]
    · rw [significant_eq h0] at hn
      refine RoundDown.round_eq ?_
      unfold Compact.cut
      omega
  · rw [hd]
    exact RoundDown.round_le _
  · have h0 : t.val ≠ 0 := by
      intro h0
      have hz : t = zero := val_injective (h0.trans zero_val.symm)
      rw [hz] at hn
      exact absurd hn (by decide)
    have hcut : 2 ^ Compact.cut t.val.log2 ≤ 256 ^ (t.significant - 2) := by
      rw [Compact.pow_256, significant_eq h0]
      refine Nat.pow_le_pow_right (by decide) ?_
      unfold Compact.cut
      omega
    rw [hd]
    exact (RoundDown.lt_round_add _).trans_le (Nat.add_le_add_left hcut _)
  · have hval : (targetFromBits (targetToBits t)).toHash = ⟨RoundDown.round Compact.cut t.val⟩ :=
      congrArg Hash.mk hd
    rw [targetToBits_toHash, hval, Compact.targetToBits_round, targetToBits_toHash]
    rfl
  · rw [hd, decoded_val ht']
    exact RoundDown.round_mono Compact.cut_le hle

/-- Three bytes, the first with its highest bit set: the third is lost. -/
theorem round_trip_sign_bit :
    (targetFromBits (targetToBits (((zero.put 29 0x80).put 30 1).put 31 2))).val = 0x800100 ∧
    (((zero.put 29 0x80).put 30 1).put 31 2).val <
      (targetFromBits (targetToBits (((zero.put 29 0x80).put 30 1).put 31 2))).val +
        256 ^ ((((zero.put 29 0x80).put 30 1).put 31 2).significant - 2) :=
  ⟨by decide, ((round_trip (((zero.put 29 0x80).put 30 1).put 31 2) (by decide)).2.1 (by decide)).2⟩

end TargetBytes

end Zentra

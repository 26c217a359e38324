import ZentraChain.Types

/-!
# The emission schedule (`emission.rs`)

`blockReward` halves every `halvingInterval` blocks and stops at the supply cap;
`totalEmittedAtHeight` adds the rewards epoch by epoch, with saturation.

* `totalEmitted_succ`: the total grows by exactly the reward of the block, whatever saturates;
  hence `totalEmitted_eq_sum`, `totalEmitted_mono` and `totalEmitted_le_max`.
* `emission_closed_form`: with rewards that never rise.
-/

namespace Zentra

structure EmissionSchedule where
  initialReward : Amount
  halvingInterval : Nat
  maxSupply : Amount
  deriving DecidableEq, Repr

namespace EmissionSchedule

/-- `EmissionSchedule::new`. -/
def new (network : NetworkType) : EmissionSchedule where
  initialReward := ⟨initialRewardZents, initialRewardZents_le⟩
  halvingInterval := network.halvingInterval
  maxSupply := ⟨maxSupplyZents, by decide⟩

/-- The loop of `total_emitted_at_height`: `fuel` epochs are left, from `epoch` on. -/
def emittedLoop (s : EmissionSchedule) : Nat → Nat → Nat → Nat → Nat
  | 0, _, _, total => total
  | fuel + 1, epoch, remaining, total =>
    if remaining = 0 then total
    else
      let reward := s.initialReward.zents / 2 ^ epoch
      if reward = 0 then total
      else
        let blocks := min remaining s.halvingInterval
        emittedLoop s fuel (epoch + 1) (remaining - blocks) (satAdd total (satMul blocks reward))

/-- The total emitted up to (but not including) `height`. -/
def totalEmittedAtHeight (s : EmissionSchedule) (height : Nat) : Amount :=
  ⟨min (s.emittedLoop maxHalvings 0 height 0) s.maxSupply.zents,
    le_trans (Nat.min_le_right _ _) s.maxSupply.le_max⟩

/-- The block reward at a height. -/
def blockReward (s : EmissionSchedule) (height : Nat) : Amount :=
  let epoch := height / s.halvingInterval
  if epoch ≥ maxHalvings then .zero
  else
    let reward := s.initialReward.zents / 2 ^ epoch
    if reward = 0 then .zero
    else
      let total := (s.totalEmittedAtHeight height).zents
      if total ≥ s.maxSupply.zents then .zero
      else
        ⟨min reward (s.maxSupply.zents - total),
          le_trans (Nat.min_le_left _ _) (le_trans (Nat.div_le_self _ _) s.initialReward.le_max)⟩

/-! ## The loop without saturation -/

/-- What the loop adds, exactly and without its early exits. -/
def emittedExact (s : EmissionSchedule) : Nat → Nat → Nat → Nat
  | 0, _, _ => 0
  | fuel + 1, epoch, remaining =>
    min remaining s.halvingInterval * (s.initialReward.zents / 2 ^ epoch) +
      s.emittedExact fuel (epoch + 1) (remaining - s.halvingInterval)

variable {s : EmissionSchedule}

theorem emittedExact_zero : ∀ fuel epoch, s.emittedExact fuel epoch 0 = 0
  | 0, _ => rfl
  | fuel + 1, epoch => by simp [emittedExact, emittedExact_zero fuel (epoch + 1)]

/-- Once the halved reward is zero, nothing is added any more. -/
theorem emittedExact_reward_zero : ∀ {fuel epoch : Nat} (remaining : Nat),
    s.initialReward.zents / 2 ^ epoch = 0 → s.emittedExact fuel epoch remaining = 0
  | 0, _, _, _ => rfl
  | fuel + 1, epoch, remaining, h => by
    have hnext : s.initialReward.zents / 2 ^ (epoch + 1) = 0 := by
      rw [pow_succ, ← Nat.div_div_eq_div_mul, h, Nat.zero_div]
    have ih : s.emittedExact fuel (epoch + 1) (remaining - s.halvingInterval) = 0 :=
      emittedExact_reward_zero _ hnext
    simp [emittedExact, h, ih]

theorem emittedLoop_eq : ∀ {fuel epoch remaining total : Nat}, total ≤ u64Max →
    s.emittedLoop fuel epoch remaining total =
      min (total + s.emittedExact fuel epoch remaining) u64Max
  | 0, _, _, total, h => by simp [emittedLoop, emittedExact, h]
  | fuel + 1, epoch, remaining, total, h => by
    simp only [emittedLoop]
    split
    · rename_i hr
      rw [hr, emittedExact_zero, Nat.add_zero, Nat.min_eq_left h]
    · split
      · rename_i hz
        rw [emittedExact_reward_zero _ hz, Nat.add_zero, Nat.min_eq_left h]
      · rw [emittedLoop_eq (Saturating.add_le _ _ _)]
        have hsub : remaining - min remaining s.halvingInterval =
            remaining - s.halvingInterval := by omega
        rw [hsub, emittedExact]
        simp only [satMul, Saturating.mul, Saturating.add]
        omega

/-- One more block adds the reward of its epoch. -/
theorem emittedExact_succ (hi : 0 < s.halvingInterval) : ∀ (fuel epoch n : Nat),
    s.emittedExact fuel epoch (n + 1) = s.emittedExact fuel epoch n +
      if n / s.halvingInterval < fuel
      then s.initialReward.zents / 2 ^ (epoch + n / s.halvingInterval) else 0
  | 0, _, _ => by simp [emittedExact]
  | fuel + 1, epoch, n => by
    simp only [emittedExact]
    by_cases hn : n < s.halvingInterval
    · -- the block lies in this epoch
      have h1 : n + 1 - s.halvingInterval = 0 := by omega
      have h2 : n - s.halvingInterval = 0 := by omega
      rw [h1, h2, emittedExact_zero, Nat.min_eq_left (by omega), Nat.min_eq_left (by omega),
        Nat.div_eq_of_lt hn, if_pos (Nat.succ_pos _), Nat.succ_mul]
      simp only [Nat.add_zero]
    · -- it lies in a later one
      have h1 : n + 1 - s.halvingInterval = n - s.halvingInterval + 1 := by omega
      have hdiv : n / s.halvingInterval = (n - s.halvingInterval) / s.halvingInterval + 1 := by
        rw [← Nat.add_div_right _ hi, Nat.sub_add_cancel (by omega)]
      have hexp : epoch + 1 + (n - s.halvingInterval) / s.halvingInterval =
          epoch + ((n - s.halvingInterval) / s.halvingInterval + 1) := by omega
      rw [h1, Nat.min_eq_right (by omega), Nat.min_eq_right (by omega),
        emittedExact_succ hi fuel (epoch + 1) (n - s.halvingInterval), hdiv, hexp]
      simp only [Nat.add_lt_add_iff_right]
      omega

/-! ## Totals and rewards -/

theorem totalEmitted_eq (n : Nat) : (s.totalEmittedAtHeight n).zents =
    min (s.emittedExact maxHalvings 0 n) s.maxSupply.zents := by
  have := s.maxSupply.le_max
  simp only [totalEmittedAtHeight]
  rw [emittedLoop_eq (Nat.zero_le _)]
  omega

/-- **The total grows by exactly the block reward.** -/
theorem totalEmitted_succ (hi : 0 < s.halvingInterval) (n : Nat) :
    (s.totalEmittedAtHeight (n + 1)).zents =
      (s.totalEmittedAtHeight n).zents + (s.blockReward n).zents := by
  have hsucc := emittedExact_succ hi maxHalvings 0 n
  have h0 := totalEmitted_eq (s := s) n
  rw [totalEmitted_eq, hsucc, Nat.zero_add]
  unfold blockReward
  by_cases he : n / s.halvingInterval < maxHalvings
  · rw [if_pos he, if_neg (Nat.not_le.2 he)]
    simp only
    split_ifs with hr ht
    · rw [hr, Amount.zero_zents]; omega
    · rw [Amount.zero_zents]
      generalize s.initialReward.zents / 2 ^ (n / s.halvingInterval) = reward
      omega
    · change _ = _ + min _ (s.maxSupply.zents - _)
      generalize s.initialReward.zents / 2 ^ (n / s.halvingInterval) = reward
      omega
  · rw [if_neg he, if_pos (Nat.not_lt.1 he), Amount.zero_zents]
    omega

theorem totalEmitted_zero : (s.totalEmittedAtHeight 0).zents = 0 := by
  rw [totalEmitted_eq, emittedExact_zero, Nat.zero_min]

/-- The total is the sum of the rewards. -/
theorem totalEmitted_eq_sum (hi : 0 < s.halvingInterval) (n : Nat) :
    (s.totalEmittedAtHeight n).zents = ∑ h ∈ Finset.range n, (s.blockReward h).zents := by
  induction n with
  | zero => exact totalEmitted_zero
  | succ n ih => rw [totalEmitted_succ hi, ih, Finset.sum_range_succ]

theorem totalEmitted_mono (hi : 0 < s.halvingInterval) {m n : Nat} (h : m ≤ n) :
    (s.totalEmittedAtHeight m).zents ≤ (s.totalEmittedAtHeight n).zents := by
  induction h with
  | refl => exact Nat.le_refl _
  | step _ ih => rw [totalEmitted_succ hi]; omega

theorem totalEmitted_le_max (n : Nat) :
    (s.totalEmittedAtHeight n).zents ≤ s.maxSupply.zents := Nat.min_le_right _ _

/-- Once all is emitted, nothing is. -/
theorem blockReward_of_max {n : Nat}
    (h : s.maxSupply.zents ≤ (s.totalEmittedAtHeight n).zents) : (s.blockReward n).zents = 0 := by
  unfold blockReward
  dsimp only
  split_ifs
  · rfl
  · rfl
  · rfl

/-- A reward is at most that of its epoch. -/
theorem blockReward_le (n : Nat) :
    (s.blockReward n).zents ≤ s.initialReward.zents / 2 ^ (n / s.halvingInterval) := by
  unfold blockReward
  dsimp only
  split_ifs
  · exact Nat.zero_le _
  · exact Nat.zero_le _
  · exact Nat.zero_le _
  · exact Nat.min_le_left _ _

/-- A reward that does not reach the supply is that of its epoch. -/
theorem blockReward_eq {n : Nat} (he : n / s.halvingInterval < maxHalvings)
    (h : (s.totalEmittedAtHeight n).zents + (s.blockReward n).zents < s.maxSupply.zents) :
    (s.blockReward n).zents = s.initialReward.zents / 2 ^ (n / s.halvingInterval) := by
  unfold blockReward at h ⊢
  rw [if_neg (Nat.not_le.2 he)] at h ⊢
  dsimp only at h ⊢
  split_ifs at h ⊢ with hr ht
  · exact hr.symm
  · rw [Amount.zero_zents] at h
    omega
  · change _ + min _ _ < _ at h
    change min _ _ = _
    omega

theorem blockReward_epochs {n : Nat} (he : maxHalvings ≤ n / s.halvingInterval) :
    (s.blockReward n).zents = 0 := by
  unfold blockReward
  rw [if_pos he]
  rfl

/-- **Rewards never rise.** -/
theorem blockReward_succ_le (hi : 0 < s.halvingInterval) (n : Nat) :
    (s.blockReward (n + 1)).zents ≤ (s.blockReward n).zents := by
  have hdiv : n / s.halvingInterval ≤ (n + 1) / s.halvingInterval :=
    Nat.div_le_div_right (Nat.le_succ n)
  have hsucc := totalEmitted_succ hi n
  have hmax := s.totalEmitted_le_max (n + 1)
  by_cases he : maxHalvings ≤ (n + 1) / s.halvingInterval
  · rw [blockReward_epochs he]
    exact Nat.zero_le _
  · by_cases hlt : (s.totalEmittedAtHeight n).zents + (s.blockReward n).zents < s.maxSupply.zents
    · rw [blockReward_eq (Nat.lt_of_le_of_lt hdiv (Nat.not_le.1 he)) hlt]
      calc (s.blockReward (n + 1)).zents
          ≤ s.initialReward.zents / 2 ^ ((n + 1) / s.halvingInterval) := blockReward_le _
        _ ≤ s.initialReward.zents / 2 ^ (n / s.halvingInterval) :=
          Nat.div_le_div_left (Nat.pow_le_pow_right (by decide) hdiv) (Nat.two_pow_pos _)
    · -- this block takes what is left
      rw [blockReward_of_max (by omega)]
      exact Nat.zero_le _

/-- **Emission in closed form**: the total before a height is the sum of the rewards below it, a
reward is never higher than one before it, and all of them are within the supply. -/
theorem emission_closed_form (s : EmissionSchedule) (hi : 0 < s.halvingInterval) :
    (∀ n, (s.totalEmittedAtHeight n).zents = ∑ h ∈ Finset.range n, (s.blockReward h).zents) ∧
      (∀ h h', h ≤ h' → (s.blockReward h').zents ≤ (s.blockReward h).zents) ∧
      ∀ n, (s.totalEmittedAtHeight n).zents ≤ s.maxSupply.zents :=
  ⟨totalEmitted_eq_sum hi,
    fun _ _ h => antitone_nat_of_succ_le (f := fun n => (s.blockReward n).zents)
      (blockReward_succ_le hi) h,
    fun _ => totalEmitted_le_max _⟩

/-- A schedule whose first era alone adds up to more than a `u64`. -/
theorem emission_closed_form_saturating :
    (EmissionSchedule.totalEmittedAtHeight
      ⟨⟨u64Max, Nat.le_refl _⟩, 2, ⟨u64Max - 1, by decide⟩⟩ 2).zents = u64Max - 1 ∧
    ∑ h ∈ Finset.range 2, (EmissionSchedule.blockReward
      ⟨⟨u64Max, Nat.le_refl _⟩, 2, ⟨u64Max - 1, by decide⟩⟩ h).zents = u64Max - 1 := by
  have hsum := (emission_closed_form ⟨⟨u64Max, Nat.le_refl _⟩, 2, ⟨u64Max - 1, by decide⟩⟩
    (by decide)).1 2
  rw [← hsum]
  exact ⟨by decide, by decide⟩

theorem new_interval_pos (network : NetworkType) : 0 < (new network).halvingInterval := by
  cases network <;> decide

/-- The genesis coinbase pays the reward at height 0. -/
theorem new_blockReward_zero (network : NetworkType) :
    ((new network).blockReward 0).zents = initialRewardZents := by
  cases network <;> decide

end EmissionSchedule

end Zentra

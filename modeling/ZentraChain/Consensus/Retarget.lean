import ZentraChain.Consensus.Compact

/-!
# Retargeting (`difficulty.rs`)

The next target is the average target of the window times the ratio of two timespans, the first of
them clamped to a third and three times the second. Scaled down, the ratio is 100 by `scaledDen`,
which is 33 at least.

* `TargetBytes.Exact`: the byte loops carry nothing out; `Exact.of_average` is when.
* `nextTarget_val`: the next target in closed form.
* `stepBound_iff`: when it is within the documented bounds of the average.
* `nextDifficulty_mono`: it does not fall when the last block comes later.
-/

namespace Zentra

namespace DifficultyEngine

/-- The targets of the window, without the oldest block. -/
def windowTargets (e : DifficultyEngine) : List Nat :=
  (e.history.drop 1).map fun h => (Header.targetFromBits h.2).val

/-- Their average. -/
def averageTarget (e : DifficultyEngine) : Nat := e.windowTargets.sum / e.windowTargets.length

/-- The time from the oldest to the newest block of the window. -/
def elapsed (e : DifficultyEngine) : Nat :=
  (e.history.getLast?.map (·.1)).getD 0 - (e.history.head?.map (·.1)).getD 0

/-- An engine of the source, with some blocks recorded. -/
def recorded (lane : LaneId) (network : NetworkType) (l : List (Nat × Nat)) : DifficultyEngine :=
  l.foldl (fun e h => e.recordBlock h.1 h.2) (newWithNetwork lane network)

/-- The easiest target. -/
def genesisTarget : Nat := (Header.targetFromBits genesisDifficulty).val

/-- The target of the next block. -/
def nextTarget (e : DifficultyEngine) : Nat := (Header.targetFromBits e.nextDifficulty).val

variable {e e' : DifficultyEngine} {n : Nat}

theorem length_windowTargets : e.windowTargets.length = e.history.length - 1 := by
  rw [windowTargets, List.length_map, List.length_drop]

theorem recorded_eq (lane : LaneId) (network : NetworkType) (l : List (Nat × Nat)) :
    recorded lane network l = { newWithNetwork lane network with
      history := l.rtake ((newWithNetwork lane network).windowSize + 1) } :=
  foldl_recordBlock rfl l

theorem recorded_time (lane : LaneId) (network : NetworkType) (l : List (Nat × Nat)) :
    (recorded lane network l).targetBlockTimeMs = 60000 := by
  rw [recorded_eq]
  rfl

theorem recorded_short (lane : LaneId) (network : NetworkType) (l : List (Nat × Nat)) :
    (recorded lane network l).history.length ≤ 20 := by
  have hw := windowSize_newWithNetwork lane network
  rw [recorded_eq, List.rtake_eq_reverse_take_reverse, List.length_reverse, List.length_take]
  omega

theorem genesisTarget_lt : genesisTarget < 2 ^ 244 := by decide

/-- Targets of the window that are no easier than the easiest have such an average. -/
theorem averageTarget_le (h : ∀ v ∈ e.windowTargets, v ≤ genesisTarget) :
    e.averageTarget ≤ genesisTarget := by
  have hsum := List.sum_le_card_nsmul _ genesisTarget h
  rw [smul_eq_mul] at hsum
  exact Nat.div_le_of_le_mul hsum

/-- A window of targets whose average is no easier than the easiest sums up to less than 256 bits. -/
theorem sum_windowTargets_lt (hs : e.history.length ≤ 20) (ha : e.averageTarget ≤ genesisTarget) :
    e.windowTargets.sum < 2 ^ 256 := by
  have hlen := e.length_windowTargets
  have hg := genesisTarget_lt
  by_cases hn : e.windowTargets.length = 0
  · rw [List.length_eq_zero_iff.1 hn, List.sum_nil]
    exact Nat.two_pow_pos _
  · have hlt := Nat.lt_mul_div_succ e.windowTargets.sum (Nat.pos_of_ne_zero hn)
    calc e.windowTargets.sum
        < e.windowTargets.length * (e.averageTarget + 1) := hlt
      _ ≤ 20 * 2 ^ 244 := Nat.mul_le_mul (by omega) (by omega)
      _ < 2 ^ 256 := by decide

end DifficultyEngine

/-! ## Sums and products without overflow -/

namespace TargetBytes

variable {e : DifficultyEngine}

/-- The arithmetic of `next_difficulty` on bytes is that on integers: no sum and no product is carried
out of the array. -/
structure Exact (e : DifficultyEngine) : Prop where
  sum : ∀ pre h post, e.history.drop 1 = pre ++ h :: post →
    ((pre.foldl (fun acc h => addTargets acc (targetFromBits h.2)) zero).added
      (targetFromBits h.2)).2 = 0
  product : ((targetAvg e).multiplied e.timespans.1).2 = 0
  adjusted : e.history.length - 1 ≠ 0 → (adjusted e).val =
    e.windowTargets.sum / e.windowTargets.length * e.timespans.1 / e.timespans.2

theorem val_targetFromBits (bits : Nat) :
    (targetFromBits bits).val = (Header.targetFromBits bits).val :=
  congrArg Hash.val (targetFromBits_toHash bits)

theorem foldl_addTargets_val (l : List (Nat × Nat)) (t : TargetBytes)
    (h : t.val + (l.map fun h => (Header.targetFromBits h.2).val).sum < 2 ^ 256) :
    (l.foldl (fun acc h => addTargets acc (targetFromBits h.2)) t).val =
      t.val + (l.map fun h => (Header.targetFromBits h.2).val).sum := by
  induction l generalizing t with
  | nil => rfl
  | cons x l ih =>
    rw [List.map_cons, List.sum_cons, ← Nat.add_assoc] at h
    have hval : (addTargets t (targetFromBits x.2)).val =
        t.val + (Header.targetFromBits x.2).val := by
      rw [addTargets_val, val_targetFromBits]
      exact Nat.mod_eq_of_lt (by omega)
    rw [List.foldl_cons, ih _ (by rw [hval]; exact h), hval, List.map_cons, List.sum_cons,
      Nat.add_assoc]

theorem targetSum_val (h : e.windowTargets.sum < 2 ^ 256) :
    (targetSum e).val = e.windowTargets.sum := by
  have hsum := foldl_addTargets_val (e.history.drop 1) zero (by rw [zero_val, Nat.zero_add]; exact h)
  rwa [zero_val, Nat.zero_add] at hsum

theorem targetAvg_val (h : e.windowTargets.sum < 2 ^ 256) : (targetAvg e).val = e.averageTarget := by
  have hlen := e.length_windowTargets
  have hval := congrArg Hash.val (divTargetByU64_toHash (targetSum e) (e.history.length - 1))
  refine hval.trans ?_
  unfold Zentra.divTargetByU64 DifficultyEngine.averageTarget
  rw [hlen]
  split
  · rename_i hn
    have hnil : e.windowTargets = [] := List.length_eq_zero_iff.1 (hlen.trans hn)
    show (targetSum e).val = _
    rw [targetSum_val h, hnil, List.sum_nil, Nat.zero_div]
  · show (targetSum e).val / _ = _
    rw [targetSum_val h]

/-- **No overflow**, where the sum of the window and the product fit in 256 bits. -/
theorem Exact.of_lt (hd : e.history.length - 1 ≠ 0 → 0 < e.timespans.2)
    (hs : e.windowTargets.sum < 2 ^ 256)
    (hp : e.averageTarget * e.timespans.1 < 2 ^ 256) : Exact e := by
  have havg := targetAvg_val hs
  have hcarry : ((targetAvg e).multiplied e.timespans.1).2 = 0 := by
    refine Nat.eq_zero_of_not_pos fun hc => ?_
    have hle := multiplied_carry.1 hc
    rw [havg] at hle
    exact absurd hp (Nat.not_lt.2 hle)
  refine ⟨fun pre h post he => ?_, hcarry, fun hn => ?_⟩
  · -- a sum up to here is no more than the whole
    have hwhole := hs
    rw [DifficultyEngine.windowTargets, he, List.map_append, List.sum_append, List.map_cons,
      List.sum_cons] at hwhole
    have hpre := foldl_addTargets_val pre zero (by rw [zero_val]; omega)
    have hval := (pre.foldl (fun acc h => addTargets acc (targetFromBits h.2)) zero).added_val
      (targetFromBits h.2)
    rw [hpre, zero_val, val_targetFromBits] at hval
    omega
  · have hval := (targetAvg e).multiplied_val e.timespans.1
    rw [hcarry, Nat.zero_mul, Nat.add_zero, havg] at hval
    unfold TargetBytes.adjusted mulDivTarget
    dsimp only
    rw [hcarry, if_neg (Nat.lt_irrefl _), divideBy_val (hd hn), hval]
    rfl

end TargetBytes

/-! ## The ratio of the timespans -/

namespace DifficultyEngine

variable {e e' : DifficultyEngine} {n t t' a : Nat}

/-- The elapsed time of `n` intervals, between a third and three times their target. -/
def clampedTimespan (n t : Nat) : Nat := max (20000 * n) (min t (180000 * n))

/-- The denominator, where the numerator is scaled down to 100. -/
def scaledDen (n t : Nat) : Nat := 60000 * n / (clampedTimespan n t / 100)

/-- Scaled down by its hundredth, a timespan is 100. -/
theorem div_hundredth {c : Nat} (h : 10000 ≤ c) : c / (c / 100) = 100 := by
  refine Nat.div_eq_of_lt_le ?_ ?_
  · omega
  · omega

theorem timespans_eq (ht : e.targetBlockTimeMs = 60000) (hn : e.history.length - 1 ≠ 0) :
    e.timespans = (100, scaledDen (e.history.length - 1) e.elapsed) := by
  unfold timespans scaledDen
  have hclamp : max ((e.history.length - 1) * 60000 / 3)
      (min e.elapsed ((e.history.length - 1) * 60000 * 3)) =
      clampedTimespan (e.history.length - 1) e.elapsed := by
    unfold clampedTimespan
    omega
  have hge : 20000 ≤ clampedTimespan (e.history.length - 1) e.elapsed := by
    unfold clampedTimespan
    omega
  have hle : clampedTimespan (e.history.length - 1) e.elapsed ≤ 180000 * (e.history.length - 1) := by
    unfold clampedTimespan
    omega
  have hden : 1 ≤ 60000 * (e.history.length - 1) /
      (clampedTimespan (e.history.length - 1) e.elapsed / 100) :=
    (Nat.one_le_div_iff (by omega)).2 (by omega)
  dsimp only
  rw [ht, show (e.history.getLast?.map (·.1)).getD 0 - (e.history.head?.map (·.1)).getD 0 =
    e.elapsed from rfl, hclamp, if_pos (by omega), div_hundredth (by omega),
    Nat.mul_comm (e.history.length - 1) 60000, Nat.max_eq_left hden]

/-- Later blocks make a smaller denominator. -/
theorem scaledDen_anti (hn : n ≠ 0) (h : t ≤ t') : scaledDen n t' ≤ scaledDen n t := by
  unfold scaledDen clampedTimespan
  refine Nat.div_le_div_left ?_ ?_
  · omega
  · omega

theorem le_scaledDen (hn : n ≠ 0) (t : Nat) : 33 ≤ scaledDen n t := by
  unfold scaledDen clampedTimespan
  rw [Nat.le_div_iff_mul_le (by omega)]
  omega

theorem scaledDen_le (n t : Nat) : scaledDen n t ≤ 300 := by
  unfold scaledDen clampedTimespan
  refine Nat.div_le_of_le_mul ?_
  omega

/-- The ratio is more than three exactly if the time is close to three times the target. -/
theorem scaledDen_eq_iff (hn : n ≠ 0) :
    scaledDen n t = 33 ↔ 100 * (60000 * n / 34 + 1) ≤ t := by
  have hge := le_scaledDen hn t
  have hlt : scaledDen n t < 34 ↔ 100 * (60000 * n / 34 + 1) ≤ t := by
    unfold scaledDen clampedTimespan
    rw [Nat.div_lt_iff_lt_mul (by omega)]
    omega
  rw [← hlt]
  omega

/-- A small average is divided down to zero exactly if the time is short. -/
theorem div_scaledDen_pos_iff (hn : n ≠ 0) (ha : 0 < a) : 0 < a * 100 / scaledDen n t ↔
    3 ≤ a ∨ 100 * (60000 * n / (100 * a + 1) + 1) ≤ t := by
  have hge := le_scaledDen hn t
  have hle := scaledDen_le n t
  rw [Nat.div_pos_iff]
  by_cases h3 : 3 ≤ a
  · exact iff_of_true ⟨by omega, by omega⟩ (.inl h3)
  · rw [or_iff_right h3, and_iff_right (by omega : 0 < scaledDen n t)]
    unfold scaledDen clampedTimespan
    rw [← Nat.lt_succ_iff, Nat.div_lt_iff_lt_mul (by omega)]
    obtain rfl | rfl : a = 1 ∨ a = 2 := by omega
    · omega
    · omega

/-! ## The next target -/

theorem genesisTarget_val : genesisTarget = 1048575 * 256 ^ 28 := by decide

theorem round_genesisTarget : RoundDown.round Compact.cut genesisTarget = genesisTarget := by decide

/-- What is encoded is clamped to the easiest target. -/
def clampedTarget (x : Nat) : Nat := if genesisTarget < x ∨ x = 0 then genesisTarget else x

theorem clampedTarget_le (x : Nat) : clampedTarget x ≤ genesisTarget := by
  unfold clampedTarget
  split
  · exact Nat.le_refl _
  · rename_i h
    exact Nat.not_lt.1 fun hlt => h (.inl hlt)

theorem clampedTarget_pos (x : Nat) : clampedTarget x ≠ 0 := by
  unfold clampedTarget
  split
  · rw [genesisTarget_val]
    exact Nat.ne_of_gt (Nat.mul_pos (by decide) (Nat.pow_pos (by decide)))
  · rename_i h
    exact fun h0 => h (.inr h0)

/-- What a target becomes in `next_difficulty`: clamped and encoded. -/
theorem round_clampedTarget_le (x : Nat) :
    RoundDown.round Compact.cut (clampedTarget x) ≤ genesisTarget :=
  (RoundDown.round_le _).trans (clampedTarget_le x)

theorem nextDifficulty_clamped (hn : e.history.length - 1 ≠ 0) :
    TargetBytes.nextDifficulty e = targetToBits ⟨clampedTarget (TargetBytes.adjusted e).val⟩ := by
  have hmax : (TargetBytes.targetFromBits genesisDifficulty).val = genesisTarget :=
    TargetBytes.val_targetFromBits _
  have hlt : (TargetBytes.targetFromBits genesisDifficulty).bytes < (TargetBytes.adjusted e).bytes ↔
      genesisTarget < (TargetBytes.adjusted e).val := by
    rw [TargetBytes.lt_iff, ← hmax]
    exact Iff.rfl
  have hzero : TargetBytes.adjusted e = .zero ↔ (TargetBytes.adjusted e).val = 0 := by
    rw [TargetBytes.eq_zero_iff]
    exact Hash.val_injective.eq_iff.symm
  rw [TargetBytes.nextDifficulty, if_neg hn, TargetBytes.targetToBits_toHash]
  congr 1
  unfold clampedTarget
  simp only [hlt, hzero]
  split
  · exact congrArg Hash.mk hmax
  · rfl

/-- The next target is never easier than the easiest. -/
theorem nextTarget_le (ht : 0 < e.targetBlockTimeMs) : e.nextTarget ≤ genesisTarget := by
  rw [nextTarget, ← TargetBytes.nextDifficulty_eq ht]
  by_cases hn : e.history.length - 1 = 0
  · rw [TargetBytes.nextDifficulty, if_pos hn]
    exact Nat.le_refl _
  · have hle := clampedTarget_le (TargetBytes.adjusted e).val
    have hlt := genesisTarget_lt
    rw [nextDifficulty_clamped hn, Compact.targetFromBits_targetToBits (by omega)]
    exact round_clampedTarget_le _

/-- Targets of the window that are no easier than the easiest are added and scaled exactly. -/
theorem exact_of_window (ht : e.targetBlockTimeMs = 60000) (hs : e.history.length ≤ 20)
    (h : ∀ v ∈ e.windowTargets, v ≤ genesisTarget) : TargetBytes.Exact e := by
  have ha := averageTarget_le h
  have hg := genesisTarget_lt
  refine .of_lt (fun hn => TargetBytes.timespans_pos hn (ht ▸ by decide))
    (sum_windowTargets_lt hs ha) ?_
  by_cases hn : e.history.length - 1 = 0
  · have hnil : e.windowTargets = [] :=
      List.length_eq_zero_iff.1 (e.length_windowTargets.trans hn)
    rw [averageTarget, hnil, List.sum_nil, Nat.zero_div, Nat.zero_mul]
    exact Nat.two_pow_pos _
  · rw [timespans_eq ht hn]
    omega

/-- **The next target**: the average over the ratio of the timespans, clamped and encoded. -/
theorem nextTarget_val (ht : e.targetBlockTimeMs = 60000) (hs : e.history.length ≤ 20)
    (hn : e.history.length - 1 ≠ 0) (ha : e.averageTarget ≤ genesisTarget) :
    e.nextTarget = RoundDown.round Compact.cut
      (clampedTarget (e.averageTarget * 100 / scaledDen (e.history.length - 1) e.elapsed)) := by
  have hspan := timespans_eq ht hn
  have hg := genesisTarget_lt
  have hexact := TargetBytes.Exact.of_lt
    (fun _ => TargetBytes.timespans_pos hn (ht ▸ by decide)) (sum_windowTargets_lt hs ha)
    (by rw [hspan]; exact (by omega : e.averageTarget * 100 < 2 ^ 256))
  have hadj : (TargetBytes.adjusted e).val =
      e.averageTarget * 100 / scaledDen (e.history.length - 1) e.elapsed := by
    rw [hexact.adjusted hn, hspan]
    rfl
  rw [nextTarget, ← TargetBytes.nextDifficulty_eq (ht ▸ by decide), nextDifficulty_clamped hn, hadj]
  exact Compact.targetFromBits_targetToBits
    (((clampedTarget_le _).trans_lt hg).trans (by decide))

/-! ## The documented bounds -/

/-- Targets of the window that are not zero have such an average. -/
theorem averageTarget_pos (hn : e.history.length - 1 ≠ 0) (h : ∀ v ∈ e.windowTargets, 0 < v) :
    0 < e.averageTarget := by
  have hlen := e.length_windowTargets
  have hsum := List.card_nsmul_le_sum _ 1 h
  rw [smul_eq_mul] at hsum
  exact Nat.div_pos (by omega) (by omega)

/-- What the documentation says of a step: the next target is positive, no easier than the easiest,
and within a third and three times the average, up to what the compact form cuts off. -/
structure StepBound (e : DifficultyEngine) : Prop where
  pos : 0 < e.nextTarget
  le_genesis : e.nextTarget ≤ genesisTarget
  le_triple : e.nextTarget ≤ 3 * e.averageTarget
  third_le : (Header.targetFromBits (targetToBits ⟨e.averageTarget / 3⟩)).val ≤ e.nextTarget

/-- The average does not vanish: it is at least 3, or enough time has elapsed for it; and the time is
less than about 2.94 times its target, or the average too small or too large for it to matter. -/
def Moderate (e : DifficultyEngine) : Prop :=
  (3 ≤ e.averageTarget ∨
    100 * (60000 * e.windowTargets.length / (100 * e.averageTarget + 1) + 1) ≤ e.elapsed) ∧
  (e.elapsed < 100 * (60000 * e.windowTargets.length / 34 + 1) ∨ e.averageTarget < 33 ∨
    genesisTarget ≤ 3 * e.averageTarget)

/-- Rounding does not take away what 100 / 33 is more than three. -/
theorem triple_lt_round (ha : 33 ≤ a) : 3 * a < RoundDown.round Compact.cut (a * 100 / 33) := by
  by_contra hle
  have hround : RoundDown.round Compact.cut (a * 100 / 33) ≤ a * 100 / 33 := RoundDown.round_le _
  by_cases hcut : Compact.cut (a * 100 / 33).log2 = 0
  · rw [RoundDown.round_eq hcut] at hle
    omega
  · have hcut15 : Compact.cut (a * 100 / 33).log2 + 15 ≤ (a * 100 / 33).log2 := by
      unfold Compact.cut at hcut ⊢
      omega
    have hprec := RoundDown.precision (by omega) hcut15
    omega

/-- When the next target is within three times the average. -/
theorem round_le_triple_iff {den : Nat} (h33 : 33 ≤ den) (h300 : den ≤ 300) :
    RoundDown.round Compact.cut (clampedTarget (a * 100 / den)) ≤ 3 * a ↔
      0 < a * 100 / den ∧ (den ≠ 33 ∨ a < 33 ∨ genesisTarget ≤ 3 * a) := by
  have hg := genesisTarget_val
  have hdef : a * 100 / den * den ≤ a * 100 := Nat.div_mul_le_self _ _
  by_cases hx : a * 100 / den = 0
  · -- the easiest target replaces zero
    have hlt : a * 100 < den := (Nat.div_eq_zero_iff.1 hx).resolve_left (by omega)
    have hclamp : clampedTarget (a * 100 / den) = genesisTarget := if_pos (.inr hx)
    rw [hclamp, round_genesisTarget, hx, hg]
    refine iff_of_false ?_ fun h => absurd h.1 (Nat.lt_irrefl _)
    norm_num
    omega
  · rw [and_iff_right (Nat.pos_of_ne_zero hx)]
    by_cases hG : genesisTarget ≤ 3 * a
    · exact iff_of_true ((round_clampedTarget_le _).trans hG) (.inr (.inr hG))
    · rw [or_iff_left hG]
      by_cases hslow : den ≠ 33 ∨ a < 33
      · have hle : a * 100 / den ≤ 3 * a := by
          rcases hslow with hden | ha
          · have hmul : a * 100 / den * 34 ≤ a * 100 / den * den := Nat.mul_le_mul_left _ (by omega)
            omega
          · have hmul : a * 100 / den * 33 ≤ a * 100 / den * den := Nat.mul_le_mul_left _ h33
            omega
        have hclamp : clampedTarget (a * 100 / den) = a * 100 / den := by
          refine if_neg ?_
          rintro (hlt | h0)
          · omega
          · exact hx h0
        refine iff_of_true ?_ hslow
        rw [hclamp]
        exact (RoundDown.round_le _).trans hle
      · obtain ⟨hden, ha⟩ := not_or.1 hslow
        obtain rfl : den = 33 := not_not.1 hden
        refine iff_of_false (Nat.not_le.2 ?_) hslow
        by_cases hmax : genesisTarget < a * 100 / 33
        · rw [show clampedTarget (a * 100 / 33) = genesisTarget from if_pos (.inl hmax),
            round_genesisTarget]
          exact Nat.not_le.1 hG
        · have hclamp : clampedTarget (a * 100 / 33) = a * 100 / 33 :=
            if_neg fun h => h.elim hmax hx
          rw [hclamp]
          exact triple_lt_round (Nat.not_lt.1 ha)

/-- A third of the average is not cut off. -/
theorem third_le_clampedTarget {den : Nat} (h33 : 33 ≤ den) (h300 : den ≤ 300)
    (ha : a ≤ genesisTarget) : a / 3 ≤ clampedTarget (a * 100 / den) := by
  unfold clampedTarget
  split
  · omega
  · calc a / 3 = a * 100 / 300 := by omega
      _ ≤ a * 100 / den := Nat.div_le_div_left h300 (by omega)

/-- **The step is within its bounds** exactly if the average does not vanish, and the time or the
average is not so that the ratio is more than three. -/
theorem stepBound_iff (lane : LaneId) (network : NetworkType) (l : List (Nat × Nat))
    (hl : 2 ≤ (recorded lane network l).history.length)
    (h : ∀ x ∈ (recorded lane network l).history, 0 < (Header.targetFromBits x.2).val ∧
      (Header.targetFromBits x.2).val ≤ genesisTarget) :
    (recorded lane network l).StepBound ↔ (recorded lane network l).Moderate := by
  have ht := recorded_time lane network l
  have hs := recorded_short lane network l
  generalize recorded lane network l = e at *
  have hn : e.history.length - 1 ≠ 0 := by omega
  have hwindow : ∀ v ∈ e.windowTargets, 0 < v ∧ v ≤ genesisTarget := by
    intro v hv
    obtain ⟨x, hx, rfl⟩ := List.mem_map.1 hv
    exact h x (List.mem_of_mem_drop hx)
  have hpos := averageTarget_pos hn fun v hv => (hwindow v hv).1
  have hle := averageTarget_le fun v hv => (hwindow v hv).2
  have hnext := nextTarget_val ht hs hn hle
  have h33 := le_scaledDen hn e.elapsed
  have h300 := scaledDen_le (e.history.length - 1) e.elapsed
  have htriple := round_le_triple_iff (a := e.averageTarget) h33 h300
  rw [← hnext, div_scaledDen_pos_iff hn hpos, ne_eq, scaledDen_eq_iff hn, Nat.not_le,
    ← length_windowTargets] at htriple
  refine ⟨fun hb => htriple.1 hb.le_triple, fun hm => ⟨?_, ?_, htriple.2 hm, ?_⟩⟩
  · rw [hnext]
    exact Nat.pos_of_ne_zero (RoundDown.round_ne_zero Compact.cut_le (clampedTarget_pos _))
  · rw [hnext]
    exact round_clampedTarget_le _
  · have hlt := genesisTarget_lt
    rw [hnext, Compact.targetFromBits_targetToBits (by omega)]
    exact RoundDown.round_mono Compact.cut_le (third_le_clampedTarget h33 h300 hle)

end DifficultyEngine

namespace Sample

/-- Eleven blocks of one difficulty, harder than the easiest, at times as far apart as given. -/
def steadyBlocks (interval : Nat) : List (Nat × Nat) :=
  (List.range 11).map fun i => (interval * i, 0x1E0FFFFF)

end Sample

open Sample DifficultyEngine in
/-- Blocks in time. -/
theorem stepBound_in_time : (recorded .cpu .devnet (steadyBlocks 60000)).StepBound ↔
    (recorded .cpu .devnet (steadyBlocks 60000)).Moderate :=
  stepBound_iff .cpu .devnet (steadyBlocks 60000) (by decide +kernel) (by decide +kernel)

open Sample DifficultyEngine in
/-- Blocks of ten minutes ease the target by 100 to 33. -/
theorem slow_blocks_overshoot : ¬∀ (lane : LaneId) (network : NetworkType) (l : List (Nat × Nat)),
    2 ≤ (recorded lane network l).history.length →
    (∀ x ∈ (recorded lane network l).history, 0 < (Header.targetFromBits x.2).val ∧
      (Header.targetFromBits x.2).val ≤ genesisTarget) →
    (recorded lane network l).StepBound := by
  intro h
  have hle := (h .cpu .devnet (steadyBlocks 600000) (by decide +kernel) (by decide +kernel)).le_triple
  revert hle
  decide +kernel

namespace DifficultyEngine

variable {e e' : DifficultyEngine}

/-! ## Later blocks -/

theorem clampedTarget_mono {x y : Nat} (hx : 0 < x) (h : x ≤ y) :
    clampedTarget x ≤ clampedTarget y := by
  unfold clampedTarget
  split <;> split <;> omega

/-- With a later last block, the next target is no lower. -/
theorem nextTarget_mono (ht : e.targetBlockTimeMs = 60000) (ht' : e'.targetBlockTimeMs = 60000)
    (hs : e.history.length ≤ 20) (hlen : e'.history.length = e.history.length)
    (hn : e.history.length - 1 ≠ 0) (havg : e'.averageTarget = e.averageTarget)
    (h3 : 3 ≤ e.averageTarget) (hG : e.averageTarget ≤ genesisTarget)
    (helapsed : e.elapsed ≤ e'.elapsed) : e.nextTarget ≤ e'.nextTarget := by
  have hpos := (div_scaledDen_pos_iff (t := e.elapsed) hn (by omega)).2 (.inl h3)
  have hpos' := le_scaledDen hn e'.elapsed
  rw [nextTarget_val ht hs hn hG, nextTarget_val ht' (hlen ▸ hs) (hlen ▸ hn) (havg ▸ hG), hlen, havg]
  refine RoundDown.round_mono Compact.cut_le (clampedTarget_mono hpos ?_)
  exact Nat.div_le_div_left (scaledDen_anti hn helapsed) (by omega)

/-- The engine after a last block. -/
theorem recorded_concat (lane : LaneId) (network : NetworkType) (l : List (Nat × Nat)) (ts bits : Nat) :
    (recorded lane network (l ++ [(ts, bits)])).history =
      l.rtake (newWithNetwork lane network).windowSize ++ [(ts, bits)] := by
  rw [recorded_eq]
  exact List.rtake_concat_succ ..

theorem windowTargets_concat {k : List (Nat × Nat)} {ts bits : Nat} (hk : k ≠ [])
    (he : e.history = k ++ [(ts, bits)]) : e.windowTargets =
      (k.drop 1).map (fun h => (Header.targetFromBits h.2).val) ++
        [(Header.targetFromBits bits).val] := by
  rw [windowTargets, he, List.drop_append_of_le_length (List.length_pos_of_ne_nil hk), List.map_append]
  rfl

theorem elapsed_concat {k : List (Nat × Nat)} {ts bits : Nat} (hk : k ≠ [])
    (he : e.history = k ++ [(ts, bits)]) : e.elapsed = ts - (k.head hk).1 := by
  rw [elapsed, he, List.getLast?_concat, List.head?_append_of_ne_nil _ hk, List.head?_eq_some_head hk]
  rfl

/-- **Slower blocks never make mining harder**: with a later last block, and an average that is no
lower than 3, the next target is no lower. -/
theorem nextDifficulty_mono (lane : LaneId) (network : NetworkType) (l : List (Nat × Nat))
    (ts ts' bits : Nat) (hts : ts < ts')
    (h3 : 3 ≤ (recorded lane network (l ++ [(ts, bits)])).averageTarget)
    (hG : (recorded lane network (l ++ [(ts, bits)])).averageTarget ≤ genesisTarget) :
    Header.targetFromBits (recorded lane network (l ++ [(ts, bits)])).nextDifficulty ≤
      Header.targetFromBits (recorded lane network (l ++ [(ts', bits)])).nextDifficulty := by
  have he := recorded_concat lane network l ts bits
  have he' := recorded_concat lane network l ts' bits
  generalize l.rtake (newWithNetwork lane network).windowSize = k at he he'
  by_cases hk : k = []
  · -- one block has no window
    rw [averageTarget, windowTargets, he, hk] at h3
    exact absurd h3 (by simp)
  · have havg : (recorded lane network (l ++ [(ts', bits)])).averageTarget =
        (recorded lane network (l ++ [(ts, bits)])).averageTarget := by
      rw [averageTarget, averageTarget, windowTargets_concat hk he, windowTargets_concat hk he']
    have hlen : (recorded lane network (l ++ [(ts', bits)])).history.length =
        (recorded lane network (l ++ [(ts, bits)])).history.length := by
      rw [he, he', List.length_append, List.length_append]
      rfl
    have hn : (recorded lane network (l ++ [(ts, bits)])).history.length - 1 ≠ 0 := by
      have hpos := List.length_pos_of_ne_nil hk
      rw [he, List.length_append, List.length_singleton]
      omega
    refine nextTarget_mono (recorded_time ..) (recorded_time ..) (recorded_short ..) hlen hn havg h3 hG ?_
    rw [elapsed_concat hk he, elapsed_concat hk he']
    omega

end DifficultyEngine

open Sample DifficultyEngine in
/-- A last block two minutes later. -/
theorem nextDifficulty_mono_later : Header.targetFromBits
      (recorded .cpu .devnet (steadyBlocks 60000 ++ [(660000, 0x1E0FFFFF)])).nextDifficulty ≤
    Header.targetFromBits
      (recorded .cpu .devnet (steadyBlocks 60000 ++ [(780000, 0x1E0FFFFF)])).nextDifficulty :=
  nextDifficulty_mono .cpu .devnet (steadyBlocks 60000) 660000 780000 0x1E0FFFFF (by decide)
    (by decide +kernel) (by decide +kernel)

end Zentra

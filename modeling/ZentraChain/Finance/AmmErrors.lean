import ZentraChain.Finance.Amm
import ZentraChain.Lib.Newton

/-!
# Errors of the market (`amm.rs`)

The operations write one field after the other, with a check at each. In a swap no check fails after the
first write. A deposit can still fail at the reserve of zUSD or at the tokens, with the ZTR already in.

* `swapZtrToZusd_atomic`, `swapZusdToZtr_atomic`: a swap succeeds, or has written nothing.
* `sqrtLoop_eq`: the loop of the square root ends at the root.
* `mints_iff`: when a deposit gets as far as the writes.
* `error_unchanged_iff`: when an error leaves the pool as it was.
-/

namespace Zentra

/-! ## Swaps -/

namespace LiquidityPool

/-- A swap succeeds, or has written nothing. -/
theorem swapZtrToZusd_atomic (p : LiquidityPool) (a : U128) :
    (∃ r, (p.swapZtrToZusd a).2 = .ok r) ∨ (p.swapZtrToZusd a).1 = p := by
  obtain ⟨e, h, -⟩ | ⟨out, fee, x, y, -, -, -, h⟩ := p.swapZtrToZusd_cases a
  · exact .inr (by rw [h])
  · exact .inl ⟨_, by rw [h]⟩

theorem swapZusdToZtr_atomic (p : LiquidityPool) (a : U128) :
    (∃ r, (p.swapZusdToZtr a).2 = .ok r) ∨ (p.swapZusdToZtr a).1 = p := by
  obtain ⟨e, h, -⟩ | ⟨out, fee, x, y, -, -, -, h⟩ := p.swapZusdToZtr_cases a
  · exact .inr (by rw [h])
  · exact .inl ⟨_, by rw [h]⟩

end LiquidityPool

/-! ## Deposits -/

/-- **The loop ends at the root**, from any `x` above it. -/
theorem sqrtLoop_eq {n x y : Nat} (hn : 0 < n) (hx : 0 < x) (hs : Nat.sqrt n ≤ x)
    (hy : y = Newton.step n x) : sqrtLoop n x y = Nat.sqrt n := by
  fun_induction sqrtLoop n x y with
  | case1 x y h ih =>
    have hsy : Nat.sqrt n ≤ y := hy ▸ Newton.sqrt_le_step hx
    exact ih (Nat.lt_of_lt_of_le (Nat.sqrt_pos.2 hn) hsy) hsy rfl
  | case2 x y h => exact Newton.eq_sqrt_of_le_step hx hs (hy ▸ Nat.not_lt.1 h)

/-- `integer_sqrt` starts it at the number itself. -/
theorem sqrtLoop_self {n : Nat} (hn : 0 < n) : sqrtLoop n n ((n + 1) / 2) = Nat.sqrt n :=
  sqrtLoop_eq hn hn (Nat.sqrt_le_self n) (Newton.step_self hn).symm

/-- The square root of a number that is not zero is not zero. -/
theorem integerSqrt_ok {n : U128} (hn : n.val ≠ 0) :
    (∃ m, integerSqrt n = .ok m ∧ m.val ≠ 0) ↔ n.val < u128Max := by
  have hle := n.le_max
  unfold integerSqrt
  rw [if_neg hn]
  split
  · rename_i hmax
    simp only [reduceCtorEq, false_and, exists_false, false_iff]
    omega
  · rename_i hmax
    have hpos : 0 < n.val := Nat.pos_of_ne_zero hn
    refine ⟨fun _ => by omega, fun _ => ⟨_, rfl, Nat.ne_of_gt ?_⟩⟩
    simp only [sqrtLoop_self hpos]
    exact Nat.sqrt_pos.2 hpos

namespace LiquidityPool

variable {p : LiquidityPool} {a b m : U128}

/-- LP tokens can be computed for the deposit, and are not zero. -/
def Mints (p : LiquidityPool) (ztrAmount zusdAmount : U128) : Prop :=
  if p.totalLpTokens.val = 0 then ztrAmount.val * zusdAmount.val < u128Max
  else
    (ztrAmount.val * p.totalLpTokens.val ≤ u128Max ∧ 0 < p.reserveZtr.val ∧
      p.reserveZtr.val ≤ ztrAmount.val * p.totalLpTokens.val) ∧
    (zusdAmount.val * p.totalLpTokens.val ≤ u128Max ∧ 0 < p.reserveZusd.val ∧
      p.reserveZusd.val ≤ zusdAmount.val * p.totalLpTokens.val)

/-- A deposit whose ZTR fit in the reserve, but whose zUSD or LP tokens do not. -/
structure HalfDone (p : LiquidityPool) (ztrAmount zusdAmount : U128) : Prop where
  amounts : 0 < ztrAmount.val ∧ 0 < zusdAmount.val
  mints : p.Mints ztrAmount zusdAmount
  ztr : p.reserveZtr.val + ztrAmount.val ≤ u128Max
  rest : u128Max < p.reserveZusd.val + zusdAmount.val ∨
    u128Max < p.totalLpTokens.val + min (ztrAmount.val * p.totalLpTokens.val / p.reserveZtr.val)
      (zusdAmount.val * p.totalLpTokens.val / p.reserveZusd.val)

/-- The LP tokens for a deposit into a pool that has some. -/
theorem lpTokensFor_eq_ok (hl : p.totalLpTokens.val ≠ 0) : p.lpTokensFor a b = .ok m ↔
    (a.val * p.totalLpTokens.val ≤ u128Max ∧ 0 < p.reserveZtr.val) ∧
    (b.val * p.totalLpTokens.val ≤ u128Max ∧ 0 < p.reserveZusd.val) ∧
    m.val = min (a.val * p.totalLpTokens.val / p.reserveZtr.val)
      (b.val * p.totalLpTokens.val / p.reserveZusd.val) := by
  unfold lpTokensFor
  rw [if_neg hl]
  cases hz : a.checkedMul p.totalLpTokens with
  | none =>
    have hlt := U128.checkedMul_eq_none.1 hz
    simp only [reduceCtorEq, false_iff]
    omega
  | some az =>
    cases hu : b.checkedMul p.totalLpTokens with
    | none =>
      have hlt := U128.checkedMul_eq_none.1 hu
      dsimp only
      split <;> simp only [reduceCtorEq, false_iff] <;> omega
    | some bz =>
      have haz := U128.checkedMul_eq_some.1 hz
      have hbz := U128.checkedMul_eq_some.1 hu
      have hazle := az.le_max
      have hbzle := bz.le_max
      dsimp only
      split
      · simp only [reduceCtorEq, false_iff]
        omega
      · split
        · simp only [reduceCtorEq, false_iff]
          omega
        · rw [Except.ok.injEq, U128.ext_iff, U128.min_val, ← haz, ← hbz, eq_comm]
          refine ⟨fun h => ⟨⟨hazle, by omega⟩, ⟨hbzle, by omega⟩, h⟩, fun h => h.2.2⟩

theorem mints_iff (ha : 0 < a.val) (hb : 0 < b.val) :
    p.Mints a b ↔ ∃ m, p.lpTokensFor a b = .ok m ∧ m.val ≠ 0 := by
  unfold Mints
  split
  · rename_i hl
    unfold lpTokensFor
    rw [if_pos hl]
    cases hm : a.checkedMul b with
    | none =>
      have hlt := U128.checkedMul_eq_none.1 hm
      simp only [reduceCtorEq, false_and, exists_false, iff_false]
      omega
    | some n =>
      have hn := U128.checkedMul_eq_some.1 hm
      rw [← hn]
      exact (integerSqrt_ok (hn ▸ Nat.ne_of_gt (Nat.mul_pos ha hb))).symm
  · rename_i hl
    simp only [lpTokensFor_eq_ok hl]
    constructor
    · rintro ⟨⟨haz, hx, hxle⟩, hbz, hy, hyle⟩
      have hz := Nat.div_pos hxle hx
      have hu := Nat.div_pos hyle hy
      refine ⟨⟨_, ?_⟩, ⟨⟨haz, hx⟩, ⟨hbz, hy⟩, rfl⟩, ?_⟩
      · exact (Nat.min_le_left _ _).trans ((Nat.div_le_self _ _).trans haz)
      · show min _ _ ≠ 0
        omega
    · rintro ⟨m, ⟨⟨haz, hx⟩, ⟨hbz, hy⟩, hm⟩, hne⟩
      refine ⟨⟨haz, hx, ?_⟩, hbz, hy, ?_⟩
      · by_contra hlt
        rw [Nat.div_eq_of_lt (Nat.not_le.1 hlt), Nat.zero_min] at hm
        exact hne hm
      · by_contra hlt
        rw [Nat.div_eq_of_lt (Nat.not_le.1 hlt), Nat.min_zero] at hm
        exact hne hm

/-- The first LP tokens always fit. -/
theorem tokens_overflow_iff (h : p.lpTokensFor a b = .ok m) :
    u128Max < p.totalLpTokens.val + m.val ↔
      u128Max < p.totalLpTokens.val + min (a.val * p.totalLpTokens.val / p.reserveZtr.val)
        (b.val * p.totalLpTokens.val / p.reserveZusd.val) := by
  by_cases hl : p.totalLpTokens.val = 0
  · have hm := m.le_max
    simp only [hl, Nat.mul_zero, Nat.zero_div, Nat.min_self]
    omega
  · rw [((lpTokensFor_eq_ok hl).1 h).2.2]

/-- Half done is what gets as far as the writes and fails at the second or the third. -/
theorem halfDone_iff (ha : 0 < a.val) (hb : 0 < b.val) (hm : p.lpTokensFor a b = .ok m)
    (hne : m.val ≠ 0) (hx : p.reserveZtr.val + a.val ≤ u128Max) :
    p.HalfDone a b ↔ u128Max < p.reserveZusd.val + b.val ∨
      u128Max < p.totalLpTokens.val + m.val := by
  rw [tokens_overflow_iff hm]
  exact ⟨HalfDone.rest, fun h => ⟨⟨ha, hb⟩, (mints_iff ha hb).2 ⟨m, hm, hne⟩, hx, h⟩⟩

/-- **An error of a deposit** leaves the pool as it was, unless the deposit is half done. -/
theorem addLiquidity_unchanged_iff (p : LiquidityPool) (a b : U128) :
    ((∃ e, (p.addLiquidity a b).2 = .error (.error e)) → (p.addLiquidity a b).1 = p) ↔
      ¬p.HalfDone a b := by
  obtain ⟨e, h, -, hstop⟩ | ⟨m, x, ha, hb, hm, hne, hx, hrest⟩ := p.addLiquidity_cases a b
  · rw [h]
    refine iff_of_true (fun _ => rfl) fun hd => ?_
    obtain ⟨m, hm, hne⟩ := (mints_iff hd.amounts.1 hd.amounts.2).1 hd.mints
    exact absurd hd.ztr (Nat.not_le.2 (hstop m hd.amounts.1 hd.amounts.2 hm hne))
  rw [halfDone_iff ha hb hm hne (hx ▸ x.le_max)]
  -- from here on the pool has changed
  have hchanged : ∀ q : LiquidityPool, q.reserveZtr = x → q ≠ p := by
    intro q hq heq
    rw [heq] at hq
    rw [hq] at hx
    omega
  obtain ⟨hlt, h⟩ | ⟨y, hy, hrest⟩ := hrest
  · rw [h]
    exact iff_of_false (fun hsame => hchanged _ rfl (hsame ⟨_, rfl⟩)) (not_not_intro (.inl hlt))
  obtain ⟨hlt, h⟩ | ⟨l, hl, h⟩ := hrest
  · rw [h]
    exact iff_of_false (fun hsame => hchanged _ rfl (hsame ⟨_, rfl⟩)) (not_not_intro (.inr hlt))
  · rw [h]
    have hyle := y.le_max
    have hlle := l.le_max
    exact iff_of_true (fun ⟨e, he⟩ => by cases he) (by omega)

/-- The call returns an error. -/
def Op.Fails (p : LiquidityPool) : Op → Prop
  | .swapZtrToZusd a => ∃ e, (p.swapZtrToZusd a).2 = .error (.error e)
  | .swapZusdToZtr a => ∃ e, (p.swapZusdToZtr a).2 = .error (.error e)
  | .addLiquidity a b => ∃ e, (p.addLiquidity a b).2 = .error (.error e)
  | .injectProtocolLiquidity a b => ∃ e, (p.injectProtocolLiquidity a b).2 = .error (.error e)

/-- The call is a deposit that is half done. -/
def Op.HalfDone (p : LiquidityPool) : Op → Prop
  | .addLiquidity a b => p.HalfDone a b
  | _ => False

theorem injectProtocolLiquidity_cases (p : LiquidityPool) (a b : U128) :
    (∃ m, (p.injectProtocolLiquidity a b).2 = .ok m) ∨ (p.injectProtocolLiquidity a b).1 = p := by
  unfold injectProtocolLiquidity
  split
  · exact .inr rfl
  · split
    · exact .inr rfl
    · exact .inl ⟨_, rfl⟩

/-- What succeeds or has written nothing leaves the pool with an error. -/
theorem unchanged_of_cases {α : Type} {r : LiquidityPool × Except AmmStop α}
    (h : (∃ x, r.2 = .ok x) ∨ r.1 = p) : (∃ e, r.2 = .error (.error e)) → r.1 = p := by
  rintro ⟨e, he⟩
  rcases h with ⟨x, hx⟩ | h
  · rw [hx] at he
    cases he
  · exact h

/-- **Atomic operations**: an error leaves the pool as it was, unless the call is a deposit that is half
done. -/
theorem error_unchanged_iff (p : LiquidityPool) (op : Op) :
    (op.Fails p → op.apply p = p) ↔ ¬op.HalfDone p := by
  cases op with
  | swapZtrToZusd a =>
    exact iff_of_true (unchanged_of_cases (p.swapZtrToZusd_atomic a)) not_false
  | swapZusdToZtr a =>
    exact iff_of_true (unchanged_of_cases (p.swapZusdToZtr_atomic a)) not_false
  | addLiquidity a b => exact addLiquidity_unchanged_iff p a b
  | injectProtocolLiquidity a b =>
    exact iff_of_true (unchanged_of_cases (p.injectProtocolLiquidity_cases a b)) not_false

end LiquidityPool

namespace Sample

/-- One LP token, after an injection of zUSD alone. -/
def lopsided : LiquidityPool :=
  (LiquidityPool.injectProtocolLiquidity
    { reserveZtr := ⟨1, by decide⟩
      reserveZusd := ⟨1, by decide⟩
      totalLpTokens := ⟨1, by decide⟩
      totalLpBurned := .zero
      totalVolumeZtr := .zero
      totalFeesCaptured := .zero } .zero ⟨2 ^ 127, by decide⟩).1

end Sample

open Sample in
/-- A deposit of as much again: the zUSD overflow with the ZTR in. -/
theorem deposit_half_done :
    ¬∀ (p : LiquidityPool) (op : LiquidityPool.Op), op.Fails p → op.apply p = p := by
  intro h
  have hsame := h lopsided (.addLiquidity ⟨1, by decide⟩ ⟨2 ^ 127 + 1, by decide⟩)
    ⟨.overflow, by decide +kernel⟩
  exact absurd hsame (by decide +kernel)

end Zentra

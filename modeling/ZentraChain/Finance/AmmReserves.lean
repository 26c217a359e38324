import ZentraChain.Finance.IntegerSqrt
import ZentraChain.Finance.Pol

/-!
# Reserves behind the LP tokens (`amm.rs`)

`add_liquidity` divides by both reserves as soon as there are LP tokens. A swap takes less than the
reserve and keeps the product of both; an injection only adds, and mints nothing that stays; the first
LP tokens come with a deposit on both sides.

* `addLiquidity_minted`: LP tokens are minted with both amounts in the reserves.
* `Op.backed`, `run_backed`: LP tokens have reserves behind them after any calls.
* `Backed.addLiquidity_panics_iff`: then a deposit does not divide by zero.
-/

namespace Zentra

namespace LiquidityPool

/-- LP tokens have both reserves behind them. -/
def Backed (p : LiquidityPool) : Prop :=
  0 < p.totalLpTokens.val → 0 < p.reserveZtr.val ∧ 0 < p.reserveZusd.val

variable {p : LiquidityPool} {a b : U128}

/-! ## One call -/

/-- A deposit that mints LP tokens has both its amounts in the reserves. -/
theorem addLiquidity_minted (p : LiquidityPool) (a b : U128) :
    (p.addLiquidity a b).1.totalLpTokens = p.totalLpTokens ∨
      0 < (p.addLiquidity a b).1.reserveZtr.val ∧ 0 < (p.addLiquidity a b).1.reserveZusd.val := by
  obtain ⟨e, h, -⟩ | ⟨m, x, ha, hb, -, -, hx, hrest⟩ := p.addLiquidity_cases a b
  · exact .inl (by rw [h])
  obtain ⟨-, h⟩ | ⟨y, hy, hrest⟩ := hrest
  · exact .inl (by rw [h])
  obtain ⟨-, h⟩ | ⟨l, -, h⟩ := hrest
  · exact .inl (by rw [h])
  · rw [h]
    exact .inr ⟨show 0 < x.val by omega, show 0 < y.val by omega⟩

/-- An injection mints LP tokens only to burn them. -/
theorem injectProtocolLiquidity_tokens (p : LiquidityPool) (a b : U128) :
    (p.injectProtocolLiquidity a b).1.totalLpTokens = p.totalLpTokens := by
  unfold injectProtocolLiquidity
  split
  · rfl
  · split <;> rfl

/-- A pool without LP tokens needs nothing behind them. -/
theorem Backed.of_none {q : LiquidityPool} (hl : p.totalLpTokens.val = 0)
    (hq : q.totalLpTokens = p.totalLpTokens) : q.Backed := by
  intro hpos
  rw [hq, hl] at hpos
  omega

/-- Only a deposit gives a pool its first LP tokens. -/
theorem Op.first_tokens (hl : p.totalLpTokens.val = 0) (op : Op) : (op.apply p).Backed := by
  cases op with
  | swapZtrToZusd a => exact .of_none hl (swapZtrToZusd_keeps p a).1
  | swapZusdToZtr a => exact .of_none hl (swapZusdToZtr_keeps p a).1
  | addLiquidity a b =>
    rcases addLiquidity_minted p a b with hkeep | hres
    · exact .of_none hl hkeep
    · exact fun _ => hres
  | injectProtocolLiquidity a b => exact .of_none hl (injectProtocolLiquidity_tokens p a b)

/-- **A call keeps reserves behind the LP tokens**: where there are some, the value of each does not
fall, and it would with an empty reserve. -/
theorem Op.backed (h : p.Backed) (op : Op) : (op.apply p).Backed := by
  rcases Nat.eq_zero_or_pos p.totalLpTokens.val with hl | hl
  · exact op.first_tokens hl
  · intro hpos
    obtain ⟨hx, hy⟩ := h hl
    exact (op.grows hl).1.pos hpos hx hy

/-! ## Any calls -/

theorem new_backed : new.Backed := fun h => absurd h (Nat.lt_irrefl 0)

theorem run_backed : ∀ (ops : List Op) {p : LiquidityPool}, p.Backed → (p.run ops).Backed
  | [], _, h => h
  | op :: ops, _, h => run_backed ops (op.backed h)

/-! ## Deposits -/

/-- With reserves behind the LP tokens, the panic that is left is that of `integer_sqrt`. -/
theorem Backed.lpTokensFor_panics_iff (h : p.Backed) :
    p.lpTokensFor a b = .error .panic ↔ p.totalLpTokens.val = 0 ∧ a.val * b.val = u128Max := by
  unfold lpTokensFor
  split
  · rename_i hl
    cases hm : a.checkedMul b with
    | none =>
      have hlt := U128.checkedMul_eq_none.1 hm
      simp [Nat.ne_of_gt hlt]
    | some n =>
      have hn := U128.checkedMul_eq_some.1 hm
      simp only [integerSqrt_panics_iff, hl, hn, true_and]
  · rename_i hl
    obtain ⟨hx, hy⟩ := h (Nat.pos_of_ne_zero hl)
    cases a.checkedMul p.totalLpTokens with
    | none => simp [hl]
    | some az =>
      simp only [Nat.ne_of_gt hx, if_false]
      cases b.checkedMul p.totalLpTokens with
      | none => simp [hl]
      | some bz => simp [Nat.ne_of_gt hy, hl]

/-- A deposit panics only where its LP tokens are computed. -/
theorem addLiquidity_panics (p : LiquidityPool) (a b : U128) :
    (p.addLiquidity a b).2 = .error .panic ↔
      0 < a.val ∧ 0 < b.val ∧ p.lpTokensFor a b = .error .panic := by
  obtain ⟨e, h, hpanic, -⟩ | ⟨m, x, -, -, hm, -, -, hrest⟩ := p.addLiquidity_cases a b
  · rw [h, ← hpanic]
    simp
  rw [hm]
  obtain ⟨-, h⟩ | ⟨y, -, ⟨-, h⟩ | ⟨l, -, h⟩⟩ := hrest
  · simp [h]
  · simp [h]
  · simp [h]

theorem Backed.addLiquidity_panics_iff (h : p.Backed) (a b : U128) :
    (p.addLiquidity a b).2 = .error .panic ↔
      p.totalLpTokens.val = 0 ∧ a.val * b.val = u128Max := by
  rw [addLiquidity_panics, h.lpTokensFor_panics_iff]
  refine ⟨fun hp => hp.2.2, fun hp => ?_⟩
  have hpos : 0 < a.val * b.val := by
    rw [hp.2]
    decide
  exact ⟨Nat.pos_of_mul_pos_right hpos, Nat.pos_of_mul_pos_left hpos, hp⟩

/-- **LP tokens imply reserves** in every pool that calls can lead to, whether they succeed or stop. So
no deposit divides by an empty reserve: what panics is the square root, at a first deposit. -/
theorem reserves_of_lp_tokens (ops : List Op) :
    (0 < (new.run ops).totalLpTokens.val →
      0 < (new.run ops).reserveZtr.val ∧ 0 < (new.run ops).reserveZusd.val) ∧
    ∀ ztrAmount zusdAmount : U128,
      ((new.run ops).addLiquidity ztrAmount zusdAmount).2 = .error .panic ↔
        (new.run ops).totalLpTokens.val = 0 ∧ ztrAmount.val * zusdAmount.val = u128Max := by
  have h := run_backed ops new_backed
  exact ⟨h, h.addLiquidity_panics_iff⟩

end LiquidityPool

end Zentra

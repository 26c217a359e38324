import ZentraChain.Finance.Amm

/-!
# Protocol-owned liquidity (`pol.rs`)

A deposit from another chain pays a fee into the market; the rest is for the depositor
(`processCrossChainIngest_spec`).
-/

namespace Zentra

namespace U128

def saturatingSub (a b : U128) : U128 := ⟨a.val - b.val, (Nat.sub_le _ _).trans a.le_max⟩

/-- `*` in a release build. -/
def wrappingMul (a b : U128) : U128 :=
  ⟨a.val * b.val % 2 ^ 128, Nat.le_sub_one_of_lt (Nat.mod_lt _ (Nat.two_pow_pos 128))⟩

theorem saturatingAdd_zero (a : U128) : a.saturatingAdd .zero = a :=
  ext (Nat.min_eq_left a.le_max)

end U128

/-- 50 basis points: `CROSS_CHAIN_INGEST_FEE_BPS`. -/
def ingestFeeBps : U128 := ⟨50, by decide⟩

structure IngestResult where
  netAmount : U128
  feeDeducted : U128
  lpTokensBurned : U128
  deriving DecidableEq, Repr

/-- The fee of a deposit. -/
def ingestFee (zusdAmount : U128) : U128 := (zusdAmount.wrappingMul ingestFeeBps).div bpsDenom

theorem ingestFee_le (a : U128) : (ingestFee a).val ≤ a.val :=
  calc a.val * 50 % 2 ^ 128 / 10000
      ≤ a.val * 50 / 10000 := Nat.div_le_div_right (Nat.mod_le _ _)
    _ ≤ a.val := Nat.div_le_of_le_mul (by omega)

def LiquidityPool.new : LiquidityPool := ⟨.zero, .zero, .zero, .zero, .zero, .zero⟩

/-- An injection of zUSD alone goes through. -/
theorem LiquidityPool.injectProtocolLiquidity_zusd (p : LiquidityPool) (a : U128) :
    ∃ q lp, p.injectProtocolLiquidity .zero a = (q, .ok lp) ∧
      q.reserveZusd = p.reserveZusd.saturatingAdd a := by
  unfold injectProtocolLiquidity
  split
  · rename_i h
    obtain rfl : a = .zero := U128.ext h.2
    exact ⟨p, .zero, rfl, (U128.saturatingAdd_zero _).symm⟩
  · have hlp : ∃ lp, p.lpTokensBurned .zero a = .ok lp := by
      have hz : U128.zero.saturatingMul a = .zero :=
        U128.ext (show min (0 * a.val) u128Max = 0 by rw [Nat.zero_mul, Nat.zero_min])
      unfold lpTokensBurned
      split
      · rw [hz]
        exact ⟨.zero, rfl⟩
      · extract_lets lpFrom lpFromZtr lpFromZusd
        split_ifs
        · exact ⟨_, rfl⟩
        · exact ⟨_, rfl⟩
        · exact ⟨_, rfl⟩
    obtain ⟨lp, hlp⟩ := hlp
    rw [hlp]
    exact ⟨_, lp, rfl, rfl⟩

structure ProtocolOwnedLiquidity where
  pool : LiquidityPool
  totalIngestFeesCollected : U128
  totalLpTokensBurned : U128
  deriving DecidableEq, Repr

namespace ProtocolOwnedLiquidity

def new : ProtocolOwnedLiquidity := ⟨.new, .zero, .zero⟩

/-- A deposit from another chain: its fee goes into the pool. -/
def processCrossChainIngest (p : ProtocolOwnedLiquidity) (zusdAmount : U128) :
    ProtocolOwnedLiquidity × Except AmmStop IngestResult :=
  if zusdAmount.val = 0 then (p, .ok ⟨.zero, .zero, .zero⟩)
  else
    let fee := ingestFee zusdAmount
    let net := zusdAmount.saturatingSub fee
    match p.pool.injectProtocolLiquidity .zero fee with
    | (pool, .error e) => ({ p with pool := pool }, .error e)
    | (pool, .ok lpBurned) =>
      ({ p with
          pool := pool
          totalIngestFeesCollected := p.totalIngestFeesCollected.saturatingAdd fee
          totalLpTokensBurned := p.totalLpTokensBurned.saturatingAdd lpBurned },
        .ok ⟨net, fee, lpBurned⟩)

/-- **What becomes of a deposit**: it always goes through, and is split into the fee, which is
counted and enters the reserve, and the rest. -/
theorem processCrossChainIngest_spec (p : ProtocolOwnedLiquidity) (a : U128) :
    ∃ q r, p.processCrossChainIngest a = (q, .ok r) ∧
      r.feeDeducted = ingestFee a ∧ r.netAmount.val = a.val - (ingestFee a).val ∧
      q.totalIngestFeesCollected = p.totalIngestFeesCollected.saturatingAdd (ingestFee a) ∧
      q.pool.reserveZusd = p.pool.reserveZusd.saturatingAdd (ingestFee a) := by
  unfold processCrossChainIngest
  split
  · rename_i h
    obtain rfl : a = .zero := U128.ext h
    exact ⟨p, _, rfl, rfl, rfl, (U128.saturatingAdd_zero _).symm,
      (U128.saturatingAdd_zero _).symm⟩
  · obtain ⟨q, lp, hq, hres⟩ := p.pool.injectProtocolLiquidity_zusd (ingestFee a)
    simp only [hq]
    exact ⟨_, _, rfl, rfl, rfl, rfl, hres⟩

end ProtocolOwnedLiquidity

end Zentra

import ZentraChain.Lib.ConstantProduct

/-!
# The constant-product market (`amm.rs`)

A call changes the pool through `&mut self`: each operation returns the pool it leaves, also when it
stops half way. `u128` values carry their bound; the `U256` intermediates are `Nat` with an explicit
check.

* `swapQuote_le`: what a swap pays out keeps the product of the reserves.
* `swapZtrToZusd_cases`, `swapZusdToZtr_cases`, `addLiquidity_cases`: what a call does, and when.
* `Op.grows`: no call lowers the value of a share, whether it succeeds or stops.
* `value_per_lp_grows`: nor does any sequence of calls; what swaps take of one reserve they give to
  the other; a deposit takes nothing from the holders.
-/

namespace Zentra

/-! ## `u128` -/

/-- `u128::MAX`. -/
def u128Max : Nat := 2 ^ 128 - 1

structure U128 where
  val : Nat
  le_max : val ≤ u128Max
  deriving DecidableEq, Repr

namespace U128

def zero : U128 := ⟨0, Nat.zero_le _⟩

/-- `u128::try_from`, and the result of a checked operation. -/
def ofNat? (n : Nat) : Option U128 := if h : n ≤ u128Max then some ⟨n, h⟩ else none

def checkedAdd (a b : U128) : Option U128 := ofNat? (a.val + b.val)

def checkedSub (a b : U128) : Option U128 := if b.val ≤ a.val then ofNat? (a.val - b.val) else none

def checkedMul (a b : U128) : Option U128 := ofNat? (a.val * b.val)

def saturatingAdd (a b : U128) : U128 := ⟨min (a.val + b.val) u128Max, Nat.min_le_right _ _⟩

def saturatingMul (a b : U128) : U128 := ⟨min (a.val * b.val) u128Max, Nat.min_le_right _ _⟩

/-- `/`, where the divisor is not zero. -/
def div (a b : U128) : U128 := ⟨a.val / b.val, (Nat.div_le_self _ _).trans a.le_max⟩

/-- `u128::min`. -/
def min (a b : U128) : U128 := if a.val ≤ b.val then a else b

variable {a b c : U128} {n : Nat}

@[ext] theorem ext (h : a.val = b.val) : a = b := by
  cases a; cases b; cases h; rfl

theorem ofNat?_eq_some : ofNat? n = some c ↔ c.val = n := by
  unfold ofNat?
  split
  · rename_i h
    rw [Option.some.injEq]
    exact ⟨fun he => he ▸ rfl, fun he => by cases c; cases he; rfl⟩
  · rename_i h
    exact ⟨nofun, fun he => absurd (he ▸ c.le_max) h⟩

theorem ofNat?_eq_none : ofNat? n = none ↔ u128Max < n := by
  unfold ofNat?
  split
  · rename_i h
    simp only [reduceCtorEq, false_iff]
    omega
  · rename_i h
    exact ⟨fun _ => Nat.not_le.1 h, fun _ => rfl⟩

theorem checkedAdd_eq_some : a.checkedAdd b = some c ↔ c.val = a.val + b.val := ofNat?_eq_some

theorem checkedAdd_eq_none : a.checkedAdd b = none ↔ u128Max < a.val + b.val := ofNat?_eq_none

theorem checkedMul_eq_some : a.checkedMul b = some c ↔ c.val = a.val * b.val := ofNat?_eq_some

theorem checkedMul_eq_none : a.checkedMul b = none ↔ u128Max < a.val * b.val := ofNat?_eq_none

theorem checkedSub_eq_some (h : a.checkedSub b = some c) : b.val ≤ a.val ∧ c.val = a.val - b.val := by
  unfold checkedSub at h
  split at h
  · exact ⟨‹_›, ofNat?_eq_some.1 h⟩
  · cases h

theorem checkedSub_ne_none (h : b.val ≤ a.val) : a.checkedSub b ≠ none := by
  unfold checkedSub
  rw [if_pos h, ne_eq, ofNat?_eq_none, Nat.not_lt]
  exact (Nat.sub_le _ _).trans a.le_max

theorem min_val : (min a b).val = Nat.min a.val b.val := by
  unfold min
  split
  · exact (Nat.min_eq_left ‹_›).symm
  · exact (Nat.min_eq_right (Nat.le_of_not_le ‹_›)).symm

end U128

/-! ## The pool -/

/-- 20 basis points: `AMM_SWAP_FEE_BPS`. -/
def feeBps : U128 := ⟨20, by decide⟩

/-- `BPS_DENOMINATOR`. -/
def bpsDenom : U128 := ⟨10000, by decide⟩

inductive AmmError
  | insufficientLiquidity | zeroAmount | overflow
  deriving DecidableEq, Repr

/-- How an operation stops: with an error, or with a panic. -/
inductive AmmStop
  | error (e : AmmError)
  | panic
  deriving DecidableEq, Repr

structure SwapResult where
  amountOut : U128
  feeCaptured : U128
  newReserveA : U128
  newReserveB : U128
  deriving DecidableEq, Repr

structure LiquidityPool where
  reserveZtr : U128
  reserveZusd : U128
  /-- LP tokens in circulation, without the burned ones. -/
  totalLpTokens : U128
  totalLpBurned : U128
  totalVolumeZtr : U128
  totalFeesCaptured : U128
  deriving DecidableEq, Repr

/-- `U256::checked_mul`. -/
def u256CheckedMul (a b : Nat) : Option Nat := if a * b < 2 ^ 256 then some (a * b) else none

/-- `U256::checked_add`. -/
def u256CheckedAdd (a b : Nat) : Option Nat := if a + b < 2 ^ 256 then some (a + b) else none

/-- The checks and amounts of a swap: the output and the fee. -/
def swapQuote (reserveIn reserveOut amountIn : U128) : Except AmmStop (U128 × U128) :=
  if amountIn.val = 0 then .error (.error .zeroAmount)
  else if reserveIn.val = 0 ∨ reserveOut.val = 0 then .error (.error .insufficientLiquidity)
  else
    match amountIn.checkedMul feeBps with
    | none => .error (.error .overflow)
    | some scaled =>
      let fee := scaled.div bpsDenom
      match amountIn.checkedSub fee with
      | none => .error (.error .overflow)
      | some afterFee =>
        match u256CheckedMul reserveOut.val afterFee.val,
          u256CheckedAdd reserveIn.val afterFee.val with
        | some numerator, some denominator =>
          match U128.ofNat? (numerator / denominator) with
          | none => .error (.error .overflow)
          | some out =>
            if out.val = 0 ∨ out.val ≥ reserveOut.val then .error (.error .insufficientLiquidity)
            else .ok (out, fee)
        | _, _ => .error (.error .overflow)

/-- The loop of `integer_sqrt`; below `u128::MAX` its sums do not overflow. -/
def sqrtLoop (n x y : Nat) : Nat := if y < x then sqrtLoop n y ((y + n / y) / 2) else x
termination_by x

theorem sqrtLoop_le (n x y : Nat) : sqrtLoop n x y ≤ x := by
  fun_induction sqrtLoop n x y with
  | case1 x y h ih => exact ih.trans (Nat.le_of_lt h)
  | case2 x y h => exact Nat.le_refl _

/-- `integer_sqrt`: at `u128::MAX` its first sum overflows. -/
def integerSqrt (n : U128) : Except AmmStop U128 :=
  if n.val = 0 then .ok .zero
  else if n.val = u128Max then .error .panic
  else .ok ⟨sqrtLoop n.val n.val ((n.val + 1) / 2), (sqrtLoop_le _ _ _).trans n.le_max⟩

namespace LiquidityPool

/-- Swap ZTR for zUSD. -/
def swapZtrToZusd (p : LiquidityPool) (ztrIn : U128) : LiquidityPool × Except AmmStop SwapResult :=
  match swapQuote p.reserveZtr p.reserveZusd ztrIn with
  | .error e => (p, .error e)
  | .ok (zusdOut, fee) =>
    match p.reserveZtr.checkedAdd ztrIn with
    | none => (p, .error (.error .overflow))
    | some reserveZtr =>
      let p := { p with reserveZtr := reserveZtr }
      match p.reserveZusd.checkedSub zusdOut with
      | none => (p, .error (.error .overflow))
      | some reserveZusd =>
        ({ p with
            reserveZusd := reserveZusd
            totalVolumeZtr := p.totalVolumeZtr.saturatingAdd ztrIn
            totalFeesCaptured := p.totalFeesCaptured.saturatingAdd fee },
          .ok ⟨zusdOut, fee, reserveZtr, reserveZusd⟩)

/-- Swap zUSD for ZTR. -/
def swapZusdToZtr (p : LiquidityPool) (zusdIn : U128) : LiquidityPool × Except AmmStop SwapResult :=
  match swapQuote p.reserveZusd p.reserveZtr zusdIn with
  | .error e => (p, .error e)
  | .ok (ztrOut, fee) =>
    match p.reserveZusd.checkedAdd zusdIn with
    | none => (p, .error (.error .overflow))
    | some reserveZusd =>
      let p := { p with reserveZusd := reserveZusd }
      match p.reserveZtr.checkedSub ztrOut with
      | none => (p, .error (.error .overflow))
      | some reserveZtr =>
        ({ p with
            reserveZtr := reserveZtr
            totalVolumeZtr := p.totalVolumeZtr.saturatingAdd ztrOut
            totalFeesCaptured := p.totalFeesCaptured.saturatingAdd fee },
          .ok ⟨ztrOut, fee, reserveZusd, reserveZtr⟩)

/-- The LP tokens for a deposit: the geometric mean first, then the lesser side's proportion. -/
def lpTokensFor (p : LiquidityPool) (ztrAmount zusdAmount : U128) : Except AmmStop U128 :=
  if p.totalLpTokens.val = 0 then
    match ztrAmount.checkedMul zusdAmount with
    | none => .error (.error .overflow)
    | some product => integerSqrt product
  else
    match ztrAmount.checkedMul p.totalLpTokens with
    | none => .error (.error .overflow)
    | some ztrScaled =>
      -- dividing by an empty reserve panics
      if p.reserveZtr.val = 0 then .error .panic
      else
        match zusdAmount.checkedMul p.totalLpTokens with
        | none => .error (.error .overflow)
        | some zusdScaled =>
          if p.reserveZusd.val = 0 then .error .panic
          else .ok ((ztrScaled.div p.reserveZtr).min (zusdScaled.div p.reserveZusd))

/-- Add liquidity; the LP tokens minted. -/
def addLiquidity (p : LiquidityPool) (ztrAmount zusdAmount : U128) :
    LiquidityPool × Except AmmStop U128 :=
  if ztrAmount.val = 0 ∨ zusdAmount.val = 0 then (p, .error (.error .zeroAmount))
  else
    match p.lpTokensFor ztrAmount zusdAmount with
    | .error e => (p, .error e)
    | .ok lpTokens =>
      if lpTokens.val = 0 then (p, .error (.error .insufficientLiquidity))
      else
        match p.reserveZtr.checkedAdd ztrAmount with
        | none => (p, .error (.error .overflow))
        | some reserveZtr =>
          let p := { p with reserveZtr := reserveZtr }
          match p.reserveZusd.checkedAdd zusdAmount with
          | none => (p, .error (.error .overflow))
          | some reserveZusd =>
            let p := { p with reserveZusd := reserveZusd }
            match p.totalLpTokens.checkedAdd lpTokens with
            | none => (p, .error (.error .overflow))
            | some totalLpTokens => ({ p with totalLpTokens := totalLpTokens }, .ok lpTokens)

/-- The LP tokens that an injection burns. -/
def lpTokensBurned (p : LiquidityPool) (ztrAmount zusdAmount : U128) : Except AmmStop U128 :=
  if p.totalLpTokens.val = 0 then integerSqrt (ztrAmount.saturatingMul zusdAmount)
  else
    let lpFrom (amount reserve : U128) : U128 :=
      if reserve.val > 0 then (amount.saturatingMul p.totalLpTokens).div reserve else .zero
    let lpFromZtr := lpFrom ztrAmount p.reserveZtr
    let lpFromZusd := lpFrom zusdAmount p.reserveZusd
    if lpFromZtr.val = 0 then .ok lpFromZusd
    else if lpFromZusd.val = 0 then .ok lpFromZtr
    else .ok (lpFromZtr.min lpFromZusd)

/-- Inject protocol-owned liquidity; its LP tokens are burned at once. -/
def injectProtocolLiquidity (p : LiquidityPool) (ztrAmount zusdAmount : U128) :
    LiquidityPool × Except AmmStop U128 :=
  if ztrAmount.val = 0 ∧ zusdAmount.val = 0 then (p, .ok .zero)
  else
    match p.lpTokensBurned ztrAmount zusdAmount with
    | .error e => (p, .error e)
    | .ok lpTokens =>
      ({ p with
          reserveZtr := p.reserveZtr.saturatingAdd ztrAmount
          reserveZusd := p.reserveZusd.saturatingAdd zusdAmount
          totalLpBurned := p.totalLpBurned.saturatingAdd lpTokens }, .ok lpTokens)

end LiquidityPool

/-! ## Swaps -/

section
variable {reserveIn reserveOut amountIn out fee : U128}

/-- A quote is the product formula for what is left of the amount, and less than the reserve. -/
theorem swapQuote_ok (h : swapQuote reserveIn reserveOut amountIn = .ok (out, fee)) :
    (∃ rest ≤ amountIn.val, out.val = reserveOut.val * rest / (reserveIn.val + rest)) ∧
      out.val < reserveOut.val := by
  unfold swapQuote at h
  split_ifs at h with hz hr
  split at h
  · cases h
  · rename_i scaled hscaled
    dsimp only at h
    split at h
    · cases h
    · rename_i afterFee hafter
      split at h
      · rename_i numerator denominator hnum hden
        split at h
        · cases h
        · rename_i o ho
          split_ifs at h with hbad
          cases h
          have hle : afterFee.val ≤ amountIn.val := by
            rw [(U128.checkedSub_eq_some hafter).2]
            exact Nat.sub_le _ _
          have hn : numerator = reserveOut.val * afterFee.val := by
            unfold u256CheckedMul at hnum
            split at hnum
            · exact (Option.some.inj hnum).symm
            · cases hnum
          have hd : denominator = reserveIn.val + afterFee.val := by
            unfold u256CheckedAdd at hden
            split at hden
            · exact (Option.some.inj hden).symm
            · cases hden
          refine ⟨⟨afterFee.val, hle, ?_⟩, by omega⟩
          rw [U128.ofNat?_eq_some.1 ho, hn, hd]
      · cases h

/-- **What a swap pays out** keeps the product of the reserves. -/
theorem swapQuote_le (h : swapQuote reserveIn reserveOut amountIn = .ok (out, fee)) :
    reserveIn.val * reserveOut.val ≤
      (reserveIn.val + amountIn.val) * (reserveOut.val - out.val) := by
  obtain ⟨⟨rest, hle, hout⟩, -⟩ := swapQuote_ok h
  rw [hout]
  exact ConstantProduct.le_swap hle

theorem swapQuote_lt (h : swapQuote reserveIn reserveOut amountIn = .ok (out, fee)) :
    out.val < reserveOut.val := (swapQuote_ok h).2

/-- An empty reserve has nothing to swap. -/
theorem swapQuote_empty (amountIn : U128) (h : reserveIn.val = 0 ∨ reserveOut.val = 0) :
    ∃ e, swapQuote reserveIn reserveOut amountIn = .error e := by
  unfold swapQuote
  split_ifs
  · exact ⟨_, rfl⟩
  · exact ⟨_, rfl⟩

end

namespace LiquidityPool

variable {p : LiquidityPool} {a b : U128}

/-- The pool as reserves and shares. -/
def pool (p : LiquidityPool) : ConstantProduct.Pool Nat :=
  ⟨p.reserveZtr.val, p.reserveZusd.val, p.totalLpTokens.val⟩

/-- The value of an LP token does not fall, and LP tokens are not taken. -/
def Grows (p q : LiquidityPool) : Prop :=
  ConstantProduct.Grows p.pool q.pool ∧ p.totalLpTokens.val ≤ q.totalLpTokens.val

theorem Grows.refl (p : LiquidityPool) : Grows p p := ⟨.refl _, Nat.le_refl _⟩

theorem Grows.trans {q r : LiquidityPool} (hp : 0 < p.totalLpTokens.val) (h : Grows p q)
    (h' : Grows q r) : Grows p r :=
  ⟨h.1.trans (Nat.lt_of_lt_of_le hp h.2) h'.1, h.2.trans h'.2⟩

/-- More in the reserves for the same LP tokens. -/
theorem Grows.of_le {q : LiquidityPool} (hl : q.totalLpTokens = p.totalLpTokens)
    (hx : p.reserveZtr.val ≤ q.reserveZtr.val) (hy : p.reserveZusd.val ≤ q.reserveZusd.val) :
    Grows p q :=
  ⟨.of_product (congrArg U128.val hl) (Nat.mul_le_mul hx hy),
    Nat.le_of_eq (congrArg U128.val hl).symm⟩

/-- **What a swap of ZTR does**: nothing, with an error, if there is no quote or the ZTR do not fit; else
it moves both reserves. -/
theorem swapZtrToZusd_cases (p : LiquidityPool) (a : U128) :
    (∃ e, p.swapZtrToZusd a = (p, .error e) ∧
      ∀ out fee, swapQuote p.reserveZtr p.reserveZusd a = .ok (out, fee) →
        u128Max < p.reserveZtr.val + a.val) ∨
    ∃ out fee x y : U128, swapQuote p.reserveZtr p.reserveZusd a = .ok (out, fee) ∧
      x.val = p.reserveZtr.val + a.val ∧ y.val = p.reserveZusd.val - out.val ∧
      p.swapZtrToZusd a = ({ p with
        reserveZtr := x
        reserveZusd := y
        totalVolumeZtr := p.totalVolumeZtr.saturatingAdd a
        totalFeesCaptured := p.totalFeesCaptured.saturatingAdd fee }, .ok ⟨out, fee, x, y⟩) := by
  unfold swapZtrToZusd
  cases hq : swapQuote p.reserveZtr p.reserveZusd a with
  | error e => exact .inl ⟨e, rfl, nofun⟩
  | ok r =>
    obtain ⟨out, fee⟩ := r
    cases hx : p.reserveZtr.checkedAdd a with
    | none => exact .inl ⟨_, rfl, fun _ _ _ => U128.checkedAdd_eq_none.1 hx⟩
    | some x =>
      -- after the first write no check fails
      cases hy : p.reserveZusd.checkedSub out with
      | none => exact absurd hy (U128.checkedSub_ne_none (swapQuote_lt hq).le)
      | some y =>
        simp only [hy]
        exact .inr ⟨out, fee, x, y, rfl, U128.checkedAdd_eq_some.1 hx,
          (U128.checkedSub_eq_some hy).2, rfl⟩

/-- The same for zUSD. -/
theorem swapZusdToZtr_cases (p : LiquidityPool) (a : U128) :
    (∃ e, p.swapZusdToZtr a = (p, .error e) ∧
      ∀ out fee, swapQuote p.reserveZusd p.reserveZtr a = .ok (out, fee) →
        u128Max < p.reserveZusd.val + a.val) ∨
    ∃ out fee x y : U128, swapQuote p.reserveZusd p.reserveZtr a = .ok (out, fee) ∧
      y.val = p.reserveZusd.val + a.val ∧ x.val = p.reserveZtr.val - out.val ∧
      p.swapZusdToZtr a = ({ p with
        reserveZtr := x
        reserveZusd := y
        totalVolumeZtr := p.totalVolumeZtr.saturatingAdd out
        totalFeesCaptured := p.totalFeesCaptured.saturatingAdd fee }, .ok ⟨out, fee, y, x⟩) := by
  unfold swapZusdToZtr
  cases hq : swapQuote p.reserveZusd p.reserveZtr a with
  | error e => exact .inl ⟨e, rfl, nofun⟩
  | ok r =>
    obtain ⟨out, fee⟩ := r
    cases hy : p.reserveZusd.checkedAdd a with
    | none => exact .inl ⟨_, rfl, fun _ _ _ => U128.checkedAdd_eq_none.1 hy⟩
    | some y =>
      cases hx : p.reserveZtr.checkedSub out with
      | none => exact absurd hx (U128.checkedSub_ne_none (swapQuote_lt hq).le)
      | some x =>
        simp only [hx]
        exact .inr ⟨out, fee, x, y, rfl, U128.checkedAdd_eq_some.1 hy,
          (U128.checkedSub_eq_some hx).2, rfl⟩

/-- A swap leaves the LP tokens, and the product of the reserves does not fall. -/
theorem swapZtrToZusd_keeps (p : LiquidityPool) (a : U128) :
    (p.swapZtrToZusd a).1.totalLpTokens = p.totalLpTokens ∧ Grows p (p.swapZtrToZusd a).1 := by
  obtain ⟨e, h, -⟩ | ⟨out, fee, x, y, hq, hx, hy, h⟩ := p.swapZtrToZusd_cases a
  · rw [h]
    exact ⟨rfl, .refl p⟩
  · rw [h]
    refine ⟨rfl, .of_product rfl ?_, Nat.le_refl _⟩
    show p.reserveZtr.val * p.reserveZusd.val ≤ x.val * y.val
    rw [hx, hy]
    exact swapQuote_le hq

theorem swapZusdToZtr_keeps (p : LiquidityPool) (a : U128) :
    (p.swapZusdToZtr a).1.totalLpTokens = p.totalLpTokens ∧ Grows p (p.swapZusdToZtr a).1 := by
  obtain ⟨e, h, -⟩ | ⟨out, fee, x, y, hq, hy, hx, h⟩ := p.swapZusdToZtr_cases a
  · rw [h]
    exact ⟨rfl, .refl p⟩
  · rw [h]
    refine ⟨rfl, .of_product rfl ?_, Nat.le_refl _⟩
    show p.reserveZtr.val * p.reserveZusd.val ≤ x.val * y.val
    rw [hy, hx, Nat.mul_comm, Nat.mul_comm (_ - _)]
    exact swapQuote_le hq

/-! ## Deposits -/

/-- The minted LP tokens are no more than either side's proportion. -/
theorem lpTokensFor_le {m : U128} (hl : 0 < p.totalLpTokens.val)
    (h : p.lpTokensFor a b = .ok m) : m.val ≤ a.val * p.totalLpTokens.val / p.reserveZtr.val ∧
      m.val ≤ b.val * p.totalLpTokens.val / p.reserveZusd.val := by
  unfold lpTokensFor at h
  rw [if_neg (Nat.ne_of_gt hl)] at h
  split at h
  · cases h
  · rename_i az haz
    split at h
    · cases h
    · split at h
      · cases h
      · rename_i bz hbz
        split at h
        · cases h
        · cases h
          rw [U128.checkedMul_eq_some] at haz hbz
          rw [U128.min_val]
          show Nat.min (az.val / _) (bz.val / _) ≤ _ ∧ Nat.min (az.val / _) (bz.val / _) ≤ _
          rw [haz, hbz]
          exact ⟨Nat.min_le_left _ _, Nat.min_le_right _ _⟩

/-- A deposit leaves each holder's part of both reserves. -/
def Undiluted (p q : LiquidityPool) : Prop :=
  p.reserveZtr.val * q.totalLpTokens.val ≤ q.reserveZtr.val * p.totalLpTokens.val ∧
    p.reserveZusd.val * q.totalLpTokens.val ≤ q.reserveZusd.val * p.totalLpTokens.val

theorem Undiluted.refl (p : LiquidityPool) : Undiluted p p := ⟨Nat.le_refl _, Nat.le_refl _⟩

theorem Undiluted.grows {q : LiquidityPool} (h : Undiluted p q)
    (hl : p.totalLpTokens.val ≤ q.totalLpTokens.val) : Grows p q := ⟨.of_shares h.1 h.2, hl⟩

/-- Reserves that grow for the same LP tokens dilute nobody. -/
theorem Undiluted.of_le {q : LiquidityPool} (hl : q.totalLpTokens = p.totalLpTokens)
    (hx : p.reserveZtr.val ≤ q.reserveZtr.val) (hy : p.reserveZusd.val ≤ q.reserveZusd.val) :
    Undiluted p q := by
  rw [Undiluted, hl]
  exact ⟨Nat.mul_le_mul_right _ hx, Nat.mul_le_mul_right _ hy⟩

/-- **What a deposit does**: nothing without amounts and LP tokens to mint, or if the ZTR do not fit;
else the ZTR are in, then the zUSD if they fit, and then it mints if the LP tokens fit. -/
theorem addLiquidity_cases (p : LiquidityPool) (a b : U128) :
    (∃ e, p.addLiquidity a b = (p, .error e) ∧
      (e = .panic ↔ 0 < a.val ∧ 0 < b.val ∧ p.lpTokensFor a b = .error .panic) ∧
      ∀ m, 0 < a.val → 0 < b.val → p.lpTokensFor a b = .ok m → m.val ≠ 0 →
        u128Max < p.reserveZtr.val + a.val) ∨
    ∃ m x : U128, 0 < a.val ∧ 0 < b.val ∧ p.lpTokensFor a b = .ok m ∧ m.val ≠ 0 ∧
      x.val = p.reserveZtr.val + a.val ∧
      ((u128Max < p.reserveZusd.val + b.val ∧
        p.addLiquidity a b = ({ p with reserveZtr := x }, .error (.error .overflow))) ∨
      ∃ y : U128, y.val = p.reserveZusd.val + b.val ∧
        ((u128Max < p.totalLpTokens.val + m.val ∧
          p.addLiquidity a b =
            ({ p with reserveZtr := x, reserveZusd := y }, .error (.error .overflow))) ∨
        ∃ l : U128, l.val = p.totalLpTokens.val + m.val ∧
          p.addLiquidity a b =
            ({ p with reserveZtr := x, reserveZusd := y, totalLpTokens := l }, .ok m))) := by
  unfold addLiquidity
  by_cases hz : a.val = 0 ∨ b.val = 0
  · rw [if_pos hz]
    exact .inl ⟨_, rfl, ⟨nofun, fun h => by omega⟩, fun m ha hb => by omega⟩
  rw [if_neg hz]
  cases hm : p.lpTokensFor a b with
  | error e =>
    refine .inl ⟨e, rfl, ⟨fun he => ⟨by omega, by omega, by rw [he]⟩, fun h => ?_⟩, nofun⟩
    exact Except.error.inj h.2.2
  | ok m =>
    have hpanic : ∀ e, AmmStop.error e = .panic ↔
        0 < a.val ∧ 0 < b.val ∧ (Except.ok m : Except AmmStop U128) = .error .panic := by simp
    by_cases hm0 : m.val = 0
    · simp only [hm0, if_true]
      refine .inl ⟨_, rfl, hpanic _, fun m' _ _ hm' hne => ?_⟩
      cases hm'
      exact absurd hm0 hne
    simp only [hm0, if_false]
    cases hx : p.reserveZtr.checkedAdd a with
    | none => exact .inl ⟨_, rfl, hpanic _, fun _ _ _ _ _ => U128.checkedAdd_eq_none.1 hx⟩
    | some x =>
      refine .inr ⟨m, x, by omega, by omega, rfl, hm0, U128.checkedAdd_eq_some.1 hx, ?_⟩
      cases hy : p.reserveZusd.checkedAdd b with
      | none => exact .inl ⟨U128.checkedAdd_eq_none.1 hy, rfl⟩
      | some y =>
        refine .inr ⟨y, U128.checkedAdd_eq_some.1 hy, ?_⟩
        cases hl : p.totalLpTokens.checkedAdd m with
        | none => exact .inl ⟨U128.checkedAdd_eq_none.1 hl, rfl⟩
        | some l => exact .inr ⟨l, U128.checkedAdd_eq_some.1 hl, rfl⟩

/-- **A deposit takes nothing from the holders**, also when it stops half way. -/
theorem addLiquidity_undiluted (hl : 0 < p.totalLpTokens.val) (a b : U128) :
    Undiluted p (p.addLiquidity a b).1 ∧
      p.totalLpTokens.val ≤ (p.addLiquidity a b).1.totalLpTokens.val := by
  obtain ⟨e, h, -⟩ | ⟨m, x, -, -, hm, -, hx, hrest⟩ := p.addLiquidity_cases a b
  · rw [h]
    exact ⟨.refl p, Nat.le_refl _⟩
  have hle : p.reserveZtr.val ≤ x.val := by omega
  obtain ⟨-, h⟩ | ⟨y, hy, hrest⟩ := hrest
  · rw [h]
    exact ⟨.of_le rfl hle (Nat.le_refl _), Nat.le_refl _⟩
  obtain ⟨-, h⟩ | ⟨l, hlp, h⟩ := hrest
  · rw [h]
    exact ⟨.of_le rfl hle (show _ ≤ y.val by omega), Nat.le_refl _⟩
  -- the minted LP tokens are no more than the deposit's part of each reserve
  · obtain ⟨hmx, hmy⟩ := lpTokensFor_le hl hm
    rw [h]
    refine ⟨⟨?_, ?_⟩, show _ ≤ l.val by omega⟩
    · show p.reserveZtr.val * l.val ≤ x.val * p.totalLpTokens.val
      rw [hlp, hx]
      exact ConstantProduct.mint_le hmx
    · show p.reserveZusd.val * l.val ≤ y.val * p.totalLpTokens.val
      rw [hlp, hy]
      exact ConstantProduct.mint_le hmy

theorem saturatingAdd_le (a b : U128) : a.val ≤ (a.saturatingAdd b).val :=
  Nat.le_min.2 ⟨Nat.le_add_right _ _, a.le_max⟩

theorem injectProtocolLiquidity_undiluted (p : LiquidityPool) (a b : U128) :
    Undiluted p (p.injectProtocolLiquidity a b).1 ∧
      p.totalLpTokens.val ≤ (p.injectProtocolLiquidity a b).1.totalLpTokens.val := by
  unfold injectProtocolLiquidity
  split
  · exact ⟨.refl p, Nat.le_refl _⟩
  · split
    · exact ⟨.refl p, Nat.le_refl _⟩
    · exact ⟨.of_le rfl (saturatingAdd_le _ _) (saturatingAdd_le _ _), Nat.le_refl _⟩

/-! ## Calls -/

/-- A call on the pool. -/
inductive Op
  | swapZtrToZusd (ztrIn : U128)
  | swapZusdToZtr (zusdIn : U128)
  | addLiquidity (ztrAmount zusdAmount : U128)
  | injectProtocolLiquidity (ztrAmount zusdAmount : U128)
  deriving DecidableEq, Repr

/-- The pool after a call, whatever it returns. -/
def Op.apply (p : LiquidityPool) : Op → LiquidityPool
  | .swapZtrToZusd a => (p.swapZtrToZusd a).1
  | .swapZusdToZtr a => (p.swapZusdToZtr a).1
  | .addLiquidity a b => (p.addLiquidity a b).1
  | .injectProtocolLiquidity a b => (p.injectProtocolLiquidity a b).1

/-- The pool after some calls. -/
def run (p : LiquidityPool) (ops : List Op) : LiquidityPool := ops.foldl Op.apply p

def Op.isSwap : Op → Bool
  | .swapZtrToZusd _ | .swapZusdToZtr _ => true
  | _ => false

/-- **No call lowers the value of an LP token.** -/
theorem Op.grows (hl : 0 < p.totalLpTokens.val) (op : Op) : Grows p (op.apply p) := by
  cases op with
  | swapZtrToZusd a => exact (swapZtrToZusd_keeps p a).2
  | swapZusdToZtr a => exact (swapZusdToZtr_keeps p a).2
  | addLiquidity a b =>
    obtain ⟨h1, h2⟩ := addLiquidity_undiluted hl a b
    exact h1.grows h2
  | injectProtocolLiquidity a b =>
    obtain ⟨h1, h2⟩ := injectProtocolLiquidity_undiluted p a b
    exact h1.grows h2

theorem run_grows : ∀ (ops : List Op) {p : LiquidityPool}, 0 < p.totalLpTokens.val →
    Grows p (p.run ops)
  | [], p, _ => .refl p
  | op :: ops, p, hl => by
    have hop := op.grows hl
    exact hop.trans hl (run_grows ops (Nat.lt_of_lt_of_le hl hop.2))

/-- Swaps leave the LP tokens. -/
theorem run_swaps_tokens : ∀ (ops : List Op) {p : LiquidityPool}, (∀ op ∈ ops, op.isSwap) →
    (p.run ops).totalLpTokens = p.totalLpTokens
  | [], _, _ => rfl
  | op :: ops, p, h => by
    have hop : (op.apply p).totalLpTokens = p.totalLpTokens := by
      cases op with
      | swapZtrToZusd a => exact (swapZtrToZusd_keeps p a).1
      | swapZusdToZtr a => exact (swapZusdToZtr_keeps p a).1
      | addLiquidity a b => cases h _ List.mem_cons_self
      | injectProtocolLiquidity a b => cases h _ List.mem_cons_self
    exact (run_swaps_tokens ops fun o ho => h o (List.mem_cons_of_mem _ ho)).trans hop

/-- Swaps on an empty reserve change nothing. -/
theorem run_swaps_empty : ∀ (ops : List Op) {p : LiquidityPool}, (∀ op ∈ ops, op.isSwap) →
    (p.reserveZtr.val = 0 ∨ p.reserveZusd.val = 0) → p.run ops = p
  | [], _, _, _ => rfl
  | op :: ops, p, h, hz => by
    have hop : op.apply p = p := by
      cases op with
      | swapZtrToZusd a =>
        obtain ⟨e, he⟩ := swapQuote_empty a hz
        simp only [Op.apply, swapZtrToZusd, he]
      | swapZusdToZtr a =>
        obtain ⟨e, he⟩ := swapQuote_empty a hz.symm
        simp only [Op.apply, swapZusdToZtr, he]
      | addLiquidity a b => cases h _ List.mem_cons_self
      | injectProtocolLiquidity a b => cases h _ List.mem_cons_self
    show (op.apply p).run ops = p
    rw [hop]
    exact run_swaps_empty ops (fun o ho => h o (List.mem_cons_of_mem _ ho)) hz

/-- What swaps take of one reserve they give to the other. -/
theorem run_swaps_pay (ops : List Op) (hl : 0 < p.totalLpTokens.val) (h : ∀ op ∈ ops, op.isSwap) :
    ((p.run ops).reserveZtr.val < p.reserveZtr.val →
        p.reserveZusd.val < (p.run ops).reserveZusd.val) ∧
      ((p.run ops).reserveZusd.val < p.reserveZusd.val →
        p.reserveZtr.val < (p.run ops).reserveZtr.val) := by
  have hgrows := (run_grows ops hl).1
  have htok : (p.run ops).totalLpTokens.val = p.totalLpTokens.val :=
    congrArg U128.val (run_swaps_tokens ops h)
  by_cases hz : p.reserveZtr.val = 0 ∨ p.reserveZusd.val = 0
  · rw [run_swaps_empty ops h hz]
    exact ⟨fun hlt => absurd hlt (Nat.lt_irrefl _), fun hlt => absurd hlt (Nat.lt_irrefl _)⟩
  · obtain ⟨hx, hy⟩ := not_or.1 hz
    refine ⟨fun hlt => hgrows.lt_of_lt htok hl (Nat.pos_of_ne_zero hy) hlt, fun hlt => ?_⟩
    -- the same with the reserves in the other order
    have hswap : ConstantProduct.Grows ⟨p.reserveZusd.val, p.reserveZtr.val, p.totalLpTokens.val⟩
        ⟨(p.run ops).reserveZusd.val, (p.run ops).reserveZtr.val,
          (p.run ops).totalLpTokens.val⟩ := by
      unfold ConstantProduct.Grows at hgrows ⊢
      dsimp only [pool] at hgrows ⊢
      rw [Nat.mul_comm p.reserveZusd.val, Nat.mul_comm (p.run ops).reserveZusd.val]
      exact hgrows
    exact hswap.lt_of_lt htok hl (Nat.pos_of_ne_zero hx) hlt

/-- **The value of an LP token never falls**: not by a call, whether it succeeds or stops, and not by
any sequence of calls. Swaps that take of one reserve give to the other, and a deposit leaves each
holder's part of both reserves. -/
theorem value_per_lp_grows (p : LiquidityPool) (hl : 0 < p.totalLpTokens.val) :
    (∀ op : Op,
      p.reserveZtr.val * p.reserveZusd.val * (op.apply p).totalLpTokens.val ^ 2 ≤
        (op.apply p).reserveZtr.val * (op.apply p).reserveZusd.val * p.totalLpTokens.val ^ 2) ∧
    (∀ ops : List Op,
      p.reserveZtr.val * p.reserveZusd.val * (p.run ops).totalLpTokens.val ^ 2 ≤
        (p.run ops).reserveZtr.val * (p.run ops).reserveZusd.val * p.totalLpTokens.val ^ 2) ∧
    (∀ ops : List Op, (∀ op ∈ ops, op.isSwap) →
      ((p.run ops).reserveZtr.val < p.reserveZtr.val →
        p.reserveZusd.val < (p.run ops).reserveZusd.val) ∧
      ((p.run ops).reserveZusd.val < p.reserveZusd.val →
        p.reserveZtr.val < (p.run ops).reserveZtr.val)) ∧
    ∀ a b : U128, Undiluted p (p.addLiquidity a b).1 ∧
      Undiluted p (p.injectProtocolLiquidity a b).1 :=
  ⟨fun op => (op.grows hl).1, fun ops => (run_grows ops hl).1, fun ops h => run_swaps_pay ops hl h,
    fun a b => ⟨(addLiquidity_undiluted hl a b).1, (injectProtocolLiquidity_undiluted p a b).1⟩⟩

end LiquidityPool

namespace Sample

/-- 10,000 ZTR and 10,000 zUSD for as many LP tokens. -/
def market : LiquidityPool where
  reserveZtr := ⟨1000000000000, by decide⟩
  reserveZusd := ⟨10000000000, by decide⟩
  totalLpTokens := ⟨100000000000, by decide⟩
  totalLpBurned := .zero
  totalVolumeZtr := .zero
  totalFeesCaptured := .zero

/-- A swap of one ZTR and a swap back of what it paid out. -/
def roundTrip : List LiquidityPool.Op :=
  [.swapZtrToZusd ⟨100000000, by decide⟩, .swapZusdToZtr ⟨997900, by decide⟩]

end Sample

open Sample in
/-- The round trip leaves more ZTR in the market than there was. -/
theorem value_per_lp_round_trip :
    market.reserveZtr.val < (market.run roundTrip).reserveZtr.val ∧
      1000000000000 * 10000000000 * (market.run roundTrip).totalLpTokens.val ^ 2 ≤
        (market.run roundTrip).reserveZtr.val * (market.run roundTrip).reserveZusd.val *
          100000000000 ^ 2 :=
  ⟨by decide +kernel, (market.value_per_lp_grows (by decide)).2.1 roundTrip⟩

end Zentra

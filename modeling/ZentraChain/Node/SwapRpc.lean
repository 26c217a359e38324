import ZentraChain.Finance.AmmErrors
import ZentraChain.Node.VaultRpc

/-!
# Swaps behind the RPC (`rpc.rs`)

`swap_tokens` swaps in the market of the node, and then compares what came out with the least amount
that was asked for.

* `swapQuote_iff`: what a swap of a `u64` pays out.
* `swapTokens_unchanged_iff`: an error leaves the market as it was, unless the output is too small.
-/

namespace Zentra

/-- Why a swap is refused. -/
inductive SwapError
  /-- The error of the market. -/
  | amm (e : AmmError)
  /-- `slippage tolerance exceeded` -/
  | slippage
  deriving DecidableEq, Repr

inductive SwapReply
  | ok (res : SwapResult)
  | error (e : SwapError)
  /-- `json!` of a number beyond `u64`. -/
  | panic
  deriving DecidableEq, Repr

/-- `serde_json` has no numbers beyond `u64`. -/
def SwapResult.FitsJson (res : SwapResult) : Prop :=
  ∀ n ∈ [res.amountOut, res.feeCaptured, res.newReserveA, res.newReserveB], n.val ≤ u64Max

instance (res : SwapResult) : Decidable res.FitsJson := inferInstanceAs (Decidable (∀ n ∈ _, _))

/-- What the handler makes of a swap, in either direction. -/
def settle (swapped : LiquidityPool × Except AmmStop SwapResult) (minAmountOut : UInt64) :
    LiquidityPool × SwapReply :=
  match swapped with
  | (pool, .error (.error e)) => (pool, .error (.amm e))
  | (pool, .error .panic) => (pool, .panic)
  | (pool, .ok res) =>
    if res.amountOut.val < minAmountOut.toNat then (pool, .error .slippage)
    else if res.FitsJson then (pool, .ok res)
    else (pool, .panic)

/-- `swap_tokens`: every token but `ztr` stands for zUSD. -/
def swapTokens (pool : LiquidityPool) (tokenIn : String) (amountIn minAmountOut : UInt64) :
    LiquidityPool × SwapReply :=
  if tokenIn.toLower = "ztr" then settle (pool.swapZtrToZusd (.ofU64 amountIn)) minAmountOut
  else settle (pool.swapZusdToZtr (.ofU64 amountIn)) minAmountOut

/-- The market after a handler is the one after the swap. -/
theorem swapTokens_fst (pool : LiquidityPool) (tokenIn : String) (amountIn minAmountOut : UInt64) :
    (swapTokens pool tokenIn amountIn minAmountOut).1 =
      if tokenIn.toLower = "ztr" then (pool.swapZtrToZusd (.ofU64 amountIn)).1
      else (pool.swapZusdToZtr (.ofU64 amountIn)).1 := by
  have hsettle : ∀ swapped, (settle swapped minAmountOut).1 = swapped.1 := by
    intro swapped
    unfold settle
    split <;> try rfl
    split_ifs <;> rfl
  unfold swapTokens
  split_ifs <;> exact hsettle _

theorem FinanceCall.swap_apply (E : RpcEnv) (s : NodeFinance) (tokenIn : String)
    (amountIn minAmountOut : UInt64) :
    (FinanceCall.swap tokenIn amountIn minAmountOut).apply E s =
      { s with ammPool := (swapTokens s.ammPool tokenIn amountIn minAmountOut).1 } := by
  rw [swapTokens_fst, FinanceCall.apply]

/-! ## What a swap pays out -/

/-- An amount less the fee of 20 basis points. -/
def afterFee (amountIn : Nat) : Nat := amountIn - amountIn * 20 / 10000

theorem afterFee_le (amountIn : Nat) : afterFee amountIn ≤ amountIn := Nat.sub_le _ _

/-- Of a `u64`, the fee and the rest do not overflow. -/
theorem afterFee_checked (amountIn : UInt64) : ∃ scaled rest : U128,
    (U128.ofU64 amountIn).checkedMul feeBps = some scaled ∧
      (U128.ofU64 amountIn).checkedSub (scaled.div bpsDenom) = some rest ∧
      rest.val = afterFee amountIn.toNat := by
  have hlt : amountIn.toNat < 2 ^ 64 := amountIn.toNat_lt
  have hmul : ∃ scaled, (U128.ofU64 amountIn).checkedMul feeBps = some scaled := by
    rw [← Option.ne_none_iff_exists', ne_eq, U128.checkedMul_eq_none, Nat.not_lt]
    simp only [U128.ofU64, feeBps, u128Max]
    omega
  obtain ⟨scaled, hscaled⟩ := hmul
  have hval : (scaled.div bpsDenom).val = amountIn.toNat * 20 / 10000 := by
    simp [U128.div, U128.checkedMul_eq_some.1 hscaled, U128.ofU64, feeBps, bpsDenom]
  have hsub : ∃ rest, (U128.ofU64 amountIn).checkedSub (scaled.div bpsDenom) = some rest := by
    rw [← Option.ne_none_iff_exists']
    refine U128.checkedSub_ne_none ?_
    rw [hval]
    simp only [U128.ofU64]
    omega
  obtain ⟨rest, hrest⟩ := hsub
  refine ⟨scaled, rest, hscaled, hrest, ?_⟩
  rw [(U128.checkedSub_eq_some hrest).2, hval]
  rfl

/-- With both reserves filled nothing overflows, and a swap fails only if it would pay nothing. -/
theorem swapQuote_funded {reserveIn reserveOut : U128} {amountIn : UInt64}
    (hamount : amountIn.toNat ≠ 0) (hin : 0 < reserveIn.val) (hout : 0 < reserveOut.val) :
    ∃ out fee : U128, out.val = reserveOut.val * afterFee amountIn.toNat /
        (reserveIn.val + afterFee amountIn.toNat) ∧
      swapQuote reserveIn reserveOut (.ofU64 amountIn) =
        if out.val = 0 then .error (.error .insufficientLiquidity) else .ok (out, fee) := by
  obtain ⟨scaled, rest, hscaled, hrest, hval⟩ := afterFee_checked amountIn
  have hle : rest.val < 2 ^ 64 := hval ▸ (afterFee_le _).trans_lt amountIn.toNat_lt
  have hmul : u256CheckedMul reserveOut.val rest.val = some (reserveOut.val * rest.val) := by
    have hbound : reserveOut.val * rest.val ≤ u128Max * 2 ^ 64 :=
      Nat.mul_le_mul reserveOut.le_max hle.le
    exact if_pos (hbound.trans_lt (by decide))
  have hadd : u256CheckedAdd reserveIn.val rest.val = some (reserveIn.val + rest.val) := by
    have hbound : reserveIn.val + rest.val ≤ u128Max + 2 ^ 64 :=
      Nat.add_le_add reserveIn.le_max hle.le
    exact if_pos (hbound.trans_lt (by decide))
  have hless : reserveOut.val * rest.val / (reserveIn.val + rest.val) < reserveOut.val := by
    refine Nat.div_lt_of_lt_mul ?_
    have hpos : 0 < reserveOut.val * reserveIn.val := Nat.mul_pos hout hin
    linarith [Nat.mul_comm reserveOut.val rest.val, Nat.mul_comm reserveOut.val reserveIn.val,
      Nat.add_mul reserveIn.val rest.val reserveOut.val]
  obtain ⟨out, ho⟩ : ∃ out, U128.ofNat? (reserveOut.val * rest.val / (reserveIn.val + rest.val)) =
      some out :=
    ⟨_, dif_pos (hless.le.trans reserveOut.le_max)⟩
  have hoval := U128.ofNat?_eq_some.1 ho
  have hne : ¬(U128.ofU64 amountIn).val = 0 := hamount
  have hfilled : ¬(reserveIn.val = 0 ∨ reserveOut.val = 0) := not_or.2 ⟨hin.ne', hout.ne'⟩
  have hcond : (out.val = 0 ∨ out.val ≥ reserveOut.val) ↔ out.val = 0 :=
    or_iff_left (Nat.not_le.2 (hoval ▸ hless))
  refine ⟨out, scaled.div bpsDenom, by rw [hoval, hval], ?_⟩
  simp only [swapQuote, if_neg hne, if_neg hfilled, hscaled, hrest, hmul, hadd, ho, hcond]

/-- **What a swap pays out**, for an amount that is a `u64`. -/
theorem swapQuote_iff {reserveIn reserveOut out : U128} (amountIn : UInt64) :
    (∃ fee, swapQuote reserveIn reserveOut (.ofU64 amountIn) = .ok (out, fee)) ↔
      0 < reserveIn.val ∧
        reserveIn.val + afterFee amountIn.toNat ≤ reserveOut.val * afterFee amountIn.toNat ∧
        out.val = reserveOut.val * afterFee amountIn.toNat /
          (reserveIn.val + afterFee amountIn.toNat) := by
  by_cases hamount : amountIn.toNat = 0
  · have hq : swapQuote reserveIn reserveOut (.ofU64 amountIn) = .error (.error .zeroAmount) :=
      if_pos hamount
    have hrest : afterFee amountIn.toNat = 0 := by rw [hamount]; rfl
    simp only [hq, reduceCtorEq, exists_false, hrest, false_iff]
    omega
  by_cases hempty : reserveIn.val = 0 ∨ reserveOut.val = 0
  · obtain ⟨e, hq⟩ := swapQuote_empty (.ofU64 amountIn) hempty
    simp only [hq, reduceCtorEq, exists_false, false_iff]
    rintro ⟨hin, hle, -⟩
    rw [hempty.resolve_left hin.ne', Nat.zero_mul] at hle
    omega
  have hin : 0 < reserveIn.val := by omega
  obtain ⟨o, fee, hval, hq⟩ := @swapQuote_funded reserveIn reserveOut amountIn hamount hin (by omega)
  have hpos : 0 < o.val ↔
      reserveIn.val + afterFee amountIn.toNat ≤ reserveOut.val * afterFee amountIn.toNat := by
    rw [hval, Nat.div_pos_iff]
    exact and_iff_right (by omega)
  rw [hq, ← hpos, ← hval]
  split_ifs with hnothing
  · simp only [exists_false, false_iff]
    omega
  · simp only [Except.ok.injEq, Prod.mk.injEq, exists_and_left, exists_eq', and_true]
    constructor
    · intro h
      exact ⟨hin, by omega, h ▸ rfl⟩
    · intro h
      exact U128.ext h.2.2.symm

/-- Nothing is paid for nothing. -/
theorem amount_pos {reserveIn reserveOut out : U128} {amountIn : UInt64}
    (h : ∃ fee, swapQuote reserveIn reserveOut (.ofU64 amountIn) = .ok (out, fee)) :
    0 < (U128.ofU64 amountIn).val := by
  obtain ⟨hin, hpays, -⟩ := (swapQuote_iff amountIn).1 h
  refine Nat.pos_of_ne_zero fun hzero => ?_
  have hrest : afterFee amountIn.toNat ≤ 0 :=
    (afterFee_le amountIn.toNat).trans (Nat.le_of_eq hzero)
  rw [Nat.le_zero.1 hrest, Nat.mul_zero] at hpays
  omega

/-! ## Too small an output -/

/-- The market takes the amount, and what it pays for it, rounded down, is not nothing but less than the
least amount asked for. -/
structure Slips (reserveIn reserveOut amountIn minAmountOut : Nat) : Prop where
  funded : 0 < reserveIn
  fits : reserveIn + amountIn ≤ u128Max
  pays : reserveIn + afterFee amountIn ≤ reserveOut * afterFee amountIn
  short : reserveOut * afterFee amountIn < minAmountOut * (reserveIn + afterFee amountIn)

theorem slips_iff (reserveIn reserveOut : U128) (amountIn minAmountOut : UInt64) :
    (∃ out : U128, (∃ fee, swapQuote reserveIn reserveOut (.ofU64 amountIn) = .ok (out, fee)) ∧
        reserveIn.val + (U128.ofU64 amountIn).val ≤ u128Max ∧ out.val < minAmountOut.toNat) ↔
      Slips reserveIn.val reserveOut.val amountIn.toNat minAmountOut.toNat := by
  constructor
  · intro h
    obtain ⟨out, hq, hfits, hshort⟩ := h
    obtain ⟨hin, hpays, hout⟩ := (swapQuote_iff amountIn).1 hq
    rw [hout, Nat.div_lt_iff_lt_mul (by omega)] at hshort
    exact ⟨hin, hfits, hpays, hshort⟩
  · intro h
    obtain ⟨hin, hfits, hpays, hshort⟩ := h
    have hle : reserveOut.val * afterFee amountIn.toNat /
        (reserveIn.val + afterFee amountIn.toNat) ≤ reserveOut.val := by
      refine Nat.div_le_of_le_mul ?_
      rw [Nat.mul_comm]
      exact Nat.mul_le_mul_right _ (Nat.le_add_left _ _)
    refine ⟨⟨_, hle.trans reserveOut.le_max⟩, (swapQuote_iff amountIn).2 ⟨hin, hpays, rfl⟩, hfits, ?_⟩
    exact (Nat.div_lt_iff_lt_mul (by omega)).2 hshort

namespace LiquidityPool

variable {p : LiquidityPool} {a out fee : U128} {r : SwapResult}

/-- The reserve that `token_in` goes to. -/
def reserveIn (p : LiquidityPool) (tokenIn : String) : U128 :=
  if tokenIn.toLower = "ztr" then p.reserveZtr else p.reserveZusd

/-- The reserve that a swap of `token_in` is paid from. -/
def reserveOut (p : LiquidityPool) (tokenIn : String) : U128 :=
  if tokenIn.toLower = "ztr" then p.reserveZusd else p.reserveZtr

/-- What a successful swap of ZTR has paid, and that the ZTR are in. -/
theorem swapZtrToZusd_ok (h : (p.swapZtrToZusd a).2 = .ok r) :
    (∃ fee, swapQuote p.reserveZtr p.reserveZusd a = .ok (r.amountOut, fee)) ∧
      (p.swapZtrToZusd a).1.reserveZtr.val = p.reserveZtr.val + a.val := by
  obtain ⟨e, hs, -⟩ | ⟨out, fee, x, y, hq, hx, -, hs⟩ := p.swapZtrToZusd_cases a
  · rw [hs] at h
    cases h
  · rw [hs] at h ⊢
    cases h
    exact ⟨⟨fee, hq⟩, hx⟩

theorem swapZtrToZusd_of_quote (hq : swapQuote p.reserveZtr p.reserveZusd a = .ok (out, fee))
    (hfits : p.reserveZtr.val + a.val ≤ u128Max) :
    ∃ r, (p.swapZtrToZusd a).2 = .ok r ∧ r.amountOut = out := by
  obtain ⟨e, -, hstop⟩ | ⟨out', fee', x, y, hq', -, -, hs⟩ := p.swapZtrToZusd_cases a
  · exact absurd hfits (Nat.not_le.2 (hstop out fee hq))
  · rw [hq] at hq'
    cases hq'
    exact ⟨_, by rw [hs], rfl⟩

theorem swapZusdToZtr_ok (h : (p.swapZusdToZtr a).2 = .ok r) :
    (∃ fee, swapQuote p.reserveZusd p.reserveZtr a = .ok (r.amountOut, fee)) ∧
      (p.swapZusdToZtr a).1.reserveZusd.val = p.reserveZusd.val + a.val := by
  obtain ⟨e, hs, -⟩ | ⟨out, fee, x, y, hq, hy, -, hs⟩ := p.swapZusdToZtr_cases a
  · rw [hs] at h
    cases h
  · rw [hs] at h ⊢
    cases h
    exact ⟨⟨fee, hq⟩, hy⟩

theorem swapZusdToZtr_of_quote (hq : swapQuote p.reserveZusd p.reserveZtr a = .ok (out, fee))
    (hfits : p.reserveZusd.val + a.val ≤ u128Max) :
    ∃ r, (p.swapZusdToZtr a).2 = .ok r ∧ r.amountOut = out := by
  obtain ⟨e, -, hstop⟩ | ⟨out', fee', x, y, hq', -, -, hs⟩ := p.swapZusdToZtr_cases a
  · exact absurd hfits (Nat.not_le.2 (hstop out fee hq))
  · rw [hq] at hq'
    cases hq'
    exact ⟨_, by rw [hs], rfl⟩

end LiquidityPool

/-- A swap changes the market exactly if it goes through; then the handler can still refuse it. -/
theorem settle_unchanged_iff {swapped : LiquidityPool × Except AmmStop SwapResult}
    {pool : LiquidityPool} (minAmountOut : UInt64)
    (hcases : (∃ r, swapped.2 = .ok r) ∨ swapped.1 = pool)
    (hmoves : ∀ r, swapped.2 = .ok r → swapped.1 ≠ pool) :
    ((∃ e, (settle swapped minAmountOut).2 = .error e) → (settle swapped minAmountOut).1 = pool) ↔
      ¬∃ r, swapped.2 = .ok r ∧ r.amountOut.val < minAmountOut.toNat := by
  obtain ⟨q, o⟩ := swapped
  cases o with
  | error stop =>
    have hq : q = pool := by simpa using hcases
    cases stop <;> simp [settle, hq]
  | ok r =>
    have hq : q ≠ pool := hmoves r rfl
    by_cases hshort : r.amountOut.val < minAmountOut.toNat
    · simp [settle, hshort, hq]
    · by_cases hjson : r.FitsJson <;> simp [settle, hshort, hjson]

/-- One direction: what goes through is a quote, with the amount in the reserve. -/
theorem settle_slips_iff {swapped : LiquidityPool × Except AmmStop SwapResult}
    {pool : LiquidityPool} {reserveIn reserveOut : U128} {reserve : LiquidityPool → U128}
    (amountIn minAmountOut : UInt64) (hreserve : reserve pool = reserveIn)
    (hcases : (∃ r, swapped.2 = .ok r) ∨ swapped.1 = pool)
    (hok : ∀ r, swapped.2 = .ok r →
      (∃ fee, swapQuote reserveIn reserveOut (.ofU64 amountIn) = .ok (r.amountOut, fee)) ∧
        (reserve swapped.1).val = reserveIn.val + (U128.ofU64 amountIn).val)
    (hquote : ∀ out fee, swapQuote reserveIn reserveOut (.ofU64 amountIn) = .ok (out, fee) →
      reserveIn.val + (U128.ofU64 amountIn).val ≤ u128Max →
        ∃ r, swapped.2 = .ok r ∧ r.amountOut = out) :
    ((∃ e, (settle swapped minAmountOut).2 = .error e) → (settle swapped minAmountOut).1 = pool) ↔
      ¬Slips reserveIn.val reserveOut.val amountIn.toNat minAmountOut.toNat := by
  have hmoves : ∀ r, swapped.2 = .ok r → swapped.1 ≠ pool := by
    intro r hr heq
    obtain ⟨hq, hsum⟩ := hok r hr
    have hpos := amount_pos hq
    rw [heq, hreserve] at hsum
    omega
  rw [settle_unchanged_iff minAmountOut hcases hmoves, ← slips_iff]
  refine not_congr ⟨fun h => ?_, fun h => ?_⟩
  · obtain ⟨r, hr, hshort⟩ := h
    obtain ⟨hq, hsum⟩ := hok r hr
    exact ⟨r.amountOut, hq, hsum ▸ U128.le_max _, hshort⟩
  · obtain ⟨out, ⟨fee, hq⟩, hfits, hshort⟩ := h
    obtain ⟨r, hr, hout⟩ := hquote out fee hq hfits
    exact ⟨r, hr, hout ▸ hshort⟩

/-- **Failed swaps.** An error leaves the market as it was, unless the swap went through and paid less
than the least amount asked for. -/
theorem swapTokens_unchanged_iff (pool : LiquidityPool) (tokenIn : String)
    (amountIn minAmountOut : UInt64) :
    ((∃ e, (swapTokens pool tokenIn amountIn minAmountOut).2 = .error e) →
        (swapTokens pool tokenIn amountIn minAmountOut).1 = pool) ↔
      ¬Slips (pool.reserveIn tokenIn).val (pool.reserveOut tokenIn).val amountIn.toNat
        minAmountOut.toNat := by
  unfold swapTokens LiquidityPool.reserveIn LiquidityPool.reserveOut
  split_ifs
  · exact settle_slips_iff amountIn minAmountOut rfl (pool.swapZtrToZusd_atomic _)
      (fun _ => LiquidityPool.swapZtrToZusd_ok) (fun _ _ => LiquidityPool.swapZtrToZusd_of_quote)
  · exact settle_slips_iff amountIn minAmountOut rfl (pool.swapZusdToZtr_atomic _)
      (fun _ => LiquidityPool.swapZusdToZtr_ok) (fun _ _ => LiquidityPool.swapZusdToZtr_of_quote)

open Sample in
/-- One ZTR for at least one zUSD: the swap pays less, is refused, and has been made. -/
theorem refused_swap_made : ¬∀ (pool : LiquidityPool) (tokenIn : String)
    (amountIn minAmountOut : UInt64),
    (∃ e, (swapTokens pool tokenIn amountIn minAmountOut).2 = .error e) →
      (swapTokens pool tokenIn amountIn minAmountOut).1 = pool := by
  intro h
  have hslips : Slips (market.reserveIn "ztr").val (market.reserveOut "ztr").val
      (100000000 : UInt64).toNat (1000000 : UInt64).toNat := by
    refine ⟨?_, ?_, ?_, ?_⟩ <;> decide +kernel
  exact (swapTokens_unchanged_iff market "ztr" 100000000 1000000).1 (h market "ztr" 100000000 1000000)
    hslips

end Zentra

import ZentraChain.Finance.AmmErrors
import ZentraChain.Lib.Wrapping

/-!
# The integer square root of the market (`amm.rs`)

`integer_sqrt` with every sum and division that can panic, for a build with overflow checks and one
without. `Amm` has its results only.

* `sqrtFrom_ok`: below `u128::MAX` no turn of the loop panics.
* `integerSqrt_eq_mapError`: the function of `Amm` is this one, in both builds.
* `integerSqrt_exact_iff`: it is exact except at `u128::MAX`.
* `injectProtocolLiquidity_panics_iff`: the injections that get there.
-/

namespace Zentra

/-! ## Arithmetic that can panic -/

inductive ArithPanic
  | overflow | divisionByZero
  deriving DecidableEq, Repr

namespace U128

theorem one_le_max : 1 ≤ u128Max := by decide

theorem two_le_max : 2 ≤ u128Max := by decide

def one : U128 := ⟨1, one_le_max⟩

def two : U128 := ⟨2, two_le_max⟩

theorem wrapping_le (a b : U128) : Wrapping.add (2 ^ 128) a.val b.val ≤ u128Max :=
  Nat.le_sub_one_of_lt (Nat.mod_lt _ (by decide))

def wrappingAdd (a b : U128) : U128 := ⟨Wrapping.add (2 ^ 128) a.val b.val, wrapping_le a b⟩

/-- `a + b`. An overflow panics if it is checked, and wraps else. -/
def addIn (checks : Bool) (a b : U128) : Except ArithPanic U128 :=
  match a.checkedAdd b with
  | some c => .ok c
  | none => if checks then .error .overflow else .ok (a.wrappingAdd b)

/-- `a / b`. -/
def divIn (a b : U128) : Except ArithPanic U128 :=
  if b.val = 0 then .error .divisionByZero else .ok (a.div b)

variable {a b : U128}

theorem addIn_ok (checks : Bool) (h : a.val + b.val ≤ u128Max) :
    addIn checks a b = .ok ⟨a.val + b.val, h⟩ := by
  have hsome : a.checkedAdd b = some ⟨a.val + b.val, h⟩ := checkedAdd_eq_some.2 rfl
  rw [addIn, hsome]

theorem divIn_ok (h : 0 < b.val) : divIn a b = .ok (a.div b) := if_neg (Nat.ne_of_gt h)

end U128

/-- The loop of `integer_sqrt`. -/
def sqrtFrom (checks : Bool) (n x y : U128) : Except ArithPanic U128 :=
  if y.val < x.val then
    match n.divIn y with
    | .error e => .error e
    | .ok q =>
      match y.addIn checks q with
      | .error e => .error e
      | .ok s => sqrtFrom checks n y (s.div .two)
  else .ok x
termination_by x.val

/-- `integer_sqrt`. -/
def integerSqrtIn (checks : Bool) (n : U128) : Except ArithPanic U128 :=
  if n.val = 0 then .ok .zero
  else
    match n.addIn checks .one with
    | .error e => .error e
    | .ok s => sqrtFrom checks n n (s.div .two)

/-! ## The loop -/

variable {n x y : U128}

/-- **No turn panics** below `u128::MAX`, from a `y` that is not zero. -/
theorem sqrtFrom_ok (checks : Bool) (hn : n.val < u128Max) (hy : 0 < y.val) (hyn : y.val ≤ n.val) :
    ∃ r, sqrtFrom checks n x y = .ok r ∧ r.val = sqrtLoop n.val x.val y.val := by
  induction hx : x.val using Nat.strong_induction_on generalizing x y with
  | _ k ih =>
    subst hx
    rw [sqrtFrom, sqrtLoop]
    split
    · rename_i hlt
      have hle := Newton.add_div_le hy hyn
      have htwo := Newton.two_le_add_div hy hyn
      have hsum : y.val + (n.div y).val ≤ u128Max := hle.trans hn
      rw [U128.divIn_ok hy]
      simp only [U128.addIn_ok checks hsum]
      exact ih y.val hlt (Nat.div_pos htwo Nat.two_pos) (by simp only [U128.div, U128.two]; omega) rfl
    · exact ⟨x, rfl, rfl⟩

/-- Below `u128::MAX` the function returns the root. -/
theorem integerSqrtIn_ok (checks : Bool) (hn : n.val < u128Max) :
    ∃ r, integerSqrtIn checks n = .ok r ∧ r.val = Nat.sqrt n.val := by
  unfold integerSqrtIn
  split
  · rename_i hz
    exact ⟨.zero, rfl, by simp [hz, U128.zero]⟩
  · rename_i hz
    have hpos : 0 < n.val := Nat.pos_of_ne_zero hz
    have hsum : n.val + U128.one.val ≤ u128Max := hn
    simp only [U128.addIn_ok checks hsum]
    obtain ⟨r, hr, hval⟩ := sqrtFrom_ok (x := n) (y := U128.div ⟨_, hsum⟩ .two) checks hn
      (Nat.div_pos (show 2 ≤ n.val + 1 by omega) Nat.two_pos)
      (show (n.val + 1) / 2 ≤ n.val by omega)
    exact ⟨r, hr, hval.trans (sqrtLoop_self hpos)⟩

/-! ## At `u128::MAX` -/

/-- The first sum overflows; where it wraps to zero, the first turn divides by it. -/
theorem integerSqrtIn_max (checks : Bool) (hn : n.val = u128Max) :
    integerSqrtIn checks n = .error (if checks then .overflow else .divisionByZero) := by
  have hadd : n.checkedAdd .one = none := by
    rw [U128.checkedAdd_eq_none, hn]
    exact Nat.lt_succ_self _
  unfold integerSqrtIn
  rw [if_neg (by rw [hn]; decide)]
  cases checks with
  | true => simp [U128.addIn, hadd]
  | false =>
    have hzero : ((n.wrappingAdd .one).div .two).val = 0 := by
      simp [U128.wrappingAdd, U128.div, U128.one, Wrapping.add, hn, u128Max]
    have hlt : ((n.wrappingAdd .one).div .two).val < n.val := by
      rw [hzero, hn]
      decide
    simp only [U128.addIn, hadd, Bool.false_eq_true, if_false]
    rw [sqrtFrom, if_pos hlt]
    simp [U128.divIn, hzero]

/-- **The function of `Amm`** is this one, whether overflows are checked or not. -/
theorem integerSqrt_eq_mapError (checks : Bool) (n : U128) :
    integerSqrt n = (integerSqrtIn checks n).mapError fun _ => .panic := by
  by_cases hmax : n.val = u128Max
  · rw [integerSqrtIn_max checks hmax]
    unfold integerSqrt
    rw [if_neg (by rw [hmax]; decide), if_pos hmax]
    rfl
  · obtain ⟨r, hr, hval⟩ :=
      integerSqrtIn_ok checks (Nat.lt_of_le_of_ne n.le_max hmax)
    rw [hr]
    unfold integerSqrt
    by_cases hz : n.val = 0
    · rw [if_pos hz]
      exact congrArg Except.ok (U128.ext (by simp [hval, hz, U128.zero]))
    · rw [if_neg hz, if_neg hmax]
      have hpos : 0 < n.val := Nat.pos_of_ne_zero hz
      exact congrArg Except.ok (U128.ext ((sqrtLoop_self hpos).trans hval.symm))

/-- **`integer_sqrt` is exact** below `u128::MAX`, and only there. With overflow checks, that it returns
means that no sum overflowed. -/
theorem integerSqrt_exact_iff (checks : Bool) (n : U128) :
    (∃ r, integerSqrtIn checks n = .ok r ∧ r.val * r.val ≤ n.val ∧
      n.val < (r.val + 1) * (r.val + 1)) ↔ n.val < u128Max := by
  constructor
  · rintro ⟨r, hr, -⟩
    refine Nat.lt_of_le_of_ne n.le_max fun hmax => ?_
    rw [integerSqrtIn_max checks hmax] at hr
    cases hr
  · intro hn
    obtain ⟨r, hr, hval⟩ := integerSqrtIn_ok checks hn
    exact ⟨r, hr, hval ▸ Nat.sqrt_le _, hval ▸ Nat.lt_succ_sqrt _⟩

/-- `u128::MAX` has no root in either build. -/
theorem integerSqrt_max_panics :
    integerSqrtIn true ⟨u128Max, Nat.le_refl _⟩ = .error .overflow ∧
      integerSqrtIn false ⟨u128Max, Nat.le_refl _⟩ = .error .divisionByZero ∧
      ¬∀ (checks : Bool) (n : U128), ∃ r, integerSqrtIn checks n = .ok r ∧
        r.val * r.val ≤ n.val ∧ n.val < (r.val + 1) * (r.val + 1) := by
  refine ⟨integerSqrtIn_max true rfl, integerSqrtIn_max false rfl, fun h => ?_⟩
  obtain ⟨r, hr, -⟩ := h true ⟨u128Max, Nat.le_refl _⟩
  rw [integerSqrtIn_max true rfl] at hr
  cases hr

/-! ## Injections -/

theorem integerSqrt_panics_iff (n : U128) : integerSqrt n = .error .panic ↔ n.val = u128Max := by
  unfold integerSqrt
  split
  · rename_i hz
    have hne : n.val ≠ u128Max := by rw [hz]; decide
    simp [hne]
  · split
    · rename_i hmax
      simp [hmax]
    · rename_i hmax
      simp [hmax]

namespace LiquidityPool

variable {p : LiquidityPool} {a b : U128}

theorem lpTokensBurned_panics_iff : p.lpTokensBurned a b = .error .panic ↔
    p.totalLpTokens.val = 0 ∧ u128Max ≤ a.val * b.val := by
  unfold lpTokensBurned
  split
  · rename_i hl
    rw [integerSqrt_panics_iff]
    simp [U128.saturatingMul, hl]
  · rename_i hl
    dsimp only
    split_ifs <;> simp [hl]

/-- **An injection panics** when there are no LP tokens and the product of the amounts saturates. -/
theorem injectProtocolLiquidity_panics_iff (p : LiquidityPool) (a b : U128) :
    (p.injectProtocolLiquidity a b).2 = .error .panic ↔
      p.totalLpTokens.val = 0 ∧ u128Max ≤ a.val * b.val := by
  unfold injectProtocolLiquidity
  split
  · rename_i hz
    have hmax : ¬u128Max ≤ a.val * b.val := by
      rw [hz.1, Nat.zero_mul]
      decide
    simp [hmax]
  · rw [← lpTokensBurned_panics_iff]
    cases p.lpTokensBurned a b with
    | error e => simp
    | ok m => simp

end LiquidityPool

end Zentra

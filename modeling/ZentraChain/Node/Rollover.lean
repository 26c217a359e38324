import ZentraChain.Lib.Runs
import ZentraChain.Node.Pool

/-!
# Shares that roll over (`pool.rs`)

A payout computes its distribution and applies it under two locks. Applying it resets the shares of all
miners, also of those that the distribution left out and of those credited since
(`kept_run_iff`).
-/

namespace Zentra

inductive RoundCall
  | addShare (now : Nat) (addr : String)
  /-- A payout computes its distribution. -/
  | compute (distributable : Amount)
  /-- The payout `i` of those under way applies its distribution. -/
  | apply (i now : Nat) (feeZents : Amount)

/-- A payout between its two sections. -/
structure PayoutRound where
  /-- The pool that the distribution was computed from. -/
  pool : MiningPool
  distributable : Amount
  /-- The shares that each miner had then. -/
  shares : String → List Nat
  /-- How many shares had been credited then. -/
  count : Nat

def PayoutRound.distribution (r : PayoutRound) : List (String × Amount) :=
  r.pool.computeDistribution r.distributable

/-- A pool in a run, with its shares by number. -/
structure RoundLog where
  pool : MiningPool
  /-- How many shares were credited. -/
  count : Nat
  /-- The shares that each miner has, last first. -/
  shares : String → List Nat
  rounds : List PayoutRound
  /-- The payouts that were applied, and the shares that each removed. -/
  applied : List (PayoutRound × (String → List Nat))

namespace RoundLog

def start (mnemonic address : String) (now : Nat) : RoundLog :=
  ⟨.new mnemonic address now, 0, fun _ => [], [], []⟩

def step (l : RoundLog) : RoundCall → RoundLog
  | .addShare now addr =>
    { l with
      pool := l.pool.addShare now addr
      count := l.count + 1
      shares := Function.update l.shares addr (l.count :: l.shares addr) }
  | .compute distributable =>
    { l with rounds := l.rounds ++ [⟨l.pool, distributable, l.shares, l.count⟩] }
  | .apply i now feeZents =>
    match l.rounds[i]? with
    | none => l
    | some r =>
      let pool := l.pool.applyPayout now r.distribution feeZents
      { l with
        pool := pool
        -- the shares are gone when the pool counts none
        shares := fun a => if pool.sharesOf a = 0 then [] else l.shares a
        rounds := l.rounds.eraseIdx i
        applied := (r, fun a => if pool.sharesOf a = 0 then l.shares a else []) :: l.applied }

/-- Shares are removed only from a miner that the distribution pays for them. -/
def Kept (l : RoundLog) : Prop :=
  ∀ x ∈ l.applied, ∀ a, x.2 a ≠ [] → x.1.shares a = x.2 a ∧
    (a, x.1.pool.due x.1.distributable (x.2 a).length) ∈ x.1.distribution

/-- When a distribution is applied, every miner with shares had them all when it was computed, and was
due the least payout then. -/
def PaidInFull (l : RoundLog) : RoundCall → Prop
  | .apply i _ _ => ∀ r ∈ l.rounds[i]?, ∀ a, l.shares a ≠ [] →
      (∀ k ∈ l.shares a, k < r.count) ∧
        minPayoutZents ≤ (r.pool.due r.distributable (r.pool.sharesOf a)).zents
  | _ => True

/-- The numbers of the shares fit the pool, now and in each payout under way. -/
structure Counted (l : RoundLog) : Prop where
  shares : ∀ a, l.pool.sharesOf a = (l.shares a).length
  lt : ∀ a, ∀ k ∈ l.shares a, k < l.count
  round_le : ∀ r ∈ l.rounds, r.count ≤ l.count
  round_shares : ∀ r ∈ l.rounds, ∀ a, r.pool.sharesOf a = (r.shares a).length
  round_lt : ∀ r ∈ l.rounds, ∀ a, ∀ k ∈ r.shares a, k < r.count
  /-- Of the shares of a payout under way, a miner has all or none. -/
  round_old : ∀ r ∈ l.rounds, ∀ a, (l.shares a).filter (· < r.count) = r.shares a ∨
    (l.shares a).filter (· < r.count) = []

variable {l : RoundLog} {c : RoundCall} {r : PayoutRound} {i now : Nat} {fee : Amount} {a : String}

/-- A payout that is applied takes all shares. -/
theorem step_apply (hr : l.rounds[i]? = some r) : l.step (.apply i now fee) =
    { l with
      pool := l.pool.applyPayout now r.distribution fee
      shares := fun _ => []
      rounds := l.rounds.eraseIdx i
      applied := (r, l.shares) :: l.applied } := by
  simp only [step, hr, MiningPool.sharesOf_applyPayout, if_true]

theorem Counted.start (mnemonic address : String) (now : Nat) :
    (start mnemonic address now).Counted :=
  ⟨fun _ => rfl, nofun, nofun, nofun, nofun, nofun⟩

theorem update_shares (addr a : String) :
    Function.update l.shares addr (l.count :: l.shares addr) a =
      if a = addr then l.count :: l.shares a else l.shares a := by
  by_cases h : a = addr
  · subst h
    rw [Function.update_self, if_pos rfl]
  · rw [Function.update_of_ne h, if_neg h]

/-- A new share has a number that no payout under way counts. -/
theorem Counted.addShare (hc : l.Counted) (now : Nat) (addr : String) :
    (l.step (.addShare now addr)).Counted := by
  refine ⟨fun a => ?_, fun a k hk => ?_, fun r hr => ?_, hc.round_shares, hc.round_lt,
    fun r hr a => ?_⟩
  · show (l.pool.addShare now addr).sharesOf a =
      ((Function.update l.shares addr (l.count :: l.shares addr) a).length : ℚ)
    rw [MiningPool.sharesOf_addShare, hc.shares, update_shares]
    split_ifs
    · rw [List.length_cons, Nat.cast_succ]
    · rw [add_zero]
  · have hk' : k ∈ Function.update l.shares addr (l.count :: l.shares addr) a := hk
    rw [update_shares] at hk'
    show k < l.count + 1
    split_ifs at hk'
    · rcases List.mem_cons.1 hk' with rfl | hk'
      · exact Nat.lt_succ_self _
      · exact Nat.lt_succ_of_lt (hc.lt a k hk')
    · exact Nat.lt_succ_of_lt (hc.lt a k hk')
  · exact Nat.le_succ_of_le (hc.round_le r hr)
  · have hfilter : (Function.update l.shares addr (l.count :: l.shares addr) a).filter
        (· < r.count) = (l.shares a).filter (· < r.count) := by
      rw [update_shares]
      split_ifs
      · exact List.filter_cons_of_neg (by simpa using hc.round_le r hr)
      · rfl
    show (Function.update l.shares addr (l.count :: l.shares addr) a).filter _ = _ ∨
      (Function.update l.shares addr (l.count :: l.shares addr) a).filter _ = _
    rw [hfilter]
    exact hc.round_old r hr a

/-- A payout that starts knows all shares. -/
theorem Counted.compute (hc : l.Counted) (distributable : Amount) :
    (l.step (.compute distributable)).Counted := by
  have hall : ∀ a, (l.shares a).filter (· < l.count) = l.shares a := fun a =>
    List.filter_eq_self.2 fun k hk => decide_eq_true (hc.lt a k hk)
  refine ⟨hc.shares, hc.lt, ?_, ?_, ?_, ?_⟩
  · exact List.forall_mem_append.2 ⟨hc.round_le, List.forall_mem_singleton.2 (Nat.le_refl _)⟩
  · exact List.forall_mem_append.2 ⟨hc.round_shares, List.forall_mem_singleton.2 hc.shares⟩
  · exact List.forall_mem_append.2 ⟨hc.round_lt, List.forall_mem_singleton.2 hc.lt⟩
  · exact List.forall_mem_append.2
      ⟨hc.round_old, List.forall_mem_singleton.2 fun a => .inl (hall a)⟩

/-- A payout that is applied leaves no shares to the others under way. -/
theorem Counted.apply (hc : l.Counted) (i now : Nat) (fee : Amount) :
    (l.step (.apply i now fee)).Counted := by
  cases hr : l.rounds[i]? with
  | none =>
    simp only [RoundLog.step, hr]
    exact hc
  | some r =>
    rw [step_apply hr]
    have hsub : ∀ r ∈ l.rounds.eraseIdx i, r ∈ l.rounds := fun r => List.mem_of_mem_eraseIdx
    exact ⟨fun a => l.pool.sharesOf_applyPayout now r.distribution fee a, nofun,
      fun r hr => hc.round_le r (hsub r hr), fun r hr => hc.round_shares r (hsub r hr),
      fun r hr => hc.round_lt r (hsub r hr), fun r hr a => .inr rfl⟩

theorem Counted.step (hc : l.Counted) (c : RoundCall) : (l.step c).Counted := by
  cases c with
  | addShare now addr => exact hc.addShare now addr
  | compute distributable => exact hc.compute distributable
  | apply i now fee => exact hc.apply i now fee

/-- A miner with shares that is due the least payout is in the distribution. -/
theorem mem_distribution (hpos : 0 < r.pool.sharesOf a)
    (hmin : minPayoutZents ≤ (r.pool.due r.distributable (r.pool.sharesOf a)).zents) :
    (a, r.pool.due r.distributable (r.pool.sharesOf a)) ∈ r.distribution := by
  have hfloor : minPayoutZents ≤
      ⌊r.pool.sharesOf a / r.pool.totalShares * r.distributable.zents⌋.toNat :=
    hmin.trans (Nat.min_le_left _ _)
  have hprod : 0 < r.pool.sharesOf a / r.pool.totalShares * r.distributable.zents := by
    have hone : (0 : ℤ) < ⌊r.pool.sharesOf a / r.pool.totalShares * r.distributable.zents⌋ := by
      have : 0 < minPayoutZents := by decide
      omega
    exact (Int.cast_pos.2 hone).trans_le (Int.floor_le _)
  have hdis : 0 < (r.distributable.zents : ℚ) :=
    (Nat.cast_nonneg _).lt_of_ne fun h => by
      rw [← h, mul_zero] at hprod
      exact lt_irrefl _ hprod
  have htotal : 0 < r.pool.totalShares :=
    (div_pos_iff_of_pos_left hpos).1 ((mul_pos_iff_of_pos_right hdis).1 hprod)
  exact MiningPool.mem_computeDistribution.2
    ⟨htotal, fun h => hdis.ne' (by rw [h, Nat.cast_zero]), hpos, rfl, hmin⟩

/-- **Which calls keep the shares of unpaid miners.** -/
theorem kept_step_iff (hc : l.Counted) (hk : l.Kept) : (l.step c).Kept ↔ l.PaidInFull c := by
  cases c with
  | addShare now addr => exact iff_of_true hk trivial
  | compute distributable => exact iff_of_true hk trivial
  | apply i now fee =>
    cases hr : l.rounds[i]? with
    | none =>
      simp only [step, PaidInFull, hr]
      exact iff_of_true hk nofun
    | some r =>
      have hmem := List.mem_of_getElem? hr
      have hfull : l.PaidInFull (.apply i now fee) ↔ ∀ a, l.shares a ≠ [] →
          (∀ k ∈ l.shares a, k < r.count) ∧
            minPayoutZents ≤ (r.pool.due r.distributable (r.pool.sharesOf a)).zents := by
        simp only [PaidInFull, hr, Option.mem_some_iff, forall_eq']
      have hkept : (l.step (.apply i now fee)).Kept ↔ ∀ a, l.shares a ≠ [] →
          r.shares a = l.shares a ∧
            (a, r.pool.due r.distributable (l.shares a).length) ∈ r.distribution := by
        rw [step_apply hr]
        exact List.forall_mem_cons.trans (and_iff_left hk)
      rw [hfull, hkept]
      refine forall₂_congr fun a hne => ?_
      constructor
      · rintro ⟨he, hpaid⟩
        refine ⟨fun k hk' => hc.round_lt r hmem a k (he ▸ hk'), ?_⟩
        rw [hc.round_shares r hmem, he]
        exact (MiningPool.mem_computeDistribution.1 hpaid).2.2.2.2
      · rintro ⟨hold, hmin⟩
        have hfilter : (l.shares a).filter (· < r.count) = l.shares a :=
          List.filter_eq_self.2 fun k hk' => decide_eq_true (hold k hk')
        have he : r.shares a = l.shares a := by
          rcases hc.round_old r hmem a with h | h
          · rw [← h, hfilter]
          · rw [hfilter] at h
            exact absurd h hne
        have hshares : r.pool.sharesOf a = (l.shares a).length := by
          rw [hc.round_shares r hmem, he]
        have hpos : 0 < r.pool.sharesOf a := by
          rw [hshares]
          exact Nat.cast_pos.2 (List.length_pos_iff.2 hne)
        refine ⟨he, ?_⟩
        rw [← hshares]
        exact mem_distribution hpos hmin

/-- **Rollover.** In a run from a new pool, shares are removed only from miners that are paid for them
exactly if, at each payout, every miner with shares had them when its distribution was computed, and
was due the least payout. -/
theorem kept_run_iff (mnemonic address : String) (now : Nat) (calls : List RoundCall) :
    Runs.Always step Kept (start mnemonic address now) calls ↔
      Runs.Each step PaidInFull (start mnemonic address now) calls :=
  Runs.always_iff_each (Q := Counted) (D := fun _ => True) (fun _ c _ hc _ => hc.step c)
    (fun _ _ _ hc hk => kept_step_iff hc hk) (fun _ _ => trivial) (.start mnemonic address now) nofun

end RoundLog

/-- A miner whose share is due half a ZTR loses it to the payout of another. -/
theorem small_balance_removed :
    ¬∀ (mnemonic address : String) (now : Nat) (calls : List RoundCall),
      Runs.Always RoundLog.step RoundLog.Kept (RoundLog.start mnemonic address now) calls := by
  intro h
  have hlast := (h "" "" 0 [.addShare 1 "a", .addShare 2 "a", .addShare 3 "b",
    .compute ⟨150000000, by decide⟩, .apply 0 4 .zero]).last
  obtain ⟨-, hmem⟩ := hlast _ List.mem_cons_self "b" (by decide +kernel)
  revert hmem
  decide +kernel

end Zentra

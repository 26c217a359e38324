import Mathlib.Algebra.Order.Floor.Ring
import ZentraChain.Types

/-!
# The mining pool (`pool.rs`)

Shares are rational numbers here, floating point in the source. The miners are in some order, that of
the map in the source; no result depends on it.

* `sharesOf_addShare`, `sharesOf_applyPayout`: how shares come and go.
* `mem_computeDistribution`: who is paid, and how much.
-/

namespace Zentra

/-- 1 ZTR: `MIN_PAYOUT_ZENTS`. -/
def minPayoutZents : Nat := 100000000

/-- 1%: `POOL_FEE_BPS`. -/
def poolFeeBps : Nat := 100

/-- `PAYOUT_TX_FEE_ZENTS`. -/
def payoutTxFeeZents : Nat := 10000

structure MinerStat where
  address : String
  /-- In hashes per second, as last reported. -/
  hashrate : ℚ
  /-- The work accumulated this round. -/
  shares : ℚ
  lastSeenMs : Nat
  joinedMs : Nat
  totalPaidZents : Nat
  deriving DecidableEq, Repr

structure PayoutRecord where
  timestampMs : Nat
  totalZents : Nat
  feeZents : Nat
  minerCount : Nat
  deriving DecidableEq, Repr

/-- A miner that was not seen before. -/
def MinerStat.new (address : String) (now : Nat) : MinerStat := ⟨address, 0, 0, now, now, 0⟩

/-- `entry(..).or_insert_with(..)`, and a change of the entry. -/
def upsert (new : MinerStat) (f : MinerStat → MinerStat) : List MinerStat → List MinerStat
  | [] => [f new]
  | m :: ms => if m.address = new.address then f m :: ms else m :: upsert new f ms

section
variable {new m : MinerStat} {f : MinerStat → MinerStat} {ms : List MinerStat} {a : String}

theorem mem_upsert_address (hf : ∀ m, (f m).address = m.address) :
    a ∈ (upsert new f ms).map (·.address) ↔ a = new.address ∨ a ∈ ms.map (·.address) := by
  induction ms with
  | nil => rw [upsert, List.map_singleton, hf, List.mem_singleton, List.map_nil,
      or_iff_left List.not_mem_nil]
  | cons m ms ih =>
    rw [upsert]
    split_ifs with h
    · rw [List.map_cons, List.map_cons, List.mem_cons, List.mem_cons, hf, h]
      tauto
    · rw [List.map_cons, List.map_cons, List.mem_cons, List.mem_cons, ih]
      tauto

theorem upsert_nodup (hf : ∀ m, (f m).address = m.address) (h : (ms.map (·.address)).Nodup) :
    ((upsert new f ms).map (·.address)).Nodup := by
  induction ms with
  | nil => exact List.nodup_singleton _
  | cons m ms ih =>
    obtain ⟨hm, hms⟩ := List.nodup_cons.1 h
    rw [upsert]
    split_ifs with he
    · rw [List.map_cons, hf]
      exact h
    · rw [List.map_cons]
      refine List.nodup_cons.2 ⟨?_, ih hms⟩
      rw [mem_upsert_address hf]
      exact not_or.2 ⟨he, hm⟩

end

structure MiningPool where
  mnemonic : String
  address : String
  /-- Where the fee is paid. -/
  operatorAddress : String
  miners : List MinerStat
  totalPaidZents : Nat
  totalFeesZents : Nat
  lastPayoutMs : Nat
  payouts : List PayoutRecord
  /-- No miner has two entries. -/
  nodup : (miners.map (·.address)).Nodup
  deriving DecidableEq, Repr

namespace MiningPool

/-- `DEFAULT_OPERATOR_ADDRESS`. -/
def defaultOperatorAddress : String :=
  "zentradev1ua4derzhu02jhvazzvu0n3kr4q2k39ps98k90c3g2qff0kc083hqj7vdl5"

def new (mnemonic address : String) (now : Nat) : MiningPool where
  mnemonic := mnemonic
  address := address
  operatorAddress := defaultOperatorAddress
  miners := []
  totalPaidZents := 0
  totalFeesZents := 0
  lastPayoutMs := now
  payouts := []
  nodup := List.nodup_nil

/-- A reported hashrate; the one before is integrated over the time since, two minutes at most. -/
def heartbeat (p : MiningPool) (now : Nat) (addr : String) (hashrate : ℚ) : MiningPool :=
  { p with
    miners := upsert (.new addr now) (fun m =>
      { m with
        shares := m.shares + m.hashrate * min (((now - m.lastSeenMs : Nat) : ℚ) / 1000) 120
        hashrate := max hashrate 0
        lastSeenMs := now }) p.miners
    nodup := upsert_nodup (fun _ => rfl) p.nodup }

/-- Credit one verified share. -/
def addShare (p : MiningPool) (now : Nat) (addr : String) : MiningPool :=
  { p with
    miners := upsert (.new addr now) (fun m =>
      { m with shares := m.shares + 1, lastSeenMs := now }) p.miners
    nodup := upsert_nodup (fun _ => rfl) p.nodup }

def totalShares (p : MiningPool) : ℚ := (p.miners.map (·.shares)).sum

/-- What is due for some shares: rounded down, as the cast to `u64` does. -/
def due (p : MiningPool) (distributable : Amount) (shares : ℚ) : Amount :=
  ⟨min ⌊shares / p.totalShares * distributable.zents⌋.toNat u64Max, Nat.min_le_right _ _⟩

/-- The proportional split. -/
def computeDistribution (p : MiningPool) (distributable : Amount) : List (String × Amount) :=
  if p.totalShares ≤ 0 ∨ distributable.zents = 0 then []
  else
    ((p.miners.filter fun m => 0 < m.shares).map fun m =>
      (m.address, p.due distributable m.shares)).filter fun x => minPayoutZents ≤ x.2.zents

/-- Count a payment of one miner. -/
def markPaid (miners : List MinerStat) (x : String × Amount) : List MinerStat :=
  miners.map fun m =>
    if m.address = x.1 then { m with totalPaidZents := satAdd m.totalPaidZents x.2.zents } else m

theorem foldl_markPaid_address (distribution : List (String × Amount)) (miners : List MinerStat) :
    (distribution.foldl markPaid miners).map (·.address) = miners.map (·.address) := by
  induction distribution generalizing miners with
  | nil => rfl
  | cons x xs ih =>
    rw [List.foldl_cons, ih, markPaid, List.map_map]
    refine List.map_congr_left fun m _ => ?_
    show (if m.address = x.1 then _ else m).address = m.address
    split_ifs
    · rfl
    · rfl

/-- Apply a payout: count it, reset all shares, and keep its record among the last 50. -/
def applyPayout (p : MiningPool) (now : Nat) (distribution : List (String × Amount))
    (feeZents : Amount) : MiningPool :=
  let total := distribution.foldl (fun t x => satAdd t x.2.zents) 0
  let payouts := p.payouts ++ [⟨now, total, feeZents.zents, distribution.length⟩]
  { p with
    miners := (distribution.foldl markPaid p.miners).map fun m => { m with shares := 0 }
    totalPaidZents := satAdd p.totalPaidZents total
    totalFeesZents := satAdd p.totalFeesZents feeZents.zents
    lastPayoutMs := now
    payouts := if payouts.length > 50 then payouts.drop 1 else payouts
    nodup := by
      rw [List.map_map, ← Function.comp_def, Function.comp_assoc]
      exact (foldl_markPaid_address distribution p.miners).symm ▸ p.nodup }

/-- The shares of a miner. -/
def sharesOf (p : MiningPool) (addr : String) : ℚ :=
  ((p.miners.find? (·.address = addr)).map (·.shares)).getD 0

/-! ## Shares -/

variable {p : MiningPool} {m : MinerStat} {a b : String}

theorem find?_of_mem {ms : List MinerStat} (h : (ms.map (·.address)).Nodup) (hm : m ∈ ms) :
    ms.find? (·.address = m.address) = some m := by
  induction ms with
  | nil => cases hm
  | cons n ms ih =>
    obtain ⟨hn, hms⟩ := List.nodup_cons.1 h
    rcases List.mem_cons.1 hm with rfl | hm
    · exact List.find?_cons_of_pos (by simp)
    · have hne : n.address ≠ m.address := fun he =>
        hn (List.mem_map.2 ⟨m, hm, he.symm⟩)
      rw [List.find?_cons_of_neg (by simpa using hne)]
      exact ih hms hm

theorem find?_upsert {new : MinerStat} {f : MinerStat → MinerStat}
    (hf : ∀ m, (f m).address = m.address) (ms : List MinerStat) :
    (upsert new f ms).find? (·.address = a) =
      if a = new.address then some (f ((ms.find? (·.address = a)).getD new))
      else ms.find? (·.address = a) := by
  induction ms with
  | nil =>
    rw [upsert]
    split_ifs with ha
    · exact List.find?_cons_of_pos (by rw [hf, ha]; exact decide_eq_true rfl)
    · exact List.find?_cons_of_neg (by rw [hf]; simpa using Ne.symm ha)
  | cons m ms ih =>
    rw [upsert]
    split_ifs with hm ha ha
    · rw [List.find?_cons_of_pos (by rw [hf, hm, ha]; exact decide_eq_true rfl),
        List.find?_cons_of_pos (by rw [hm, ha]; exact decide_eq_true rfl)]
      rfl
    · have hne : m.address ≠ a := fun he => ha (he ▸ hm)
      rw [List.find?_cons_of_neg (by rw [hf]; simpa using hne),
        List.find?_cons_of_neg (by simpa using hne)]
    · have hne : m.address ≠ a := fun he => hm (he.trans ha)
      rw [List.find?_cons_of_neg (by simpa using hne), ih, if_pos ha,
        List.find?_cons_of_neg (by simpa using hne)]
    · by_cases hma : m.address = a
      · rw [List.find?_cons_of_pos (by simpa using hma), List.find?_cons_of_pos (by simpa using hma)]
      · rw [List.find?_cons_of_neg (by simpa using hma), ih, if_neg ha,
          List.find?_cons_of_neg (by simpa using hma)]

theorem sharesOf_of_mem (hm : m ∈ p.miners) : p.sharesOf m.address = m.shares := by
  rw [sharesOf, find?_of_mem p.nodup hm]
  rfl

/-- **A share counts for its miner.** -/
theorem sharesOf_addShare (p : MiningPool) (now : Nat) (a b : String) :
    (p.addShare now a).sharesOf b = p.sharesOf b + if b = a then 1 else 0 := by
  show (((upsert (.new a now) _ p.miners).find? (·.address = b)).map (·.shares)).getD 0 = _
  rw [find?_upsert, sharesOf]
  swap
  · exact fun _ => rfl
  show ((if b = a then _ else _ : Option MinerStat).map (·.shares)).getD 0 = _
  split_ifs with h
  · cases p.miners.find? (·.address = b) with
    | none => rfl
    | some m => rfl
  · rw [add_zero]

/-- **A payout leaves no shares.** -/
theorem sharesOf_applyPayout (p : MiningPool) (now : Nat) (distribution : List (String × Amount))
    (feeZents : Amount) (a : String) : (p.applyPayout now distribution feeZents).sharesOf a = 0 := by
  unfold sharesOf
  cases h : (p.applyPayout now distribution feeZents).miners.find? (·.address = a) with
  | none => rfl
  | some m =>
    obtain ⟨n, -, rfl⟩ := List.mem_map.1 (List.mem_of_find?_eq_some h)
    rfl

theorem exists_of_sharesOf (h : 0 < p.sharesOf a) : ∃ m ∈ p.miners, m.address = a := by
  unfold sharesOf at h
  cases hf : p.miners.find? (·.address = a) with
  | none =>
    rw [hf] at h
    exact absurd h (lt_irrefl 0)
  | some m => exact ⟨m, List.mem_of_find?_eq_some hf, by simpa using List.find?_some hf⟩

/-- **Who is paid**: the miners with shares for which the least payout is due, and what is due. -/
theorem mem_computeDistribution {distributable amt : Amount} :
    (a, amt) ∈ p.computeDistribution distributable ↔
      0 < p.totalShares ∧ distributable.zents ≠ 0 ∧ 0 < p.sharesOf a ∧
        amt = p.due distributable (p.sharesOf a) ∧ minPayoutZents ≤ amt.zents := by
  unfold computeDistribution
  split_ifs with h
  · refine iff_of_false List.not_mem_nil ?_
    rintro ⟨ht, hd, -⟩
    exact h.elim (fun hle => absurd ht (not_lt.2 hle)) hd
  · obtain ⟨ht, hd⟩ := not_or.1 h
    simp only [List.mem_filter, List.mem_map, decide_eq_true_eq, Prod.mk.injEq]
    constructor
    · rintro ⟨⟨m, ⟨hm, hpos⟩, rfl, rfl⟩, hmin⟩
      rw [sharesOf_of_mem hm]
      exact ⟨not_le.1 ht, hd, hpos, rfl, hmin⟩
    · rintro ⟨-, -, hpos, rfl, hmin⟩
      obtain ⟨m, hm, rfl⟩ := exists_of_sharesOf hpos
      rw [sharesOf_of_mem hm] at hpos hmin ⊢
      exact ⟨⟨m, ⟨hm, hpos⟩, rfl, rfl⟩, hmin⟩

end MiningPool

end Zentra

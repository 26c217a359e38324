import ZentraChain.Consensus.Emission
import ZentraChain.Core.Block

/-!
# Block templates and shares (`miner.rs`)

The miner signs for what its caller computed: parents, transactions, bits, score and work. A share
meets a target 256 times easier than the block's.
-/

namespace Zentra

structure Miner where
  lane : LaneId
  address : Address
  /-- A pool member's payout address, in the coinbase payload. -/
  coinbaseTag : List UInt8
  deriving DecidableEq, Repr

namespace Miner

/-- The coinbase of a template: the reward at its height and the fees, with the tag. -/
def templateCoinbase (m : Miner) (blueScore : Nat) (fees : Amount) (emission : EmissionSchedule) :
    Transaction :=
  let reward := (emission.blockReward blueScore).saturatingAdd fees
  let coinbase := Transaction.createCoinbase reward m.address blueScore
  { coinbase with payload := coinbase.payload ++ m.coinbaseTag }

/-- `build_block_template`, at time `now`. -/
def buildBlockTemplate (E : Env) (m : Miner) (now : Nat) (parentHashes : List Hash)
    (transactions : List Transaction) (difficultyBits blueScore blueWork : Nat) (fees : Amount)
    (emission : EmissionSchedule) : Block :=
  let allTxs := m.templateCoinbase blueScore fees emission :: transactions
  { header :=
      { version := blockVersion
        parents := parentHashes
        merkleRoot := computeMerkleRoot E (allTxs.map (·.txid E))
        timestamp := now
        nonce := 0
        laneId := m.lane
        bits := difficultyBits
        blueScore := blueScore
        blueWork := blueWork
        pruningPoint := .zero }
    transactions := allTxs }

variable {E : Env} {m : Miner} {now difficultyBits blueScore blueWork : Nat} {ps : List Hash}
  {txs : List Transaction} {fees : Amount} {emission : EmissionSchedule}

/-- A template passes the structural checks exactly when it has few enough parents. -/
theorem validateBasic_template :
    (m.buildBlockTemplate E now ps txs difficultyBits blueScore blueWork fees
      emission).header.validateBasic = .ok () ↔ ps.length ≤ maxBlockParents := by
  show (if blockVersion ≠ blockVersion then _ else _) = _ ↔ _
  rw [if_neg (not_not.2 rfl)]
  show (if ps.length > maxBlockParents then _ else _) = _ ↔ _
  by_cases h : ps.length > maxBlockParents
  · rw [if_pos h]
    exact ⟨nofun, fun hle => absurd h (Nat.not_lt.2 hle)⟩
  · rw [if_neg h]
    exact ⟨fun _ => Nat.not_lt.1 h, fun _ => rfl⟩

theorem validateMerkleRoot_template :
    (m.buildBlockTemplate E now ps txs difficultyBits blueScore blueWork fees
      emission).validateMerkleRoot E = true := decide_eq_true rfl

theorem templateCoinbase_zents :
    (m.templateCoinbase blueScore fees emission).totalOutputAmount.zents =
      satAdd (emission.blockReward blueScore).zents fees.zents := by
  rw [Transaction.totalOutputAmount_zents]
  show min (satAdd _ _ + 0) u64Max = _
  exact Nat.min_eq_left (Saturating.add_le _ _ _)

end Miner

/-! ## Shares -/

/-- `share_target_from_bits`: the target's bytes one place up; all ones if its first byte is lost. -/
def shareTargetFromBits (bits : Nat) : Hash :=
  let t := Header.targetFromBits bits
  if t.val / 256 ^ 31 ≠ 0 then ⟨2 ^ 256 - 1⟩ else ⟨t.val * 256⟩

theorem shareTargetFromBits_val (bits : Nat) :
    (shareTargetFromBits bits).val =
      if (Header.targetFromBits bits).val < 256 ^ 31 then (Header.targetFromBits bits).val * 256
      else 2 ^ 256 - 1 := by
  unfold shareTargetFromBits
  simp only
  by_cases h : (Header.targetFromBits bits).val < 256 ^ 31
  · rw [if_pos h, if_neg (not_not.2 (Nat.div_eq_of_lt h))]
  · rw [if_neg h, if_pos (Nat.div_ne_zero_iff.2 ⟨by decide, Nat.not_lt.1 h⟩)]

/-- Which bits have the easier share target. -/
theorem shareTargetFromBits_le_iff {bits bits' : Nat} :
    (shareTargetFromBits bits).val ≤ (shareTargetFromBits bits').val ↔
      (Header.targetFromBits bits).val ≤ (Header.targetFromBits bits').val ∨
        256 ^ 31 ≤ (Header.targetFromBits bits').val := by
  rw [shareTargetFromBits_val, shareTargetFromBits_val]
  split_ifs <;> omega

end Zentra

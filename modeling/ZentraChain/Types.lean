import Mathlib.Order.Lattice
import Mathlib.Order.Defs.LinearOrder
import Mathlib.Tactic
import ZentraChain.Lib.Saturating

/-!
# Base types and constants (`zentra-types`)

A 32-byte array (a hash, a public key, an address payload) is its big-endian value: comparing two
arrays lexicographically is comparing the values. An `Amount` carries its `u64` bound, so the
saturating arithmetic of the source is the arithmetic of the type. Heights, scores and times are
`Nat`; where a source operation on them saturates it does so here at `u64Max`.
-/

namespace Zentra

/-- `u64::MAX`. -/
def u64Max : Nat := 2 ^ 64 - 1

/-- `u64::saturating_add`. -/
abbrev satAdd (a b : Nat) : Nat := Saturating.add u64Max a b

/-- `u64::saturating_mul`. -/
abbrev satMul (a b : Nat) : Nat := Saturating.mul u64Max a b

theorem satAdd_le (a b : Nat) : satAdd a b ≤ a + b := Saturating.add_le_add _ _ _

/-! ## Hashes -/

/-- A 32-byte Blake2b-256 hash. -/
structure Hash where
  val : Nat
  deriving DecidableEq, Repr

namespace Hash

theorem val_injective : Function.Injective val := fun ⟨_⟩ ⟨_⟩ h => congrArg mk h

instance : LinearOrder Hash := LinearOrder.lift' val val_injective

/-- The zero hash, used as a sentinel. -/
def zero : Hash := ⟨0⟩

/-- `meets_target`: lexicographically at most the target. -/
def meetsTarget (h target : Hash) : Bool := h.val ≤ target.val

end Hash

/-! ## Amounts -/

/-- An amount of ZTR in zents (a `u64`). -/
structure Amount where
  zents : Nat
  le_max : zents ≤ u64Max
  deriving DecidableEq, Repr

namespace Amount

def zero : Amount := ⟨0, Nat.zero_le _⟩

def saturatingAdd (a b : Amount) : Amount := ⟨satAdd a.zents b.zents, Saturating.add_le _ _ _⟩

def saturatingSub (a b : Amount) : Amount := ⟨a.zents - b.zents, le_trans (Nat.sub_le _ _) a.le_max⟩

@[ext] theorem ext {a b : Amount} (h : a.zents = b.zents) : a = b := by
  cases a; cases b; cases h; rfl

@[simp] theorem zero_zents : zero.zents = 0 := rfl

@[simp] theorem saturatingAdd_zents (a b : Amount) :
    (a.saturatingAdd b).zents = satAdd a.zents b.zents := rfl

@[simp] theorem saturatingSub_zents (a b : Amount) :
    (a.saturatingSub b).zents = a.zents - b.zents := rfl

end Amount

/-! ## Enumerations -/

inductive NetworkType
  | mainnet | testnet | devnet
  deriving DecidableEq, Repr

inductive BurnType
  | lpTokenBurn | stablecoinBurn | feeBurn | userBurn
  deriving DecidableEq, Repr

inductive TransactionType
  | transfer | coinbase | dexSwap | dexAddLiquidity | crossChainIngest | contractDeploy
  | contractCall | quarantine | tssKeyGen | tssSign | governanceUpdate | stablecoinBurn | lpBurn
  deriving DecidableEq, Repr

inductive LaneId
  | cpu | gpu | btcAsic | ltcAsic | fpga
  deriving DecidableEq, Repr

/-- `LaneId::ALL`. -/
def LaneId.all : List LaneId := [.cpu, .gpu, .btcAsic, .ltcAsic, .fpga]

/-- The hash of an Ed25519 public key, with the network that selects the Bech32m prefix. -/
structure Address where
  payload : Nat
  network : NetworkType
  deriving DecidableEq, Repr

/-! ## Constants -/

/-- 50,000,000 ZTR. -/
def maxSupplyZents : Nat := 5000000000000000

def initialRewardZents : Nat := 4756468797

theorem initialRewardZents_le : initialRewardZents ≤ u64Max := by decide

def halvingIntervalBlocks : Nat := 525600

def maxHalvings : Nat := 64

def targetBlockTimeMs : Nat := 60000

def ghostdagK : Nat := 18

def maxBlockParents : Nat := 10

/-- 1 MiB. -/
def maxBlockSize : Nat := 1048576

def maxTxsPerBlock : Nat := 10000

def blockVersion : Nat := 1

/-- `COINBASE_MATURITY`: blocks a coinbase output must age before it can be spent. -/
def coinbaseMaturity : Nat := 10

/-- `NetworkType::halving_interval`: the same on every network. -/
def NetworkType.halvingInterval (_ : NetworkType) : Nat := halvingIntervalBlocks

end Zentra

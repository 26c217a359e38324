import ZentraChain.Core.Block
import ZentraChain.Lib.Borsh

/-!
# Borsh encodings of transactions, headers and blocks

The derived encodings of the records, in the order of the source's fields. Hashes are taken of them
and blocks are sent as them; what is used of them here is their lengths.
-/

namespace Zentra

/-- The discriminant that stands for the variant. -/
def TransactionType.tag : TransactionType → Nat
  | .transfer => 0
  | .coinbase => 1
  | .dexSwap => 2
  | .dexAddLiquidity => 3
  | .crossChainIngest => 4
  | .contractDeploy => 5
  | .contractCall => 6
  | .quarantine => 7
  | .tssKeyGen => 8
  | .tssSign => 9
  | .governanceUpdate => 10
  | .stablecoinBurn => 11
  | .lpBurn => 12

def LaneId.tag : LaneId → Nat
  | .cpu => 0
  | .gpu => 1
  | .btcAsic => 2
  | .ltcAsic => 3
  | .fpga => 4

def BurnType.tag : BurnType → Nat
  | .lpTokenBurn => 0
  | .stablecoinBurn => 1
  | .feeBurn => 2
  | .userBurn => 3

def NetworkType.tag : NetworkType → Nat
  | .mainnet => 0
  | .testnet => 1
  | .devnet => 2

def Hash.encode (h : Hash) : List UInt8 := Borsh.bytes32 h.val

def Address.encode (a : Address) : List UInt8 := Borsh.bytes32 a.payload ++ Borsh.le 1 a.network.tag

def Amount.encode (a : Amount) : List UInt8 := Borsh.le 8 a.zents

def TxInput.encode (i : TxInput) : List UInt8 :=
  i.prevTxHash.encode ++ Borsh.le 4 i.outputIndex ++ Borsh.bytes i.signature ++
    Borsh.bytes32 i.publicKey

def TxOutput.encode : TxOutput → List UInt8
  | .standard address amount script =>
    Borsh.le 1 0 ++ address.encode ++ amount.encode ++ Borsh.bytes script
  | .burn amount burnType => Borsh.le 1 1 ++ amount.encode ++ Borsh.le 1 burnType.tag

def Transaction.encode (tx : Transaction) : List UInt8 :=
  Borsh.le 4 tx.version ++ Borsh.le 1 tx.txType.tag ++ Borsh.vec TxInput.encode tx.inputs ++
    Borsh.vec TxOutput.encode tx.outputs ++ Borsh.bytes tx.payload ++ Borsh.le 8 tx.lockTime

def Header.encode (h : Header) : List UInt8 :=
  Borsh.le 4 h.version ++ Borsh.vec Hash.encode h.parents ++ h.merkleRoot.encode ++
    Borsh.le 8 h.timestamp ++ Borsh.le 8 h.nonce ++ Borsh.le 1 h.laneId.tag ++ Borsh.le 4 h.bits ++
    Borsh.le 8 h.blueScore ++ Borsh.le 16 h.blueWork ++ h.pruningPoint.encode

def Block.encode (b : Block) : List UInt8 :=
  b.header.encode ++ Borsh.vec Transaction.encode b.transactions

/-- `size_bytes`. -/
def Block.sizeBytes (b : Block) : Nat := b.encode.length

/-! ## Lengths -/

@[simp] theorem Hash.encode_length (h : Hash) : h.encode.length = 32 := Borsh.bytes32_length _

@[simp] theorem Address.encode_length (a : Address) : a.encode.length = 33 := by simp [encode]

@[simp] theorem Amount.encode_length (a : Amount) : a.encode.length = 8 := Borsh.le_length _ _

theorem TxInput.encode_length (i : TxInput) : i.encode.length = 72 + i.signature.length := by
  simp [encode]
  omega

theorem Transaction.encode_length (tx : Transaction) :
    tx.encode.length = 25 + (tx.inputs.map fun i => i.encode.length).sum +
      (tx.outputs.map fun o => o.encode.length).sum + tx.payload.length := by
  simp [encode, Borsh.vec_length]
  omega

theorem Transaction.payload_le_encode_length (tx : Transaction) :
    tx.payload.length ≤ tx.encode.length := by
  rw [encode_length]
  exact Nat.le_add_left _ _

theorem Header.encode_length (h : Header) : h.encode.length = 117 + 32 * h.parents.length := by
  have hp : (Borsh.vec Hash.encode h.parents).length = 4 + 32 * h.parents.length :=
    Borsh.vec_length_const _ fun x _ => x.encode_length
  simp [encode, hp]
  omega

theorem Block.sizeBytes_eq (b : Block) :
    b.sizeBytes = 121 + 32 * b.header.parents.length +
      (b.transactions.map fun tx => tx.encode.length).sum := by
  unfold sizeBytes encode
  rw [List.length_append, Header.encode_length, Borsh.vec_length]
  omega

/-- A signed input is too long for the pair of hashes of a Merkle node. -/
theorem Transaction.lt_encode_length {tx : Transaction} {i : TxInput} (hi : i ∈ tx.inputs)
    (hs : i.signature.length = 64) : 64 < tx.encode.length := by
  have hle : i.encode.length ≤ (tx.inputs.map fun i => i.encode.length).sum :=
    List.single_le_sum (fun _ _ => Nat.zero_le _) _ (List.mem_map_of_mem hi)
  rw [TxInput.encode_length] at hle
  rw [encode_length]
  omega

end Zentra

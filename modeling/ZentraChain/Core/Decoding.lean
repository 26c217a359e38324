import ZentraChain.Core.Encoding
import ZentraChain.Core.Utxo
import ZentraChain.Lib.Codec

/-!
# Borsh decoding of transactions, headers, blocks and undo data

The derived `BorshDeserialize` of each record reads its fields in the order of the source, and its
`Fits` says that the fields are values of their types. Each reader is a `Borsh.Codec`: it accepts the
encodings of the records that fit, and nothing else (`Transaction.codec`, `Header.codec`,
`Block.codec`, `BlockUndoData.codec`).
-/

namespace Zentra

open Borsh

/-! ## Enumerations -/

/-- `TransactionType::from_u8`, which the derived reader of a `use_discriminant` enumeration is. -/
def TransactionType.fromU8 : Nat → Option TransactionType
  | 0 => some .transfer
  | 1 => some .coinbase
  | 2 => some .dexSwap
  | 3 => some .dexAddLiquidity
  | 4 => some .crossChainIngest
  | 5 => some .contractDeploy
  | 6 => some .contractCall
  | 7 => some .quarantine
  | 8 => some .tssKeyGen
  | 9 => some .tssSign
  | 10 => some .governanceUpdate
  | 11 => some .stablecoinBurn
  | 12 => some .lpBurn
  | _ => none

/-- `LaneId::from_u8`. -/
def LaneId.fromU8 : Nat → Option LaneId
  | 0 => some .cpu
  | 1 => some .gpu
  | 2 => some .btcAsic
  | 3 => some .ltcAsic
  | 4 => some .fpga
  | _ => none

def BurnType.ofTag : Nat → Option BurnType
  | 0 => some .lpTokenBurn
  | 1 => some .stablecoinBurn
  | 2 => some .feeBurn
  | 3 => some .userBurn
  | _ => none

def NetworkType.ofTag : Nat → Option NetworkType
  | 0 => some .mainnet
  | 1 => some .testnet
  | 2 => some .devnet
  | _ => none

def boolTag (b : Bool) : Nat := if b then 1 else 0

/-- A `bool` is one byte, and only 0 and 1 are accepted. -/
def boolOfTag : Nat → Option Bool
  | 0 => some false
  | 1 => some true
  | _ => none

def TransactionType.read : Reader TransactionType := (readLe 1).filterMap fromU8

def LaneId.read : Reader LaneId := (readLe 1).filterMap fromU8

def BurnType.read : Reader BurnType := (readLe 1).filterMap ofTag

def NetworkType.read : Reader NetworkType := (readLe 1).filterMap ofTag

def readBool : Reader Bool := (readLe 1).filterMap boolOfTag

theorem TransactionType.codec : Codec (fun _ => True) (fun t => le 1 (tag t)) read :=
  (Codec.le 1).filterMap (fun t => by cases t <;> decide) (fun t => by cases t <;> rfl)
    fun n t h => by
      unfold fromU8 at h
      split at h <;> cases h <;> rfl

theorem LaneId.codec : Codec (fun _ => True) (fun l => le 1 (tag l)) read :=
  (Codec.le 1).filterMap (fun l => by cases l <;> decide) (fun l => by cases l <;> rfl)
    fun n l h => by
      unfold fromU8 at h
      split at h <;> cases h <;> rfl

theorem BurnType.codec : Codec (fun _ => True) (fun t => le 1 (tag t)) read :=
  (Codec.le 1).filterMap (fun t => by cases t <;> decide) (fun t => by cases t <;> rfl)
    fun n t h => by
      unfold ofTag at h
      split at h <;> cases h <;> rfl

theorem NetworkType.codec : Codec (fun _ => True) (fun t => le 1 (tag t)) read :=
  (Codec.le 1).filterMap (fun t => by cases t <;> decide) (fun t => by cases t <;> rfl)
    fun n t h => by
      unfold ofTag at h
      split at h <;> cases h <;> rfl

theorem bool_codec : Codec (fun _ => True) (fun b => le 1 (boolTag b)) readBool :=
  (Codec.le 1).filterMap (fun b => by cases b <;> decide) (fun b => by cases b <;> rfl)
    fun n b h => by
      unfold boolOfTag at h
      split at h <;> cases h <;> rfl

/-! ## Hashes, amounts and addresses -/

/-- 32 bytes. -/
def Hash.Fits (h : Hash) : Prop := FitsIn 32 h.val

instance Hash.decidableFits (h : Hash) : Decidable h.Fits := inferInstanceAs (Decidable (FitsIn 32 h.val))

def Hash.read : Reader Hash := readBytes32.map Hash.mk

theorem Hash.codec : Codec Hash.Fits Hash.encode Hash.read :=
  Codec.bytes32.image Hash.mk Hash.val (fun _ => rfl) fun _ => rfl

/-- The amount of a `u64`. -/
def Amount.ofZents (n : Nat) : Option Amount := if h : n ≤ u64Max then some ⟨n, h⟩ else none

def Amount.read : Reader Amount := (readLe 8).filterMap ofZents

theorem Amount.codec : Codec (fun _ => True) Amount.encode Amount.read :=
  (Codec.le 8).filterMap (fun a => Nat.lt_of_le_of_lt a.le_max (by decide))
    (fun a => dif_pos a.le_max) fun n a h => by
      unfold ofZents at h
      split at h
      · cases h
        rfl
      · cases h

def Address.Fits (a : Address) : Prop := FitsIn 32 a.payload

def Address.fields (a : Address) : Nat × NetworkType := (a.payload, a.network)

def Address.ofFields : Nat × NetworkType → Address := fun (payload, network) => ⟨payload, network⟩

def Address.read : Reader Address := (readBytes32.pair NetworkType.read).map ofFields

theorem Address.codec : Codec Address.Fits Address.encode Address.read :=
  ((Codec.bytes32.pair NetworkType.codec).image ofFields fields (fun _ => rfl) fun _ => rfl).congr_ok
    (fun _ => (and_iff_left trivial).symm) fun _ => rfl

/-! ## Transactions -/

namespace TxInput

structure Fits (i : TxInput) : Prop where
  prevTxHash : i.prevTxHash.Fits
  outputIndex : FitsIn 4 i.outputIndex
  signature : FitsIn 4 i.signature.length
  publicKey : FitsIn 32 i.publicKey

def fields (i : TxInput) : Hash × Nat × List UInt8 × Nat :=
  (i.prevTxHash, i.outputIndex, i.signature, i.publicKey)

def ofFields : Hash × Nat × List UInt8 × Nat → TxInput :=
  fun (prevTxHash, outputIndex, signature, publicKey) =>
    ⟨prevTxHash, outputIndex, signature, publicKey⟩

def read : Reader TxInput :=
  (Hash.read.pair <| (readLe 4).pair <| readBytes.pair readBytes32).map ofFields

theorem codec : Codec Fits encode read :=
  ((Hash.codec.pair <| (Codec.le 4).pair <| Codec.bytes.pair Codec.bytes32).image ofFields fields
    (fun _ => rfl) fun _ => rfl).congr_ok
      (fun _ => ⟨fun h => ⟨h.1, h.2, h.3, h.4⟩, fun h => ⟨h.1, h.2.1, h.2.2.1, h.2.2.2⟩⟩)
      fun i => by simp [encode, fields]

end TxInput

namespace TxOutput

def Fits : TxOutput → Prop
  | standard address _ script => address.Fits ∧ FitsIn 4 script.length
  | burn .. => True

def fields : TxOutput → (Address × Amount × List UInt8) ⊕ (Amount × BurnType)
  | standard address amount script => .inl (address, amount, script)
  | burn amount burnType => .inr (amount, burnType)

def ofFields : (Address × Amount × List UInt8) ⊕ (Amount × BurnType) → TxOutput
  | .inl (address, amount, script) => standard address amount script
  | .inr (amount, burnType) => burn amount burnType

def read : Reader TxOutput :=
  ((Address.read.pair <| Amount.read.pair readBytes).sum (Amount.read.pair BurnType.read)).map
    ofFields

theorem codec : Codec Fits encode read :=
  (((Address.codec.pair <| Amount.codec.pair Codec.bytes).sum
    (Amount.codec.pair BurnType.codec)).image ofFields fields (fun o => by cases o <;> rfl)
      fun s => by rcases s with _ | _ <;> rfl).congr_ok
        (fun o => by cases o <;> simp [Fits, fields]) fun o => by cases o <;> simp [encode, fields]

end TxOutput

namespace Transaction

structure Fits (tx : Transaction) : Prop where
  version : FitsIn 4 tx.version
  inputs : FitsIn 4 tx.inputs.length ∧ ∀ i ∈ tx.inputs, i.Fits
  outputs : FitsIn 4 tx.outputs.length ∧ ∀ o ∈ tx.outputs, o.Fits
  payload : FitsIn 4 tx.payload.length
  lockTime : FitsIn 8 tx.lockTime

def fields (tx : Transaction) :
    Nat × TransactionType × List TxInput × List TxOutput × List UInt8 × Nat :=
  (tx.version, tx.txType, tx.inputs, tx.outputs, tx.payload, tx.lockTime)

def ofFields :
    Nat × TransactionType × List TxInput × List TxOutput × List UInt8 × Nat → Transaction :=
  fun (version, txType, inputs, outputs, payload, lockTime) =>
    ⟨version, txType, inputs, outputs, payload, lockTime⟩

def read : Reader Transaction :=
  ((readLe 4).pair <| TransactionType.read.pair <| (readVec TxInput.read).pair <|
    (readVec TxOutput.read).pair <| readBytes.pair (readLe 8)).map ofFields

theorem codec : Codec Fits encode read :=
  (((Codec.le 4).pair <| TransactionType.codec.pair <| TxInput.codec.vec.pair <|
    TxOutput.codec.vec.pair <| Codec.bytes.pair (Codec.le 8)).image ofFields fields
      (fun _ => rfl) fun _ => rfl).congr_ok
        (fun _ => ⟨fun h => ⟨h.1, trivial, h.2, h.3, h.4, h.5⟩,
          fun h => ⟨h.1, h.2.2.1, h.2.2.2.1, h.2.2.2.2.1, h.2.2.2.2.2⟩⟩)
        fun tx => by simp [encode, fields]

end Transaction

/-! ## Headers and blocks -/

namespace Header

structure Fits (h : Header) : Prop where
  version : FitsIn 4 h.version
  parents : FitsIn 4 h.parents.length ∧ ∀ p ∈ h.parents, p.Fits
  merkleRoot : h.merkleRoot.Fits
  timestamp : FitsIn 8 h.timestamp
  nonce : FitsIn 8 h.nonce
  bits : FitsIn 4 h.bits
  blueScore : FitsIn 8 h.blueScore
  blueWork : FitsIn 16 h.blueWork
  pruningPoint : h.pruningPoint.Fits

def fields (h : Header) :
    Nat × List Hash × Hash × Nat × Nat × LaneId × Nat × Nat × Nat × Hash :=
  (h.version, h.parents, h.merkleRoot, h.timestamp, h.nonce, h.laneId, h.bits, h.blueScore,
    h.blueWork, h.pruningPoint)

def ofFields : Nat × List Hash × Hash × Nat × Nat × LaneId × Nat × Nat × Nat × Hash → Header :=
  fun (version, parents, merkleRoot, timestamp, nonce, laneId, bits, blueScore, blueWork,
      pruningPoint) =>
    ⟨version, parents, merkleRoot, timestamp, nonce, laneId, bits, blueScore, blueWork, pruningPoint⟩

def read : Reader Header :=
  ((readLe 4).pair <| (readVec Hash.read).pair <| Hash.read.pair <| (readLe 8).pair <|
    (readLe 8).pair <| LaneId.read.pair <| (readLe 4).pair <| (readLe 8).pair <|
      (readLe 16).pair Hash.read).map ofFields

theorem codec : Codec Fits encode read :=
  (((Codec.le 4).pair <| Hash.codec.vec.pair <| Hash.codec.pair <| (Codec.le 8).pair <|
    (Codec.le 8).pair <| LaneId.codec.pair <| (Codec.le 4).pair <| (Codec.le 8).pair <|
      (Codec.le 16).pair Hash.codec).image ofFields fields (fun _ => rfl) fun _ => rfl).congr_ok
        (fun _ => ⟨fun h => ⟨h.1, h.2, h.3, h.4, h.5, trivial, h.6, h.7, h.8, h.9⟩,
          fun ⟨h1, h2, h3, h4, h5, _, h6, h7, h8, h9⟩ => ⟨h1, h2, h3, h4, h5, h6, h7, h8, h9⟩⟩)
        fun h => by simp [encode, fields]

end Header

namespace Block

structure Fits (b : Block) : Prop where
  header : b.header.Fits
  transactions : FitsIn 4 b.transactions.length ∧ ∀ tx ∈ b.transactions, tx.Fits

def fields (b : Block) : Header × List Transaction := (b.header, b.transactions)

def ofFields : Header × List Transaction → Block := fun (header, transactions) =>
  ⟨header, transactions⟩

def read : Reader Block := (Header.read.pair (readVec Transaction.read)).map ofFields

theorem codec : Codec Fits encode read :=
  ((Header.codec.pair Transaction.codec.vec).image ofFields fields (fun _ => rfl)
    fun _ => rfl).congr_ok (fun _ => ⟨fun h => ⟨h.1, h.2⟩, fun h => ⟨h.1, h.2⟩⟩) fun _ => rfl

end Block

/-! ## Outpoints, entries and undo data -/

namespace OutPoint

structure Fits (op : OutPoint) : Prop where
  txHash : op.txHash.Fits
  index : FitsIn 4 op.index

def encode (op : OutPoint) : List UInt8 := op.txHash.encode ++ le 4 op.index

def fields (op : OutPoint) : Hash × Nat := (op.txHash, op.index)

def ofFields : Hash × Nat → OutPoint := fun (txHash, index) => ⟨txHash, index⟩

def read : Reader OutPoint := (Hash.read.pair (readLe 4)).map ofFields

theorem codec : Codec Fits encode read :=
  ((Hash.codec.pair (Codec.le 4)).image ofFields fields (fun _ => rfl) fun _ => rfl).congr_ok
    (fun _ => ⟨fun h => ⟨h.1, h.2⟩, fun h => ⟨h.1, h.2⟩⟩) fun _ => rfl

end OutPoint

namespace UtxoEntry

structure Fits (e : UtxoEntry) : Prop where
  address : e.address.Fits
  blockHeight : FitsIn 8 e.blockHeight

def encode (e : UtxoEntry) : List UInt8 :=
  e.amount.encode ++ e.address.encode ++ le 8 e.blockHeight ++ le 1 (boolTag e.isCoinbase)

def fields (e : UtxoEntry) : Amount × Address × Nat × Bool :=
  (e.amount, e.address, e.blockHeight, e.isCoinbase)

def ofFields : Amount × Address × Nat × Bool → UtxoEntry :=
  fun (amount, address, blockHeight, isCoinbase) => ⟨amount, address, blockHeight, isCoinbase⟩

def read : Reader UtxoEntry :=
  (Amount.read.pair <| Address.read.pair <| (readLe 8).pair readBool).map ofFields

theorem codec : Codec Fits encode read :=
  ((Amount.codec.pair <| Address.codec.pair <| (Codec.le 8).pair bool_codec).image ofFields fields
    (fun _ => rfl) fun _ => rfl).congr_ok
      (fun _ => ⟨fun h => ⟨trivial, h.1, h.2, trivial⟩, fun h => ⟨h.2.1, h.2.2.1⟩⟩)
      fun e => by simp [encode, fields]

end UtxoEntry

namespace TxUndoData

structure Fits (u : TxUndoData) : Prop where
  inputsUndo : FitsIn 4 u.inputsUndo.length ∧ ∀ e ∈ u.inputsUndo, e.Fits

def encode (u : TxUndoData) : List UInt8 := vec UtxoEntry.encode u.inputsUndo

def read : Reader TxUndoData := (readVec UtxoEntry.read).map TxUndoData.mk

theorem codec : Codec Fits encode read :=
  (UtxoEntry.codec.vec.image TxUndoData.mk TxUndoData.inputsUndo (fun _ => rfl)
    fun _ => rfl).congr_ok (fun _ => ⟨fun h => h.1, fun h => ⟨h⟩⟩) fun _ => rfl

end TxUndoData

namespace BlockUndoData

structure Fits (u : BlockUndoData) : Prop where
  txsUndo : FitsIn 4 u.txsUndo.length ∧ ∀ t ∈ u.txsUndo, t.Fits
  mergeCoinbases : FitsIn 4 u.mergeCoinbases.length ∧ ∀ op ∈ u.mergeCoinbases, op.Fits

def encode (u : BlockUndoData) : List UInt8 :=
  vec TxUndoData.encode u.txsUndo ++ vec OutPoint.encode u.mergeCoinbases

def fields (u : BlockUndoData) : List TxUndoData × List OutPoint := (u.txsUndo, u.mergeCoinbases)

def ofFields : List TxUndoData × List OutPoint → BlockUndoData :=
  fun (txsUndo, mergeCoinbases) => ⟨txsUndo, mergeCoinbases⟩

def read : Reader BlockUndoData :=
  ((readVec TxUndoData.read).pair (readVec OutPoint.read)).map ofFields

theorem codec : Codec Fits encode read :=
  ((TxUndoData.codec.vec.pair OutPoint.codec.vec).image ofFields fields (fun _ => rfl)
    fun _ => rfl).congr_ok (fun _ => ⟨fun h => ⟨h.1, h.2⟩, fun h => ⟨h.1, h.2⟩⟩) fun _ => rfl

end BlockUndoData

end Zentra

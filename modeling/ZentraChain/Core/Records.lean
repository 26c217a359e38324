import ZentraChain.Types

/-!
# Transactions, headers and blocks (`zentra-core`): the records

The serialised data of the chain, and the primitives from outside the repository that the code
applies to it: `Env` holds the network of the node's configuration, Blake2b-256 over a borsh
encoding (one function for each encoded type), Ed25519 verification and the lanes' proof-of-work
hashes. Nothing is assumed of them; a result that needs more of a hash says so.
-/

namespace Zentra

/-- A reference to a previous output being spent. -/
structure TxInput where
  prevTxHash : Hash
  outputIndex : Nat
  signature : List UInt8
  publicKey : Nat
  deriving DecidableEq, Repr

/-- A spendable output, or a true burn. -/
inductive TxOutput
  | standard (address : Address) (amount : Amount) (script : List UInt8)
  | burn (amount : Amount) (burnType : BurnType)
  deriving DecidableEq, Repr

structure Transaction where
  version : Nat
  txType : TransactionType
  inputs : List TxInput
  outputs : List TxOutput
  payload : List UInt8
  lockTime : Nat
  deriving DecidableEq, Repr

/-- A specific output of a specific transaction. -/
structure OutPoint where
  txHash : Hash
  index : Nat
  deriving DecidableEq, Repr

structure Header where
  version : Nat
  parents : List Hash
  merkleRoot : Hash
  timestamp : Nat
  nonce : Nat
  laneId : LaneId
  bits : Nat
  blueScore : Nat
  blueWork : Nat
  pruningPoint : Hash
  deriving DecidableEq, Repr

structure Block where
  header : Header
  transactions : List Transaction
  deriving DecidableEq, Repr

/-- The node's network and the primitives the repository takes from elsewhere. -/
structure Env where
  network : NetworkType
  /-- Blake2b-256 of a transaction's borsh encoding. -/
  hashTx : Transaction → Hash
  /-- Blake2b-256 of a header's borsh encoding. -/
  hashHeader : Header → Hash
  /-- `Hash::combine`: Blake2b-256 of two concatenated hashes. -/
  combine : Hash → Hash → Hash
  /-- Blake2b-256 of a public key. -/
  hashKey : Nat → Nat
  /-- Ed25519: does the key sign the message with this 64-byte signature? -/
  verify : Nat → Hash → List UInt8 → Bool
  /-- `compute_pow_hash` of a lane on a header (with its nonce zeroed) and a nonce. -/
  powHash : LaneId → Header → Nat → Hash
  /-- Length of a transaction's borsh encoding. -/
  txSize : Transaction → Nat

end Zentra

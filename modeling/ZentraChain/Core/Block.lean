import ZentraChain.Core.Transaction

/-!
# Headers, Merkle roots, blocks and the genesis block

(`header.rs`, `merkle.rs`, `block.rs`, `genesis.rs`.) Targets are 32-byte hashes, so
`targetFromBits` builds the big-endian value of the bytes that the source places.
-/

namespace Zentra

/-! ## Headers -/

namespace Header

def hash (E : Env) (h : Header) : Hash := E.hashHeader h

/-- Byte `b` at position `pos` of a 32-byte big-endian array; outside of it, nothing. -/
def byteAt (pos b : Nat) : Nat := if pos < 32 then b * 256 ^ (31 - pos) else 0

/-- Compact `nBits` to a 256-bit target: exponent in the first byte, 23 bits of mantissa. -/
def targetFromBits (bits : Nat) : Hash :=
  let exponent := bits / 2 ^ 24
  let mantissa := bits % 2 ^ 23
  if exponent = 0 then .zero
  else if exponent ≤ 3 then
    let shifted := mantissa / 2 ^ (8 * (3 - exponent))
    ⟨byteAt 31 (shifted % 256) +
      (if exponent ≥ 2 then byteAt 30 (shifted / 256 % 256) else 0) +
      (if exponent ≥ 3 then byteAt 29 (shifted / 65536 % 256) else 0)⟩
  else
    let pos := 32 - exponent
    ⟨byteAt pos (mantissa / 65536 % 256) + byteAt (pos + 1) (mantissa / 256 % 256) +
      byteAt (pos + 2) (mantissa % 256)⟩

/-- Structural checks; the caller checks the proof of work. -/
def validateBasic (h : Header) : Except ZentraError Unit :=
  if h.version ≠ blockVersion then .error (.invalidVersion blockVersion h.version)
  else if h.parents.length > maxBlockParents then
    .error (.tooManyParents h.parents.length maxBlockParents)
  else .ok ()

def easiestBits : Nat := 0x207FFFFF

/-- The genesis header, before its Merkle root is set. -/
def genesis (_ : NetworkType) : Header where
  version := blockVersion
  parents := []
  merkleRoot := .zero
  timestamp := 1717372800000
  nonce := 0
  laneId := .cpu
  bits := easiestBits
  blueScore := 0
  blueWork := 0
  pruningPoint := .zero

end Header

/-! ## Merkle roots -/

/-- An odd level gets its last element twice. -/
def padLevel (l : List Hash) : List Hash :=
  if l.length % 2 ≠ 0 then l ++ l.getLast?.toList else l

/-- The next level: each pair combined. -/
def combinePairs (E : Env) : List Hash → List Hash
  | a :: b :: l => E.combine a b :: combinePairs E l
  | _ => []

/-- Levels up to the root; every level halves, so the length of the first is fuel enough. -/
def merkleLevels (E : Env) : Nat → List Hash → Hash
  | 0, l => l.headD .zero
  | n + 1, l => if l.length > 1 then merkleLevels E n (combinePairs E (padLevel l)) else l.headD .zero

def computeMerkleRoot (E : Env) (txHashes : List Hash) : Hash :=
  match txHashes with
  | [] => .zero
  | [h] => h
  | l => merkleLevels E l.length l

/-! ## Blocks -/

namespace Block

def hash (E : Env) (b : Block) : Hash := b.header.hash E

def computeMerkleRoot (E : Env) (b : Block) : Hash :=
  Zentra.computeMerkleRoot E (b.transactions.map (·.txid E))

def validateMerkleRoot (E : Env) (b : Block) : Bool :=
  b.header.merkleRoot = b.computeMerkleRoot E

/-- The coinbase: the first transaction, when it is one. -/
def coinbase? (b : Block) : Option Transaction :=
  match b.transactions with
  | tx :: _ => if tx.isCoinbase then some tx else none
  | [] => none

/-- The exact total that the coinbase pays, burns included (0 without a coinbase). -/
def coinbaseTotal (b : Block) : Nat := (b.coinbase?.map (·.outputTotal)).getD 0

/-- The exact total burned by all transactions. -/
def burnTotal (b : Block) : Nat := (b.transactions.map (·.burnTotal)).sum

/-- `Address::from_public_key`. -/
def addressOf (E : Env) (publicKey : Nat) : Address := ⟨E.hashKey publicKey, E.network⟩

/-- The genesis coinbase, to the address of the all-zeros key. -/
def genesisCoinbase (E : Env) : Transaction :=
  Transaction.createCoinbase ⟨initialRewardZents, initialRewardZents_le⟩ (addressOf E 0) 0

/-- The genesis block of the node's network. -/
def genesis (E : Env) : Block where
  header :=
    { Header.genesis E.network with
      merkleRoot := Zentra.computeMerkleRoot E [(genesisCoinbase E).txid E] }
  transactions := [genesisCoinbase E]

@[simp] theorem genesis_parents (E : Env) : (genesis E).header.parents = [] := rfl

@[simp] theorem genesis_blueScore (E : Env) : (genesis E).header.blueScore = 0 := rfl

@[simp] theorem genesis_transactions (E : Env) :
    (genesis E).transactions = [genesisCoinbase E] := rfl

@[simp] theorem genesisCoinbase_isCoinbase (E : Env) : (genesisCoinbase E).isCoinbase = true := rfl

end Block

end Zentra

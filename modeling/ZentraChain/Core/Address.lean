import ZentraChain.Core.Encoding

/-!
# Addresses in text (`address.rs`)

An address is written in Bech32m: the prefix names its network, the data are the 32 bytes of its
payload.
-/

namespace Zentra

/-- The `bech32` crate, from outside the repository. -/
structure Bech32 where
  /-- `bech32::encode::<Bech32m>` of a prefix and data. -/
  encode : String → List UInt8 → String
  /-- `bech32::decode`: the prefix and the data. -/
  decode : String → Option (String × List UInt8)

/-- `address_prefix`. -/
def NetworkType.addressPrefix : NetworkType → String
  | .mainnet => "zentra"
  | .testnet => "zentratest"
  | .devnet => "zentradev"

inductive AddressError
  /-- `Bech32 decoding error: {0}` -/
  | bech32
  /-- `Unknown address prefix: {0}` -/
  | unknownPrefix (hrp : String)
  /-- `Invalid payload length: expected 32, got {0}` -/
  | invalidLength (length : Nat)
  deriving DecidableEq, Repr

namespace Address

/-- `from_public_key`: the payload is the hash of the key. -/
def fromPublicKey (hash : List UInt8 → Hash) (pubkey : Nat) (network : NetworkType) : Address :=
  ⟨Borsh.ofBe (hash (Borsh.bytes32 pubkey)).encode, network⟩

theorem fromPublicKey_lt (hash : List UInt8 → Hash) (pubkey : Nat) (network : NetworkType) :
    (fromPublicKey hash pubkey network).payload < 2 ^ 256 := by
  show Borsh.ofBe (Borsh.le 32 _).reverse < _
  rw [Borsh.ofBe_le_reverse]
  exact Nat.mod_lt _ (by decide)

/-- `to_bech32`. -/
def toBech32 (B : Bech32) (a : Address) : String :=
  B.encode a.network.addressPrefix (Borsh.bytes32 a.payload)

/-- `from_bech32`. -/
def fromBech32 (B : Bech32) (s : String) : Except AddressError Address :=
  match B.decode s with
  | none => .error .bech32
  | some (hrp, data) =>
    let network : Option NetworkType :=
      if hrp = "zentra" then some .mainnet
      else if hrp = "zentratest" then some .testnet
      else if hrp = "zentradev" then some .devnet
      else none
    match network with
    | none => .error (.unknownPrefix hrp)
    | some network =>
      if data.length ≠ 32 then .error (.invalidLength data.length)
      else .ok ⟨Borsh.ofBe data, network⟩

end Address

namespace Sample

/-- Two addresses in text. -/
def bech32 : Bech32 where
  encode hrp data := hrp ++ if data = List.replicate 32 1 then "1pool" else "1member"
  decode s :=
    if s = "zentradev1pool" then some ("zentradev", List.replicate 32 1)
    else if s = "zentradev1member" then some ("zentradev", List.replicate 32 2)
    else none

def poolAddress : Address := ⟨Borsh.ofBe (List.replicate 32 1), .devnet⟩

end Sample

end Zentra

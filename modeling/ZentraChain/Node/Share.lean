import ZentraChain.Consensus.Miner
import ZentraChain.Core.Address
import ZentraChain.Node.Chain
import ZentraChain.Node.Connect
import ZentraChain.Node.Pool

/-!
# Pool shares (`node.rs`)

The operator credits a share to the member that its coinbase names. The work asked of it is that of
the share's own bits, whatever the chain asks (`share_work_iff`).
-/

namespace Zentra

/-- The parts of a node that take shares. -/
structure PoolNode where
  dag : Dag
  poolMode : Bool
  pool : MiningPool
  seenShares : Finset Hash

/-- The hash that the proof of work is about. -/
def Header.powHash (E : Env) (h : Header) : Hash := E.powHash h.laneId { h with nonce := 0 } h.nonce

/-- `pow_meets_target`. -/
def powMeetsTarget (E : Env) (h : Header) (target : Hash) : Bool := (h.powHash E).meetsTarget target

section
variable (E : Env) (B : Bech32)

def paysPool (poolAddr : String) (cb : Transaction) : Bool :=
  cb.outputs.any fun
    | .standard address _ _ => address.toBech32 B = poolAddr
    | .burn .. => false

/-- The member's address behind the height in a coinbase payload. -/
def payloadMember (cb : Transaction) : Option String :=
  if cb.payload.length ≤ 8 then none
  else
    match String.fromUTF8? ⟨(cb.payload.drop 8).toArray⟩ with
    | none => none
    | some member =>
      match Address.fromBech32 B member with
      | .error _ => none
      | .ok _ => some member

/-- The checks of a share that was not seen: the member to credit. -/
def shareMember (poolAddr : String) (b : Block) : Option String :=
  match b.coinbase? with
  | none => none
  | some cb =>
    if ¬paysPool B poolAddr cb then none
    else
      match payloadMember B cb with
      | none => none
      | some member =>
        if ¬b.validateMerkleRoot E then none
        else if ¬powMeetsTarget E b.header (shareTargetFromBits b.header.bits) then none
        else some member

/-- What is remembered once a share is credited: nothing after 200,000 others. -/
def remember (seen : Finset Hash) (h : Hash) : Finset Hash :=
  if (insert h seen).card > 200000 then ∅ else insert h seen

/-- `verify_and_credit_share`, at time `now`. -/
def PoolNode.verifyAndCreditShare (now : Nat) (n : PoolNode) (b : Block) : PoolNode × Bool :=
  if ¬n.poolMode then (n, false)
  else if b.hash E ∈ n.seenShares then (n, false)
  else
    match shareMember E B n.pool.address b with
    | none => (n, false)
    | some member =>
      ({ n with
          pool := n.pool.addShare now member
          seenShares := remember n.seenShares (b.hash E) }, true)

/-- The coinbase of a block pays the pool and names a member, and is in its Merkle root. -/
def Tagged (poolAddr : String) (b : Block) (member : String) : Prop :=
  ∃ cb ∈ b.coinbase?, paysPool B poolAddr cb = true ∧ payloadMember B cb = some member ∧
    b.validateMerkleRoot E = true

/-- A share that only its work can be wrong with. -/
def PoolNode.Takes (n : PoolNode) (b : Block) : Prop :=
  n.poolMode = true ∧ b.hash E ∉ n.seenShares ∧ ∃ member, Tagged E B n.pool.address b member

end

variable {E : Env} {B : Bech32} {n : PoolNode} {b : Block} {now : Nat} {poolAddr member : String}

theorem powMeetsTarget_iff {h : Header} {target : Hash} :
    powMeetsTarget E h target = true ↔ (h.powHash E).val ≤ target.val := decide_eq_true_iff

theorem shareMember_eq_some : shareMember E B poolAddr b = some member ↔
    Tagged E B poolAddr b member ∧
      (b.header.powHash E).val ≤ (shareTargetFromBits b.header.bits).val := by
  unfold shareMember Tagged
  cases b.coinbase? with
  | none => simp
  | some cb =>
    simp only [Option.mem_def, Option.some.injEq, exists_eq_left', ← powMeetsTarget_iff]
    by_cases hp : paysPool B poolAddr cb = true
    · rw [if_neg (not_not.2 hp)]
      cases hm : payloadMember B cb with
      | none => simp
      | some m =>
        by_cases hroot : b.validateMerkleRoot E = true
        · by_cases hpow : powMeetsTarget E b.header (shareTargetFromBits b.header.bits) = true
          · simp [hp, hroot, hpow]
          · simp [hroot, hpow]
        · simp [hroot]
    · rw [if_pos hp]
      simp [hp]

theorem verifyAndCreditShare_iff : (n.verifyAndCreditShare E B now b).2 = true ↔
    n.Takes E B b ∧ (b.header.powHash E).val ≤ (shareTargetFromBits b.header.bits).val := by
  unfold PoolNode.verifyAndCreditShare PoolNode.Takes
  by_cases hmode : n.poolMode = true
  · rw [if_neg (not_not.2 hmode)]
    by_cases hseen : b.hash E ∈ n.seenShares
    · rw [if_pos hseen]
      exact iff_of_false Bool.false_ne_true fun h => h.1.2.1 hseen
    · rw [if_neg hseen]
      cases hm : shareMember E B n.pool.address b with
      | none =>
        refine iff_of_false Bool.false_ne_true ?_
        rintro ⟨⟨-, -, member, ht⟩, hpow⟩
        rw [shareMember_eq_some.2 ⟨ht, hpow⟩] at hm
        cases hm
      | some member =>
        obtain ⟨ht, hpow⟩ := shareMember_eq_some.1 hm
        exact iff_of_true rfl ⟨⟨hmode, hseen, member, ht⟩, hpow⟩
  · rw [if_pos hmode]
    exact iff_of_false Bool.false_ne_true fun h => hmode h.1.1

/-- The bits that the chain asks of a block, from its parents and lane. -/
def PoolNode.expectedBits (E : Env) (n : PoolNode) (b : Block) : Nat :=
  n.dag.calculateExpectedDifficulty E.network b.header.parents b.header.laneId

/-- With another proof-of-work hash. -/
def Env.withPowHash (E : Env) (powHash : LaneId → Header → Nat → Hash) : Env :=
  { E with powHash := powHash }

variable (powHash : LaneId → Header → Nat → Hash)

theorem combinePairs_withPowHash : ∀ l : List Hash,
    combinePairs (E.withPowHash powHash) l = combinePairs E l
  | [] => rfl
  | [_] => rfl
  | a :: b :: rest => congrArg (E.combine a b :: ·) (combinePairs_withPowHash rest)

theorem merkleLevels_withPowHash (k : Nat) (l : List Hash) :
    merkleLevels (E.withPowHash powHash) k l = merkleLevels E k l := by
  induction k generalizing l with
  | zero => rfl
  | succ k ih => rw [merkleLevels, merkleLevels, combinePairs_withPowHash, ih]

/-- Only the work depends on the proof-of-work hash. -/
theorem takes_withPowHash : n.Takes (E.withPowHash powHash) B b ↔ n.Takes E B b := by
  have hroot : b.computeMerkleRoot (E.withPowHash powHash) = b.computeMerkleRoot E := by
    unfold Block.computeMerkleRoot computeMerkleRoot
    simp only [merkleLevels_withPowHash]
    rfl
  unfold PoolNode.Takes Tagged Block.validateMerkleRoot
  rw [hroot]
  rfl

/-- **Work of shares.** A credited share has done the work that the chain asks, eased as for shares,
unless the node takes it and its hash lies between the chain's share target and that of its bits. That
it has, whatever its hash is, is so exactly if its bits are no easier than the chain's, or the chain's
share target is every hash. -/
theorem share_work_iff (E : Env) (B : Bech32) (now : Nat) (n : PoolNode) (b : Block) :
    (((n.verifyAndCreditShare E B now b).2 = true →
          powMeetsTarget E b.header (shareTargetFromBits (n.expectedBits E b)) = true) ↔
        ¬(n.Takes E B b ∧
          (shareTargetFromBits (n.expectedBits E b)).val < (b.header.powHash E).val ∧
          (b.header.powHash E).val ≤ (shareTargetFromBits b.header.bits).val)) ∧
      ((∀ powHash, (n.verifyAndCreditShare (E.withPowHash powHash) B now b).2 = true →
          powMeetsTarget (E.withPowHash powHash) b.header
            (shareTargetFromBits (n.expectedBits E b)) = true) ↔
        (n.Takes E B b →
          (Header.targetFromBits b.header.bits).val ≤
              (Header.targetFromBits (n.expectedBits E b)).val ∨
            256 ^ 31 ≤ (Header.targetFromBits (n.expectedBits E b)).val)) := by
  rw [verifyAndCreditShare_iff, powMeetsTarget_iff, ← shareTargetFromBits_le_iff]
  constructor
  · constructor
    · rintro h ⟨ht, hlt, hpow⟩
      exact absurd (h ⟨ht, hpow⟩) (Nat.not_le.2 hlt)
    · rintro h ⟨ht, hpow⟩
      exact Nat.not_lt.1 fun hlt => h ⟨ht, hlt, hpow⟩
  · constructor
    · intro h ht
      -- the worst hash that the share's own bits let pass
      have hworst := h fun _ _ _ => shareTargetFromBits b.header.bits
      rw [verifyAndCreditShare_iff, powMeetsTarget_iff, takes_withPowHash] at hworst
      exact hworst ⟨ht, Nat.le_refl _⟩
    · intro h powHash hok
      obtain ⟨ht, hpow⟩ := verifyAndCreditShare_iff.1 hok
      exact powMeetsTarget_iff.2 (hpow.trans (h ((takes_withPowHash powHash).1 ht)))

namespace Sample

def shareCoinbase : Transaction :=
  { coinbase 1 [⟨5, by decide⟩] with
    outputs := [.standard poolAddress ⟨5, by decide⟩ []]
    payload := Transaction.toLeBytes 1 ++ "zentradev1member".toUTF8.data.toList }

/-- A share of the member, for the pool, with easy bits. -/
def share (nonce : Nat) : Block where
  header :=
    { Header.genesis .devnet with
      merkleRoot := ⟨1001⟩
      nonce := nonce }
  transactions := [shareCoinbase]

def poolNode : PoolNode :=
  ⟨Dag.new .empty, true, .new "" "zentradev1pool" 0, ∅⟩

/-- Every proof-of-work hash is as bad as can be. -/
def lazyEnv : Env := { env with powHash := fun _ _ _ => ⟨2 ^ 256 - 1⟩ }

end Sample

open Sample in
/-- A share with easy bits is credited for no work. -/
theorem easy_share_credited :
    ¬∀ (E : Env) (B : Bech32) (now : Nat) (n : PoolNode) (b : Block),
      (n.verifyAndCreditShare E B now b).2 = true →
        powMeetsTarget E b.header (shareTargetFromBits (n.expectedBits E b)) = true := by
  intro h
  have hcredited := h lazyEnv bech32 0 poolNode (share 0) (by decide +kernel)
  revert hcredited
  decide +kernel

end Zentra

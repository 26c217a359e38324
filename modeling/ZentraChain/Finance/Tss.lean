import ZentraChain.Core.Encoding

/-!
# Threshold signatures (`tss.rs`)

A participant is an Ed25519 key pair. A threshold signature is a hash followed by the partial
signatures it is taken of; `verify` takes the hash again and looks at no partial signature.

* `TssManager.Generated`: what `generate_keys` leaves.
* `identifyAbort_eq_none`: a list of partial signatures passes exactly if each of them is valid.
* `verify_iff`: which byte strings verify.
* `aggregated_sign`: what different participants sign is put together from their partial signatures.
-/

namespace Zentra

/-- Ed25519 and Blake2b-256 over byte strings, from outside the repository. -/
structure TssEnv where
  /-- `Hash::hash`: Blake2b-256. -/
  hash : List UInt8 → Hash
  /-- The public key of a 32-byte secret key. -/
  verifyingKey : List UInt8 → Nat
  /-- Does `VerifyingKey::from_bytes` accept the public key? -/
  isVerifyingKey : Nat → Bool
  /-- The signature of a message under a 32-byte secret key. -/
  sign : List UInt8 → List UInt8 → List UInt8
  /-- Does the public key verify the message with this 64-byte signature? -/
  verify : Nat → List UInt8 → List UInt8 → Bool

/-- The signatures of a secret key are valid under its public key. -/
def TssEnv.Honest (E : TssEnv) : Prop :=
  ∀ key message, key.length = 32 → E.isVerifyingKey (E.verifyingKey key) = true ∧
    (E.sign key message).length = 64 ∧
    E.verify (E.verifyingKey key) message (E.sign key message) = true

inductive TssError
  /-- `threshold must be at least 1` -/
  | thresholdZero
  /-- `threshold {} exceeds total participants {}` -/
  | thresholdExceeds (threshold total : Nat)
  /-- `keys not generated — call generate_keys() first` -/
  | keysNotGenerated
  /-- `need {} signers but only {} provided` -/
  | signers (need got : Nat)
  /-- `signer index {} out of range` -/
  | signerOutOfRange (idx : Nat)
  /-- `invalid secret share length for participant {}` -/
  | secretShareLength (idx : Nat)
  deriving DecidableEq, Repr

structure TssKeyPair where
  publicShare : Nat
  secretShare : List UInt8
  participantIndex : Nat
  threshold : Nat
  totalParticipants : Nat
  deriving DecidableEq, Repr

structure TssManager where
  participants : List TssKeyPair
  /-- `participants.capacity()`. -/
  capacity : Nat
  groupPublicKey : Nat
  threshold : Nat
  deriving DecidableEq, Repr

namespace TssManager

/-- A manager without keys; its vector has the capacity that it is asked for. -/
def new (threshold total : Nat) : TssManager := ⟨[], total, 0, threshold⟩

section
variable (E : TssEnv)

/-- The key pair of participant `i`. -/
def keyPair (secrets : Nat → List UInt8) (threshold total i : Nat) : TssKeyPair :=
  ⟨E.verifyingKey (secrets i), secrets i, i, threshold, total⟩

/-- `generate_keys`; the random secret keys are `secrets 0`, `secrets 1` and so on. -/
def generateKeys (secrets : Nat → List UInt8) (t : TssManager) :
    TssManager × Except TssError Nat :=
  let total := max t.capacity 1 % 2 ^ 16
  if t.threshold = 0 then (t, .error .thresholdZero)
  else if t.threshold > total then (t, .error (.thresholdExceeds t.threshold total))
  else
    let participants := (List.range total).map (keyPair E secrets t.threshold total)
    let combined := participants.flatMap fun p => Borsh.bytes32 p.publicShare
    let groupPublicKey := (E.hash combined).val
    ({ t with
        participants := participants
        -- a vector without room makes room for four at its first push
        capacity := if t.capacity = 0 then 4 else t.capacity
        groupPublicKey := groupPublicKey }, .ok groupPublicKey)

/-- Partial signatures behind the hash of them, the group key and the message. -/
def signatureOver (groupPublicKey : Nat) (message partialSigs : List UInt8) : List UInt8 :=
  (E.hash (partialSigs ++ Borsh.bytes32 groupPublicKey ++ message)).encode ++ partialSigs

/-- The loop of `sign`: the partial signatures of the signers. -/
def signLoop (t : TssManager) (message : List UInt8) : List Nat → Except TssError (List UInt8)
  | [] => .ok []
  | idx :: rest =>
    match t.participants[idx]? with
    | none => .error (.signerOutOfRange idx)
    | some p =>
      if p.secretShare.length ≠ 32 then .error (.secretShareLength idx)
      else
        match signLoop t message rest with
        | .error e => .error e
        | .ok sigs => .ok (E.sign p.secretShare message ++ sigs)

/-- `sign`; the number of signers is cut to 16 bits. -/
def sign (t : TssManager) (message : List UInt8) (signers : List Nat) :
    Except TssError (List UInt8) :=
  if t.participants.isEmpty then .error .keysNotGenerated
  else if signers.length % 2 ^ 16 < t.threshold then
    .error (.signers t.threshold signers.length)
  else
    match t.signLoop E message signers with
    | .error e => .error e
    | .ok partialSigs => .ok (signatureOver E t.groupPublicKey message partialSigs)

/-- `verify`. -/
def verify (t : TssManager) (message signature : List UInt8) : Bool :=
  if signature.length < 32 then false
  else
    signature.take 32 =
      (E.hash (signature.drop 32 ++ Borsh.bytes32 t.groupPublicKey ++ message)).encode

/-- Is this a valid partial signature of participant `idx`? -/
def validPartial (t : TssManager) (message : List UInt8) (idx : Nat) (sig : List UInt8) : Bool :=
  match t.participants[idx]? with
  | none => false
  | some p =>
    E.isVerifyingKey p.publicShare && sig.length == 64 && E.verify p.publicShare message sig

/-- `identify_abort`: the first participant whose partial signature is not valid. -/
def identifyAbort (t : TssManager) (message : List UInt8) : List (Nat × List UInt8) → Option Nat
  | [] => none
  | (idx, sig) :: rest =>
    match t.participants[idx]? with
    | none => some idx
    | some p =>
      if ¬E.isVerifyingKey p.publicShare then some idx
      else if sig.length ≠ 64 then some idx
      else if ¬E.verify p.publicShare message sig then some idx
      else identifyAbort t message rest

/-- The manager after keys were generated, from 32-byte secret keys. -/
def Generated (t : TssManager) : Prop :=
  ∃ t₀ secrets, (∀ i, (secrets i).length = 32) ∧
    generateKeys E secrets t₀ = (t, .ok t.groupPublicKey)

/-- A signature put together from valid partial signatures of `threshold` participants. -/
def Aggregated (t : TssManager) (message signature : List UInt8) : Prop :=
  ∃ partials : List (Nat × List UInt8),
    (∀ x ∈ partials, t.validPartial E message x.1 x.2 = true) ∧
    t.threshold ≤ (partials.map (·.1)).toFinset.card ∧
    signature = signatureOver E t.groupPublicKey message (partials.flatMap (·.2))

end

variable {E : TssEnv} {t : TssManager} {message sig : List UInt8} {idx : Nat}

/-! ## Generated keys -/

theorem generateKeys_ok {secrets : Nat → List UInt8} {t₀ : TssManager} {g : Nat}
    (h : generateKeys E secrets t₀ = (t, .ok g)) :
    t.threshold ≠ 0 ∧ t.threshold ≤ t.participants.length ∧
      t.participants =
        (List.range t.participants.length).map
          (keyPair E secrets t.threshold t.participants.length) := by
  unfold generateKeys at h
  simp only at h
  split at h
  · cases h
  · rename_i h0
    split at h
    · cases h
    · rename_i hle
      cases h
      refine ⟨h0, ?_, ?_⟩
      · rw [List.length_map, List.length_range]
        exact Nat.not_lt.1 hle
      · rw [List.length_map, List.length_range]

theorem Generated.keyPair {i : Nat} {p : TssKeyPair} (hg : t.Generated E)
    (hp : t.participants[i]? = some p) :
    p.secretShare.length = 32 ∧ p.publicShare = E.verifyingKey p.secretShare := by
  obtain ⟨t₀, secrets, hlen, h⟩ := hg
  rw [(generateKeys_ok h).2.2] at hp
  obtain ⟨j, -, rfl⟩ := List.mem_map.1 (List.mem_of_getElem? hp)
  exact ⟨hlen j, rfl⟩

theorem Generated.threshold_pos (hg : t.Generated E) : 0 < t.threshold := by
  obtain ⟨t₀, secrets, -, h⟩ := hg
  exact Nat.pos_of_ne_zero (generateKeys_ok h).1

/-! ## Partial signatures -/

/-- A list of partial signatures passes exactly if each of them is valid. -/
theorem identifyAbort_eq_none : ∀ {sigs : List (Nat × List UInt8)},
    t.identifyAbort E message sigs = none ↔
      ∀ x ∈ sigs, t.validPartial E message x.1 x.2 = true
  | [] => ⟨fun _ _ hx => absurd hx List.not_mem_nil, fun _ => rfl⟩
  | (idx, sig) :: rest => by
    rw [List.forall_mem_cons, ← @identifyAbort_eq_none rest, identifyAbort, validPartial]
    cases t.participants[idx]? with
    | none => simp
    | some p =>
      by_cases hkey : E.isVerifyingKey p.publicShare = true
      · by_cases hlen : sig.length = 64
        · by_cases hver : E.verify p.publicShare message sig = true
          · simp [hkey, hlen, hver]
          · simp [hkey, hlen, hver]
        · simp [hkey, hlen]
      · simp [hkey]

theorem length_of_validPartial (h : t.validPartial E message idx sig = true) :
    sig.length = 64 := by
  unfold validPartial at h
  split at h
  · cases h
  · simp only [Bool.and_eq_true, beq_iff_eq] at h
    exact h.1.2

/-! ## Whole signatures -/

/-- Which byte strings verify: any bytes do, behind their hash. -/
theorem verify_iff : t.verify E message sig = true ↔
    ∃ bytes, sig = signatureOver E t.groupPublicKey message bytes := by
  unfold verify
  split
  · rename_i hlt
    refine ⟨fun h => absurd h Bool.false_ne_true, ?_⟩
    rintro ⟨bytes, rfl⟩
    rw [signatureOver, List.length_append, Hash.encode_length] at hlt
    omega
  · rw [decide_eq_true_iff]
    constructor
    · intro h
      refine ⟨sig.drop 32, ?_⟩
      rw [signatureOver, ← h, List.take_append_drop]
    · rintro ⟨bytes, rfl⟩
      have hlen := Hash.encode_length
        (E.hash (bytes ++ Borsh.bytes32 t.groupPublicKey ++ message))
      rw [signatureOver, List.drop_left' hlen, List.take_left' hlen]

theorem sign_ok {signers : List Nat} (h : t.sign E message signers = .ok sig) :
    t.threshold ≤ signers.length ∧ ∃ bytes, t.signLoop E message signers = .ok bytes ∧
      sig = signatureOver E t.groupPublicKey message bytes := by
  unfold sign at h
  split_ifs at h with hempty hlt
  split at h
  · cases h
  · rename_i bytes hloop
    cases h
    exact ⟨(Nat.not_lt.1 hlt).trans (Nat.mod_le _ _), bytes, hloop, rfl⟩

/-- What `sign` makes verifies. -/
theorem verify_sign {signers : List Nat} (h : t.sign E message signers = .ok sig) :
    t.verify E message sig = true := by
  obtain ⟨-, bytes, -, hsig⟩ := sign_ok h
  exact verify_iff.2 ⟨bytes, hsig⟩

theorem signLoop_ok (hE : E.Honest) (hg : t.Generated E) {signers : List Nat}
    {bytes : List UInt8} (h : t.signLoop E message signers = .ok bytes) :
    ∃ partials : List (Nat × List UInt8), partials.map (·.1) = signers ∧
      (∀ x ∈ partials, t.validPartial E message x.1 x.2 = true) ∧
      bytes = partials.flatMap (·.2) := by
  induction signers generalizing bytes with
  | nil =>
    cases h
    exact ⟨[], rfl, nofun, rfl⟩
  | cons idx rest ih =>
    rw [signLoop] at h
    split at h
    · cases h
    · rename_i p hp
      obtain ⟨hlen, hpub⟩ := hg.keyPair hp
      rw [if_neg (not_not.2 hlen)] at h
      split at h
      · cases h
      · rename_i sigs hrest
        cases h
        obtain ⟨partials, hmap, hvalid, hbytes⟩ := ih hrest
        obtain ⟨hkey, hsig, hver⟩ := hE p.secretShare message hlen
        refine ⟨(idx, E.sign p.secretShare message) :: partials, ?_, ?_, ?_⟩
        · rw [List.map_cons, hmap]
        · refine List.forall_mem_cons.2 ⟨?_, hvalid⟩
          simp only [validPartial, hp, hpub, hkey, hsig, hver, Bool.and_self, BEq.rfl]
        · rw [List.flatMap_cons, hbytes]

/-- **What different participants sign** is an aggregate. -/
theorem aggregated_sign (hE : E.Honest) (hg : t.Generated E) {signers : List Nat}
    (hnd : signers.Nodup) (h : t.sign E message signers = .ok sig) :
    t.Aggregated E message sig := by
  obtain ⟨hle, bytes, hloop, hsig⟩ := sign_ok h
  obtain ⟨partials, hmap, hvalid, rfl⟩ := signLoop_ok hE hg hloop
  refine ⟨partials, hvalid, ?_, hsig⟩
  rwa [hmap, List.toFinset_card_of_nodup hnd]

/-- The empty list of partial signatures is not an aggregate. -/
theorem not_aggregated_nil (hg : t.Generated E) :
    ¬t.Aggregated E message (signatureOver E t.groupPublicKey message []) := by
  rintro ⟨partials, hvalid, hcard, he⟩
  have hlen := congrArg List.length he
  rw [signatureOver, signatureOver, List.length_append, List.length_append, Hash.encode_length,
    Hash.encode_length, List.length_nil] at hlen
  cases partials with
  | nil =>
    have := hg.threshold_pos
    rw [List.map_nil, List.toFinset_nil, Finset.card_empty] at hcard
    omega
  | cons x rest =>
    have := length_of_validPartial (hvalid x List.mem_cons_self)
    rw [List.flatMap_cons, List.length_append] at hlen
    omega

/-- **No manager is sound on any message**: what verifies need not be aggregated, and the hash of the
group key and the message verifies. -/
theorem never_sound (hg : t.Generated E) (message : List UInt8) :
    (¬∀ sig, t.verify E message sig = true → t.Aggregated E message sig) ∧
      t.verify E message (signatureOver E t.groupPublicKey message []) = true := by
  have hver : t.verify E message (signatureOver E t.groupPublicKey message []) = true :=
    verify_iff.2 ⟨[], rfl⟩
  exact ⟨fun h => not_aggregated_nil hg (h _ hver), hver⟩

end TssManager

namespace Sample

/-- Bytes stand for their value; a signature is the secret key and the message's last 32 bytes. -/
def tssEnv : TssEnv where
  hash l := ⟨Borsh.ofBe l⟩
  verifyingKey := Borsh.ofBe
  isVerifyingKey _ := true
  sign key message := key ++ Borsh.bytes32 (Borsh.ofBe message)
  verify key message sig := sig = Borsh.bytes32 key ++ Borsh.bytes32 (Borsh.ofBe message)

def tssSecrets (i : Nat) : List UInt8 := List.replicate 32 (UInt8.ofNat (i + 1))

/-- Two of three. -/
def tss : TssManager := ((TssManager.new 2 3).generateKeys tssEnv tssSecrets).1

theorem tss_generated : tss.Generated tssEnv :=
  ⟨.new 2 3, tssSecrets, fun _ => List.length_replicate, by decide +kernel⟩

end Sample

open Sample TssManager in
theorem never_sound_sample :
    (¬∀ sig, tss.verify tssEnv [1, 2, 3] sig = true → tss.Aggregated tssEnv [1, 2, 3] sig) ∧
      tss.verify tssEnv [1, 2, 3] (signatureOver tssEnv tss.groupPublicKey [1, 2, 3] []) = true :=
  never_sound tss_generated [1, 2, 3]

open Sample TssManager in
/-- The hash of the group key and the message verifies without any partial signature. -/
theorem forged_signature :
    ¬∀ (E : TssEnv) (t : TssManager), t.Generated E → ∀ message sig,
      t.verify E message sig = true → t.Aggregated E message sig := by
  intro h
  refine not_aggregated_nil tss_generated (h tssEnv tss tss_generated [1, 2, 3] _ ?_)
  decide +kernel

end Zentra

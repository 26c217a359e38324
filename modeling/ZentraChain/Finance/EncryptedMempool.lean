import ZentraChain.Core.Address
import ZentraChain.Lib.Runs

/-!
# The encrypted mempool (`encrypted_mempool.rs`)

Transactions are submitted encrypted, with a commitment, and come out in the order of submission
once a key is set.

* `plaintext_encrypt`: decryption undoes encryption.
* `EncryptedMempool.decryptAll_submitAll`: and a batch comes out as it was submitted.
* `EncryptedLog.inOrder_run_iff`: a batch is what was pending when its first key was set exactly if
  nothing was accepted after that.
* `honours_iff`: decryption honours the commitments exactly if all that is pending was encrypted
  with its key.
-/

namespace Zentra

/-- An encrypted transaction awaiting decryption. -/
structure EncryptedTransaction where
  ciphertext : List UInt8
  commitment : Hash
  submitter : Address
  submittedAt : Nat
  deriving DecidableEq, Repr

inductive SubmitError
  /-- `encrypted transaction ciphertext must be non-empty` -/
  | emptyCiphertext
  /-- `duplicate transaction commitment` -/
  | duplicateCommitment
  deriving DecidableEq, Repr

structure EncryptedMempool where
  pending : List EncryptedTransaction
  /-- The epoch key, 32 bytes. -/
  decryptionKey : Option Nat
  deriving DecidableEq, Repr

/-! ## The cipher -/

section
variable (hash : List UInt8 → Hash) (key : Nat)

/-- The loop of `generate_keystream`: block `i` is the hash of the key and `i`. -/
def extendKeystream (length : Nat) (keystream : List UInt8) (blockIndex : Nat) : List UInt8 :=
  if keystream.length < length then
    let block := hash (Borsh.bytes32 key ++ Borsh.le 8 blockIndex)
    extendKeystream length (keystream ++ block.encode) (blockIndex + 1)
  else keystream
termination_by length - keystream.length
decreasing_by
  simp only [List.length_append, Hash.encode_length]
  omega

/-- `generate_keystream`. -/
def generateKeystream (length : Nat) : List UInt8 :=
  (extendKeystream hash key length [] 0).take length

/-- Bytes combined one by one with those of a keystream. -/
def xorBytes (bytes keystream : List UInt8) : List UInt8 :=
  List.zipWith (· ^^^ ·) bytes keystream

/-- `encrypt_transaction`. -/
def encryptTransaction (tx : List UInt8) : EncryptedTransaction where
  ciphertext := xorBytes tx (generateKeystream hash key tx.length)
  commitment := hash tx
  submitter := ⟨Borsh.ofBe (hash (Borsh.bytes32 key)).encode, .devnet⟩
  submittedAt := 0

/-- What `decrypt_all` makes of a pending transaction. -/
def EncryptedTransaction.plaintext (e : EncryptedTransaction) : List UInt8 :=
  xorBytes e.ciphertext (generateKeystream hash key e.ciphertext.length)

/-- A ciphertext with the commitment that `encrypt_transaction` gives it. -/
def EncryptedTransaction.Committed (e : EncryptedTransaction) : Prop :=
  ∃ tx, (encryptTransaction hash key tx).ciphertext = e.ciphertext ∧
    (encryptTransaction hash key tx).commitment = e.commitment

theorem length_extendKeystream (length : Nat) (keystream : List UInt8) (blockIndex : Nat) :
    length ≤ (extendKeystream hash key length keystream blockIndex).length := by
  fun_induction extendKeystream with
  | case1 keystream blockIndex _ block ih => exact ih
  | case2 keystream blockIndex h => omega

@[simp] theorem length_generateKeystream (length : Nat) :
    (generateKeystream hash key length).length = length := by
  simp [generateKeystream, length_extendKeystream]

theorem length_xorBytes {bytes keystream : List UInt8} (h : keystream.length = bytes.length) :
    (xorBytes bytes keystream).length = bytes.length := by
  simp [xorBytes, h]

/-- The same keystream twice. -/
theorem xorBytes_xorBytes {bytes keystream : List UInt8} (h : keystream.length = bytes.length) :
    xorBytes (xorBytes bytes keystream) keystream = bytes := by
  induction bytes generalizing keystream with
  | nil => simp [xorBytes]
  | cons b bytes ih =>
    cases keystream with
    | nil => simp at h
    | cons k keystream =>
      have hrest := ih (by simpa using h)
      simp only [xorBytes, List.zipWith_cons_cons] at hrest ⊢
      rw [hrest, UInt8.xor_assoc, UInt8.xor_self, UInt8.xor_zero]

/-- **Round trip.** Decryption undoes encryption with the same key. -/
theorem plaintext_encrypt (tx : List UInt8) :
    (encryptTransaction hash key tx).plaintext hash key = tx := by
  have hlen := length_xorBytes (length_generateKeystream hash key tx.length)
  simp only [EncryptedTransaction.plaintext, encryptTransaction, hlen]
  exact xorBytes_xorBytes (length_generateKeystream hash key tx.length)

/-- What is decrypted would encrypt to the same bytes. -/
theorem encrypt_plaintext (e : EncryptedTransaction) :
    (encryptTransaction hash key (e.plaintext hash key)).ciphertext = e.ciphertext := by
  have hlen := length_xorBytes (length_generateKeystream hash key e.ciphertext.length)
  simp only [EncryptedTransaction.plaintext, encryptTransaction, hlen]
  exact xorBytes_xorBytes (length_generateKeystream hash key e.ciphertext.length)

/-- A plaintext opens its commitment if it was encrypted under it. -/
theorem committed_iff (e : EncryptedTransaction) :
    e.Committed hash key ↔ hash (e.plaintext hash key) = e.commitment := by
  constructor
  · rintro ⟨tx, hc, hm⟩
    have hpt : e.plaintext hash key = (encryptTransaction hash key tx).plaintext hash key := by
      simp only [EncryptedTransaction.plaintext, hc]
    rw [hpt, plaintext_encrypt]
    exact hm
  · intro h
    exact ⟨_, encrypt_plaintext hash key e, h⟩

end

/-! ## The mempool -/

namespace EncryptedMempool

def new : EncryptedMempool := ⟨[], none⟩

/-- `submit_encrypted`. -/
def submitEncrypted (m : EncryptedMempool) (e : EncryptedTransaction) :
    EncryptedMempool × Except SubmitError Unit :=
  if e.ciphertext.isEmpty then (m, .error .emptyCiphertext)
  else if m.pending.any fun tx => tx.commitment = e.commitment then
    (m, .error .duplicateCommitment)
  else ({ m with pending := m.pending ++ [e] }, .ok ())

/-- `set_decryption_key`. -/
def setDecryptionKey (m : EncryptedMempool) (key : Nat) : EncryptedMempool :=
  { m with decryptionKey := some key }

/-- `decrypt_all`. -/
def decryptAll (hash : List UInt8 → Hash) (m : EncryptedMempool) :
    EncryptedMempool × List (List UInt8) :=
  match m.decryptionKey with
  | none => (m, [])
  | some key => (⟨[], none⟩, m.pending.map (·.plaintext hash key))

def clear (_ : EncryptedMempool) : EncryptedMempool := ⟨[], none⟩

/-- What is returned are transactions that open their commitments, in order: none that does not. -/
def Honours (hash : List UInt8 → Hash) (m : EncryptedMempool) : Prop :=
  ∀ key ∈ m.decryptionKey, ∃ l : List EncryptedTransaction, l.Sublist m.pending ∧
    (m.decryptAll hash).2 = l.map (·.plaintext hash key) ∧
    ∀ e ∈ l, hash (e.plaintext hash key) = e.commitment

variable {hash : List UInt8 → Hash} {m : EncryptedMempool} {e : EncryptedTransaction} {key : Nat}

theorem submitEncrypted_cases (m : EncryptedMempool) (e : EncryptedTransaction) :
    (∃ err, m.submitEncrypted e = (m, .error err)) ∨
      m.submitEncrypted e = ({ m with pending := m.pending ++ [e] }, .ok ()) := by
  unfold submitEncrypted
  split_ifs
  · exact .inl ⟨_, rfl⟩
  · exact .inl ⟨_, rfl⟩
  · exact .inr rfl

/-- Transactions are encrypted and submitted one after the other. -/
def submitAll (hash : List UInt8 → Hash) (key : Nat) (m : EncryptedMempool)
    (txs : List (List UInt8)) : EncryptedMempool :=
  txs.foldl (fun m tx => (m.submitEncrypted (encryptTransaction hash key tx)).1) m

/-- A transaction that is not empty is accepted if its commitment is not there yet. -/
theorem submitEncrypted_encrypt {tx : List UInt8} (htx : tx ≠ [])
    (hnew : ∀ e ∈ m.pending, e.commitment ≠ hash tx) :
    m.submitEncrypted (encryptTransaction hash key tx) =
      ({ m with pending := m.pending ++ [encryptTransaction hash key tx] }, .ok ()) := by
  have hlen : (encryptTransaction hash key tx).ciphertext.length = tx.length :=
    length_xorBytes (length_generateKeystream hash key tx.length)
  have hempty : (encryptTransaction hash key tx).ciphertext.isEmpty = false := by
    cases hc : (encryptTransaction hash key tx).ciphertext with
    | nil => exact absurd (List.length_eq_zero_iff.1 (by rw [← hlen, hc]; rfl)) htx
    | cons b bytes => rfl
  have hdup : (m.pending.any fun e => e.commitment = (encryptTransaction hash key tx).commitment) =
      false := List.any_eq_false.2 fun e he => by
    rw [decide_eq_true_eq]
    exact hnew e he
  simp [submitEncrypted, hempty, hdup]

/-- All of them are pending, in order. -/
theorem submitAll_eq {txs : List (List UInt8)} (hne : ∀ tx ∈ txs, tx ≠ [])
    (hnd : (m.pending.map (·.commitment) ++ txs.map hash).Nodup) :
    m.submitAll hash key txs =
      { m with pending := m.pending ++ txs.map (encryptTransaction hash key) } := by
  induction txs generalizing m with
  | nil => simp [submitAll]
  | cons tx txs ih =>
    have hnew : ∀ e ∈ m.pending, e.commitment ≠ hash tx := by
      intro e he heq
      have hdisj := (List.nodup_append.1 hnd).2.2
      exact hdisj _ (List.mem_map_of_mem he) (hash tx) (by simp) heq
    have hstep : m.submitEncrypted (encryptTransaction hash key tx) = _ :=
      submitEncrypted_encrypt (hne tx (by simp)) hnew
    rw [submitAll, List.foldl_cons, hstep]
    have hrest := @ih { m with pending := m.pending ++ [encryptTransaction hash key tx] }
      (fun tx' h => hne tx' (by simp [h])) (by simpa [encryptTransaction] using hnd)
    rw [submitAll] at hrest
    rw [hrest]
    simp

/-- **A batch comes out as it was submitted**: transactions that are not empty and have different
commitments, in order and under one key. -/
theorem decryptAll_submitAll (hash : List UInt8 → Hash) (key : Nat) {txs : List (List UInt8)}
    (hne : ∀ tx ∈ txs, tx ≠ [])
    (hnd : (txs.map fun tx => (encryptTransaction hash key tx).commitment).Nodup) :
    (((new.submitAll hash key txs).setDecryptionKey key).decryptAll hash).2 = txs := by
  rw [submitAll_eq hne (by simpa [new, encryptTransaction] using hnd)]
  simp [setDecryptionKey, decryptAll, new, plaintext_encrypt, Function.comp_def]

theorem decryptAll_submitAll_two :
    (((new.submitAll (fun bytes => ⟨bytes.length⟩) 66 [[7], [8, 9]]).setDecryptionKey 66).decryptAll
      fun bytes => ⟨bytes.length⟩).2 = [[7], [8, 9]] :=
  decryptAll_submitAll _ _ (by decide) (by decide)

/-- **Commitments.** Decryption honours them exactly if every pending transaction was encrypted,
under its commitment, with the key that it is decrypted with. -/
theorem honours_iff (hash : List UInt8 → Hash) (m : EncryptedMempool) (key : Nat) :
    (m.setDecryptionKey key).Honours hash ↔ ∀ e ∈ m.pending, e.Committed hash key := by
  simp only [Honours, setDecryptionKey, decryptAll, Option.mem_some_iff, forall_eq',
    committed_iff]
  constructor
  · intro h
    obtain ⟨l, hsub, hout, hl⟩ := h
    have hlen : l.length = m.pending.length := by
      simpa using (congrArg List.length hout).symm
    rw [hsub.eq_of_length hlen] at hl
    exact hl
  · intro h
    exact ⟨m.pending, List.Sublist.refl _, rfl, h⟩

/-- Two commitments for one plaintext: it comes out twice. -/
theorem unopened_returned : ¬∃ hash : List UInt8 → Hash, ∀ (m : EncryptedMempool) (key : Nat),
    (m.setDecryptionKey key).Honours hash := by
  intro hex
  obtain ⟨hash, h⟩ := hex
  let e (commitment : Hash) : EncryptedTransaction := ⟨[7], commitment, ⟨0, .devnet⟩, 100⟩
  have hm : (new.submitEncrypted (e ⟨1⟩)).1.submitEncrypted (e ⟨2⟩) =
      (⟨[e ⟨1⟩, e ⟨2⟩], none⟩, .ok ()) := by decide
  have hall := (honours_iff hash _ 66).1 (h ((new.submitEncrypted (e ⟨1⟩)).1.submitEncrypted
    (e ⟨2⟩)).1 66)
  rw [hm] at hall
  have h₁ := (committed_iff hash 66 _).1 (hall (e ⟨1⟩) (by simp))
  have h₂ := (committed_iff hash 66 _).1 (hall (e ⟨2⟩) (by simp))
  have heq : (⟨1⟩ : Hash) = ⟨2⟩ := h₁.symm.trans h₂
  exact absurd heq (by decide)

end EncryptedMempool

/-! ## Runs -/

inductive EncryptedCall
  | submitEncrypted (e : EncryptedTransaction)
  | setDecryptionKey (key : Nat)
  | decryptAll
  | clear

/-- A batch that was decrypted. -/
structure EncryptedBatch where
  /-- What was pending when the first key of the batch was set. -/
  locked : List EncryptedTransaction
  /-- The key it was decrypted with. -/
  key : Nat
  plaintexts : List (List UInt8)

/-- The batches of a run. -/
structure EncryptedLog where
  mempool : EncryptedMempool
  /-- If there is a key: what was pending when the first one was set. -/
  locked : Option (List EncryptedTransaction)
  /-- What was accepted since. -/
  late : List EncryptedTransaction
  batches : List EncryptedBatch

namespace EncryptedLog

def start : EncryptedLog := ⟨.new, none, [], []⟩

def step (hash : List UInt8 → Hash) (l : EncryptedLog) : EncryptedCall → EncryptedLog
  | .submitEncrypted e =>
    { l with
      mempool := (l.mempool.submitEncrypted e).1
      late :=
        if l.locked.isSome ∧ (l.mempool.submitEncrypted e).2 = .ok () then l.late ++ [e]
        else l.late }
  | .setDecryptionKey key =>
    { l with
      mempool := l.mempool.setDecryptionKey key
      locked := some (l.locked.getD l.mempool.pending) }
  | .decryptAll =>
    match l.mempool.decryptionKey with
    | none => { l with mempool := (l.mempool.decryptAll hash).1 }
    | some key =>
      { mempool := (l.mempool.decryptAll hash).1
        locked := none
        late := []
        batches :=
          l.batches ++ [⟨l.locked.getD [], key, (l.mempool.decryptAll hash).2⟩] }
  | .clear => { l with mempool := l.mempool.clear, locked := none, late := [] }

/-- Every batch is what was pending when its first key was set, in that order. -/
def InOrder (hash : List UInt8 → Hash) (l : EncryptedLog) : Prop :=
  ∀ b ∈ l.batches, b.plaintexts = b.locked.map (·.plaintext hash b.key)

/-- Nothing was accepted between the first key of a batch and its decryption. -/
def InTime (l : EncryptedLog) : EncryptedCall → Prop
  | .decryptAll => l.late = []
  | _ => True

/-- Pending is what was locked, and what came late. -/
structure Tracked (l : EncryptedLog) : Prop where
  key : l.locked.isSome = l.mempool.decryptionKey.isSome
  pending : ∀ p ∈ l.locked, l.mempool.pending = p ++ l.late
  early : l.locked = none → l.late = []

variable {hash : List UInt8 → Hash} {l : EncryptedLog}

theorem Tracked.start : start.Tracked := ⟨rfl, nofun, fun _ => rfl⟩

theorem Tracked.step (ht : l.Tracked) (c : EncryptedCall) : (l.step hash c).Tracked := by
  obtain ⟨hkey, hpending, hearly⟩ := ht
  cases c with
  | submitEncrypted e =>
    rcases l.mempool.submitEncrypted_cases e with ⟨err, he⟩ | he
    · refine ⟨?_, ?_, ?_⟩ <;> simpa [EncryptedLog.step, he]
    · cases hl : l.locked with
      | none => refine ⟨?_, ?_, ?_⟩ <;> simp_all [EncryptedLog.step]
      | some p => refine ⟨?_, ?_, ?_⟩ <;> simp_all [EncryptedLog.step]
  | setDecryptionKey key =>
    refine ⟨rfl, ?_, nofun⟩
    simp only [EncryptedLog.step, Option.mem_some_iff, forall_eq']
    cases hl : l.locked with
    | none => simp [EncryptedMempool.setDecryptionKey, hearly hl]
    | some p => simpa [EncryptedMempool.setDecryptionKey] using hpending p hl
  | decryptAll =>
    cases hk : l.mempool.decryptionKey with
    | none =>
      have hsame : l.step hash .decryptAll = l := by
        simp [EncryptedLog.step, EncryptedMempool.decryptAll, hk]
      rw [hsame]
      exact ⟨hkey, hpending, hearly⟩
    | some key =>
      simp only [EncryptedLog.step, hk, EncryptedMempool.decryptAll]
      exact ⟨rfl, nofun, fun _ => rfl⟩
  | clear => exact ⟨rfl, nofun, fun _ => rfl⟩

/-- **Which calls keep the batches in order.** -/
theorem inOrder_step_iff {c : EncryptedCall} (ht : l.Tracked) (ho : l.InOrder hash) :
    (l.step hash c).InOrder hash ↔ l.InTime c := by
  cases c with
  | submitEncrypted e => exact iff_of_true ho trivial
  | setDecryptionKey key => exact iff_of_true ho trivial
  | clear => exact iff_of_true ho trivial
  | decryptAll =>
    cases hk : l.mempool.decryptionKey with
    | none =>
      have hnone : l.locked = none := by simpa [hk] using ht.key
      refine iff_of_true ?_ (ht.early hnone)
      simpa [InOrder, step, hk] using ho
    | some key =>
      obtain ⟨p, hp⟩ : ∃ p, l.locked = some p := by
        simpa [hk, Option.isSome_iff_exists] using ht.key
      have hb : (l.step hash .decryptAll).batches =
          l.batches ++ [⟨p, key, (p ++ l.late).map (·.plaintext hash key)⟩] := by
        simp [step, hk, hp, EncryptedMempool.decryptAll, ht.pending p hp]
      simp only [InOrder, hb, List.forall_mem_append, List.forall_mem_singleton, List.map_append,
        List.append_right_eq_self, List.map_eq_nil_iff, InTime]
      exact and_iff_right ho

/-- **Fairness.** In a run, every batch is what was pending when its first key was set exactly if
nothing was accepted between a batch's first key and its decryption. -/
theorem inOrder_run_iff (hash : List UInt8 → Hash) (calls : List EncryptedCall) :
    Runs.Always (step hash) (InOrder hash) start calls ↔
      Runs.Each (step hash) InTime start calls :=
  Runs.always_iff_each (Q := Tracked) (D := fun _ => True) (fun _ c _ ht _ => ht.step c)
    (fun _ _ _ ht ho => inOrder_step_iff ht ho) (fun _ _ => trivial) .start nofun

end EncryptedLog

/-- One transaction is pending when the key is set, and another comes after. -/
theorem late_transaction_in_batch : ¬∃ hash : List UInt8 → Hash, ∀ calls,
    Runs.Always (EncryptedLog.step hash) (EncryptedLog.InOrder hash) EncryptedLog.start calls := by
  intro hex
  obtain ⟨hash, h⟩ := hex
  have hb := (h [.submitEncrypted ⟨[7], ⟨1⟩, ⟨0, .devnet⟩, 100⟩, .setDecryptionKey 66,
    .submitEncrypted ⟨[8], ⟨2⟩, ⟨0, .devnet⟩, 101⟩, .decryptAll]).last
    ⟨[⟨[7], ⟨1⟩, ⟨0, .devnet⟩, 100⟩], 66,
      [EncryptedTransaction.plaintext hash 66 ⟨[7], ⟨1⟩, ⟨0, .devnet⟩, 100⟩,
        EncryptedTransaction.plaintext hash 66 ⟨[8], ⟨2⟩, ⟨0, .devnet⟩, 101⟩]⟩
    (by simp [EncryptedLog.step, EncryptedLog.start, EncryptedMempool.new,
      EncryptedMempool.submitEncrypted, EncryptedMempool.setDecryptionKey,
      EncryptedMempool.decryptAll])
  simp at hb

end Zentra

import ZentraChain.Core.Encoding
import ZentraChain.Core.Transaction

/-!
# Signing again (`transaction.rs`)

`signing_hash` leaves the signatures out; `txid` is documented to, and hashes them with the rest.

* `Transaction.encode_resigned_iff`: the encodings of two transactions that differ in signatures at most
  are the same only if the signatures are.
* `Transaction.txid_resigned_iff`: and so are their ids.
-/

namespace Zentra

/-- `input.signature = vec![]`. -/
def TxInput.unsigned (i : TxInput) : TxInput := { i with signature := [] }

namespace Transaction

/-- The transactions differ in the signatures of their inputs at most. -/
structure Resigned (tx tx' : Transaction) : Prop where
  version : tx.version = tx'.version
  txType : tx.txType = tx'.txType
  inputs : tx.inputs.map TxInput.unsigned = tx'.inputs.map TxInput.unsigned
  outputs : tx.outputs = tx'.outputs
  payload : tx.payload = tx'.payload
  lockTime : tx.lockTime = tx'.lockTime

/-- The length of a signature is encoded in four bytes; of longer ones `borsh::to_vec` makes an error,
and `txid` a panic. -/
def Encodable (tx : Transaction) : Prop := ∀ i ∈ tx.inputs, i.signature.length < 2 ^ 32

def signatures (tx : Transaction) : List (List UInt8) := tx.inputs.map (·.signature)

variable {tx tx' : Transaction}

theorem Resigned.signingHash_eq (h : Resigned tx tx') (E : Env) :
    tx.signingHash E = tx'.signingHash E := by
  obtain ⟨version, txType, inputs, outputs, payload, lockTime⟩ := tx
  obtain ⟨hversion, htype, hinputs, houtputs, hpayload, hlock⟩ := h
  dsimp only at hversion htype houtputs hpayload hlock
  subst hversion htype houtputs hpayload hlock
  exact congrArg (fun inputs => E.hashTx { tx' with inputs := inputs }) hinputs

/-- An input tells its signature, whatever comes after it. -/
theorem signature_eq_of_encode {i j : TxInput} {rest rest' : List UInt8}
    (hi : i.signature.length < 2 ^ 32) (hj : j.signature.length < 2 ^ 32)
    (h : i.unsigned = j.unsigned) (he : i.encode ++ rest = j.encode ++ rest') :
    i.signature = j.signature ∧ rest = rest' := by
  simp only [TxInput.unsigned, TxInput.mk.injEq, true_and] at h
  obtain ⟨hprev, hindex, hkey⟩ := h
  simp only [TxInput.encode, Borsh.bytes, hprev, hindex, hkey, List.append_assoc,
    List.append_cancel_left_eq] at he
  obtain ⟨hlen, he⟩ := List.append_inj he (by simp)
  have hlen' : i.signature.length = j.signature.length := Borsh.le_inj hi hj hlen
  obtain ⟨hsig, he⟩ := List.append_inj he hlen'
  exact ⟨hsig, List.append_cancel_left he⟩

/-- Inputs tell their signatures. -/
theorem signatures_eq_of_flatMap {is js : List TxInput}
    (hi : ∀ i ∈ is, i.signature.length < 2 ^ 32) (hj : ∀ j ∈ js, j.signature.length < 2 ^ 32)
    (h : is.map TxInput.unsigned = js.map TxInput.unsigned)
    (he : is.flatMap TxInput.encode = js.flatMap TxInput.encode) :
    is.map (·.signature) = js.map (·.signature) := by
  induction is generalizing js with
  | nil =>
    cases js with
    | nil => rfl
    | cons j js => simp at h
  | cons i is ih =>
    cases js with
    | nil => simp at h
    | cons j js =>
      rw [List.map_cons, List.map_cons, List.cons.injEq] at h
      rw [List.flatMap_cons, List.flatMap_cons] at he
      obtain ⟨hi₀, his⟩ := List.forall_mem_cons.1 hi
      obtain ⟨hj₀, hjs⟩ := List.forall_mem_cons.1 hj
      obtain ⟨hsig, he⟩ := signature_eq_of_encode hi₀ hj₀ h.1 he
      rw [List.map_cons, List.map_cons, hsig, ih his hjs h.2 he]

/-- Inputs that differ in signatures at most are the same if these are. -/
theorem inputs_eq_of_signatures {is js : List TxInput}
    (h : is.map TxInput.unsigned = js.map TxInput.unsigned)
    (hs : is.map (·.signature) = js.map (·.signature)) : is = js := by
  have hmap : ∀ l : List TxInput,
      List.zipWith (fun i s => { i with signature := s }) (l.map TxInput.unsigned)
        (l.map (·.signature)) = l := by
    intro l
    induction l with
    | nil => rfl
    | cons i l ih =>
      rw [List.map_cons, List.map_cons, List.zipWith_cons_cons, ih]
      rfl
  rw [← hmap is, ← hmap js, h, hs]

theorem Resigned.eq_iff (h : Resigned tx tx') : tx = tx' ↔ tx.signatures = tx'.signatures := by
  constructor
  · exact congrArg signatures
  · intro hs
    have hinputs := inputs_eq_of_signatures h.inputs hs
    obtain ⟨version, txType, inputs, outputs, payload, lockTime⟩ := tx
    obtain ⟨hversion, htype, -, houtputs, hpayload, hlock⟩ := h
    dsimp only at hversion htype hinputs houtputs hpayload hlock
    subst hversion htype hinputs houtputs hpayload hlock
    rfl

/-- **What is hashed tells the signatures.** -/
theorem encode_resigned_iff (h : Resigned tx tx') (hl : tx.Encodable) (hl' : tx'.Encodable) :
    tx.encode = tx'.encode ↔ tx.signatures = tx'.signatures := by
  constructor
  · intro he
    have hcount : tx.inputs.length = tx'.inputs.length := by
      simpa using congrArg List.length h.inputs
    simp only [encode, Borsh.vec, h.version, h.txType, h.outputs, h.payload, h.lockTime, hcount,
      List.append_assoc, List.append_cancel_left_eq] at he
    exact signatures_eq_of_flatMap hl hl' h.inputs (List.append_cancel_right he)
  · intro hs
    rw [h.eq_iff.2 hs]

/-- **Transaction ids depend on signatures.** Of two transactions that differ in signatures at most, the
ids are the same exactly if the signatures are, as long as the hash of encodings has no collisions. -/
theorem txid_resigned_iff {E : Env} {hash : List UInt8 → Hash}
    (hE : ∀ tx : Transaction, E.hashTx tx = hash tx.encode) (hinj : Function.Injective hash)
    (h : Resigned tx tx') (hl : tx.Encodable) (hl' : tx'.Encodable) :
    tx.txid E = tx'.txid E ↔ tx.signatures = tx'.signatures := by
  rw [txid, txid, hE, hE, hinj.eq_iff, encode_resigned_iff h hl hl']

/-- The transactions that can be made of one by signing it again spend the same outputs, and create
different ones. -/
theorem created_resigned {E : Env} {hash : List UInt8 → Hash}
    (hE : ∀ tx : Transaction, E.hashTx tx = hash tx.encode) (hinj : Function.Injective hash)
    (h : Resigned tx tx') (hl : tx.Encodable) (hl' : tx'.Encodable)
    (hs : tx.signatures ≠ tx'.signatures) :
    tx.spent = tx'.spent ∧ ∀ p ∈ tx.created E, p ∉ tx'.created E := by
  constructor
  · have hspent : ∀ l : List TxInput,
        l.map (·.outpoint) = (l.map TxInput.unsigned).map (·.outpoint) := by
      intro l
      rw [List.map_map]
      rfl
    simp only [spent, isCoinbase, h.txType, hspent tx.inputs, hspent tx'.inputs, h.inputs]
  · intro p hp hp'
    refine hs ((txid_resigned_iff hE hinj h hl hl').1 ?_)
    rw [← mem_created hp, ← mem_created hp']

end Transaction

namespace Sample

/-- A number for every sequence of bytes. -/
def codeHash (data : List UInt8) : Hash := ⟨Encodable.encode (data.map UInt8.toNat)⟩

theorem codeHash_injective : Function.Injective codeHash := fun _ _ h =>
  List.map_injective_iff.2 (fun _ _ => UInt8.toNat_inj.1)
    (Encodable.encode_injective (congrArg Hash.val h))

def codeEnv : Env where
  network := .devnet
  hashTx tx := codeHash tx.encode
  hashHeader h := codeHash h.encode
  combine a b := codeHash (a.encode ++ b.encode)
  hashKey key := key
  verify _ _ _ := true
  powHash _ _ _ := .zero
  txSize tx := tx.encode.length

/-- A payment signed with 64 times the same byte. -/
def signedWith (byte : UInt8) : Transaction where
  version := 1
  txType := .transfer
  inputs := [⟨⟨1⟩, 0, List.replicate 64 byte, 1⟩]
  outputs := [.standard ⟨2, .devnet⟩ ⟨6, by decide⟩ []]
  payload := []
  lockTime := 0

theorem resigned_signedWith (a b : UInt8) :
    Transaction.Resigned (signedWith a) (signedWith b) := by
  constructor <;> rfl

theorem encodable_signedWith (byte : UInt8) : (signedWith byte).Encodable := by
  intro i hi
  obtain rfl := List.mem_singleton.1 hi
  simp

end Sample

open Sample in
theorem txid_signedWith : (signedWith 1).txid codeEnv = (signedWith 2).txid codeEnv ↔
    (signedWith 1).signatures = (signedWith 2).signatures :=
  Transaction.txid_resigned_iff (fun _ => rfl) codeHash_injective (resigned_signedWith 1 2)
    (encodable_signedWith 1) (encodable_signedWith 2)

open Sample in
/-- A payment, and the same with another signature. -/
theorem resigned_txid_ne : ¬∃ (E : Env) (hash : List UInt8 → Hash),
    (∀ tx : Transaction, E.hashTx tx = hash tx.encode) ∧ Function.Injective hash ∧
      ∀ tx tx' : Transaction, tx.Resigned tx' → tx.txid E = tx'.txid E := by
  intro hex
  obtain ⟨E, hash, hE, hinj, h⟩ := hex
  have hsame := h _ _ (resigned_signedWith 1 2)
  rw [Transaction.txid_resigned_iff hE hinj (resigned_signedWith 1 2) (encodable_signedWith 1)
    (encodable_signedWith 2)] at hsame
  exact absurd hsame (by decide)

end Zentra

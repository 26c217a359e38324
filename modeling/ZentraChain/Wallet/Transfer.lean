import ZentraChain.Core.Address
import ZentraChain.Lib.Greedy

/-!
# Transfers of the wallet (`signer.rs`)

`build_transfer` takes the largest outputs first, until they cover the amount and the fee, and pays
the rest back. The wallet has transactions of its own: `Wallet.Transaction`.

* `selectUtxos_covers`: what the selection loop takes, if it takes enough.
* `buildTransfer_spec`: when a transfer is built, and that it balances and has as few inputs as can be.
-/

namespace Zentra

/-- What the wallet uses from outside the repository. -/
structure WalletEnv where
  /-- Blake2b-256. -/
  hash : List UInt8 → Hash
  /-- Ed25519: the 64 bytes with which a secret key signs a message. -/
  sign : Nat → List UInt8 → List UInt8

namespace Wallet

structure OutPoint where
  txid : Hash
  index : Nat
  deriving DecidableEq, Repr

/-- An unspent output. -/
structure UtxoEntry where
  amount : Amount
  address : Address
  blockHeight : Nat
  deriving DecidableEq, Repr

structure TxInput where
  outpoint : OutPoint
  signature : List UInt8
  publicKey : Nat
  deriving DecidableEq, Repr

structure TxOutput where
  amount : Amount
  address : Address
  deriving DecidableEq, Repr

structure Transaction where
  version : Nat
  inputs : List TxInput
  outputs : List TxOutput
  fee : Amount
  payload : List UInt8
  deriving DecidableEq, Repr

structure WalletKeypair where
  signingKey : Nat
  /-- The bytes of the verifying key. -/
  publicKey : Nat
  deriving DecidableEq, Repr

inductive WalletError
  | insufficientFunds (required available : Nat)
  /-- `Amount + fee overflow` -/
  | amountOverflow
  /-- `UTXO sum overflow` -/
  | sumOverflow
  /-- `Change calculation underflow` -/
  | changeUnderflow
  deriving DecidableEq, Repr

/-- `Amount::checked_add`. -/
def checkedAdd (a b : Amount) : Option Amount :=
  if h : a.zents + b.zents ≤ u64Max then some ⟨a.zents + b.zents, h⟩ else none

theorem sub_le_max (a b : Amount) : a.zents - b.zents ≤ u64Max := (Nat.sub_le _ _).trans a.le_max

/-- `Amount::checked_sub`. -/
def checkedSub (a b : Amount) : Option Amount :=
  if b.zents ≤ a.zents then some ⟨a.zents - b.zents, sub_le_max a b⟩ else none

section
variable (E : WalletEnv)

/-- `Transaction::hash`: without the signatures and keys of the inputs. -/
def Transaction.hash (tx : Transaction) : Hash :=
  E.hash (Borsh.le 4 tx.version ++ Borsh.le 4 tx.inputs.length ++
    tx.inputs.flatMap (fun i => i.outpoint.txid.encode ++ Borsh.le 4 i.outpoint.index) ++
    Borsh.le 4 tx.outputs.length ++
    tx.outputs.flatMap (fun o => Borsh.le 8 o.amount.zents ++ Borsh.bytes32 o.address.payload) ++
    Borsh.le 8 tx.fee.zents ++ Borsh.le 4 tx.payload.length ++ tx.payload)

/-- `sign_transaction`. -/
def signTransaction (tx : Transaction) (keypair : WalletKeypair) : List UInt8 :=
  E.sign keypair.signingKey (tx.hash E).encode

/-- `WalletKeypair::address`. -/
def WalletKeypair.address (keypair : WalletKeypair) (network : NetworkType) : Address :=
  .fromPublicKey E.hash keypair.publicKey network

/-- The selection loop, with what was selected so far and its sum. -/
def selectUtxos (totalNeeded : Amount) : List (OutPoint × UtxoEntry) →
    List (OutPoint × UtxoEntry) → Amount → Option (List (OutPoint × UtxoEntry) × Amount)
  | [], selected, accumulated => some (selected, accumulated)
  | utxo :: rest, selected, accumulated =>
    match checkedAdd accumulated utxo.2.amount with
    | none => none
    | some accumulated =>
      if accumulated.zents ≥ totalNeeded.zents then some (selected ++ [utxo], accumulated)
      else selectUtxos totalNeeded rest (selected ++ [utxo]) accumulated

/-- The value of an unspent output. -/
def value (utxo : OutPoint × UtxoEntry) : Nat := utxo.2.amount.zents

/-- `build_transfer`. -/
def buildTransfer (fromKeypair : WalletKeypair) (toAddress : Address) (amount fee : Amount)
    (utxos : List (OutPoint × UtxoEntry)) : Except WalletError Transaction :=
  match checkedAdd amount fee with
  | none => .error .amountOverflow
  | some totalNeeded =>
    match selectUtxos totalNeeded (Greedy.sortDesc value utxos) [] .zero with
    | none => .error .sumOverflow
    | some (selected, accumulated) =>
      if accumulated.zents < totalNeeded.zents then
        .error (.insufficientFunds totalNeeded.zents accumulated.zents)
      else
        match checkedSub accumulated totalNeeded with
        | none => .error .changeUnderflow
        | some change =>
          let changeOutputs :=
            if change.zents = 0 then [] else [⟨change, fromKeypair.address E toAddress.network⟩]
          let tx : Transaction :=
            { version := 1
              inputs := selected.map fun utxo => ⟨utxo.1, [], fromKeypair.publicKey⟩
              outputs := ⟨amount, toAddress⟩ :: changeOutputs
              fee := fee
              payload := [] }
          let sigBytes := signTransaction E tx fromKeypair
          .ok { tx with inputs := tx.inputs.map fun i => { i with signature := sigBytes } }

end

/-- The hash does not depend on the signatures, so what was signed is the hash of the transfer. -/
theorem Transaction.hash_signatures (E : WalletEnv) (tx : Transaction) (signature : List UInt8) :
    Transaction.hash E
      { tx with inputs := tx.inputs.map fun i => { i with signature := signature } } =
      tx.hash E := by
  simp [Transaction.hash, List.flatMap_map]

theorem signTransaction_signatures (E : WalletEnv) (tx : Transaction) (keypair : WalletKeypair)
    (signature : List UInt8) :
    signTransaction E
      { tx with inputs := tx.inputs.map fun i => { i with signature := signature } } keypair =
      signTransaction E tx keypair := by
  rw [signTransaction, Transaction.hash_signatures, signTransaction]

/-! ## Selection -/

section
variable {totalNeeded accumulated total : Amount} {selected front : List (OutPoint × UtxoEntry)}
  {utxos : List (OutPoint × UtxoEntry)}

theorem checkedAdd_of_le {a b : Amount} (h : a.zents + b.zents ≤ u64Max) :
    checkedAdd a b = some ⟨a.zents + b.zents, h⟩ := dif_pos h

/-- **The selection loop** stops at what it needs, or has taken everything. -/
theorem selectUtxos_spec {l : List (OutPoint × UtxoEntry)}
    (hsum : accumulated.zents + Greedy.weight value l ≤ u64Max)
    (hless : accumulated.zents < totalNeeded.zents) :
    ∃ front total, selectUtxos totalNeeded l selected accumulated =
        some (selected ++ front, total) ∧
      total.zents = accumulated.zents + Greedy.weight value front ∧
      ((front = l ∧ total.zents < totalNeeded.zents) ∨
        Greedy.Covers value (totalNeeded.zents - accumulated.zents) l front) := by
  induction l generalizing selected accumulated with
  | nil => exact ⟨[], accumulated, by simp [selectUtxos], by simp, .inl ⟨rfl, hless⟩⟩
  | cons utxo rest ih =>
    rw [Greedy.weight_cons] at hsum
    have hfits : accumulated.zents + utxo.2.amount.zents ≤ u64Max := by
      unfold value at hsum
      omega
    simp only [selectUtxos, checkedAdd_of_le hfits]
    split_ifs with henough
    · refine ⟨[utxo], _, rfl, by simp [value], .inr ⟨⟨rest, rfl⟩, ?_, ?_⟩⟩
      · simp only [Greedy.weight_cons, Greedy.weight_nil, value]
        omega
      · simp only [List.dropLast_singleton, Greedy.weight_nil]
        omega
    · obtain ⟨front, total, heq, htotal, hcase⟩ := @ih
        ⟨accumulated.zents + utxo.2.amount.zents, hfits⟩ (selected ++ [utxo])
        (by
          show accumulated.zents + value utxo + Greedy.weight value rest ≤ u64Max
          omega)
        (Nat.not_le.1 henough)
      refine ⟨utxo :: front, total, by simpa using heq, ?_, ?_⟩
      · rw [htotal, Greedy.weight_cons, value, Nat.add_assoc]
      · rcases hcase with ⟨rfl, hshort⟩ | hcovers
        · exact .inl ⟨rfl, hshort⟩
        · refine .inr (Greedy.Covers.cons ?_ (Nat.sub_sub _ _ _ ▸ hcovers))
          unfold value
          omega

end

/-! ## Transfers -/

/-- **What a transfer spends and pays**: it takes outputs from the positions `ps` of the list, worth the
amount, the fee and the change; the change is paid back if there is any. -/
structure Balances (E : WalletEnv) (fromKeypair : WalletKeypair) (toAddress : Address)
    (amount fee : Amount) (utxos : List (OutPoint × UtxoEntry)) (tx : Transaction)
    (ps : List (Fin utxos.length)) (change : Amount) : Prop where
  distinct : ps.Nodup
  inputs : tx.inputs.map (·.outpoint) = ps.map fun p => (utxos.get p).1
  sum : (ps.map fun p => value (utxos.get p)).sum = amount.zents + fee.zents + change.zents
  outputs : tx.outputs = ⟨amount, toAddress⟩ ::
    if change.zents = 0 then [] else [⟨change, fromKeypair.address E toAddress.network⟩]
  feePaid : tx.fee = fee
  /-- No fewer outputs would do. -/
  fewest : ∀ qs : Finset (Fin utxos.length),
    amount.zents + fee.zents ≤ ∑ q ∈ qs, value (utxos.get q) → ps.length ≤ qs.card

variable {E : WalletEnv} {fromKeypair : WalletKeypair} {toAddress : Address} {amount fee : Amount}
  {utxos : List (OutPoint × UtxoEntry)}

/-- What `build_transfer` returns, by what the outputs are worth. -/
theorem buildTransfer_cases (E : WalletEnv) (fromKeypair : WalletKeypair) (toAddress : Address)
    (htotal : (utxos.map value).sum ≤ u64Max) (hpos : 0 < amount.zents + fee.zents)
    (hfits : amount.zents + fee.zents ≤ u64Max) :
    ((utxos.map value).sum < amount.zents + fee.zents ∧
      buildTransfer E fromKeypair toAddress amount fee utxos =
        .error (.insufficientFunds (amount.zents + fee.zents) (utxos.map value).sum)) ∨
    (amount.zents + fee.zents ≤ (utxos.map value).sum ∧
      ∃ tx, buildTransfer E fromKeypair toAddress amount fee utxos = .ok tx ∧
        ∃ ps change, Balances E fromKeypair toAddress amount fee utxos tx ps change) := by
  have hweight : Greedy.weight value (Greedy.sortDesc value utxos) = (utxos.map value).sum :=
    Greedy.weight_perm (Greedy.sortDesc_perm value utxos)
  obtain ⟨front, total, hselect, hsum, hcase⟩ :=
    @selectUtxos_spec ⟨amount.zents + fee.zents, hfits⟩ .zero [] (Greedy.sortDesc value utxos)
      (by simpa [hweight] using htotal) hpos
  rw [Amount.zero_zents, Nat.zero_add] at hsum
  simp only [Amount.zero_zents, Nat.sub_zero] at hcase
  unfold buildTransfer
  simp only [checkedAdd_of_le hfits, hselect, List.nil_append]
  rcases hcase with ⟨rfl, hshort⟩ | hcovers
  · left
    rw [hweight] at hsum
    rw [if_pos hshort, hsum]
    exact ⟨hsum ▸ hshort, rfl⟩
  · right
    have henough : amount.zents + fee.zents ≤ total.zents := hsum ▸ hcovers.covers
    have hle : total.zents ≤ (utxos.map value).sum := by
      obtain ⟨rest, hrest⟩ := hcovers.initial
      rw [← hweight, ← hrest, Greedy.weight_append, ← hsum]
      exact Nat.le_add_right _ _
    have hsub : checkedSub total ⟨amount.zents + fee.zents, hfits⟩ =
        some ⟨total.zents - (amount.zents + fee.zents), sub_le_max total ⟨_, hfits⟩⟩ :=
      if_pos henough
    rw [if_neg (Nat.not_lt.2 henough), hsub]
    refine ⟨henough.trans hle, _, rfl, ?_⟩
    obtain ⟨ps, hnd, hps, hmin⟩ := hcovers.positions
    refine ⟨ps, _, hnd, ?_, ?_, rfl, rfl, hmin⟩
    · simp [← hps, Function.comp_def]
    · have hvalues : (ps.map fun p => value (utxos.get p)).sum = Greedy.weight value front := by
        rw [← hps, Greedy.weight, List.map_map]
        rfl
      rw [hvalues, ← hsum]
      exact (Nat.add_sub_of_le henough).symm

/-- **Coin selection.** A transfer is built exactly if the outputs cover the amount and the fee; if they
do not, the error says so; and it balances and spends as few outputs as can be. -/
theorem buildTransfer_spec (E : WalletEnv) (fromKeypair : WalletKeypair) (toAddress : Address)
    (htotal : (utxos.map value).sum ≤ u64Max) (hpos : 0 < amount.zents + fee.zents)
    (hfits : amount.zents + fee.zents < 2 ^ 64) :
    ((∃ tx, buildTransfer E fromKeypair toAddress amount fee utxos = .ok tx) ↔
        amount.zents + fee.zents ≤ (utxos.map value).sum) ∧
      ((utxos.map value).sum < amount.zents + fee.zents →
        buildTransfer E fromKeypair toAddress amount fee utxos =
          .error (.insufficientFunds (amount.zents + fee.zents) (utxos.map value).sum)) ∧
      ∀ tx, buildTransfer E fromKeypair toAddress amount fee utxos = .ok tx →
        ∃ ps change, Balances E fromKeypair toAddress amount fee utxos tx ps change := by
  rcases buildTransfer_cases E fromKeypair toAddress htotal hpos (Nat.le_of_lt_succ hfits) with
    ⟨hlt, herr⟩ | ⟨hle, tx, hok, hbal⟩
  · simp [herr, hlt]
  · refine ⟨iff_of_true ⟨tx, hok⟩ hle, fun hlt => absurd hle (Nat.not_le.2 hlt), fun tx' hok' => ?_⟩
    cases hok.symm.trans hok'
    exact hbal

/-- Every input carries the signature of the sender over the hash of the transfer. -/
theorem buildTransfer_signed {tx : Transaction}
    (h : buildTransfer E fromKeypair toAddress amount fee utxos = .ok tx) :
    ∀ i ∈ tx.inputs, i.publicKey = fromKeypair.publicKey ∧
      i.signature = signTransaction E tx fromKeypair := by
  unfold buildTransfer at h
  split at h
  · cases h
  · split at h
    · cases h
    · split_ifs at h
      split at h
      · cases h
      · cases h
        intro i hi
        obtain ⟨j, hj, rfl⟩ := List.mem_map.1 hi
        obtain ⟨utxo, -, rfl⟩ := List.mem_map.1 hj
        exact ⟨rfl, (signTransaction_signatures ..).symm⟩

end Wallet

namespace Sample

/-- The hash of anything is its length, and a signature is the message. -/
def walletEnv : WalletEnv := ⟨fun data => ⟨data.length⟩, fun _ message => message⟩

/-- Outputs of thirty, fifty and forty zents. -/
def purse : List (Wallet.OutPoint × Wallet.UtxoEntry) :=
  [(⟨⟨1⟩, 0⟩, ⟨⟨30, by decide⟩, ⟨0, .devnet⟩, 1⟩), (⟨⟨2⟩, 0⟩, ⟨⟨50, by decide⟩, ⟨0, .devnet⟩, 2⟩),
    (⟨⟨3⟩, 0⟩, ⟨⟨40, by decide⟩, ⟨0, .devnet⟩, 3⟩)]

end Sample

open Sample in
/-- For ninety zents, the outputs of fifty and forty. -/
theorem Wallet.buildTransfer_purse :
    (∃ tx, buildTransfer walletEnv ⟨1, 1⟩ ⟨7, .devnet⟩ ⟨80, by decide⟩ ⟨10, by decide⟩ purse =
        .ok tx) ∧
      ∀ tx, buildTransfer walletEnv ⟨1, 1⟩ ⟨7, .devnet⟩ ⟨80, by decide⟩ ⟨10, by decide⟩ purse =
          .ok tx →
        ∃ ps change, Balances walletEnv ⟨1, 1⟩ ⟨7, .devnet⟩ ⟨80, by decide⟩ ⟨10, by decide⟩ purse tx ps
          change := by
  have h := @buildTransfer_spec ⟨80, by decide⟩ ⟨10, by decide⟩ purse walletEnv ⟨1, 1⟩ ⟨7, .devnet⟩
    (by decide) (by decide) (by decide)
  exact ⟨h.1.2 (by decide), h.2.2⟩

end Zentra

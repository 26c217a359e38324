import Mathlib.Logic.Equiv.List
import ZentraChain.Core.Encoding
import ZentraChain.Core.MerkleProof
import ZentraChain.Node.Connect
import ZentraChain.Node.ValidateSpec

/-!
# What a header says of the body (`merkle.rs`, `node.rs`)

* `validateBlockSelfContained_ok`: the checks of a block by itself, as `Block.SelfContained`.
* `Block.header_commits`: two bodies under one header are the same when they are as long.
-/

namespace Zentra

variable {E : Env} {b b' : Block} {tx : Transaction}

/-! ## Hashes -/

/-- Hashes of different data differ. Transactions and pairs of hashes are hashed alike, so a
transaction can have the hash of a pair when its encoding is as long as one. -/
structure Env.HashInjective (E : Env) : Prop where
  tx : ∀ tx tx', E.hashTx tx = E.hashTx tx' → tx = tx'
  combine : Merkle.PairInjective E.combine
  leaf : ∀ tx a b, E.hashTx tx = E.combine a b → tx.encode.length = 64

/-! ## Self-contained blocks -/

/-- What the checks of a block by itself say. -/
structure Block.SelfContained (E : Env) (b : Block) : Prop where
  merkleRoot : b.header.merkleRoot = b.computeMerkleRoot E
  coinbaseFirst : b.CoinbaseFirst
  signatures : ∀ tx ∈ b.transactions, tx.verifySignatures E = .ok ()
  /-- no two inputs spend the same outpoint -/
  spent : (b.transactions.flatMap (·.spent)).Nodup

theorem seeInputs_ok : ∀ {is : List TxInput} {seen seen' : Finset OutPoint},
    seeInputs is seen = .ok seen' →
      (is.map (·.outpoint)).Nodup ∧ (∀ p ∈ is.map (·.outpoint), p ∉ seen) ∧
        ∀ p, p ∈ seen' ↔ p ∈ seen ∨ p ∈ is.map (·.outpoint)
  | [], seen, seen', h => by
    cases h
    simp
  | i :: is, seen, seen', h => by
    simp only [seeInputs] at h
    split at h
    · cases h
    · rename_i hns
      obtain ⟨hnd, hfr, hs⟩ := seeInputs_ok h
      refine ⟨List.nodup_cons.2 ⟨fun hm => hfr _ hm (Finset.mem_insert_self _ _), hnd⟩,
        fun p hp => ?_, fun p => ?_⟩
      · rcases List.mem_cons.1 hp with rfl | hp
        · exact hns
        · exact fun hm => hfr p hp (Finset.mem_insert_of_mem hm)
      · rw [hs, Finset.mem_insert, List.map_cons, List.mem_cons]
        tauto

/-- The loop from a later transaction on. -/
theorem selfContainedLoop_ok : ∀ {txs : List Transaction} {i : Nat} {seen : Finset OutPoint},
    0 < i → selfContainedLoop E i txs seen = .ok () →
      (∀ tx ∈ txs, tx.isCoinbase = false ∧ tx.verifySignatures E = .ok ()) ∧
        (txs.flatMap (·.spent)).Nodup ∧ ∀ p ∈ txs.flatMap (·.spent), p ∉ seen
  | [], _, _, _, _ => by simp
  | tx :: txs, i, seen, hi, h => by
    have hi0 : ¬(i = 0 ∧ ¬tx.isCoinbase = true) := fun h0 => absurd h0.1 (Nat.ne_of_gt hi)
    simp only [selfContainedLoop] at h
    rw [if_neg hi0] at h
    split at h
    · cases h
    · rename_i hcb
      have hreg : tx.isCoinbase = false := Bool.eq_false_iff.2 fun hc => hcb ⟨hi, hc⟩
      rw [if_neg (by simp [hreg])] at h
      split at h
      · cases h
      · rename_i hsig
        split at h
        · cases h
        · rename_i seen' hseen
          obtain ⟨hnd, hfr, hs⟩ := seeInputs_ok hseen
          obtain ⟨htx, hnd', hfr'⟩ := selfContainedLoop_ok (Nat.succ_pos i) h
          rw [List.flatMap_cons, Transaction.spent_regular hreg]
          refine ⟨fun t ht => ?_, ?_, fun p hp => ?_⟩
          · rcases List.mem_cons.1 ht with rfl | ht
            · exact ⟨hreg, hsig⟩
            · exact htx t ht
          · refine hnd.append hnd' fun p hp hp' => ?_
            exact hfr' p hp' ((hs p).2 (.inr hp))
          · rcases List.mem_append.1 hp with hp | hp
            · exact hfr p hp
            · exact fun hm => hfr' p hp ((hs p).2 (.inl hm))

/-- **The checks of a block by itself.** -/
theorem validateBlockSelfContained_ok (h : validateBlockSelfContained E b = .ok ()) :
    b.SelfContained E := by
  unfold validateBlockSelfContained at h
  split at h
  · cases h
  · rename_i hroot
    split at h
    · cases h
    · rename_i hne
      have hr : b.header.merkleRoot = b.computeMerkleRoot E := by
        simpa [Block.validateMerkleRoot] using hroot
      cases ht : b.transactions with
      | nil => exact absurd (by rw [ht]; rfl) hne
      | cons cb txs =>
        rw [ht] at h
        simp only [selfContainedLoop] at h
        split at h
        · cases h
        · rename_i hfirst
          have hcb : cb.isCoinbase = true := by simpa using hfirst
          rw [if_neg (by simp), if_pos hcb] at h
          obtain ⟨htx, hnd, -⟩ := selfContainedLoop_ok (Nat.succ_pos 0) h
          refine ⟨hr, ⟨cb, txs, ht, hcb, fun tx hm => (htx tx hm).1⟩, fun tx hm => ?_, ?_⟩
          · rw [ht] at hm
            rcases List.mem_cons.1 hm with rfl | hm
            · simp [Transaction.verifySignatures, hcb]
            · exact (htx tx hm).2
          · rw [ht, List.flatMap_cons, Transaction.spent_coinbase hcb]
            exact hnd

/-- A verified input has a signature of 64 bytes. -/
theorem Transaction.verifyInputs_ok {sh : Hash} : ∀ {is : List TxInput} {i : Nat},
    verifyInputs E sh i is = .ok () → ∀ inp ∈ is, inp.signature.length = 64
  | [], _, _, _, hm => by cases hm
  | inp :: is, i, h, inp', hm => by
    simp only [verifyInputs] at h
    split at h
    · cases h
    · rename_i hlen
      split at h
      · rcases List.mem_cons.1 hm with rfl | hm
        · exact not_not.1 hlen
        · exact verifyInputs_ok h inp' hm
      · cases h

/-! ## Bodies under one header -/

/-- A regular transaction with an input, or a coinbase that is not as long as a Merkle node. -/
def Transaction.LeafOnly (tx : Transaction) : Prop :=
  if tx.isCoinbase then tx.encode.length ≠ 64 else tx.inputs ≠ []

/-- Such a transaction does not hash like a Merkle node. -/
theorem Transaction.LeafOnly.not_node (hE : E.HashInjective) (h : tx.LeafOnly)
    (hs : tx.verifySignatures E = .ok ()) (x y : Hash) : tx.txid E ≠ E.combine x y := by
  intro he
  have h64 : tx.encode.length = 64 := hE.leaf tx x y he
  unfold LeafOnly at h
  split at h
  · exact h h64
  · rename_i hc
    obtain ⟨i, hi⟩ := List.exists_mem_of_ne_nil _ h
    rw [verifySignatures, if_neg hc] at hs
    have hlong : 64 < tx.encode.length := lt_encode_length hi (verifyInputs_ok hs i hi)
    omega

namespace Block.SelfContained

/-- Transactions that spend are told apart by what they spend. -/
theorem nodup (h : b.SelfContained E) (hl : ∀ tx ∈ b.transactions, tx.LeafOnly) :
    b.transactions.Nodup := by
  obtain ⟨cb, txs, ht, hcb, hreg⟩ := h.coinbaseFirst
  have hsp := h.spent
  rw [ht, List.flatMap_cons, Transaction.spent_coinbase hcb, List.nil_append,
    List.nodup_flatMap] at hsp
  rw [ht]
  refine List.nodup_cons.2 ⟨fun hm => ?_, ?_⟩
  · have := hreg cb hm
    rw [hcb] at this
    cases this
  · refine hsp.2.imp_of_mem fun {tx tx'} hm _ hdisj heq => ?_
    subst heq
    have hin : tx.inputs ≠ [] := by
      have := hl tx (ht ▸ List.mem_cons_of_mem _ hm)
      rwa [Transaction.LeafOnly, if_neg (by simp [hreg tx hm])] at this
    obtain ⟨i, hi⟩ := List.exists_mem_of_ne_nil _ hin
    have hspent : i.outpoint ∈ tx.spent := by
      rw [Transaction.spent_regular (hreg tx hm)]
      exact List.mem_map_of_mem hi
    exact hdisj hspent hspent

/-- The header's root is the Merkle root of the transactions' ids. -/
theorem root (h : b.SelfContained E) :
    ∃ k, Merkle.Root E.combine k (b.transactions.map (·.txid E)) b.header.merkleRoot := by
  obtain ⟨cb, txs, ht, -, -⟩ := h.coinbaseFirst
  rw [h.merkleRoot]
  exact computeMerkleRoot_root E (by simp [ht])

end Block.SelfContained

theorem Env.HashInjective.txid (hE : E.HashInjective) :
    Function.Injective (Transaction.txid E) := fun tx tx' h => hE.tx tx tx' h

/-- **A header commits to a body of a given length**, and to a body of transactions that are not
Merkle nodes and spend something. -/
theorem Block.header_commits (hE : E.HashInjective) (hh : b.header = b'.header)
    (h : validateBlockSelfContained E b = .ok ()) (h' : validateBlockSelfContained E b' = .ok ()) :
    (b.transactions = b'.transactions ↔ b.transactions.length = b'.transactions.length) ∧
      ((∀ tx ∈ b.transactions ++ b'.transactions, tx.LeafOnly) →
        b.transactions = b'.transactions) := by
  have hs := validateBlockSelfContained_ok h
  have hs' := validateBlockSelfContained_ok h'
  obtain ⟨k, hr⟩ := hs.root
  obtain ⟨k', hr'⟩ := hs'.root
  rw [← hh] at hr'
  have hinj := List.map_injective_iff.2 hE.txid
  refine ⟨⟨fun he => by rw [he], fun hl => ?_⟩, fun hleaf => ?_⟩
  · refine hinj (hr.unique_length hE.combine hr' ?_)
    rw [List.length_map, List.length_map, hl]
  · have hl : ∀ tx ∈ b.transactions, tx.LeafOnly := fun tx hm =>
      hleaf tx (List.mem_append_left _ hm)
    have hl' : ∀ tx ∈ b'.transactions, tx.LeafOnly := fun tx hm =>
      hleaf tx (List.mem_append_right _ hm)
    -- the transaction hashes are not nodes, so both trees have the same height
    have hnode : ∀ {c : Block}, c.SelfContained E → (∀ tx ∈ c.transactions, tx.LeafOnly) →
        ∀ x ∈ c.transactions.map (·.txid E), ∀ a b, x ≠ E.combine a b := by
      intro c hc hcl x hx a b
      obtain ⟨tx, htx, rfl⟩ := List.mem_map.1 hx
      exact (hcl tx htx).not_node hE (hc.signatures tx htx) a b
    refine hinj (Merkle.Root.unique_nodup (S := fun x => ∀ a b, x ≠ E.combine a b) hE.combine
      (fun a b hn => hn a b rfl) hr hr' (hnode hs hl) (hnode hs' hl') ?_ ?_)
    · exact (hs.nodup hl).map hE.txid
    · exact (hs'.nodup hl').map hE.txid

/-! ## Two bodies under one header -/

/-- An odd level has the root of the level with its last element twice. -/
theorem computeMerkleRoot_pad (E : Env) (x y : Hash) :
    computeMerkleRoot E [x, y, y] = computeMerkleRoot E [x, y, y, y] := by
  simp [computeMerkleRoot, merkleLevels, padLevel, combinePairs]

namespace Sample

/-- The fields of a transaction as numbers. -/
def parts (tx : Transaction) : ℕ × ℕ × List (ℕ × ℕ × List ℕ × ℕ) ×
    List (ℕ × ℕ × ℕ × ℕ × List ℕ) × List ℕ × ℕ :=
  (tx.version, tx.txType.tag,
    tx.inputs.map fun i =>
      (i.prevTxHash.val, i.outputIndex, i.signature.map (·.toNat), i.publicKey),
    tx.outputs.map fun
      | .standard a v s => (0, a.payload, a.network.tag, v.zents, s.map (·.toNat))
      | .burn v t => (1, t.tag, 0, v.zents, []),
    tx.payload.map (·.toNat), tx.lockTime)

/-- Injective hashes: transactions have odd ones and pairs even ones. -/
def injectiveEnv : Env :=
  { env with
    hashTx := fun tx => ⟨2 * Encodable.encode (parts tx) + 1⟩
    combine := fun a b => ⟨2 * Nat.pair a.val b.val⟩ }

theorem tag_injective : Function.Injective TransactionType.tag := by
  intro a b h
  cases a <;> cases b <;> first | rfl | cases h

theorem map_toNat_injective : Function.Injective (List.map UInt8.toNat) :=
  List.map_injective_iff.2 fun _ _ => UInt8.toNat_inj.1

theorem parts_injective : Function.Injective parts := by
  intro tx tx' h
  simp only [parts, Prod.mk.injEq] at h
  obtain ⟨h1, h2, h3, h4, h5, h6⟩ := h
  have hin : tx.inputs = tx'.inputs := by
    refine List.map_injective_iff.2 (fun i i' hi => ?_) h3
    simp only [Prod.mk.injEq] at hi
    obtain ⟨g1, g2, g3, g4⟩ := hi
    cases i
    cases i'
    simp only [TxInput.mk.injEq]
    exact ⟨Hash.val_injective g1, g2, map_toNat_injective g3, g4⟩
  have hout : tx.outputs = tx'.outputs := by
    refine List.map_injective_iff.2 (fun o o' ho => ?_) h4
    cases o with
    | standard a v s =>
      cases o' with
      | standard a' v' s' =>
        simp only [Prod.mk.injEq] at ho
        obtain ⟨-, g1, g2, g3, g4⟩ := ho
        obtain rfl : v = v' := Amount.ext g3
        obtain rfl := map_toNat_injective g4
        obtain ⟨p, n⟩ := a
        obtain ⟨p', n'⟩ := a'
        obtain rfl : p = p' := g1
        obtain rfl : n = n' := by cases n <;> cases n' <;> first | rfl | cases g2
        rfl
      | burn v' t' => simp at ho
    | burn v t =>
      cases o' with
      | standard a' v' s' => simp at ho
      | burn v' t' =>
        simp only [Prod.mk.injEq] at ho
        obtain ⟨-, g1, -, g3, -⟩ := ho
        obtain rfl : v = v' := Amount.ext g3
        obtain rfl : t = t' := by cases t <;> cases t' <;> first | rfl | cases g1
        rfl
  cases tx
  cases tx'
  simp only [Transaction.mk.injEq]
  exact ⟨h1, tag_injective h2, hin, hout, map_toNat_injective h5, h6⟩

theorem injectiveEnv_hash : injectiveEnv.HashInjective where
  tx := fun tx tx' h => by
    have hv := congrArg Hash.val h
    simp only [injectiveEnv] at hv
    exact parts_injective (Encodable.encode_injective (by omega))
  combine := fun a b c d h => by
    have hv := congrArg Hash.val h
    simp only [injectiveEnv] at hv
    have hp : Nat.pair a.val b.val = Nat.pair c.val d.val := by omega
    obtain ⟨h1, h2⟩ := Nat.pair_eq_pair.1 hp
    exact ⟨Hash.val_injective h1, Hash.val_injective h2⟩
  leaf := fun tx a b h => by
    have hv := congrArg Hash.val h
    simp only [injectiveEnv] at hv
    omega

/-- A transaction that spends nothing and pays nothing. -/
def idle : Transaction := transfer 0 [] []

/-- A block with `n` idle transactions, under the header of the one with two. -/
def padded (n : Nat) : Block where
  header :=
    { (first).header with
      merkleRoot := computeMerkleRoot injectiveEnv
        ([coinbase 1 [subsidy], idle, idle].map (·.txid injectiveEnv)) }
  transactions := coinbase 1 [subsidy] :: List.replicate n idle

theorem selfContainedLoop_idle (E : Env) : ∀ (n i : Nat) (seen : Finset OutPoint), 0 < i →
    selfContainedLoop E i (List.replicate n idle) seen = .ok ()
  | 0, _, _, _ => rfl
  | n + 1, i + 1, seen, _ => selfContainedLoop_idle E n (i + 2) seen (Nat.succ_pos _)

theorem padded_selfContained {n : Nat} (hn : (padded n).validateMerkleRoot injectiveEnv = true) :
    validateBlockSelfContained injectiveEnv (padded n) = .ok () := by
  unfold validateBlockSelfContained
  rw [if_neg (by rw [hn]; exact not_not.2 rfl)]
  exact selfContainedLoop_idle injectiveEnv n 1 ∅ Nat.one_pos

theorem padded_two : validateBlockSelfContained injectiveEnv (padded 2) = .ok () :=
  padded_selfContained (decide_eq_true rfl)

theorem padded_three : validateBlockSelfContained injectiveEnv (padded 3) = .ok () :=
  padded_selfContained (decide_eq_true (computeMerkleRoot_pad injectiveEnv
    ((coinbase 1 [subsidy]).txid injectiveEnv) (idle.txid injectiveEnv)))

end Sample

open Sample in
theorem header_commits_padded :
    ((padded 2).transactions = (padded 3).transactions ↔
      (padded 2).transactions.length = (padded 3).transactions.length) ∧
    ((∀ tx ∈ (padded 2).transactions ++ (padded 3).transactions, tx.LeafOnly) →
      (padded 2).transactions = (padded 3).transactions) :=
  Block.header_commits injectiveEnv_hash rfl padded_two padded_three

open Sample in
/-- Two and three idle transactions have one Merkle root. -/
theorem two_bodies :
    ¬∀ E : Env, E.HashInjective → ∀ b b' : Block, b.header = b'.header →
      validateBlockSelfContained E b = .ok () → validateBlockSelfContained E b' = .ok () →
        b.transactions = b'.transactions := by
  intro h
  have := h injectiveEnv injectiveEnv_hash (padded 2) (padded 3) rfl padded_two padded_three
  exact absurd (congrArg List.length this) (by decide)

end Zentra

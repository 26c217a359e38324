import ZentraChain.Lib.Borsh
import ZentraChain.Lib.FinmapSum
import ZentraChain.Lib.Merkle
import ZentraChain.Types

/-!
# The state of the contracts (`state.rs`)

A leaf of the state root is the hash of a contract's id, a key and its value, one after the other; the
leaves of a contract, and then the roots of the contracts, are combined to Merkle roots.

* `StateMap.get_set`, `StateMap.get_delete`: what is read after a write.
* `StateMap.stateRoot_eq`: the root is the hash of a tree.
* `StateMap.stateTree_eq_iff`: the tree has the ids of the contracts and, padded, their keys joined with
  the values.
* `StateMap.binding_iff`: which states have different roots.
-/

namespace Zentra

/-- A contract's id, 32 bytes. -/
structure ContractId where
  val : Nat
  val_lt : val < 256 ^ 32
  deriving DecidableEq

namespace ContractId

theorem val_inj : Function.Injective val := fun ⟨_, _⟩ ⟨_, _⟩ h => by
  cases h
  rfl

instance : LinearOrder ContractId := LinearOrder.lift' val val_inj

def bytes (cid : ContractId) : List UInt8 := Borsh.bytes32 cid.val

theorem bytes_inj : Function.Injective bytes := fun a b h =>
  val_inj (Borsh.bytes32_inj a.val_lt b.val_lt h)

@[simp] theorem bytes_length (cid : ContractId) : cid.bytes.length = 32 := Borsh.bytes32_length _

end ContractId

/-- The keys of a contract, with their values. -/
abbrev KvMap := Finmap fun _ : List UInt8 => List UInt8

structure StateMap where
  storage : Finmap fun _ : ContractId => KvMap
  /-- A contract without keys has no namespace. -/
  nonempty : ∀ cid kv, storage.lookup cid = some kv → kv ≠ ∅

/-! ## Reads and writes -/

theorem insert_ne_empty (kv : KvMap) (key value : List UInt8) : kv.insert key value ≠ ∅ := by
  intro h
  have hsome := kv.lookup_insert (a := key) (b := value)
  rw [h, Finmap.lookup_empty] at hsome
  cases hsome

namespace StateMap

def new : StateMap := ⟨∅, by simp⟩

/-- The keys of a contract: none if it has no namespace. -/
def kvMap (s : StateMap) (cid : ContractId) : KvMap := (s.storage.lookup cid).getD ∅

def get (s : StateMap) (cid : ContractId) (key : List UInt8) : Option (List UInt8) :=
  (s.kvMap cid).lookup key

def clearContract (s : StateMap) (cid : ContractId) : StateMap where
  storage := s.storage.erase cid
  nonempty k kv h := by
    rw [Finmap.lookup_erase_ite] at h
    split_ifs at h
    exact s.nonempty k kv h

/-- The state with other keys for a contract. -/
def put (s : StateMap) (cid : ContractId) (kv : KvMap) (hkv : kv ≠ ∅) : StateMap where
  storage := s.storage.insert cid kv
  nonempty k kv' h := by
    rw [Finmap.lookup_insert_ite] at h
    split_ifs at h
    · cases h
      exact hkv
    · exact s.nonempty k kv' h

def set (s : StateMap) (cid : ContractId) (key value : List UInt8) : StateMap :=
  s.put cid ((s.kvMap cid).insert key value) (insert_ne_empty _ _ _)

def delete (s : StateMap) (cid : ContractId) (key : List UInt8) : StateMap :=
  if h : (s.kvMap cid).erase key = ∅ then s.clearContract cid
  else s.put cid ((s.kvMap cid).erase key) h

variable {s : StateMap} {cid k : ContractId} {key x value : List UInt8}

theorem kvMap_put {kv : KvMap} (hkv : kv ≠ ∅) :
    (s.put cid kv hkv).kvMap k = if k = cid then kv else s.kvMap k := by
  simp only [kvMap, put, Finmap.lookup_insert_ite]
  split_ifs <;> rfl

/-- A write is read back, and changes nothing else. -/
theorem get_set : (s.set cid key value).get k x =
    if k = cid ∧ x = key then some value else s.get k x := by
  rw [get, set, kvMap_put, get]
  by_cases hk : k = cid
  · simp [hk, Finmap.lookup_insert_ite]
  · simp [hk]

/-- A deleted key is gone, also when its contract is, and nothing else. -/
theorem get_delete : (s.delete cid key).get k x =
    if k = cid ∧ x = key then none else s.get k x := by
  have herase : ((s.kvMap cid).erase key).lookup x =
      if x = key then none else s.get cid x := Finmap.lookup_erase_ite ..
  unfold delete
  split_ifs with h hkx hkx
  · obtain ⟨rfl, rfl⟩ := hkx
    simp [get, kvMap, clearContract]
  · by_cases hk : k = cid
    · subst hk
      have hx : x ≠ key := fun hx => hkx ⟨rfl, hx⟩
      rw [h, Finmap.lookup_empty, if_neg hx] at herase
      rw [← herase]
      simp [get, kvMap, clearContract]
    · simp [get, kvMap, clearContract, Finmap.lookup_erase_ne hk]
  · obtain ⟨rfl, rfl⟩ := hkx
    rw [get, kvMap_put, if_pos rfl, herase, if_pos rfl]
  · rw [get, kvMap_put]
    by_cases hk : k = cid
    · have hx : x ≠ key := fun hx => hkx ⟨hk, hx⟩
      rw [if_pos hk, herase, if_neg hx, hk]
    · rw [if_neg hk, get]

end StateMap

/-! ## The state root -/

/-- Keys are compared byte by byte. -/
def keyLe (a b : List UInt8) : Prop := a.map UInt8.toNat ≤ b.map UInt8.toNat

instance : DecidableRel keyLe := fun _ _ => inferInstanceAs (Decidable (_ ≤ _))

instance : IsTrans (List UInt8) keyLe := ⟨fun _ _ _ => le_trans⟩

instance : Std.Total keyLe := ⟨fun _ _ => le_total _ _⟩

instance : Std.Antisymm keyLe where
  antisymm _ _ h h' := List.map_injective_iff.2 (fun _ _ => UInt8.toNat_inj.1) (le_antisymm h h')

/-- The keys of a contract in order, with their values. -/
def sortedEntries (kv : KvMap) : List (List UInt8 × List UInt8) :=
  (kv.keys.sort keyLe).map fun k => (k, (kv.lookup k).getD [])

section
variable (hash : List UInt8 → Hash) (combine : Hash → Hash → Hash)

/-- The loop of `build_merkle_tree`. -/
def buildLevels (currentLevel : List Hash) : Hash :=
  if currentLevel.length > 1 then buildLevels (Merkle.next combine currentLevel)
  else currentLevel.headD .zero
termination_by currentLevel.length
decreasing_by
  rw [Merkle.next_length]
  omega

def buildMerkleTree : List Hash → Hash
  | [] => .zero
  | [h] => h
  | leaves => buildLevels combine leaves

/-- `merkle_root_for_contract`. -/
def merkleRootForContract (cid : ContractId) (kv : KvMap) : Hash :=
  if kv.keys = ∅ then .zero
  else buildMerkleTree combine ((sortedEntries kv).map fun e => hash (cid.bytes ++ e.1 ++ e.2))

namespace StateMap

/-- The contracts in order. -/
def contractIds (s : StateMap) : List ContractId := s.storage.keys.sort

def stateRoot (s : StateMap) : Hash :=
  if s.storage.keys = ∅ then .zero
  else
    buildMerkleTree combine
      (s.contractIds.map fun cid => merkleRootForContract hash combine cid (s.kvMap cid))

end StateMap

theorem buildLevels_eq (l : List Hash) :
    buildLevels combine l = (Merkle.root combine l).getD .zero := by
  fun_induction buildLevels combine l with
  | case1 l hlt ih => rw [ih, Merkle.root.eq_def combine l, if_pos hlt]
  | case2 l hle =>
    rw [Merkle.root, if_neg hle]
    cases l <;> rfl

theorem buildMerkleTree_eq (l : List Hash) :
    buildMerkleTree combine l = (Merkle.root combine l).getD .zero := by
  unfold buildMerkleTree
  split
  · simp [Merkle.root]
  · simp [Merkle.root]
  · exact buildLevels_eq combine l

end

/-! ## Trees -/

namespace StateMap

variable {hash : List UInt8 → Hash} {combine : Hash → Hash → Hash} {s s' : StateMap}
  {cid : ContractId}

/-- Each key of a contract joined with its value, in the order of the keys. -/
def pairs (s : StateMap) (cid : ContractId) : List (List UInt8) :=
  (sortedEntries (s.kvMap cid)).map fun e => e.1 ++ e.2

/-- What is hashed to a contract's root. -/
def contractTree (s : StateMap) (cid : ContractId) : Merkle.Tree (List UInt8) :=
  (Merkle.tree ((s.pairs cid).map (cid.bytes ++ ·))).getD (.leaf [])

/-- What is hashed to the state root. -/
def stateTree (s : StateMap) : Option (Merkle.Tree (List UInt8)) :=
  Merkle.root .node (s.contractIds.map s.contractTree)

theorem mem_contractIds : cid ∈ s.contractIds ↔ ∃ kv, s.storage.lookup cid = some kv := by
  rw [contractIds, Finset.mem_sort, Finmap.mem_keys, ← Finmap.lookup_isSome,
    Option.isSome_iff_exists]

theorem keys_ne_empty (h : cid ∈ s.contractIds) : (s.kvMap cid).keys ≠ ∅ := by
  obtain ⟨kv, hkv⟩ := mem_contractIds.1 h
  rw [kvMap, hkv, Option.getD_some]
  intro hk
  refine s.nonempty cid kv hkv (Finmap.ext_lookup fun k => ?_)
  rw [Finmap.lookup_empty, Finmap.lookup_eq_none, ← Finmap.mem_keys, hk]
  exact Finset.notMem_empty k

theorem pairs_ne_nil (h : cid ∈ s.contractIds) : s.pairs cid ≠ [] := by
  have hlen : (s.pairs cid).length = (s.kvMap cid).keys.card := by
    simp [pairs, sortedEntries]
  intro hnil
  rw [hnil] at hlen
  exact keys_ne_empty h (Finset.card_eq_zero.1 hlen.symm)

/-- A contract that has keys has a tree. -/
theorem contractTree_spec (h : cid ∈ s.contractIds) :
    Merkle.tree ((s.pairs cid).map (cid.bytes ++ ·)) = some (s.contractTree cid) := by
  have hne : (s.pairs cid).map (cid.bytes ++ ·) ≠ [] :=
    List.map_eq_nil_iff.not.2 (pairs_ne_nil h)
  obtain ⟨t, ht⟩ := Merkle.tree_ne_nil hne
  rw [contractTree, ht, Option.getD_some]

theorem merkleRootForContract_eq (h : cid ∈ s.contractIds) :
    merkleRootForContract hash combine cid (s.kvMap cid) =
      (s.contractTree cid).eval hash combine := by
  have hleaves : (sortedEntries (s.kvMap cid)).map (fun e => hash (cid.bytes ++ e.1 ++ e.2)) =
      ((s.pairs cid).map (cid.bytes ++ ·)).map hash := by
    simp [pairs, Function.comp_def]
  rw [merkleRootForContract, if_neg (keys_ne_empty h), hleaves, buildMerkleTree_eq,
    Merkle.root_map_eval, contractTree_spec h]
  rfl

/-- **The state root is the hash of the tree**, if there is one. -/
theorem stateRoot_eq (hash : List UInt8 → Hash) (combine : Hash → Hash → Hash) (s : StateMap) :
    s.stateRoot hash combine = (s.stateTree.map (·.eval hash combine)).getD .zero := by
  have hroots : (s.contractIds.map fun cid => merkleRootForContract hash combine cid (s.kvMap cid)) =
      (s.contractIds.map s.contractTree).map (·.eval hash combine) := by
    rw [List.map_map]
    exact List.map_congr_left fun cid h => merkleRootForContract_eq h
  unfold stateRoot
  split_ifs with hempty
  · simp [stateTree, contractIds, hempty, Merkle.root]
  · rw [hroots, buildMerkleTree_eq,
      Merkle.root_map (f := .node) (g := Merkle.Tree.eval hash combine) (fun _ _ => rfl)]
    rfl

theorem stateTree_eq_none : s.stateTree = none ↔ s.contractIds = [] := by
  constructor
  · intro h
    exact List.map_eq_nil_iff.1 (Merkle.root_eq_none h)
  · intro h
    simp [stateTree, h, Merkle.root]

/-- The leaves of the tree begin with the ids of the contracts. -/
theorem mem_contractIds_iff {t : Merkle.Tree (List UInt8)} (h : s.stateTree = some t) :
    cid ∈ s.contractIds ↔ ∃ x ∈ t.leaves, x.take 32 = cid.bytes := by
  have htake : ∀ (k : ContractId) (p : List UInt8), (k.bytes ++ p).take 32 = k.bytes := by
    intro k p
    rw [← k.bytes_length, List.take_left]
  constructor
  · intro hcid
    obtain ⟨p, hp⟩ := List.exists_mem_of_ne_nil _ (pairs_ne_nil hcid)
    refine ⟨cid.bytes ++ p, (Merkle.mem_leaves_root h).2 ?_, htake cid p⟩
    refine ⟨_, List.mem_map_of_mem hcid, (Merkle.mem_leaves_tree (contractTree_spec hcid)).2 ?_⟩
    exact List.mem_map_of_mem hp
  · intro hx
    obtain ⟨x, hmem, hcid⟩ := hx
    obtain ⟨t', ht', hxt⟩ := (Merkle.mem_leaves_root h).1 hmem
    obtain ⟨k, hk, rfl⟩ := List.mem_map.1 ht'
    obtain ⟨p, -, rfl⟩ := List.mem_map.1 ((Merkle.mem_leaves_tree (contractTree_spec hk)).1 hxt)
    rw [htake] at hcid
    exact ContractId.bytes_inj hcid ▸ hk

/-- The states have the same contracts, and each contract the same keys joined with values, in order,
when these are padded to a full tree. -/
structure SamePadding (s s' : StateMap) : Prop where
  contracts : s.contractIds = s'.contractIds
  pairs : ∀ cid ∈ s.contractIds, Merkle.tree (s.pairs cid) = Merkle.tree (s'.pairs cid)

theorem contractTree_eq_iff (h : cid ∈ s.contractIds) (h' : cid ∈ s'.contractIds) :
    s.contractTree cid = s'.contractTree cid ↔
      Merkle.tree (s.pairs cid) = Merkle.tree (s'.pairs cid) := by
  have hg : Function.Injective fun p : List UInt8 => cid.bytes ++ p := fun _ _ => List.append_cancel_left
  have hinj := Option.map_injective (Merkle.Tree.map_injective hg)
  rw [← Option.some_inj, ← contractTree_spec h, ← contractTree_spec h', Merkle.tree_map,
    Merkle.tree_map, hinj.eq_iff]

/-- **What the tree tells of the state.** -/
theorem stateTree_eq_iff (s s' : StateMap) : s.stateTree = s'.stateTree ↔ SamePadding s s' := by
  constructor
  · intro h
    have hids : s.contractIds = s'.contractIds := by
      cases ht : s.stateTree with
      | none => rw [stateTree_eq_none.1 ht, stateTree_eq_none.1 (h.symm.trans ht)]
      | some t =>
        have hkeys : s.storage.keys = s'.storage.keys := by
          ext cid
          have hmem : cid ∈ s.contractIds ↔ _ := mem_contractIds_iff ht
          rw [← mem_contractIds_iff (h.symm.trans ht), contractIds, contractIds, Finset.mem_sort,
            Finset.mem_sort] at hmem
          exact hmem
        rw [contractIds, contractIds, hkeys]
    have htrees : s.contractIds.map s.contractTree = s'.contractIds.map s'.contractTree :=
      Merkle.root_inj_length Merkle.Tree.node_injective (by simp [hids]) h
    refine ⟨hids, fun cid hcid => (contractTree_eq_iff hcid (hids ▸ hcid)).1 ?_⟩
    rw [← hids] at htrees
    exact List.map_inj_left.1 htrees cid hcid
  · intro h
    obtain ⟨hids, hpairs⟩ := h
    rw [stateTree, stateTree, ← hids]
    refine congrArg _ (List.map_congr_left fun cid hcid => ?_)
    exact (contractTree_eq_iff hcid (hids ▸ hcid)).2 (hpairs cid hcid)

/-! ## Binding -/

/-- The hash of data and the combination of hashes are injective, and do not hit each other's range. -/
structure Ideal (hash : List UInt8 → Hash) (combine : Hash → Hash → Hash) : Prop where
  hash_inj : Function.Injective hash
  combine_inj : Merkle.PairInjective combine
  disjoint : ∀ data a b, hash data ≠ combine a b

/-- Some contract has another value, or none, for some key. -/
def Differ (s s' : StateMap) : Prop := ∃ cid key, s.get cid key ≠ s'.get cid key

/-- What is hashed to the root of the state is a preimage of the hash that stands for the empty
state. -/
def HitsZero (hash : List UInt8 → Hash) (combine : Hash → Hash → Hash) (s : StateMap) : Prop :=
  ∃ t, s.stateTree = some t ∧ t.eval hash combine = .zero

/-- The padded contents are the same; or one state is empty, and the other a preimage of zero. -/
inductive Coincide (hash : List UInt8 → Hash) (combine : Hash → Hash → Hash) (s s' : StateMap) :
    Prop
  | padding (h : SamePadding s s')
  | left (h : s.contractIds = []) (hzero : HitsZero hash combine s')
  | right (h : s'.contractIds = []) (hzero : HitsZero hash combine s)

theorem getD_map_eq_iff {α β : Type*} {e : α → β} (he : Function.Injective e) (z : β)
    (o o' : Option α) : (o.map e).getD z = (o'.map e).getD z ↔
      o = o' ∨ (o = none ∧ ∃ t, o' = some t ∧ e t = z) ∨
        (o' = none ∧ ∃ t, o = some t ∧ e t = z) := by
  cases o with
  | none => cases o' <;> simp [eq_comm]
  | some t => cases o' <;> simp [he.eq_iff]

/-- **Which states have the same root.** -/
theorem stateRoot_eq_iff (H : Ideal hash combine) (s s' : StateMap) :
    s.stateRoot hash combine = s'.stateRoot hash combine ↔ Coincide hash combine s s' := by
  have heval := Merkle.Tree.eval_injective H.hash_inj H.combine_inj H.disjoint
  rw [stateRoot_eq, stateRoot_eq, getD_map_eq_iff heval, stateTree_eq_iff, stateTree_eq_none,
    stateTree_eq_none]
  constructor
  · intro h
    rcases h with h | ⟨h, hz⟩ | ⟨h, hz⟩
    · exact .padding h
    · exact .left h hz
    · exact .right h hz
  · intro h
    cases h with
    | padding h => exact .inl h
    | left h hz => exact .inr (.inl ⟨h, hz⟩)
    | right h hz => exact .inr (.inr ⟨h, hz⟩)

/-- **Binding.** Of states with different contents, exactly those have different roots whose contents
differ also when keys are joined with their values and padded. -/
theorem binding_iff (H : Ideal hash combine) (s s' : StateMap) :
    (Differ s s' → s.stateRoot hash combine ≠ s'.stateRoot hash combine) ↔
      (Differ s s' → ¬Coincide hash combine s s') :=
  imp_congr_right fun _ => not_congr (stateRoot_eq_iff H s s')

end StateMap

namespace Sample

/-- Even hashes for data, odd ones for combinations. -/
def idealHash (data : List UInt8) : Hash := ⟨2 * Encodable.encode (data.map UInt8.toNat)⟩

def idealCombine (a b : Hash) : Hash := ⟨2 * Nat.pair a.val b.val + 1⟩

theorem ideal : StateMap.Ideal idealHash idealCombine where
  hash_inj a b h := by
    have hcode : Encodable.encode (a.map UInt8.toNat) = Encodable.encode (b.map UInt8.toNat) := by
      have := congrArg Hash.val h
      simpa [idealHash] using this
    exact List.map_injective_iff.2 (fun _ _ => UInt8.toNat_inj.1) (Encodable.encode_injective hcode)
  combine_inj a b c d h := by
    have hpair : Nat.pair a.val b.val = Nat.pair c.val d.val := by
      have := congrArg Hash.val h
      simpa [idealCombine] using this
    obtain ⟨hac, hbd⟩ := Nat.pair_eq_pair.1 hpair
    exact ⟨Hash.val_injective hac, Hash.val_injective hbd⟩
  disjoint data a b h := by
    have := congrArg Hash.val h
    simp only [idealHash, idealCombine] at this
    omega

def contract : ContractId := ⟨1, by decide⟩

/-- One key of one contract. -/
def oneKey (key value : List UInt8) : StateMap := StateMap.new.set contract key value

end Sample

open Sample in
theorem binding_iff_values :
    (StateMap.Differ (oneKey [97] [98]) (oneKey [97] [99]) →
        (oneKey [97] [98]).stateRoot idealHash idealCombine ≠
          (oneKey [97] [99]).stateRoot idealHash idealCombine) ↔
      (StateMap.Differ (oneKey [97] [98]) (oneKey [97] [99]) →
        ¬StateMap.Coincide idealHash idealCombine (oneKey [97] [98]) (oneKey [97] [99])) :=
  StateMap.binding_iff ideal _ _

open Sample in
/-- The key `a` with the value `b`, and the key `ab` with an empty value. -/
theorem shifted_boundary : ¬∃ (hash : List UInt8 → Hash) (combine : Hash → Hash → Hash),
    ∀ s s' : StateMap, StateMap.Differ s s' →
      s.stateRoot hash combine ≠ s'.stateRoot hash combine := by
  intro hex
  obtain ⟨hash, combine, h⟩ := hex
  have hsame : StateMap.SamePadding (oneKey [97] [98]) (oneKey [97, 98] []) := by
    refine ⟨by decide +kernel, fun cid hcid => ?_⟩
    rw [show (oneKey [97] [98]).contractIds = [contract] by decide +kernel] at hcid
    obtain rfl := List.mem_singleton.1 hcid
    rw [show (oneKey [97] [98]).pairs contract = (oneKey [97, 98] []).pairs contract by
      decide +kernel]
  refine h (oneKey [97] [98]) (oneKey [97, 98] []) ⟨contract, [97], by decide +kernel⟩ ?_
  rw [StateMap.stateRoot_eq, StateMap.stateRoot_eq, (StateMap.stateTree_eq_iff _ _).2 hsame]

end Zentra

import ZentraChain.Lib.Listing
import ZentraChain.Runtime.State

/-!
# What the state root forgets

The state root is computed over what hash maps give in an order of their own, and the maps may have
been reached in different ways.

* `StateMap.ext_get`: a state is what can be read from it, as no contract has an empty namespace.
* `StateMap.Listed.rootOf_eq`: the order in which the hash maps give their entries does not matter.
* `StateMap.stateRoot_history`: nor do the writes that led to the contents.
-/

namespace Zentra

section
variable (hash : List UInt8 → Hash) (combine : Hash → Hash → Hash)

/-- `merkle_root_for_contract`, for entries in the order of the hash map. -/
def merkleRootOf (cid : ContractId) (entries : List (List UInt8 × List UInt8)) : Hash :=
  if entries.isEmpty then .zero
  else
    let sorted := entries.mergeSort fun a b => decide (keyLe a.1 b.1)
    buildMerkleTree combine (sorted.map fun e => hash (cid.bytes ++ e.1 ++ e.2))

/-- `state_root`, for contracts in the order of the hash map. -/
def rootOf (layout : List (ContractId × List (List UInt8 × List UInt8))) : Hash :=
  if layout.isEmpty then .zero
  else
    let contractHashes := layout.map fun c => (c.1, merkleRootOf hash combine c.1 c.2)
    let sorted := contractHashes.mergeSort fun a b => decide (a.1 ≤ b.1)
    buildMerkleTree combine (sorted.map Prod.snd)

variable {hash combine}

theorem merkleRootOf_eq {cid : ContractId} {entries : List (List UInt8 × List UInt8)} {kv : KvMap}
    (h : Finmap.Lists entries kv) :
    merkleRootOf hash combine cid entries = merkleRootForContract hash combine cid kv := by
  have hempty : entries.isEmpty = true ↔ kv.keys = ∅ := by
    rw [List.isEmpty_iff, ← List.map_eq_nil_iff (f := Prod.fst), Finset.eq_empty_iff_forall_notMem,
      List.eq_nil_iff_forall_not_mem]
    exact forall_congr' fun k => not_congr (h.mem_keys k)
  simp only [merkleRootOf, merkleRootForContract, hempty, sortedEntries,
    h.mergeSort (r := keyLe) []]

end

namespace StateMap

/-- What the hash maps give: the contracts, each with the entries of its namespace. -/
structure Listed (layout : List (ContractId × List (List UInt8 × List UInt8))) (s : StateMap) :
    Prop where
  nodup : (layout.map Prod.fst).Nodup
  contracts : ∀ cid, cid ∈ layout.map Prod.fst ↔ cid ∈ s.storage.keys
  entries : ∀ c ∈ layout, Finmap.Lists c.2 (s.kvMap c.1)

variable {hash : List UInt8 → Hash} {combine : Hash → Hash → Hash} {s s' : StateMap}
  {cid : ContractId} {layout : List (ContractId × List (List UInt8 × List UInt8))}

theorem exists_listed (s : StateMap) : ∃ layout, Listed layout s := by
  choose entries hentries using fun cid => Finmap.exists_lists (s.kvMap cid)
  refine ⟨s.contractIds.map fun cid => (cid, entries cid), ?_, ?_, ?_⟩
  · simp [Function.comp_def, contractIds]
  · simp [Function.comp_def, contractIds]
  · intro c hc
    obtain ⟨cid, -, rfl⟩ := List.mem_map.1 hc
    exact hentries cid

/-- **The order of the hash maps does not matter.** -/
theorem Listed.rootOf_eq (h : Listed layout s) :
    rootOf hash combine layout = s.stateRoot hash combine := by
  have hempty : layout.isEmpty = true ↔ s.storage.keys = ∅ := by
    rw [List.isEmpty_iff, ← List.map_eq_nil_iff (f := Prod.fst), Finset.eq_empty_iff_forall_notMem,
      List.eq_nil_iff_forall_not_mem]
    exact forall_congr' fun k => not_congr (h.contracts k)
  have hsorted := Finmap.mergeSort_graph (r := (· ≤ ·)) (s := s.storage.keys)
    (l := layout.map fun c => (c.1, merkleRootOf hash combine c.1 c.2))
    (f := fun cid => merkleRootForContract hash combine cid (s.kvMap cid))
    (by simpa [Function.comp_def] using h.nodup)
    (by simpa [Function.comp_def] using h.contracts)
    (by
      intro e he
      obtain ⟨c, hc, rfl⟩ := List.mem_map.1 he
      exact merkleRootOf_eq (h.entries c hc))
  simp only [rootOf, stateRoot, hempty, hsorted, List.map_map, Function.comp_def, contractIds]

/-- A namespace is never empty. -/
theorem kvMap_eq_empty : s.kvMap cid = ∅ ↔ s.storage.lookup cid = none := by
  constructor
  · intro h
    cases hl : s.storage.lookup cid with
    | none => rfl
    | some kv =>
      have hkv : s.kvMap cid = kv := by rw [kvMap, hl, Option.getD_some]
      exact absurd (hkv.symm.trans h) (s.nonempty cid kv hl)
  · intro h
    rw [kvMap, h, Option.getD_none]

theorem lookup_storage (s : StateMap) (cid : ContractId) :
    s.storage.lookup cid = if s.kvMap cid = ∅ then none else some (s.kvMap cid) := by
  split_ifs with h
  · exact kvMap_eq_empty.1 h
  · cases hl : s.storage.lookup cid with
    | none => exact absurd (kvMap_eq_empty.2 hl) h
    | some kv => rw [kvMap, hl, Option.getD_some]

/-- A contract has a namespace exactly if something can be read from it. -/
theorem mem_storage : cid ∈ s.storage.keys ↔ ∃ key value, s.get cid key = some value := by
  rw [Finmap.mem_keys, ← not_iff_not, ← Finmap.lookup_eq_none, ← kvMap_eq_empty]
  constructor
  · intro h hex
    obtain ⟨key, value, hget⟩ := hex
    rw [get, h, Finmap.lookup_empty] at hget
    cases hget
  · intro h
    refine Finmap.ext_lookup fun key => ?_
    rw [Finmap.lookup_empty, Option.eq_none_iff_forall_ne_some]
    exact fun value hget => h ⟨key, value, hget⟩

/-- Nothing is left of a contract that was cleared. -/
theorem get_clearContract {k : ContractId} {key : List UInt8} :
    (s.clearContract cid).get k key = if k = cid then none else s.get k key := by
  simp only [get, kvMap, clearContract, Finmap.lookup_erase_ite]
  split_ifs <;> simp

/-- **A state is what can be read from it.** -/
theorem ext_get (h : ∀ cid key, s.get cid key = s'.get cid key) : s = s' := by
  have hkv : ∀ cid, s.kvMap cid = s'.kvMap cid := fun cid => Finmap.ext_lookup (h cid)
  have hstorage : s.storage = s'.storage :=
    Finmap.ext_lookup fun cid => by rw [lookup_storage, lookup_storage, hkv]
  cases s
  cases s'
  cases hstorage
  rfl

end StateMap

/-! ## Histories -/

/-- A write. -/
inductive StateOp
  | set (cid : ContractId) (key value : List UInt8)
  | delete (cid : ContractId) (key : List UInt8)
  | clearContract (cid : ContractId)

namespace StateMap

def apply (s : StateMap) : StateOp → StateMap
  | .set cid key value => s.set cid key value
  | .delete cid key => s.delete cid key
  | .clearContract cid => s.clearContract cid

/-- The state that writes lead to. -/
def after (ops : List StateOp) : StateMap := ops.foldl apply new

/-- **The root does not tell the history.** If the same can be read after two sequences of writes, the
state root is the same, in whatever order the hash maps of the two give their entries. -/
theorem stateRoot_history (hash : List UInt8 → Hash) (combine : Hash → Hash → Hash)
    {ops ops' : List StateOp}
    {layout layout' : List (ContractId × List (List UInt8 × List UInt8))}
    (h : ∀ cid key, (after ops).get cid key = (after ops').get cid key)
    (hl : Listed layout (after ops)) (hl' : Listed layout' (after ops')) :
    rootOf hash combine layout = rootOf hash combine layout' := by
  rw [hl.rootOf_eq, hl'.rootOf_eq, ext_get h]

/-- How the contents of a state with one contract may be listed. -/
theorem listed_singleton {cid : ContractId} {entries : List (List UInt8 × List UInt8)}
    (hne : entries ≠ []) (hnd : (entries.map Prod.fst).Nodup)
    (hget : ∀ k key value, s.get k key = some value ↔ k = cid ∧ (key, value) ∈ entries) :
    Listed [(cid, entries)] s where
  nodup := by simp
  contracts k := by
    rw [mem_storage]
    constructor
    · intro hk
      obtain ⟨e, he⟩ := List.exists_mem_of_ne_nil _ hne
      exact ⟨e.1, e.2, (hget k e.1 e.2).2 ⟨by simpa using hk, he⟩⟩
    · intro hk
      obtain ⟨key, value, h⟩ := hk
      simp [((hget k key value).1 h).1]
  entries c hc := by
    rw [List.mem_singleton.1 hc]
    exact ⟨hnd, fun key value => ((hget cid key value).trans (and_iff_right rfl)).symm⟩

end StateMap

namespace Sample

def twoKeys : List StateOp := [.set contract [97] [98], .set contract [99] [100]]

/-- A contract that was cleared, keys in the other order, and one that was deleted. -/
def detour : List StateOp :=
  [.set contract [1] [2], .clearContract contract, .set contract [99] [100],
    .set contract [97] [98], .set contract [3] [4], .delete contract [3]]

theorem get_twoKeys (cid : ContractId) (key value : List UInt8) :
    (StateMap.after twoKeys).get cid key = some value ↔
      cid = contract ∧ (key, value) ∈ [([97], [98]), ([99], [100])] := by
  have hnew : StateMap.new.get cid key = none := by
    simp [StateMap.get, StateMap.kvMap, StateMap.new]
  simp only [StateMap.after, twoKeys, List.foldl_cons, List.foldl_nil, StateMap.apply,
    StateMap.get_set, hnew]
  grind

theorem get_detour (cid : ContractId) (key : List UInt8) :
    (StateMap.after twoKeys).get cid key = (StateMap.after detour).get cid key := by
  simp only [StateMap.after, twoKeys, detour, List.foldl_cons, List.foldl_nil, StateMap.apply,
    StateMap.get_delete, StateMap.get_set, StateMap.get_clearContract]
  have hnew : StateMap.new.get cid key = none := by
    simp [StateMap.get, StateMap.kvMap, StateMap.new]
  grind

end Sample

open Sample in
theorem StateMap.stateRoot_history_detour :
    rootOf idealHash idealCombine [(contract, [([97], [98]), ([99], [100])])] =
      rootOf idealHash idealCombine [(contract, [([99], [100]), ([97], [98])])] :=
  stateRoot_history idealHash idealCombine get_detour
    (listed_singleton (by simp) (by decide) get_twoKeys)
    (listed_singleton (by simp) (by decide) fun k key value => by
      rw [← get_detour, get_twoKeys]
      simp [or_comm])

end Zentra

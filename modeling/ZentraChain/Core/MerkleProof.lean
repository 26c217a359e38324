import ZentraChain.Core.Block
import ZentraChain.Lib.Merkle

/-!
# Merkle proofs (`merkle.rs`)

Every entry of a proof is a sibling on the way up, and whether it is on the right. The verifier climbs
as many levels as the proof has entries, however many the tree has.

* `computeMerkleRoot_root`: the root of the code is the root of the library.
* `verify_computeMerkleProof`: what is computed for a leaf verifies.
* `verify_sound_iff`: when a proof of so many entries cannot verify a hash that is no leaf.
-/

namespace Zentra

variable {E : Env} {l : List Hash} {x : Hash}

/-! ## The Merkle root -/

theorem combinePairs_padLevel (E : Env) : ∀ l : List Hash,
    combinePairs E (padLevel l) = Merkle.next E.combine l
  | [] => rfl
  | [_] => rfl
  | a :: b :: l => by
    have hpad : padLevel (a :: b :: l) = a :: b :: padLevel l := by
      have hmod : (a :: b :: l).length % 2 = l.length % 2 := by
        rw [List.length_cons, List.length_cons]
        omega
      unfold padLevel
      rw [hmod]
      split
      · rename_i hodd
        cases l with
        | nil => exact absurd rfl hodd
        | cons c l => simp only [List.getLast?_cons_cons, List.cons_append]
      · rfl
    rw [hpad, combinePairs, Merkle.next, combinePairs_padLevel E l]

theorem merkleLevels_root (E : Env) : ∀ (n : Nat) (l : List Hash), l ≠ [] → l.length ≤ n + 1 →
    ∃ k, Merkle.Root E.combine k l (merkleLevels E n l)
  | _, [], h, _ => absurd rfl h
  | 0, [a], _, _ => ⟨0, .leaf a⟩
  | _ + 1, [a], _, _ => ⟨0, .leaf a⟩
  | 0, _ :: _ :: _, _, hl => absurd hl (by simp)
  | n + 1, a :: b :: l, _, hl => by
    have hlen : (Merkle.next E.combine (a :: b :: l)).length ≤ n + 1 := by
      rw [Merkle.next_length]
      omega
    obtain ⟨k, hk⟩ := merkleLevels_root E n (Merkle.next E.combine (a :: b :: l))
      (List.cons_ne_nil _ _) hlen
    have hlt : 1 < (a :: b :: l).length := by simp
    refine ⟨k + 1, .up hlt ?_⟩
    rw [merkleLevels, if_pos hlt, combinePairs_padLevel]
    exact hk

theorem computeMerkleRoot_root (E : Env) {l : List Hash} (h : l ≠ []) :
    ∃ k, Merkle.Root E.combine k l (computeMerkleRoot E l) := by
  unfold computeMerkleRoot
  split
  · exact absurd rfl h
  · exact ⟨0, .leaf _⟩
  · exact merkleLevels_root E _ _ h (Nat.le_succ _)

/-! ## Proofs -/

/-- The siblings on the way up from `idx`. -/
def merkleProofLevels (E : Env) : Nat → List Hash → Nat → List (Hash × Bool)
  | 0, _, _ => []
  | n + 1, l, idx =>
    if l.length > 1 then
      let level := padLevel l
      let siblingIdx := if idx % 2 = 0 then idx + 1 else idx - 1
      -- the sibling is on the right of a left node
      let isRight := idx % 2 = 0
      (level.getD siblingIdx .zero, isRight) ::
        merkleProofLevels E n (combinePairs E level) (idx / 2)
    else []

/-- The proof for the transaction at an index. -/
def computeMerkleProof (E : Env) (txHashes : List Hash) (index : Nat) : List (Hash × Bool) :=
  if txHashes.length ≤ 1 ∨ index ≥ txHashes.length then []
  else merkleProofLevels E txHashes.length txHashes index

def verifyMerkleProof (E : Env) (root txid : Hash) (proof : List (Hash × Bool)) : Bool :=
  proof.foldl (fun current e =>
    if e.2 then E.combine current e.1 else E.combine e.1 current) txid = root

theorem verifyMerkleProof_iff {root : Hash} {proof : List (Hash × Bool)} :
    verifyMerkleProof E root x proof = true ↔ Merkle.climb E.combine x proof = root :=
  decide_eq_true_iff

/-! ## Completeness -/

theorem padLevel_length (l : List Hash) : (padLevel l).length % 2 = 0 := by
  unfold padLevel
  split
  · rename_i hodd
    cases hl : l.getLast? with
    | none =>
      rw [List.getLast?_eq_none_iff.1 hl] at hodd
      exact absurd rfl hodd
    | some a =>
      rw [List.length_append, Option.toList_some, List.length_singleton]
      omega
  · omega

theorem padLevel_getElem? {i : Nat} (h : l[i]? = some x) : (padLevel l)[i]? = some x := by
  unfold padLevel
  split
  · rw [List.getElem?_append_left (List.getElem?_eq_some_iff.1 h).1, h]
  · exact h

/-- A node of an even level is combined with its sibling into one of the next. -/
theorem combinePairs_getElem? (E : Env) : ∀ {l : List Hash} {i : Nat} {x : Hash}, l.length % 2 = 0 →
    l[i]? = some x → (combinePairs E l)[i / 2]? = some (if i % 2 = 0 then
      E.combine x (l.getD (i + 1) .zero) else E.combine (l.getD (i - 1) .zero) x)
  | [], _, _, _, h => by simp at h
  | [_], _, _, hl, _ => by simp at hl
  | a :: b :: l, 0, x, _, h => by
    obtain rfl : a = x := by simpa using h
    rfl
  | a :: b :: l, 1, x, _, h => by
    obtain rfl : b = x := by simpa using h
    rfl
  | a :: b :: l, i + 2, x, hl, h => by
    have hl' : l.length % 2 = 0 := by
      rw [List.length_cons, List.length_cons] at hl
      omega
    have ih := combinePairs_getElem? E hl' (by simpa using h : l[i]? = some x)
    rw [combinePairs, Nat.add_div_right _ (by decide), List.getElem?_cons_succ, ih, Nat.add_mod_right]
    split
    · rfl
    · rename_i hodd
      rw [show i + 2 - 1 = i - 1 + 2 by omega]
      rfl

/-- **The siblings lead to the root**, level by level. -/
theorem climb_merkleProofLevels (E : Env) : ∀ (n : Nat) {l : List Hash} {i : Nat} {x : Hash},
    l[i]? = some x → l.length ≤ n + 1 →
      Merkle.climb E.combine x (merkleProofLevels E n l i) = merkleLevels E n l
  | 0, l, i, x, h, hl => by
    obtain ⟨hi, rfl⟩ := List.getElem?_eq_some_iff.1 h
    obtain ⟨a, rfl⟩ := List.length_eq_one_iff.1 (by omega : l.length = 1)
    simp [merkleProofLevels, merkleLevels, Merkle.climb]
  | n + 1, l, i, x, h, hl => by
    rw [merkleProofLevels, merkleLevels]
    split
    · have hlen : (combinePairs E (padLevel l)).length ≤ n + 1 := by
        rw [combinePairs_padLevel, Merkle.next_length]
        omega
      have hnext := combinePairs_getElem? E (padLevel_length l) (padLevel_getElem? h)
      rw [← climb_merkleProofLevels E n hnext hlen]
      unfold Merkle.climb
      rw [List.foldl_cons]
      by_cases hi : i % 2 = 0 <;> simp [hi]
    · obtain ⟨hi, rfl⟩ := List.getElem?_eq_some_iff.1 h
      obtain ⟨a, rfl⟩ := List.length_eq_one_iff.1 (by omega : l.length = 1)
      simp [Merkle.climb]

/-- **Completeness**: the proof computed for an index verifies the leaf there. -/
theorem verify_computeMerkleProof (E : Env) (txHashes : List Hash) (index : Nat)
    (h : index < txHashes.length) : verifyMerkleProof E (computeMerkleRoot E txHashes)
      (txHashes.get ⟨index, h⟩) (computeMerkleProof E txHashes index) = true := by
  rw [verifyMerkleProof_iff]
  have hx : txHashes[index]? = some (txHashes.get ⟨index, h⟩) := by simp
  generalize txHashes.get ⟨index, h⟩ = x at hx ⊢
  match txHashes, h, hx with
  | [a], h, hx =>
    obtain rfl : index = 0 := by simpa using h
    cases hx
    rfl
  | a :: b :: l, h, hx =>
    rw [computeMerkleProof, if_neg (by simp at h ⊢; omega)]
    exact climb_merkleProofLevels E _ hx (Nat.le_succ _)

namespace Sample

/-- An environment that pairs hashes and has no other data. -/
def pairEnv : Env where
  network := .devnet
  hashTx _ := .zero
  hashHeader _ := .zero
  combine a b := ⟨Nat.pair a.val b.val⟩
  hashKey _ := 0
  verify _ _ _ := false
  powHash _ _ _ := .zero
  txSize _ := 0

theorem pairEnv_injective : Merkle.PairInjective pairEnv.combine := by
  intro a b c d h
  obtain ⟨hac, hbd⟩ := Nat.pair_eq_pair.1 (congrArg Hash.val h)
  exact ⟨Hash.val_injective hac, Hash.val_injective hbd⟩

/-- Five leaves. -/
def leaves : List Hash := [⟨1⟩, ⟨2⟩, ⟨3⟩, ⟨4⟩, ⟨5⟩]

end Sample

open Sample in
/-- The last leaf is paired with itself twice. -/
theorem verify_last_leaf : verifyMerkleProof pairEnv (computeMerkleRoot pairEnv leaves)
    (leaves.get ⟨4, by decide⟩) (computeMerkleProof pairEnv leaves 4) = true :=
  verify_computeMerkleProof pairEnv leaves 4 (by decide)

/-! ## Soundness -/

/-- The leaves of the root: that of no leaves is the zero hash. -/
def merkleLeaves (l : List Hash) : List Hash := if l = [] then [.zero] else l

/-- The number of levels above the leaves. -/
def merkleDepth (l : List Hash) : Nat := Nat.clog 2 (merkleLeaves l).length

/-- With `m` combinations to the root, `x` is a node of the tree, or below one of its leaves. -/
def OnTree (E : Env) (l : List Hash) (x : Hash) (m : Nat) : Prop :=
  if m ≤ merkleDepth l then
    x ∈ (fun level => combinePairs E (padLevel level))^[merkleDepth l - m] (merkleLeaves l)
  else ∃ leaf ∈ merkleLeaves l, Merkle.Reaches E.combine x (m - merkleDepth l) leaf

theorem merkleLeaves_ne (l : List Hash) : merkleLeaves l ≠ [] := by
  unfold merkleLeaves
  split
  · exact List.cons_ne_nil _ _
  · assumption

theorem computeMerkleRoot_leaves (E : Env) (l : List Hash) :
    computeMerkleRoot E (merkleLeaves l) = computeMerkleRoot E l := by
  unfold merkleLeaves
  split
  · rename_i hl
    rw [hl]
    rfl
  · rfl

theorem reaches_root_iff (hE : Merkle.PairInjective E.combine) (l : List Hash) (x : Hash) (m : Nat) :
    Merkle.Reaches E.combine x m (computeMerkleRoot E l) ↔ OnTree E l x m := by
  obtain ⟨k, hroot⟩ := computeMerkleRoot_root E (merkleLeaves_ne l)
  rw [computeMerkleRoot_leaves] at hroot
  rw [hroot.reaches_iff hE, OnTree, hroot.clog, merkleDepth, funext (combinePairs_padLevel E)]

/-- **Soundness**: no proof of `m` entries verifies a hash that is no leaf, exactly when it is not
elsewhere on the tree with `m` combinations to the root. -/
theorem verify_sound_iff (E : Env) (hE : Merkle.PairInjective E.combine) (l : List Hash) (x : Hash)
    (m : Nat) :
    (∀ proof : List (Hash × Bool), proof.length = m →
      verifyMerkleProof E (computeMerkleRoot E l) x proof = true → x ∈ l) ↔
    (x ∈ l ∨ ¬OnTree E l x m) := by
  rw [← reaches_root_iff hE]
  constructor
  · intro h
    by_cases hr : Merkle.Reaches E.combine x m (computeMerkleRoot E l)
    · obtain ⟨p, hp, hroot⟩ := hr.exists_climb
      exact .inl (h p hp (verifyMerkleProof_iff.2 hroot))
    · exact .inr hr
  · rintro (hx | hr) p rfl hv
    · exact hx
    · exact absurd (verifyMerkleProof_iff.1 hv ▸ Merkle.climb_reaches x p) hr

/-- A proof with an entry a level verifies leaves only. -/
theorem mem_of_verify (hE : Merkle.PairInjective E.combine) (hl : l ≠ []) {proof : List (Hash × Bool)}
    (hp : proof.length = merkleDepth l)
    (hv : verifyMerkleProof E (computeMerkleRoot E l) x proof = true) : x ∈ l := by
  have hr := (reaches_root_iff hE l x proof.length).1
    (verifyMerkleProof_iff.1 hv ▸ Merkle.climb_reaches x proof)
  rwa [OnTree, hp, if_pos (Nat.le_refl _), Nat.sub_self, Function.iterate_zero_apply, merkleLeaves,
    if_neg hl] at hr

open Sample in
/-- The first pair of four leaves verifies with the second. -/
theorem pair_verifies : ¬∀ E : Env, Merkle.PairInjective E.combine →
    ∀ (l : List Hash) (x : Hash) (proof : List (Hash × Bool)),
      verifyMerkleProof E (computeMerkleRoot E l) x proof = true → x ∈ l := by
  intro h
  have hmem := h pairEnv pairEnv_injective (leaves.take 4) (pairEnv.combine ⟨1⟩ ⟨2⟩)
    [(pairEnv.combine ⟨3⟩ ⟨4⟩, true)]
  exact absurd (hmem (by decide)) (by decide)

open Sample in
/-- Proofs of two entries are fine for four leaves. -/
theorem verify_sound_four : merkleDepth (leaves.take 4) = 2 ∧
    ∀ proof : List (Hash × Bool), proof.length = 2 →
      verifyMerkleProof pairEnv (computeMerkleRoot pairEnv (leaves.take 4)) ⟨6⟩ proof = true →
        ⟨6⟩ ∈ leaves.take 4 := by
  have hdepth : merkleDepth (leaves.take 4) = 2 := by decide
  refine ⟨hdepth, (verify_sound_iff pairEnv pairEnv_injective (leaves.take 4) ⟨6⟩ 2).2 (.inr ?_)⟩
  rw [OnTree, hdepth, if_pos (Nat.le_refl 2)]
  decide

end Zentra

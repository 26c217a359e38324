import Mathlib.Tactic.DeriveEncodable
import ZentraChain.Lib.Slot
import ZentraChain.Node.Rewards

/-!
# How often a coinbase output is created

Replaying a chain makes of each outpoint a slot: a coinbase of the chain writes it, a merge block's
coinbase is an offer, and a transaction that spends it clears it.

* `payouts_run`: the replay creates an outpoint as often as its slot is set.
* `payouts_nodup_iff`: when no coinbase output is created twice along a replayed chain.
-/

namespace Zentra

/-- The outpoints that the coinbases among a block's transactions create. -/
def Block.coinbaseCreated (E : Env) (b : Block) : List OutPoint :=
  (b.transactions.filter (·.isCoinbase)).flatMap (·.created E)

/-- What a transaction does to the slot of `p`. -/
def Transaction.slotOps (E : Env) (p : OutPoint) (tx : Transaction) : List Slot.Op :=
  if tx.isCoinbase then if p ∈ tx.created E then [.write] else []
  else if p ∈ tx.spent then [.clear] else []

/-- What a merge block does to it. -/
def Block.slotOffer (E : Env) (p : OutPoint) (m : Block) : List Slot.Op :=
  if p ∈ m.coinbaseOutpoints E then [.offer] else []

/-- What a block does to it with its merge blocks. -/
def Block.slotOps (E : Env) (p : OutPoint) (b : Block) (ms : List Block) : List Slot.Op :=
  b.transactions.flatMap (·.slotOps E p) ++ ms.flatMap (·.slotOffer E p)

namespace Dag

/-- The coinbase outpoints created along some blocks, oldest first, if all of them apply. -/
def payouts (E : Env) (d : Dag) : List Hash → UtxoSet → Option (List OutPoint)
  | [], _ => some []
  | h :: hs, u =>
    match d.getBlock h with
    | none => none
    | some b =>
      match u.applyBlockWithMerges E b (d.mergeBlocks (b.hash E)) with
      | (_, .error _) => none
      | (u', .ok undo) =>
        (payouts E d hs u').map (b.coinbaseCreated E ++ undo.mergeCoinbases ++ ·)

/-- What some blocks do to the slot of `p`. -/
def slotOps (E : Env) (d : Dag) (p : OutPoint) (hs : List Hash) : List Slot.Op :=
  (hs.filterMap d.getBlock).flatMap fun b => b.slotOps E p (d.mergeBlocks (b.hash E))

end Dag

/-- An output of a coinbase. -/
def IsCoinbaseOutpoint (E : Env) (p : OutPoint) : Prop :=
  ∃ cb : Transaction, cb.isCoinbase = true ∧ p ∈ cb.created E

variable {E : Env} {p : OutPoint} {u u' : UtxoSet} {height : Nat} {b m : Block} {ms : List Block}

/-- With injective hashes no other transaction creates it. -/
theorem IsCoinbaseOutpoint.not_created (hinj : Function.Injective E.hashTx)
    (hp : IsCoinbaseOutpoint E p) {tx : Transaction} (htx : tx.isCoinbase = false) :
    p ∉ tx.created E := by
  obtain ⟨cb, hcb, hpc⟩ := hp
  intro hm
  have he : tx = cb := hinj ((Transaction.mem_created hm).symm.trans (Transaction.mem_created hpc))
  rw [he, hcb] at htx
  cases htx

theorem isCoinbaseOutpoint_of_mem (h : p ∈ m.coinbaseOutpoints E) : IsCoinbaseOutpoint E p := by
  unfold Block.coinbaseOutpoints Block.coinbase? at h
  split at h
  · split at h
    · exact ⟨_, ‹_›, h⟩
    · cases h
  · cases h

theorem isCoinbaseOutpoint_of_created (h : p ∈ b.coinbaseCreated E) : IsCoinbaseOutpoint E p := by
  obtain ⟨tx, htx, hp⟩ := List.mem_flatMap.1 h
  exact ⟨tx, by simpa using (List.mem_filter.1 htx).2, hp⟩

namespace UtxoSet

/-! ## One block -/

theorem applyTransaction_run {tx : Transaction} {d : TxUndoData}
    (h : u.applyTransaction E tx height = (u', .ok d))
    (hreg : tx.isCoinbase = false → p ∉ tx.created E) :
    Slot.Run (u.getUtxo p).isSome (tx.slotOps E p)
      ((if tx.isCoinbase then tx.created E else []).count p) (u'.getUtxo p).isSome := by
  have ha := applyTransaction_ok h
  unfold Transaction.slotOps
  cases hc : tx.isCoinbase with
  | true =>
    rw [if_pos rfl, if_pos rfl]
    by_cases hp : p ∈ tx.created E
    · obtain ⟨e, he, -⟩ := ha.new p hp
      have hnd : (tx.created E).Nodup := Transaction.standardOutpoints_nodup _ _ _
      rw [if_pos hp, List.count_eq_one_of_mem hnd hp, he]
      exact .write .nil
    · rw [if_neg hp, List.count_eq_zero_of_not_mem hp, ha.keep p hp, Transaction.spent_coinbase hc,
        if_neg List.not_mem_nil]
      exact .nil
  | false =>
    rw [if_neg Bool.false_ne_true, if_neg Bool.false_ne_true, List.count_nil, ha.keep p (hreg hc)]
    by_cases hs : p ∈ tx.spent
    · obtain ⟨e, he⟩ : ∃ e, u.getUtxo p = some e := by
        have hcons : applyTransactions E height [tx] u = (u', .ok [d]) := by
          simp only [applyTransactions, h]
        exact firstTouch_spent_mem hcons (by rw [firstTouch, if_pos hs])
      rw [if_pos hs, if_pos hs, he]
      exact .clear .nil
    · rw [if_neg hs, if_neg hs]
      exact .nil

theorem applyTransactions_run : ∀ {txs : List Transaction} {u u' : UtxoSet}
    {ds : List TxUndoData}, applyTransactions E height txs u = (u', .ok ds) →
      (∀ tx ∈ txs, tx.isCoinbase = false → p ∉ tx.created E) →
      Slot.Run (u.getUtxo p).isSome (txs.flatMap (·.slotOps E p))
        (((txs.filter (·.isCoinbase)).flatMap (·.created E)).count p) (u'.getUtxo p).isSome
  | [], _, _, _, h, _ => by cases h; exact .nil
  | tx :: txs, u, u', ds, h, hreg => by
    obtain ⟨w, d, ds', h1, h2, -⟩ := applyTransactions_cons_ok h
    have hrun := (applyTransaction_run (p := p) h1 (hreg tx List.mem_cons_self)).append
      (applyTransactions_run h2 fun t ht => hreg t (List.mem_cons_of_mem _ ht))
    rw [List.flatMap_cons]
    rw [← List.count_append] at hrun
    cases hc : tx.isCoinbase with
    | true =>
      rw [hc, if_pos rfl] at hrun
      rw [List.filter_cons_of_pos hc, List.flatMap_cons]
      exact hrun
    | false =>
      rw [hc, if_neg Bool.false_ne_true] at hrun
      rw [List.filter_cons_of_neg (by simp [hc])]
      exact hrun

theorem creditOutputs_sublist (txid : Hash) : ∀ (idx : Nat) (os : List TxOutput) (u : UtxoSet),
    List.Sublist (u.creditOutputs txid height idx os).2 (Transaction.standardOutpoints txid idx os)
  | _, [], _ => .slnil
  | idx, .standard a v s :: os, u => by
    simp only [creditOutputs, Transaction.standardOutpoints]
    split
    · exact (creditOutputs_sublist txid (idx + 1) os u).cons _
    · exact (creditOutputs_sublist txid (idx + 1) os _).cons_cons _
  | idx, .burn v t :: os, u => creditOutputs_sublist txid (idx + 1) os u

/-- A merge coinbase is credited output by output, each once. -/
theorem applyMergeCoinbase_nodup (u : UtxoSet) (m : Block) (height : Nat) :
    (u.applyMergeCoinbase E m height).2.Nodup := by
  unfold applyMergeCoinbase
  cases m.coinbase? with
  | none => exact List.nodup_nil
  | some cb =>
    exact (Transaction.standardOutpoints_nodup _ _ _).sublist (creditOutputs_sublist _ _ _ _)

theorem applyMergeCoinbase_run (u : UtxoSet) (m : Block) (height : Nat) :
    Slot.Run (u.getUtxo p).isSome (m.slotOffer E p) ((u.applyMergeCoinbase E m height).2.count p)
      ((u.applyMergeCoinbase E m height).1.getUtxo p).isSome := by
  have hmem : p ∈ (u.applyMergeCoinbase E m height).2 ↔
      p ∈ m.coinbaseOutpoints E ∧ u.getUtxo p = none := mem_applyMergeCoinbase
  unfold Block.slotOffer
  by_cases hin : p ∈ (u.applyMergeCoinbase E m height).2
  · obtain ⟨hp, hnone⟩ := hmem.1 hin
    obtain ⟨e, he, -⟩ := applyMergeCoinbase_new hin
    rw [if_pos hp, hnone, he, List.count_eq_one_of_mem (applyMergeCoinbase_nodup u m height) hin]
    exact .offerEmpty .nil
  · rw [List.count_eq_zero_of_not_mem hin, applyMergeCoinbase_keep hin]
    by_cases hp : p ∈ m.coinbaseOutpoints E
    · obtain ⟨e, he⟩ := Option.ne_none_iff_exists'.1 fun hn => hin (hmem.2 ⟨hp, hn⟩)
      rw [if_pos hp, he]
      exact .offerSet .nil
    · rw [if_neg hp]
      exact .nil

theorem creditMerges_run : ∀ (ms : List Block) (u : UtxoSet),
    Slot.Run (u.getUtxo p).isSome (ms.flatMap (·.slotOffer E p)) ((creditMerges E ms u).2.count p)
      ((creditMerges E ms u).1.getUtxo p).isSome
  | [], _ => .nil
  | m :: ms, u => by
    simp only [creditMerges, List.flatMap_cons, List.count_append]
    exact (applyMergeCoinbase_run u m m.header.blueScore).append (creditMerges_run ms _)

end UtxoSet

/-! ## A chain -/

namespace Dag

variable {d : Dag}

/-- **The replay of a chain creates a coinbase output as often as its slot is set.** -/
theorem payouts_run (hinj : Function.Injective E.hashTx) (hp : IsCoinbaseOutpoint E p) :
    ∀ {hs : List Hash} {u : UtxoSet} {ps : List OutPoint}, d.payouts E hs u = some ps →
      ∃ s, Slot.Run (u.getUtxo p).isSome (d.slotOps E p hs) (ps.count p) s
  | [], u, _, h => by
    cases h
    exact ⟨_, .nil⟩
  | h :: hs, u, ps, hps => by
    simp only [payouts] at hps
    split at hps
    · cases hps
    · rename_i b hb
      split at hps
      · cases hps
      · rename_i u' undo happ
        obtain ⟨qs, hqs, rfl⟩ := Option.map_eq_some_iff.1 hps
        obtain ⟨w, ds, hw, rfl, rfl⟩ := UtxoSet.applyBlockWithMerges_ok happ
        obtain ⟨s, hrest⟩ := payouts_run hinj hp hqs
        have hblock := (UtxoSet.applyTransactions_run hw fun tx _ htx =>
          hp.not_created hinj htx).append
            (UtxoSet.creditMerges_run (E := E) (p := p) (d.mergeBlocks (b.hash E)) w)
        refine ⟨s, ?_⟩
        rw [slotOps, List.filterMap_cons, hb]
        simp only [List.flatMap_cons, List.count_append]
        exact hblock.append hrest

/-- Only coinbase outputs are counted. -/
theorem isCoinbaseOutpoint_of_payouts : ∀ {hs : List Hash} {u : UtxoSet} {ps : List OutPoint},
    d.payouts E hs u = some ps → p ∈ ps → IsCoinbaseOutpoint E p
  | [], _, _, h, hp => by cases h; cases hp
  | h :: hs, u, ps, hps, hp => by
    simp only [payouts] at hps
    split at hps
    · cases hps
    · split at hps
      · cases hps
      · rename_i u' undo happ
        obtain ⟨qs, hqs, rfl⟩ := Option.map_eq_some_iff.1 hps
        obtain ⟨w, ds, -, -, rfl⟩ := UtxoSet.applyBlockWithMerges_ok happ
        rcases List.mem_append.1 hp with hp | hp
        · rcases List.mem_append.1 hp with hp | hp
          · exact isCoinbaseOutpoint_of_created hp
          · obtain ⟨m, -, hpm⟩ := List.mem_flatMap.1 (UtxoSet.mem_creditMerges.1 hp).1
            exact isCoinbaseOutpoint_of_mem hpm
        · exact isCoinbaseOutpoint_of_payouts hqs hp

/-- Only they are written or offered. -/
theorem isCoinbaseOutpoint_of_slotOps {hs : List Hash} {op : Slot.Op} (h : op ∈ d.slotOps E p hs)
    (hop : op ≠ .clear) : IsCoinbaseOutpoint E p := by
  obtain ⟨b, -, hb⟩ := List.mem_flatMap.1 h
  rcases List.mem_append.1 hb with hm | hm
  · obtain ⟨tx, -, htx⟩ := List.mem_flatMap.1 hm
    unfold Transaction.slotOps at htx
    split_ifs at htx with hc hp hs
    · exact ⟨tx, hc, hp⟩
    · cases htx
    · exact absurd (List.mem_singleton.1 htx) hop
    · cases htx
  · obtain ⟨m, -, hmm⟩ := List.mem_flatMap.1 hm
    unfold Block.slotOffer at hmm
    split_ifs at hmm with hp
    · exact isCoinbaseOutpoint_of_mem hp
    · cases hmm

/-- **No coinbase output is created twice along a replayed chain** exactly when no chain block's
coinbase pays an output that was paid or offered before, and no merge block offers one that was
spent before. -/
theorem payouts_nodup_iff (E : Env) (d : Dag) (hs : List Hash) (ps : List OutPoint)
    (hinj : Function.Injective E.hashTx) (h : d.payouts E hs .empty = some ps) :
    ps.Nodup ↔ ∀ p, (d.slotOps E p hs).Pairwise fun x y => ¬Slot.Repeats x y := by
  rw [List.nodup_iff_count_le_one]
  refine forall_congr' fun p => ?_
  by_cases hp : IsCoinbaseOutpoint E p
  · obtain ⟨s, hrun⟩ := payouts_run hinj hp h
    exact hrun.le_one_iff
  · have hnot : p ∉ ps := fun hm => hp (isCoinbaseOutpoint_of_payouts h hm)
    rw [List.count_eq_zero_of_not_mem hnot]
    refine ⟨fun _ => Slot.pairwise_of_clears (fun hm => hp ?_) fun hm => hp ?_, fun _ => by omega⟩
    · exact isCoinbaseOutpoint_of_slotOps hm nofun
    · exact isCoinbaseOutpoint_of_slotOps hm nofun

end Dag

/-! ## A network with injective hashes -/

namespace Sample

deriving instance Encodable for Hash, NetworkType, BurnType, TransactionType, LaneId, Address

instance encodableUInt8 : Encodable UInt8 :=
  .ofLeftInjection UInt8.toNat (fun n => some (UInt8.ofNat n)) (by simp)

instance encodableAmount : Encodable Amount :=
  .ofLeftInjection Amount.zents (fun n => if h : n ≤ u64Max then some ⟨n, h⟩ else none)
    fun a => dif_pos a.le_max

deriving instance Encodable for TxInput, TxOutput, Transaction, Header

/-- The hash `f` on the entries of a table, and above the bound an encoding of the others. -/
def pinned {α : Type} [DecidableEq α] [Encodable α] (table : List α) (f : α → Nat) (bound : Nat)
    (x : α) : Hash :=
  ⟨if x ∈ table then f x else bound + Encodable.encode x⟩

theorem pinned_injective {α : Type} [DecidableEq α] [Encodable α] {table : List α} {f : α → Nat}
    {bound : Nat} (hf : ∀ x ∈ table, f x < bound) (hn : (table.map f).Nodup) :
    Function.Injective (pinned table f bound) := by
  intro x y h
  have h : (if x ∈ table then f x else bound + Encodable.encode x) =
      if y ∈ table then f y else bound + Encodable.encode y := congrArg Hash.val h
  split_ifs at h with hx hy hy
  · exact List.inj_on_of_nodup_map hn hx hy h
  · have := hf x hx
    omega
  · have := hf y hy
    omega
  · exact Encodable.encode_injective (Nat.add_left_cancel h)

/-- The blocks of the run. -/
def twice : List Block := [first, side, merging, again]

/-- The sample network with injective hashes that agree with its own on the run. -/
def injEnv : Env :=
  let blocks := .genesis env :: twice
  { env with
    hashTx := pinned (blocks.flatMap (·.transactions)) (fun tx => 1000 + tx.lockTime) 2000
    hashHeader := pinned (blocks.map (·.header)) (fun h => 1 + h.nonce) 1000 }

theorem injEnv_hashTx : Function.Injective injEnv.hashTx :=
  pinned_injective (by decide +kernel) (by decide +kernel)

theorem injEnv_hashHeader : Function.Injective injEnv.hashHeader :=
  pinned_injective (by decide +kernel) (by decide +kernel)

/-- A node of the injective network after some peer blocks. -/
def injRun (blocks : List Block) : Node := accept injEnv (.new injEnv .empty) blocks

end Sample

open Sample in
/-- The coinbase of `side` is credited, spent and credited again. -/
theorem merge_credits_twice :
    ¬∀ (E : Env) (n : Node) (tip : Hash) (ps : List OutPoint), Function.Injective E.hashTx →
      Function.Injective E.hashHeader → n.Reachable E →
      n.dag.payouts E (n.dag.getSelectedChain tip).reverse .empty = some ps → ps.Nodup := by
  intro h
  have hn : (injRun twice).Reachable injEnv := reachable_accept .refl twice
  have hps : (injRun twice).dag.payouts injEnv
      ((injRun twice).dag.getSelectedChain ⟨5⟩).reverse .empty =
        some [⟨⟨1000⟩, 0⟩, ⟨⟨1001⟩, 0⟩, ⟨⟨1003⟩, 0⟩, ⟨⟨1002⟩, 0⟩, ⟨⟨1004⟩, 0⟩, ⟨⟨1002⟩, 0⟩] := by
    decide +kernel
  exact absurd (h _ _ _ _ injEnv_hashTx injEnv_hashHeader hn hps) (by decide)

open Sample in
theorem payouts_nodup_merging :
    [⟨⟨1000⟩, 0⟩, ⟨⟨1001⟩, 0⟩, ⟨⟨1003⟩, 0⟩, (⟨⟨1002⟩, 0⟩ : OutPoint)].Nodup ↔
      ∀ p, ((injRun [first, side, merging]).dag.slotOps injEnv p [⟨1⟩, ⟨2⟩, ⟨4⟩]).Pairwise
        fun x y => ¬Slot.Repeats x y :=
  Dag.payouts_nodup_iff injEnv (injRun [first, side, merging]).dag [⟨1⟩, ⟨2⟩, ⟨4⟩] _ injEnv_hashTx
    (by decide +kernel)

end Zentra

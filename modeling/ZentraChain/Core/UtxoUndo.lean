import ZentraChain.Core.Utxo

/-!
# Undoing a block

What disconnecting a block leaves at an outpoint is decided by the block's first transaction that
touches it: an outpoint first spent gets its entry back, one first created ends up absent.

* `undoTransactions_lookup`: the law above for a block's transactions, from any set.
* `applyTransactions_lookup`: applying is decided by the last touch instead.
* `disconnectBlock_lookup`, `disconnectBlock_burned`: the set after an apply (with merge blocks)
  and a disconnect; `UndoSafe` is when it is the set before (`disconnectBlock_eq_iff`).
* `disconnectBlock_le`: it is always below the set before, and `disconnectBlock_mono`:
  disconnecting is monotone.
-/

namespace Zentra

/-- What a list of transactions does to an outpoint. -/
inductive Touch
  | untouched
  | spent
  | created
  deriving DecidableEq

namespace UtxoSet

variable (E : Env) (p : OutPoint)

/-- The first thing done to `p`; a transaction spends before it creates. -/
def firstTouch : List Transaction → Touch
  | [] => .untouched
  | tx :: txs =>
    if p ∈ tx.spent then .spent else if p ∈ tx.created E then .created else firstTouch txs

/-- The last thing done to `p`. -/
def lastTouch : List Transaction → Touch
  | [] => .untouched
  | tx :: txs =>
    match lastTouch txs with
    | .untouched =>
      if p ∈ tx.created E then .created else if p ∈ tx.spent then .spent else .untouched
    | t => t

variable {E p}
variable {u u' v w : UtxoSet} {height : Nat} {b : Block} {merges : List Block}
  {undo : BlockUndoData}

theorem firstTouch_untouched : ∀ {txs : List Transaction},
    firstTouch E p txs = .untouched ↔ ∀ tx ∈ txs, p ∉ tx.spent ∧ p ∉ tx.created E
  | [] => by simp [firstTouch]
  | tx :: txs => by
    have ih : firstTouch E p txs = .untouched ↔ _ := firstTouch_untouched
    simp only [firstTouch, List.forall_mem_cons]
    split_ifs <;> simp_all

theorem lastTouch_untouched : ∀ {txs : List Transaction},
    lastTouch E p txs = .untouched ↔ ∀ tx ∈ txs, p ∉ tx.spent ∧ p ∉ tx.created E
  | [] => by simp [lastTouch]
  | tx :: txs => by
    have ih : lastTouch E p txs = .untouched ↔ _ := lastTouch_untouched
    simp only [lastTouch, List.forall_mem_cons]
    rw [← ih]
    cases lastTouch E p txs <;> simp
    split_ifs <;> simp_all

/-! ## Applying -/

/-- The set after a block's transactions: the last touch decides. -/
theorem applyTransactions_lookup : ∀ {txs : List Transaction} {u u' : UtxoSet}
    {ds : List TxUndoData}, applyTransactions E height txs u = (u', .ok ds) →
      match lastTouch E p txs with
      | .untouched => u'.getUtxo p = u.getUtxo p
      | .spent => u'.getUtxo p = none
      | .created => ∃ e, u'.getUtxo p = some e
  | [], _, _, _, h => by cases h; rfl
  | tx :: txs, u, u', ds, h => by
    obtain ⟨w, d, ds', h1, h2, -⟩ := applyTransactions_cons_ok h
    have ih := applyTransactions_lookup h2
    have ha := applyTransaction_ok h1
    simp only [lastTouch]
    cases ht : lastTouch E p txs with
    | spent => rw [ht] at ih; exact ih
    | created => rw [ht] at ih; exact ih
    | untouched =>
      rw [ht] at ih
      simp only at ih ⊢
      split_ifs with hc hs
      · obtain ⟨e, he, -⟩ := ha.new p hc
        exact ⟨e, ih.trans he⟩
      · simp only [ih, ha.keep p hc, if_pos hs]
      · simp only [ih, ha.keep p hc, if_neg hs]

/-- An outpoint that is spent first was there. -/
theorem firstTouch_spent_mem : ∀ {txs : List Transaction} {u u' : UtxoSet}
    {ds : List TxUndoData}, applyTransactions E height txs u = (u', .ok ds) →
      firstTouch E p txs = .spent → ∃ e, u.getUtxo p = some e
  | [], _, _, _, _, ht => by cases ht
  | tx :: txs, u, u', ds, h, ht => by
    obtain ⟨w, d, ds', h1, h2, -⟩ := applyTransactions_cons_ok h
    have ha := applyTransaction_ok h1
    simp only [firstTouch] at ht
    split_ifs at ht with hs hc
    · cases hcb : tx.isCoinbase with
      | true => rw [Transaction.spent_coinbase hcb] at hs; cases hs
      | false =>
        rw [Transaction.spent_regular hcb] at hs
        obtain ⟨i, hi, rfl⟩ := List.mem_map.1 hs
        have hin := ha.inputs
        rw [hcb] at hin
        have hmem : u.getUtxo i.outpoint ∈ d.inputsUndo.map some :=
          hin ▸ List.mem_map_of_mem (f := fun i' => u.getUtxo i'.outpoint) hi
        obtain ⟨e, -, he⟩ := List.mem_map.1 hmem
        exact ⟨e, he.symm⟩
    · obtain ⟨e, he⟩ := firstTouch_spent_mem h2 ht
      rw [ha.keep p hc, if_neg hs] at he
      exact ⟨e, he⟩

/-! ## Undoing one transaction -/

theorem removeOutputs_lookup (txid : Hash) : ∀ (idx : Nat) (os : List TxOutput) (u : UtxoSet),
    (u.removeOutputs txid idx os).getUtxo p =
      if p ∈ Transaction.standardOutpoints txid idx os then none else u.getUtxo p
  | _, [], _ => by simp [removeOutputs, Transaction.standardOutpoints]
  | idx, .standard a v s :: os, u => by
    rw [removeOutputs, removeOutputs_lookup txid (idx + 1) os, getUtxo_erase,
      Transaction.standardOutpoints]
    simp only [List.mem_cons]
    split_ifs <;> simp_all
  | idx, .burn v t :: os, u => removeOutputs_lookup txid (idx + 1) os _

/-- Restoring inputs with the entries they had in `u` gives these back. -/
theorem restoreInputs_lookup : ∀ {is : List TxInput} {es : List UtxoEntry} {v : UtxoSet},
    is.map (fun i => u.getUtxo i.outpoint) = es.map some →
      (v.restoreInputs (is.zip es)).getUtxo p =
        if p ∈ is.map (·.outpoint) then u.getUtxo p else v.getUtxo p
  | [], _, v, _ => by simp [restoreInputs]
  | i :: is, [], v, h => by simp at h
  | i :: is, e :: es, v, h => by
    simp only [List.map_cons, List.cons.injEq] at h
    have ih := restoreInputs_lookup (v := v.insert i.outpoint e) h.2
    simp only [restoreInputs, List.zip_cons_cons, List.foldl_cons] at ih ⊢
    rw [ih, getUtxo_insert, List.map_cons]
    simp only [List.mem_cons]
    by_cases h1 : p ∈ is.map (·.outpoint)
    · simp [h1]
    · by_cases h2 : p = i.outpoint
      · subst h2; simp [h1, h.1]
      · simp [h1, h2]

/-- Undoing a transaction that was applied to `u`, in any set: its inputs have their entries in `u`,
its other outputs are gone. -/
theorem undoTransaction_lookup {tx : Transaction} {d : TxUndoData}
    (h : Applied E u tx height d u') :
    (v.undoTransaction E tx d).getUtxo p =
      if p ∈ tx.spent then u.getUtxo p
      else if p ∈ tx.created E then none else v.getUtxo p := by
  unfold undoTransaction
  have hin := h.inputs
  cases hc : tx.isCoinbase with
  | true =>
    rw [hc] at hin
    have hd : d.inputsUndo = [] := by simpa using hin.symm
    rw [hd, List.zip_nil_right, Transaction.spent_coinbase hc]
    simp only [restoreInputs, List.foldl_nil, List.not_mem_nil, if_false]
    exact removeOutputs_lookup _ _ _ _
  | false =>
    rw [hc] at hin
    rw [restoreInputs_lookup (by simpa using hin), Transaction.spent_regular hc]
    split_ifs with h1 h2
    · rfl
    · rw [removeOutputs_lookup]; exact if_pos h2
    · rw [removeOutputs_lookup]; exact if_neg h2

/-! ## Undoing a block -/

/-- The loop of `disconnect_block` over the transactions, last first. -/
def undoTransactions (E : Env) (txs : List Transaction) (ds : List TxUndoData) (u : UtxoSet) :
    UtxoSet :=
  (txs.zip ds).reverse.foldl (fun u t => u.undoTransaction E t.1 t.2) u

theorem undoTransactions_cons (tx : Transaction) (txs : List Transaction) (d : TxUndoData)
    (ds : List TxUndoData) (u : UtxoSet) :
    undoTransactions E (tx :: txs) (d :: ds) u =
      (undoTransactions E txs ds u).undoTransaction E tx d := by
  simp [undoTransactions, List.foldl_append]

/-- Undoing transactions that were applied to `u`, in any set: the first touch decides. -/
theorem undoTransactions_lookup : ∀ {txs : List Transaction} {u u' v : UtxoSet}
    {ds : List TxUndoData}, applyTransactions E height txs u = (u', .ok ds) →
      (undoTransactions E txs ds v).getUtxo p =
        match firstTouch E p txs with
        | .untouched => v.getUtxo p
        | .spent => u.getUtxo p
        | .created => none
  | [], _, _, _, _, h => by cases h; rfl
  | tx :: txs, u, u', v, ds, h => by
    obtain ⟨w, d, ds', h1, h2, rfl⟩ := applyTransactions_cons_ok h
    have ih := undoTransactions_lookup (v := v) h2
    have ha := applyTransaction_ok h1
    rw [undoTransactions_cons, undoTransaction_lookup ha]
    simp only [firstTouch]
    split_ifs with hs hc
    · rfl
    · rfl
    · rw [ih]
      cases firstTouch E p txs with
      | untouched => rfl
      | created => rfl
      | spent => simp only [ha.keep p hc, if_neg hs]

/-! ## The burn counter -/

theorem addOutputs_burned (txid : Hash) (cb : Bool) :
    ∀ (idx : Nat) (os : List TxOutput) (u : UtxoSet),
      (u.addOutputs txid height cb idx os).totalBurned.zents =
        min (u.totalBurned.zents + ((os.filter (·.isBurn)).map (·.amount.zents)).sum) u64Max
  | _, [], u => by simp [addOutputs, u.totalBurned.le_max]
  | idx, .standard a v s :: os, u => by
    rw [addOutputs, addOutputs_burned txid cb (idx + 1) os, insert_totalBurned]
    rfl
  | idx, .burn v t :: os, u => by
    rw [addOutputs, addOutputs_burned txid cb (idx + 1) os]
    have hf : (TxOutput.burn v t :: os).filter (·.isBurn) =
        .burn v t :: os.filter (·.isBurn) := rfl
    rw [hf, List.map_cons, List.sum_cons]
    simp only [Amount.saturatingAdd_zents, TxOutput.amount, satAdd, Saturating.add]
    omega

theorem spendInputs_totalBurned : ∀ (is : List TxInput) (u : UtxoSet),
    (u.spendInputs is).1.totalBurned = u.totalBurned
  | [], _ => rfl
  | i :: is, u => by
    have ih := spendInputs_totalBurned is (u.erase i.outpoint)
    simp only [spendInputs]
    split
    · rfl
    · split <;> rename_i hr <;> rw [hr] at ih <;> exact ih

theorem applyTransaction_burned {tx : Transaction} {d : TxUndoData}
    (h : u.applyTransaction E tx height = (u', .ok d)) :
    u'.totalBurned.zents = min (u.totalBurned.zents + tx.burnTotal) u64Max := by
  unfold applyTransaction at h
  split at h
  · cases h
  · rename_i w es hs
    cases h
    have hw : w.totalBurned = u.totalBurned := by
      split at hs
      · cases hs; rfl
      · have := spendInputs_totalBurned tx.inputs u
        rw [hs] at this
        exact this
    rw [addOutputs_burned, hw, Transaction.burnTotal]

theorem applyTransactions_burned : ∀ {txs : List Transaction} {u u' : UtxoSet}
    {ds : List TxUndoData}, applyTransactions E height txs u = (u', .ok ds) →
      u'.totalBurned.zents =
        min (u.totalBurned.zents + (txs.map (·.burnTotal)).sum) u64Max
  | [], u, _, _, h => by cases h; simp [u.totalBurned.le_max]
  | tx :: txs, u, u', ds, h => by
    obtain ⟨w, d, ds', h1, h2, -⟩ := applyTransactions_cons_ok h
    rw [applyTransactions_burned h2, applyTransaction_burned h1, List.map_cons, List.sum_cons]
    omega

theorem removeOutputs_burned (txid : Hash) : ∀ (idx : Nat) (os : List TxOutput) (u : UtxoSet),
    (u.removeOutputs txid idx os).totalBurned.zents =
      u.totalBurned.zents - ((os.filter (·.isBurn)).map (·.amount.zents)).sum
  | _, [], u => by simp [removeOutputs]
  | idx, .standard a v s :: os, u => by
    rw [removeOutputs, removeOutputs_burned txid (idx + 1) os, erase_totalBurned]
    rfl
  | idx, .burn v t :: os, u => by
    rw [removeOutputs, removeOutputs_burned txid (idx + 1) os]
    have hf : (TxOutput.burn v t :: os).filter (·.isBurn) =
        .burn v t :: os.filter (·.isBurn) := rfl
    rw [hf, List.map_cons, List.sum_cons]
    simp only [Amount.saturatingSub_zents, TxOutput.amount]
    omega

theorem restoreInputs_totalBurned : ∀ (l : List (TxInput × UtxoEntry)) (u : UtxoSet),
    (u.restoreInputs l).totalBurned = u.totalBurned
  | [], _ => rfl
  | s :: l, u => restoreInputs_totalBurned l (u.insert s.1.outpoint s.2)

theorem undoTransaction_burned (tx : Transaction) (d : TxUndoData) (u : UtxoSet) :
    (u.undoTransaction E tx d).totalBurned.zents = u.totalBurned.zents - tx.burnTotal := by
  rw [undoTransaction, restoreInputs_totalBurned, removeOutputs_burned, Transaction.burnTotal]

theorem undoTransactions_burned : ∀ {txs : List Transaction} {ds : List TxUndoData} (u : UtxoSet),
    txs.length = ds.length → (undoTransactions E txs ds u).totalBurned.zents =
      u.totalBurned.zents - (txs.map (·.burnTotal)).sum
  | [], ds, u, _ => by simp [undoTransactions]
  | tx :: txs, [], u, h => by simp at h
  | tx :: txs, d :: ds, u, h => by
    have ih : (undoTransactions E txs ds u).totalBurned.zents = _ :=
      undoTransactions_burned u (by simpa using h)
    rw [undoTransactions_cons, undoTransaction_burned, ih, List.map_cons, List.sum_cons]
    omega

/-! ## Disconnecting a block -/

theorem disconnectBlock_of_length (h : b.transactions.length = undo.txsUndo.length) :
    u.disconnectBlock E b undo = .ok (undo.mergeCoinbases.foldl (fun u p => u.erase p)
      (undoTransactions E b.transactions undo.txsUndo u)) := by
  simp [disconnectBlock, h, undoTransactions]

/-- Disconnecting a block that was applied with its merge blocks succeeds. -/
theorem disconnectBlock_ok (h : u.applyBlockWithMerges E b merges = (u', .ok undo)) :
    ∃ v, u'.disconnectBlock E b undo = .ok v := by
  obtain ⟨w, ds, h1, rfl, rfl⟩ := applyBlockWithMerges_ok h
  exact ⟨_, disconnectBlock_of_length (applyTransactions_length h1)⟩

/-- **The set after an apply and a disconnect.** -/
theorem disconnectBlock_lookup (h : u.applyBlockWithMerges E b merges = (u', .ok undo))
    (hd : u'.disconnectBlock E b undo = .ok v) (p : OutPoint) :
    v.getUtxo p =
      if p ∈ undo.mergeCoinbases ∨ firstTouch E p b.transactions = .created then none
      else u.getUtxo p := by
  obtain ⟨w, ds, h1, rfl, rfl⟩ := applyBlockWithMerges_ok h
  rw [disconnectBlock_of_length (applyTransactions_length h1)] at hd
  cases hd
  rw [getUtxo_foldl_erase]
  by_cases hp : p ∈ (creditMerges E merges w).2
  · simp [hp]
  · rw [if_neg hp, undoTransactions_lookup h1, creditMerges_keep hp]
    cases ht : firstTouch E p b.transactions with
    | created => simp
    | spent => simp [hp]
    | untouched =>
      -- untouched throughout, so the last touch agrees
      have hl := applyTransactions_lookup (p := p) h1
      rw [lastTouch_untouched.2 (firstTouch_untouched.1 ht)] at hl
      simp only at hl
      simp [hp, hl]

theorem disconnectBlock_burned (h : u.applyBlockWithMerges E b merges = (u', .ok undo))
    (hd : u'.disconnectBlock E b undo = .ok v) :
    v.totalBurned.zents =
      min (u.totalBurned.zents + b.burnTotal) u64Max - b.burnTotal := by
  obtain ⟨w, ds, h1, rfl, rfl⟩ := applyBlockWithMerges_ok h
  have hlen := applyTransactions_length h1
  rw [disconnectBlock_of_length hlen] at hd
  cases hd
  rw [foldl_erase_totalBurned, undoTransactions_burned _ hlen, creditMerges_totalBurned,
    applyTransactions_burned h1, Block.burnTotal]

/-- What a disconnect restores exactly: no entry of `u` is replaced by an output of the block
(unless the block spends it first), and none that the block spends for good is created again by
a merge coinbase. -/
def UndoSafe (E : Env) (u : UtxoSet) (b : Block) (merges : List Block) : Prop :=
  ∀ p e, u.getUtxo p = some e → firstTouch E p b.transactions ≠ .created ∧
    (lastTouch E p b.transactions = .spent → p ∉ mergeOutpoints E merges)

/-- A merge coinbase recreates an entry of `u` exactly when the block spends it for good. -/
theorem mem_mergeCoinbases_iff {e : UtxoEntry}
    (h : u.applyBlockWithMerges E b merges = (u', .ok undo)) (hu : u.getUtxo p = some e) :
    p ∈ undo.mergeCoinbases ↔
      lastTouch E p b.transactions = .spent ∧ p ∈ mergeOutpoints E merges := by
  obtain ⟨w, ds, h1, rfl, rfl⟩ := applyBlockWithMerges_ok h
  have hl := applyTransactions_lookup (p := p) h1
  rw [mem_creditMerges]
  cases ht : lastTouch E p b.transactions with
  | spent => rw [ht] at hl; simp only at hl; simp [hl]
  | created => rw [ht] at hl; obtain ⟨e', he'⟩ := hl; simp [he']
  | untouched => rw [ht] at hl; simp only at hl; simp [hl, hu]

/-- **Disconnecting inverts applying exactly when it is `UndoSafe`.** -/
theorem disconnectBlock_eq_iff (h : u.applyBlockWithMerges E b merges = (u', .ok undo))
    (hd : u'.disconnectBlock E b undo = .ok v)
    (hb : u.totalBurned.zents + b.burnTotal ≤ u64Max) :
    v = u ↔ UndoSafe E u b merges := by
  constructor
  · rintro rfl p e hp
    have hl := disconnectBlock_lookup h hd p
    have hno : ¬(p ∈ undo.mergeCoinbases ∨ firstTouch E p b.transactions = .created) := by
      intro hc
      rw [if_pos hc, hp] at hl
      cases hl
    obtain ⟨h1, h2⟩ := not_or.1 hno
    rw [mem_mergeCoinbases_iff h hp, not_and] at h1
    exact ⟨h2, h1⟩
  · intro hs
    refine ext (fun p => ?_) (Amount.ext ?_)
    · rw [disconnectBlock_lookup h hd p]
      cases hp : u.getUtxo p with
      | none => split <;> rfl
      | some e =>
        obtain ⟨h1, h2⟩ := hs p e hp
        rw [if_neg]
        rw [mem_mergeCoinbases_iff h hp, not_or, not_and]
        exact ⟨h2, h1⟩
    · rw [disconnectBlock_burned h hd, Nat.min_eq_left hb, Nat.add_sub_cancel]

/-! ## The order on UTXO sets -/

/-- Every entry of `u` is one of `v`, and `u` counts no more burns. -/
def Le (u v : UtxoSet) : Prop :=
  (∀ p e, u.getUtxo p = some e → v.getUtxo p = some e) ∧
    u.totalBurned.zents ≤ v.totalBurned.zents

theorem Le.refl (u : UtxoSet) : Le u u := ⟨Finmap.Sub.refl _, Nat.le_refl _⟩

theorem Le.trans (h₁ : Le u v) (h₂ : Le v w) : Le u w :=
  ⟨Finmap.Sub.trans h₁.1 h₂.1, Nat.le_trans h₁.2 h₂.2⟩

/-- An apply and a disconnect lose entries at most. -/
theorem disconnectBlock_le (h : u.applyBlockWithMerges E b merges = (u', .ok undo))
    (hd : u'.disconnectBlock E b undo = .ok v) : Le v u := by
  refine ⟨fun p e hp => ?_, ?_⟩
  · rw [disconnectBlock_lookup h hd p] at hp
    split at hp
    · cases hp
    · exact hp
  · rw [disconnectBlock_burned h hd]
    omega

theorem Le.erase (h : Le u v) (p : OutPoint) : Le (u.erase p) (v.erase p) :=
  ⟨Finmap.Sub.erase h.1 p, h.2⟩

theorem Le.insert (h : Le u v) (p : OutPoint) (e : UtxoEntry) :
    Le (u.insert p e) (v.insert p e) := ⟨Finmap.Sub.insert h.1 p e, h.2⟩

theorem Le.foldl_erase : ∀ (ps : List OutPoint) {u v : UtxoSet}, Le u v →
    Le (ps.foldl (fun u p => u.erase p) u) (ps.foldl (fun u p => u.erase p) v)
  | [], _, _, h => h
  | p :: ps, _, _, h => Le.foldl_erase ps (h.erase p)

theorem Le.removeOutputs (txid : Hash) : ∀ (idx : Nat) (os : List TxOutput) {u v : UtxoSet},
    Le u v → Le (u.removeOutputs txid idx os) (v.removeOutputs txid idx os)
  | _, [], _, _, h => h
  | idx, .standard _ _ _ :: os, _, _, h => Le.removeOutputs txid (idx + 1) os (h.erase _)
  | idx, .burn a _ :: os, _, _, h =>
    Le.removeOutputs txid (idx + 1) os ⟨h.1, Nat.sub_le_sub_right h.2 a.zents⟩

theorem Le.restoreInputs : ∀ (l : List (TxInput × UtxoEntry)) {u v : UtxoSet}, Le u v →
    Le (u.restoreInputs l) (v.restoreInputs l)
  | [], _, _, h => h
  | s :: l, _, _, h => Le.restoreInputs l (h.insert s.1.outpoint s.2)

theorem Le.foldl_undo : ∀ (l : List (Transaction × TxUndoData)) {u v : UtxoSet}, Le u v →
    Le (l.foldl (fun u t => u.undoTransaction E t.1 t.2) u)
      (l.foldl (fun u t => u.undoTransaction E t.1 t.2) v)
  | [], _, _, h => h
  | t :: l, _, _, h => Le.foldl_undo l ((h.removeOutputs _ 0 t.1.outputs).restoreInputs _)

/-- Disconnecting is monotone. -/
theorem disconnectBlock_mono (h : Le u v) (hd : v.disconnectBlock E b undo = .ok w) :
    ∃ w', u.disconnectBlock E b undo = .ok w' ∧ Le w' w := by
  unfold disconnectBlock at hd ⊢
  split at hd
  · cases hd
  · cases hd
    rw [if_neg ‹_›]
    exact ⟨_, rfl, Le.foldl_erase _ (Le.foldl_undo _ h)⟩

end UtxoSet

end Zentra

import ZentraChain.Core.Mempool
import ZentraChain.Lib.FinmapSum
import ZentraChain.Lib.Runs

/-!
# The indexes of the mempool

* `Mempool.Wf.step`: the priority index and the spent outpoints stay those of the pooled
  transactions.
* `Mempool.Wf.top`, `Mempool.indexes_run`: a block is offered the highest fee rates, in order.
-/

namespace Zentra

namespace Mempool

variable {E : Env} {m m' : Mempool} {tx : Transaction} {fee : Amount} {now rate : Nat}
  {k x : Nat × Hash} {id txid : Hash} {index : List (Nat × Hash)} {e e' : MempoolEntry}
  {p : OutPoint}

/-! ## The order of the index -/

/-- A higher fee rate comes first, then a lower id. -/
def Before (a b : Nat × Hash) : Prop := b.1 < a.1 ∨ (a.1 = b.1 ∧ a.2 ≤ b.2)

instance : DecidableRel Before := fun _ _ => inferInstanceAs (Decidable (_ ∨ _))

instance : Std.Total Before where
  total a b := by
    rcases lt_trichotomy a.1 b.1 with h | h | h
    · exact .inr (.inl h)
    · rcases le_total a.2 b.2 with h' | h'
      · exact .inl (.inr ⟨h, h'⟩)
      · exact .inr (.inr ⟨h.symm, h'⟩)
    · exact .inl (.inl h)

instance : IsTrans (Nat × Hash) Before where
  trans a b c hab hbc := by
    rcases hab with h | ⟨h, hid⟩
    · rcases hbc with h' | ⟨h', -⟩
      · exact .inl (h'.trans h)
      · exact .inl (h' ▸ h)
    · rcases hbc with h' | ⟨h', hid'⟩
      · exact .inl (h ▸ h')
      · exact .inr ⟨h.trans h', hid.trans hid'⟩

theorem Before.rate_le {a b : Nat × Hash} (h : Before a b) : b.1 ≤ a.1 := by
  rcases h with h | ⟨h, -⟩ <;> omega

theorem mem_insertKey : x ∈ insertKey k index ↔ x = k ∨ x ∈ index := by
  unfold insertKey
  split_ifs with hk
  · exact ⟨.inr, fun h => h.elim (· ▸ hk) id⟩
  · exact List.mem_orderedInsert _

theorem insertKey_sorted (h : index.Pairwise Before) : (insertKey k index).Pairwise Before := by
  unfold insertKey
  split_ifs
  · exact h
  · exact List.Pairwise.orderedInsert (r := Before) k index h

theorem insertKey_nodup (h : index.Nodup) : (insertKey k index).Nodup := by
  unfold insertKey
  split_ifs with hk
  · exact h
  · exact (List.perm_orderedInsert _ k index).nodup_iff.2 (List.nodup_cons.2 ⟨hk, h⟩)

/-! ## Well-formed pools -/

/-- The three indexes agree. -/
structure Wf (E : Env) (m : Mempool) : Prop where
  /-- An entry is under its transaction's id, with its fee by the byte. -/
  entries : ∀ id e, m.transactions.lookup id = some e →
    e.transaction.txid E = id ∧ e.feeRate = e.fee.zents / max (E.txSize e.transaction) 1
  sorted : m.priorityIndex.Pairwise Before
  nodup : m.priorityIndex.Nodup
  /-- One key for each transaction. -/
  index : ∀ rate id, (rate, id) ∈ m.priorityIndex ↔
    ∃ e, m.transactions.lookup id = some e ∧ e.feeRate = rate
  /-- The inputs that are spent, and by which transaction. -/
  spent : ∀ p id, m.spentOutpoints.lookup p = some id ↔
    ∃ e, m.transactions.lookup id = some e ∧ p ∈ e.transaction.spent
  size : m.size ≤ m.maxSize

theorem Wf.empty (E : Env) (maxSize : Nat) : Wf E ⟨∅, [], ∅, maxSize⟩ where
  entries := by simp
  sorted := .nil
  nodup := .nil
  index := by simp
  spent := by simp
  size := Nat.zero_le _

/-- No two transactions spend the same outpoint. -/
theorem Wf.disjoint (h : Wf E m) (he : m.transactions.lookup id = some e)
    (he' : m.transactions.lookup txid = some e') (hne : id ≠ txid) (hp : p ∈ e.transaction.spent) :
    p ∉ e'.transaction.spent := by
  intro hp'
  have h₁ := (h.spent p id).2 ⟨e, he, hp⟩
  have h₂ := (h.spent p txid).2 ⟨e', he', hp'⟩
  exact hne (Option.some.inj (h₁.symm.trans h₂))

/-- What an added transaction leaves. -/
theorem addTransaction_ok (h : m.addTransaction E now tx fee = .ok m') :
    m.transactions.lookup (tx.txid E) = none ∧ m.size < m.maxSize ∧
      (∀ p ∈ tx.spent, m.spentOutpoints.lookup p = none) ∧
      m' = { m with
        transactions := m.transactions.insert (tx.txid E)
          ⟨tx, fee, fee.zents / max (E.txSize tx) 1, now⟩
        priorityIndex := insertKey (fee.zents / max (E.txSize tx) 1, tx.txid E) m.priorityIndex
        spentOutpoints := tx.spent.foldl (fun s op => s.insert op (tx.txid E))
          m.spentOutpoints } := by
  simp only [addTransaction] at h
  split_ifs at h with hin hfull
  split at h
  · cases h
  · rename_i hnone
    refine ⟨?_, Nat.not_le.1 hfull, ?_, (Except.ok.inj h).symm⟩
    · simpa [contains] using hin
    · simpa using hnone

theorem Wf.add (h : Wf E m) (ha : m.addTransaction E now tx fee = .ok m') : Wf E m' := by
  obtain ⟨hnew, hsize, hfree, rfl⟩ := addTransaction_ok ha
  have hother : ∀ id e, m.transactions.lookup id = some e → id ≠ tx.txid E := by
    intro id e he hid
    rw [hid, hnew] at he
    cases he
  refine ⟨?_, insertKey_sorted h.sorted, insertKey_nodup h.nodup, ?_, ?_, ?_⟩
  · intro id e he
    rw [Finmap.lookup_insert_ite] at he
    split_ifs at he with hid
    · cases he
      exact ⟨hid.symm, rfl⟩
    · exact h.entries id e he
  · intro rate id
    simp only [mem_insertKey, h.index, Finmap.lookup_insert_ite, Prod.mk.injEq]
    by_cases hid : id = tx.txid E
    · subst hid
      simp [hnew, eq_comm]
    · simp [hid]
  · intro p id
    simp only [Finmap.lookup_foldl_insert, Finmap.lookup_insert_ite]
    by_cases hid : id = tx.txid E
    · subst hid
      by_cases hp : p ∈ tx.spent
      · simp [hp]
      · simp [hp, h.spent, hnew]
    · by_cases hp : p ∈ tx.spent
      · have hnone : ¬∃ e, m.transactions.lookup id = some e ∧ p ∈ e.transaction.spent := by
          rw [← h.spent, hfree p hp]
          simp
        simp [hp, hid, Ne.symm hid, hnone]
      · simp [hp, hid, h.spent]
  · have hkeys : (m.transactions.insert (tx.txid E)
        ⟨tx, fee, fee.zents / max (E.txSize tx) 1, now⟩).keys.card ≤ m.size + 1 := by
      have hsub : (m.transactions.insert (tx.txid E)
          ⟨tx, fee, fee.zents / max (E.txSize tx) 1, now⟩).keys ⊆
          insert (tx.txid E) m.transactions.keys := by
        intro x hx
        simpa [Finmap.mem_keys] using hx
      exact (Finset.card_le_card hsub).trans (Finset.card_insert_le _ _)
    exact hkeys.trans hsize

theorem Wf.remove (h : Wf E m) (txid : Hash) : Wf E (m.removeTransaction txid) := by
  unfold removeTransaction
  split
  · exact h
  · rename_i entry hentry
    refine ⟨?_, h.sorted.filter _, h.nodup.filter _, ?_, ?_, ?_⟩
    · intro id e he
      rw [Finmap.lookup_erase_ite] at he
      split_ifs at he
      exact h.entries id e he
    · intro rate id
      simp only [List.mem_filter, h.index, Finmap.lookup_erase_ite]
      by_cases hid : id = txid <;> simp [hid]
    · intro p id
      simp only [Finmap.lookup_foldl_erase, Finmap.lookup_erase_ite]
      by_cases hp : p ∈ entry.transaction.spent
      · by_cases hid : id = txid
        · simp [hp, hid]
        · have hnone : ¬∃ e, m.transactions.lookup id = some e ∧ p ∈ e.transaction.spent := by
            intro hex
            obtain ⟨e, he, hpe⟩ := hex
            exact h.disjoint he hentry hid hpe hp
          simp [hp, hid, hnone]
      · by_cases hid : id = txid
        · simp [hp, hid, h.spent, hentry]
        · simp [hp, hid, h.spent]
    · have hsub : (m.transactions.erase txid).keys.card ≤ m.size := by
        rw [Finmap.keys_erase]
        exact Finset.card_erase_le
      exact hsub.trans h.size

theorem Wf.removeAll (h : Wf E m) (txids : List Hash) :
    Wf E (txids.foldl (fun m txid => m.removeTransaction txid) m) := by
  induction txids generalizing m with
  | nil => exact h
  | cons txid txids ih => exact ih (h.remove txid)

/-! ## Blocks -/

/-- Entries that are as good as any others that are pooled. -/
structure Top (E : Env) (m : Mempool) (n : Nat) (es : List MempoolEntry) : Prop where
  count : es.length = min n m.size
  pooled : ∀ e ∈ es, m.transactions.lookup (e.transaction.txid E) = some e
  distinct : (es.map fun e => e.transaction.txid E).Nodup
  sorted : es.Pairwise fun a b => b.feeRate ≤ a.feeRate
  best : ∀ id e, m.transactions.lookup id = some e → e ∉ es → ∀ e' ∈ es, e.feeRate ≤ e'.feeRate

/-- The entry of a key of the index. -/
theorem Wf.entry (h : Wf E m) (hk : k ∈ m.priorityIndex) :
    ∃ e, m.transactions.lookup k.2 = some e ∧ e.feeRate = k.1 ∧ e.transaction.txid E = k.2 := by
  obtain ⟨e, he, hrate⟩ := (h.index k.1 k.2).1 hk
  exact ⟨e, he, hrate, (h.entries k.2 e he).1⟩

/-- No transaction has two keys. -/
theorem Wf.ids_nodup (h : Wf E m) : (m.priorityIndex.map (·.2)).Nodup := by
  refine h.nodup.map_on ?_
  intro a ha b hb hab
  obtain ⟨e, he, hrate, -⟩ := h.entry ha
  obtain ⟨e', he', hrate', -⟩ := h.entry hb
  rw [hab, he'] at he
  cases he
  exact Prod.ext (hrate.symm.trans hrate') hab

theorem Wf.length (h : Wf E m) : m.priorityIndex.length = m.size := by
  have hset : (m.priorityIndex.map (·.2)).toFinset = m.transactions.keys := by
    ext id
    simp only [List.mem_toFinset, List.mem_map, Finmap.mem_keys, ← Finmap.lookup_isSome,
      Option.isSome_iff_exists]
    constructor
    · intro hex
      obtain ⟨k, hk, rfl⟩ := hex
      obtain ⟨e, he, -⟩ := h.entry hk
      exact ⟨e, he⟩
    · intro hex
      obtain ⟨e, he⟩ := hex
      exact ⟨(e.feeRate, id), (h.index _ _).2 ⟨e, he, rfl⟩, rfl⟩
  rw [Mempool.size, ← hset, List.toFinset_card_of_nodup h.ids_nodup, List.length_map]

/-- The entries of keys of the index. -/
theorem Wf.entriesOf (h : Wf E m) : ∀ {ks : List (Nat × Hash)}, (∀ k ∈ ks, k ∈ m.priorityIndex) →
    ∃ es : List MempoolEntry,
      (ks.filterMap fun k => (m.transactions.lookup k.2).map (·.transaction)) =
        es.map (·.transaction) ∧
      es.map (fun e => (e.feeRate, e.transaction.txid E)) = ks ∧
      ∀ e ∈ es, m.transactions.lookup (e.transaction.txid E) = some e
  | [], _ => ⟨[], rfl, rfl, nofun⟩
  | k :: ks, hks => by
    obtain ⟨e, he, hrate, hid⟩ := h.entry (hks k List.mem_cons_self)
    obtain ⟨es, htxs, hkeys, hpooled⟩ := h.entriesOf fun x hx => hks x (List.mem_cons_of_mem _ hx)
    refine ⟨e :: es, ?_, ?_, ?_⟩
    · rw [List.filterMap_cons_some (b := e.transaction) (by simp [he]), htxs, List.map_cons]
    · rw [List.map_cons, hkeys, hrate, hid]
    · exact List.forall_mem_cons.2 ⟨hid ▸ he, hpooled⟩

/-- **What a block is offered.** The pooled transactions of the highest fee rates, in order. -/
theorem Wf.top (h : Wf E m) (n : Nat) : ∃ es, Top E m n es ∧
    m.getTransactionsForBlock n = es.map (·.transaction) := by
  have hks : ∀ k ∈ m.priorityIndex.take n, k ∈ m.priorityIndex := fun k => List.mem_of_mem_take
  obtain ⟨es, htxs, hkeys, hpooled⟩ := h.entriesOf hks
  refine ⟨es, ⟨?_, hpooled, ?_, ?_, ?_⟩, htxs⟩
  · have hlen := congrArg List.length hkeys
    simpa [h.length] using hlen
  · have hids : es.map (fun e => e.transaction.txid E) =
        (m.priorityIndex.take n).map (·.2) := by rw [← hkeys, List.map_map]; rfl
    rw [hids]
    exact h.ids_nodup.sublist ((List.take_sublist n _).map _)
  · have hsorted : (es.map fun e => (e.feeRate, e.transaction.txid E)).Pairwise Before :=
      hkeys.symm ▸ h.sorted.sublist (List.take_sublist n _)
    exact (List.pairwise_map.1 hsorted).imp Before.rate_le
  · intro id e he hnot e' he'
    have hkey : (e.feeRate, id) ∈ m.priorityIndex := (h.index _ _).2 ⟨e, he, rfl⟩
    have hkey' : (e'.feeRate, e'.transaction.txid E) ∈ m.priorityIndex.take n :=
      hkeys ▸ List.mem_map_of_mem (f := fun e => (e.feeRate, e.transaction.txid E)) he'
    -- the entry of a key that is taken is among the entries
    have hdrop : (e.feeRate, id) ∈ m.priorityIndex.drop n := by
      rw [← List.take_append_drop n m.priorityIndex] at hkey
      rcases List.mem_append.1 hkey with htake | hdrop
      · obtain ⟨x, hx, hxk⟩ := List.mem_map.1 (hkeys.symm ▸ htake)
        have hid : x.transaction.txid E = id := congrArg Prod.snd hxk
        have hlook := hpooled x hx
        rw [hid, he] at hlook
        cases hlook
        exact absurd hx hnot
      · exact hdrop
    have hsorted := h.sorted
    rw [← List.take_append_drop n m.priorityIndex] at hsorted
    exact ((List.pairwise_append.1 hsorted).2.2 _ hkey' _ hdrop).rate_le

/-! ## Runs -/

end Mempool

inductive MempoolCall
  | add (tx : Transaction) (fee : Amount) (now : Nat)
  | remove (txid : Hash)
  | removeConfirmed (txids : List Hash)
  | evictOlderThan (ids : List Hash) (now maxAgeMs : Nat)
  | clear

namespace Mempool

/-- A call; a transaction that is refused changes nothing. -/
def step (E : Env) (m : Mempool) : MempoolCall → Mempool
  | .add tx fee now =>
    match m.addTransaction E now tx fee with
    | .ok m' => m'
    | .error _ => m
  | .remove txid => m.removeTransaction txid
  | .removeConfirmed txids => m.removeConfirmed txids
  | .evictOlderThan ids now maxAgeMs => (evictOlderThan ids now m maxAgeMs).1
  | .clear => m.clear

/-- The indexes agree, no two transactions spend the same outpoint, and a block is offered the
highest fee rates, whatever its size. -/
structure Sound (E : Env) (m : Mempool) : Prop where
  wf : Wf E m
  disjoint : ∀ id id' e e', m.transactions.lookup id = some e →
    m.transactions.lookup id' = some e' → id ≠ id' →
      ∀ p ∈ e.transaction.spent, p ∉ e'.transaction.spent
  block : ∀ n, ∃ es, Top E m n es ∧ m.getTransactionsForBlock n = es.map (·.transaction)

theorem Wf.step (h : Wf E m) (c : MempoolCall) : Wf E (Mempool.step E m c) := by
  cases c with
  | add tx fee now =>
    cases ha : m.addTransaction E now tx fee with
    | error err => simpa [Mempool.step, ha] using h
    | ok m' => simpa [Mempool.step, ha] using h.add ha
  | remove txid => exact h.remove txid
  | removeConfirmed txids => exact h.removeAll txids
  | evictOlderThan ids now maxAgeMs => exact h.removeAll _
  | clear => exact .empty E m.maxSize

/-- **The mempool**, in every run from a new one. -/
theorem indexes_run (E : Env) (maxSize : Nat) (calls : List MempoolCall) :
    Runs.Always (step E) (Sound E) (new maxSize) calls := by
  have hwf : Runs.Always (step E) (Wf E) (new maxSize) calls :=
    Runs.always_of_each (fun _ c h _ => h.step c) (.empty E maxSize) (Runs.each_true calls)
  refine hwf.imp fun m h => ⟨h, ?_, h.top⟩
  intro id id' e e' he he' hne p hp
  exact h.disjoint he he' hne hp

end Mempool

end Zentra

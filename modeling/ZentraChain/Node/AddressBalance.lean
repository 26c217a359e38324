import ZentraChain.Node.AddressHistory
import ZentraChain.Node.Restart

/-!
# The balance of an address and what it received (`rpc.rs`, `utxo.rs`)

`get_address_detail` takes the balance from the UTXO set and what was received from the blocks.

* `Sourced`: every entry of a set is an output of one of some blocks; applying a block with its merge
  blocks keeps it.
* `Wf.stack_sourced`: the set of a chain has outputs of the blocks up to its tip only.
* `balance_le_received`: the balance is at most what the blocks up to the selected tip pay.
-/

namespace Zentra

open Ancestry

namespace UtxoSet

/-- The output at `p` of a transaction of `b` is what the entry says. -/
def OutputOf (E : Env) (b : Block) (p : OutPoint) (e : UtxoEntry) : Prop :=
  ∃ tx ∈ b.transactions, tx.txid E = p.txHash ∧
    ∃ script, tx.outputs[p.index]? = some (.standard e.address e.amount script)

/-- Every entry is an output of one of the blocks `P`. -/
def Sourced (E : Env) (P : Block → Prop) (u : UtxoSet) : Prop :=
  ∀ p e, u.getUtxo p = some e → ∃ b, P b ∧ OutputOf E b p e

variable {E : Env} {P : Block → Prop} {u u' : UtxoSet} {b : Block} {tx : Transaction}
  {p : OutPoint} {e : UtxoEntry} {height : Nat}

/-! ## Outputs -/

/-- The entry at `p` is one of the outputs `os` of a transaction, numbered from `idx`. -/
def InOutputs (txid : Hash) (idx : Nat) (os : List TxOutput) (p : OutPoint) (e : UtxoEntry) : Prop :=
  ∃ i script, p = ⟨txid, idx + i⟩ ∧ os[i]? = some (.standard e.address e.amount script)

theorem InOutputs.tail {txid : Hash} {idx : Nat} {o : TxOutput} {os : List TxOutput}
    (h : InOutputs txid (idx + 1) os p e) : InOutputs txid idx (o :: os) p e := by
  obtain ⟨i, script, rfl, hi⟩ := h
  exact ⟨i + 1, script, by rw [Nat.add_assoc, Nat.add_comm 1], hi⟩

/-- An entry after an output was put in is that output, or was there. -/
theorem getUtxo_insert_output {txid : Hash} {idx : Nat} {a : Address} {v : Amount} {cb : Bool}
    {script : List UInt8} {os : List TxOutput}
    (h : (u.insert ⟨txid, idx⟩ ⟨v, a, height, cb⟩).getUtxo p = some e) :
    u.getUtxo p = some e ∨ InOutputs txid idx (.standard a v script :: os) p e := by
  rw [getUtxo_insert] at h
  split at h
  · rename_i hp
    cases h
    exact .inr ⟨0, script, hp, rfl⟩
  · exact .inl h

/-- An entry after adding outputs was there, or is one of them. -/
theorem addOutputs_entry {txid : Hash} {cb : Bool} {idx : Nat} {os : List TxOutput}
    (h : (u.addOutputs txid height cb idx os).getUtxo p = some e) :
    u.getUtxo p = some e ∨ InOutputs txid idx os p e := by
  induction os generalizing idx u with
  | nil => exact .inl h
  | cons o os ih =>
    cases o with
    | standard a v script =>
      rw [addOutputs] at h
      rcases ih h with h | h
      · exact getUtxo_insert_output h
      · exact .inr h.tail
    | burn v t =>
      rw [addOutputs] at h
      exact (ih h).imp_right .tail

theorem creditOutputs_entry {txid : Hash} {idx : Nat} {os : List TxOutput}
    (h : (creditOutputs txid height idx os u).1.getUtxo p = some e) :
    u.getUtxo p = some e ∨ InOutputs txid idx os p e := by
  induction os generalizing idx u with
  | nil => exact .inl h
  | cons o os ih =>
    cases o with
    | standard a v script =>
      rw [creditOutputs] at h
      split at h
      · exact (ih h).imp_right .tail
      · rcases ih h with h | h
        · exact getUtxo_insert_output h
        · exact .inr h.tail
    | burn v t =>
      rw [creditOutputs] at h
      exact (ih h).imp_right .tail

/-! ## Blocks -/

/-- A set with more outputs of one of the blocks. -/
theorem Sourced.add (h : Sourced E P u) (hb : P b) (htx : tx ∈ b.transactions)
    (hadd : ∀ p e, u'.getUtxo p = some e →
      u.getUtxo p = some e ∨ InOutputs (tx.txid E) 0 tx.outputs p e) : Sourced E P u' := by
  intro p e he
  rcases hadd p e he with he | ⟨i, script, rfl, hi⟩
  · exact h p e he
  · refine ⟨b, hb, tx, htx, rfl, script, ?_⟩
    rw [Nat.zero_add]
    exact hi

theorem Sourced.applyTransaction {d : TxUndoData} (h : Sourced E P u) (hb : P b)
    (htx : tx ∈ b.transactions) (ha : u.applyTransaction E tx height = (u', .ok d)) :
    Sourced E P u' := by
  unfold UtxoSet.applyTransaction at ha
  split at ha
  · cases ha
  · rename_i w es hs
    cases ha
    -- the inputs only leave the set
    have hw : Sourced E P w := by
      split at hs
      · cases hs
        exact h
      · intro p e he
        rw [(spendInputs_ok hs).2.2.2] at he
        split at he
        · cases he
        · exact h p e he
    exact hw.add hb htx fun p e he => addOutputs_entry he

theorem Sourced.applyTransactions (hb : P b) : ∀ {txs : List Transaction} {u u' : UtxoSet}
    {ds : List TxUndoData}, Sourced E P u → (∀ tx ∈ txs, tx ∈ b.transactions) →
      applyTransactions E height txs u = (u', .ok ds) → Sourced E P u'
  | [], _, _, _, h, _, ha => by
    cases ha
    exact h
  | tx :: txs, _, _, _, h, hin, ha => by
    obtain ⟨w, d, ds', h1, h2, -⟩ := applyTransactions_cons_ok ha
    obtain ⟨htx, hin⟩ := List.forall_mem_cons.1 hin
    exact applyTransactions hb (h.applyTransaction hb htx h1) hin h2

theorem Sourced.applyMergeCoinbase (h : Sourced E P u) (hb : P b) :
    Sourced E P (u.applyMergeCoinbase E b height).1 := by
  unfold UtxoSet.applyMergeCoinbase
  split
  · rename_i cb hcb
    have hmem : cb ∈ b.transactions := by
      unfold Block.coinbase? at hcb
      split at hcb
      · rename_i tx txs htxs
        split at hcb
        · cases hcb
          rw [htxs]
          exact List.mem_cons_self
        · cases hcb
      · cases hcb
    exact h.add hb hmem fun p e he => creditOutputs_entry he
  · exact h

theorem Sourced.creditMerges : ∀ {ms : List Block} {u : UtxoSet}, Sourced E P u → (∀ m ∈ ms, P m) →
    Sourced E P (creditMerges E ms u).1
  | [], _, h, _ => h
  | m :: ms, u, h, hms => by
    obtain ⟨hm, hms⟩ := List.forall_mem_cons.1 hms
    exact (h.applyMergeCoinbase hm).creditMerges hms

/-- **A block with its merge blocks** leaves a set with outputs of these and of what was there. -/
theorem Sourced.applyBlockWithMerges {ms : List Block} {undo : BlockUndoData} (h : Sourced E P u)
    (hb : P b) (hms : ∀ m ∈ ms, P m) (ha : u.applyBlockWithMerges E b ms = (u', .ok undo)) :
    Sourced E P u' := by
  obtain ⟨w, ds, hw, rfl, -⟩ := applyBlockWithMerges_ok ha
  exact (h.applyTransactions hb (fun _ htx => htx) hw).creditMerges hms

end UtxoSet

/-! ## Chains -/

namespace Dag

variable {E : Env} {d : Dag} {b : Block} {h tip : Hash} {u : UtxoSet}

/-- A stored block at the tip or in its past. -/
def BlockUpTo (E : Env) (d : Dag) (tip : Hash) (b : Block) : Prop :=
  d.UpTo tip (b.hash E) ∧ d.getBlock (b.hash E) = some b

/-- The merge blocks of a block are parents of it. -/
theorem Wf.mergeBlocks_upTo (hw : d.Wf E) (hb : d.BlockUpTo E tip b) :
    ∀ m ∈ d.mergeBlocks (b.hash E), d.BlockUpTo E tip m := by
  intro m hm
  obtain ⟨q, hq, hmb⟩ := List.mem_filterMap.1 hm
  rw [mergesetBluesOf, hw.ghostdag _ b hb.2] at hq
  have hp := GhostdagManager.mem_mergesetBlues hq
  obtain rfl := hw.hash q m hmb
  exact ⟨hb.1.parent (hw.getParents_eq hb.2 ▸ hp), hmb⟩

theorem genesisSet_sourced (E : Env) {P : Block → Prop} (hP : P (.genesis E)) :
    UtxoSet.Sourced E P (Node.genesisSet E) := by
  have hempty : UtxoSet.Sourced E P .empty := fun p e he => by cases he
  have hcb : Block.genesisCoinbase E ∈ (Block.genesis E).transactions := List.mem_cons_self
  exact hempty.add hP hcb fun p e he => UtxoSet.addOutputs_entry he

/-- **The set of a chain** has outputs of the blocks up to its tip only. -/
theorem Wf.stack_sourced {Q : Hash → UtxoSet → Prop} {hs : List Hash} (hw : d.Wf E)
    (hg : d.UpTo tip ((Block.genesis E).hash E)) (hst : d.Stack E Q (Node.genesisSet E) hs u)
    (hup : ∀ h ∈ hs, d.UpTo tip h) : UtxoSet.Sourced E (d.BlockUpTo E tip) u := by
  induction hst with
  | nil => exact genesisSet_sourced E ⟨hg, hw.genesis⟩
  | @cons i is s s' undo _ ha _ _ ih =>
    obtain ⟨hi, his⟩ := List.forall_mem_cons.1 hup
    obtain ⟨b, hb, happ⟩ := machine_apply_iff.1 ha
    obtain rfl := hw.hash i b hb
    exact (ih his).applyBlockWithMerges ⟨hi, hb⟩ (hw.mergeBlocks_upTo ⟨hi, hb⟩) happ

end Dag

/-! ## The balance -/

/-- The outputs of a transaction that pay an address: outpoints and amounts. -/
def Transaction.slotsFor (E : Env) (a : Address) (tx : Transaction) : List (OutPoint × Nat) :=
  tx.outputs.zipIdx.filterMap fun o => (o.1.paidTo a).map fun v => (⟨tx.txid E, o.2⟩, v)

theorem Transaction.sum_slotsFor (E : Env) (a : Address) (tx : Transaction) :
    ((tx.slotsFor E a).map (·.2)).sum = (tx.paidTo a).sum := by
  have hmap : (tx.slotsFor E a).map (·.2) = (tx.outputs.zipIdx.map Prod.fst).filterMap (·.paidTo a) := by
    rw [slotsFor, List.map_filterMap, List.filterMap_map]
    refine List.filterMap_congr fun o _ => ?_
    rw [Option.map_map]
    exact Option.map_id'
  rw [hmap, List.zipIdx_map_fst, paidTo]

def Block.slotsFor (E : Env) (a : Address) (b : Block) : List (OutPoint × Nat) :=
  b.transactions.flatMap (·.slotsFor E a)

theorem sum_flatMap_slots {β : Type*} {f : β → List (OutPoint × Nat)} {g : β → Nat}
    (h : ∀ x, ((f x).map (·.2)).sum = g x) (l : List β) :
    ((l.flatMap f).map (·.2)).sum = (l.map g).sum := by
  rw [List.map_flatMap, List.flatMap_def, List.sum_flatten, List.map_map]
  exact congrArg List.sum (List.map_congr_left fun x _ => h x)

theorem Block.sum_slotsFor (E : Env) (a : Address) (b : Block) :
    ((b.slotsFor E a).map (·.2)).sum = b.received a :=
  sum_flatMap_slots (fun tx => tx.sum_slotsFor E a) b.transactions

namespace UtxoSet

variable {E : Env} {P : Block → Prop} {u : UtxoSet} {a : Address} {b : Block} {p : OutPoint}
  {e : UtxoEntry}

theorem OutputOf.mem_slotsFor (h : OutputOf E b p e) (ha : e.address = a) :
    (p, e.amount.zents) ∈ b.slotsFor E a := by
  obtain ⟨tx, htx, hid, script, hi⟩ := h
  refine List.mem_flatMap.2 ⟨tx, htx, List.mem_filterMap.2 ⟨(_, p.index),
    List.mem_zipIdx_iff_getElem?.2 hi, ?_⟩⟩
  rw [TxOutput.paidTo, if_pos ha, hid]
  rfl

/-- The balance is the saturating sum of the address's entries, in whatever order they come. -/
theorem getBalance_listed {es : List UtxoEntry} (u : UtxoSet) (a : Address)
    (h : (es : Multiset UtxoEntry) = u.utxos.entries.map (·.2)) :
    Saturating.sum u64Max ((es.filter (·.address = a)).map (·.amount.zents)) = u.getBalance a := by
  have hsum : ∀ l : List UtxoEntry, ((l.filter (·.address = a)).map (·.amount.zents)).sum =
      (l.map fun e => if e.address = a then e.amount.zents else 0).sum := by
    intro l
    induction l with
    | nil => rfl
    | cons e l ih => by_cases he : e.address = a <;> simp [he, ih]
  have htotal : Finmap.total (fun e => if e.address = a then e.amount.zents else 0) u.utxos =
      (es.map fun e => if e.address = a then e.amount.zents else 0).sum := by
    rw [← Multiset.sum_coe, ← Multiset.map_coe, h, Multiset.map_map]
    rfl
  rw [Saturating.sum_eq, hsum, ← htotal]
  rfl

/-- **The balance of a set** with outputs of some blocks only is at most what these pay. -/
theorem Sourced.getBalance_le {bs : List Block} (h : Sourced E P u) (hbs : ∀ b, P b → b ∈ bs)
    (a : Address) : u.getBalance a ≤ (bs.map (·.received a)).sum := by
  have htotal : Finmap.total (fun e => if e.address = a then e.amount.zents else 0) u.utxos ≤
      ((bs.flatMap (·.slotsFor E a)).map (·.2)).sum := by
    refine Finmap.total_le_sum fun p e he => ?_
    by_cases ha : e.address = a
    · obtain ⟨b, hb, ho⟩ := h p e he
      rw [if_pos ha]
      exact .inr (List.mem_flatMap.2 ⟨b, hbs b hb, ho.mem_slotsFor ha⟩)
    · exact .inl (if_neg ha)
  rw [sum_flatMap_slots (fun b : Block => b.sum_slotsFor E a)] at htotal
  exact (Nat.min_le_left _ _).trans htotal

end UtxoSet

namespace Node

/-- **The balance that the explorer shows for an address is at most what it counts as received**, short
of wrapping, in every undoable run in which no reorganization fails. -/
theorem balance_le_received (E : Env) (n : Node) (a : Address) (hn : n.Reachable E)
    (hg : (Block.genesis E).hash E ≠ .zero) (hu : Undoable E n.log) (hf : NoFail E n.log) :
    ∃ tip bs, n.dag.getSelectedTip = some tip ∧ n.dag.Lists E tip bs ∧
      (n.getAddressDetail E a).totals.totalReceived = (bs.map (·.received a)).sum % 2 ^ 64 ∧
      (n.getAddressDetail E a).confirmedBalance ≤ (bs.map (·.received a)).sum := by
  have hw := hn.sound.wf
  obtain ⟨-, -, tip, ps, rest, u₀, hl, rfl, rfl⟩ :=
    Chained.moves_fromGenesis hn.moves (chained_new_fromGenesis hg) hu hf
  have hlists := hw.reachedBlocks_lists hl.selected
  have hup := hw.chain_upTo (hw.selectedTip_stored hl.selected) hl.chain
  have hgen : n.dag.UpTo tip ((Block.genesis E).hash E) :=
    hup _ (List.mem_append_right _ List.mem_cons_self)
  have hsourced := hw.stack_sourced hgen hl.stack fun h hh => hup h (List.mem_append_left _ hh)
  refine ⟨tip, _, hl.selected, hlists, by rw [totals_eq], ?_⟩
  exact hsourced.getBalance_le (fun b hb => (hlists.mem b).2 hb) a

end Node

open Sample in
theorem balance_le_received_merged :
    ∃ tip bs, (run [first, side, merging]).dag.getSelectedTip = some tip ∧
      (run [first, side, merging]).dag.Lists env tip bs ∧
      ((run [first, side, merging]).getAddressDetail env owner).totals.totalReceived =
        (bs.map (·.received owner)).sum % 2 ^ 64 ∧
      ((run [first, side, merging]).getAddressDetail env owner).confirmedBalance ≤
        (bs.map (·.received owner)).sum :=
  Node.balance_le_received env (run [first, side, merging]) owner (reachable_run _)
    (hash_ne_zero _) (Node.undoable_of_connects (by decide +kernel))
    (Node.noFail_of_forall (by decide +kernel))

end Zentra

import ZentraChain.Node.Admission
import ZentraChain.Node.Converge
import ZentraChain.Node.Structure

/-!
# Transactions that leave the mempool (`node.rs`, `mempool.rs`)

`connect_block` takes the transactions of the block out of the mempool, whether or not the block is
on the selected chain.

* `Wf.newTip_iff`: a block takes the selected tip exactly if it is better than it.
* `pending_kept_iff`: what leaves the mempool is on the selected chain exactly if the block takes the
  tip, or the pooled transactions it has are there already.
-/

namespace Zentra

/-! ## Removal -/

namespace Mempool

theorem contains_removeTransaction (m : Mempool) (txid x : Hash) :
    (m.removeTransaction txid).contains x = true ↔ m.contains x = true ∧ x ≠ txid := by
  unfold removeTransaction contains
  cases hl : m.transactions.lookup txid with
  | none =>
    refine ⟨fun h => ⟨h, ?_⟩, fun h => h.1⟩
    rintro rfl
    rw [hl] at h
    cases h
  | some entry =>
    by_cases hx : x = txid
    · subst hx
      simp [Finmap.lookup_erase]
    · simp [Finmap.lookup_erase_ne hx, hx]

theorem contains_removeConfirmed (x : Hash) : ∀ (txids : List Hash) (m : Mempool),
    (m.removeConfirmed txids).contains x = true ↔ m.contains x = true ∧ x ∉ txids
  | [], m => by simp [removeConfirmed]
  | txid :: txids, m => by
    have ih := contains_removeConfirmed x txids (m.removeTransaction txid)
    rw [contains_removeTransaction] at ih
    rw [List.mem_cons, not_or, ← and_assoc]
    exact ih

end Mempool

namespace Dag

variable {E : Env} {d d' : Dag} {b : Block} {h t x : Hash}

/-- The transaction ids of the blocks on the selected chain of the selected tip. -/
def confirmedIds (E : Env) (d : Dag) : List Hash :=
  (((d.getSelectedTip.map d.getSelectedChain).getD []).filterMap d.getBlock).flatMap fun c =>
    c.transactions.map (·.txid E)

def Confirmed (E : Env) (d : Dag) (txid : Hash) : Prop := txid ∈ d.confirmedIds E

instance (E : Env) (d : Dag) (txid : Hash) : Decidable (d.Confirmed E txid) :=
  inferInstanceAs (Decidable (txid ∈ _))

theorem confirmed_iff : d.Confirmed E x ↔ ∃ t, d.getSelectedTip = some t ∧
    ∃ h ∈ d.getSelectedChain t, ∃ c, d.getBlock h = some c ∧
      x ∈ c.transactions.map (·.txid E) := by
  unfold Confirmed confirmedIds
  cases d.getSelectedTip with
  | none => simp
  | some t =>
    rw [Option.map_some, Option.getD_some, List.mem_flatMap]
    constructor
    · rintro ⟨c, hc, hx⟩
      obtain ⟨h, hh, hb⟩ := List.mem_filterMap.1 hc
      exact ⟨t, rfl, h, hh, c, hb, hx⟩
    · rintro ⟨t', ht', h, hh, c, hb, hx⟩
      cases ht'
      exact ⟨c, List.mem_filterMap.2 ⟨h, hh, hb⟩, hx⟩

/-- A larger graph with the same selected tip confirms the same. -/
theorem Within.confirmed (hwi : d.Within d') (hw : d.Wf E)
    (ht : d'.getSelectedTip = d.getSelectedTip) : d'.Confirmed E x ↔ d.Confirmed E x := by
  rw [confirmed_iff, confirmed_iff, ht]
  refine exists_congr fun t => and_congr_right fun hst => ?_
  obtain ⟨chain, hc⟩ := hw.exists_chain (hw.selectedTip_stored hst)
  have hc' := hc.within hwi hw (hw.selectedTip_stored hst)
  rw [getSelectedChain_eq hc, getSelectedChain_eq hc']
  refine exists_congr fun h => and_congr_right fun hh => ?_
  obtain ⟨c, hb⟩ := Option.isSome_iff_exists.1 (hw.chain_stored (hw.selectedTip_stored hst) hc h hh)
  rw [hb, hwi.block h c hb]

/-- The selected tip's block is on the selected chain. -/
theorem Wf.confirmed_of_tip (hw : d.Wf E) (ht : d.getSelectedTip = some t) (hz : t ≠ .zero)
    (hb : d.getBlock t = some b) (hx : x ∈ b.transactions.map (·.txid E)) : d.Confirmed E x := by
  obtain ⟨chain, hc⟩ := hw.exists_chain (hw.selectedTip_stored ht)
  obtain ⟨rest, hrest⟩ := hc.head_eq hz
  refine confirmed_iff.2 ⟨t, ht, t, ?_, b, hb, hx⟩
  rw [getSelectedChain_eq hc, hrest]
  exact List.mem_cons_self

theorem better_total {x y : Nat × Nat × Hash} (h : better x y = false) (hne : x.2.2 ≠ y.2.2) :
    better y x = true := by
  by_contra h'
  exact hne (better_antisymm h (Bool.eq_false_iff.2 h'))

/-- **A new block takes the selected tip exactly if it is better.** -/
theorem Wf.newTip_iff (hw : d.Wf E) (hw' : (d.extend E b).Wf E)
    (hnew : d.getBlock (b.hash E) = none) {old : Hash} (ho : d.getSelectedTip = some old)
    (ht : (d.extend E b).getSelectedTip = some t) :
    t = b.hash E ↔
      better (b.header.blueScore, b.header.blueWork, b.hash E) (d.key old) = true := by
  have hbnew : (d.extend E b).getBlock (b.hash E) = some b := getBlock_extend_self
  have hold := hw.selectedTip_stored ho
  have hkb : (d.extend E b).key (b.hash E) =
      (b.header.blueScore, b.header.blueWork, b.hash E) := by
    rw [key, getHeader_extend, if_pos rfl]
    rfl
  have hself : better ((d.extend E b).key (b.hash E)) ((d.extend E b).key t) = false := by
    refine getSelectedTip_max ht (b.hash E) ?_ ?_
    · rw [tips_extend]
      simp
    · rw [hw'.getHeader_isSome, hbnew]
      rfl
  rw [← hkb, ← key_extend_of_isSome hnew hold]
  have hne : old ≠ b.hash E := by
    rintro rfl
    rw [hnew] at hold
    cases hold
  constructor
  · rintro rfl
    by_cases hop : old ∈ b.header.parents
    · -- the old tip is a parent, so it scores less
      have hlt := hw'.score_parent_lt hbnew hop
      obtain ⟨bo, hbo⟩ := Option.isSome_iff_exists.1
        ((getBlock_extend_of_isSome hnew hold).symm ▸ hold)
      rw [hw'.key_eq hbnew, hw'.key_eq hbo, better_iff]
      exact .inl hlt
    · refine better_total (getSelectedTip_max ht old ?_ ?_) hne
      · rw [tips_extend, List.mem_append, List.mem_filter]
        exact .inl ⟨(getSelectedTip_mem ho).1, by simpa using hop⟩
      · rw [hw'.getHeader_isSome, getBlock_extend_of_isSome hnew hold]
        exact hold
  · intro hb
    refine (hw.selectedTip_extend hw' hnew ho ht).resolve_right fun hto => ?_
    rw [hto, hb] at hself
    cases hself

end Dag

namespace Node

variable {E : Env} {n : Node} {b : Block} {now : Nat} {x : Hash}

/-- The block is better than the selected tip. -/
def Overtakes (E : Env) (n : Node) (b : Block) : Prop :=
  ∀ t, n.dag.getSelectedTip = some t →
    Dag.better (b.header.blueScore, b.header.blueWork, b.hash E) (n.dag.key t) = true

/-- What a connection leaves: the graph with the block, and the mempool without its
transactions. -/
structure Inserted (E : Env) (n : Node) (b : Block) (n' : Node) : Prop where
  new : n.dag.getBlock (b.hash E) = none
  dag : ∃ u, n'.dag = (n.dag.extend E b).withUndo u
  mempool : n'.mempool = n.mempool.removeConfirmed (b.transactions.map (·.txid E))

theorem connectBlock_inserted (h : (connectBlock E now n b).1 = true) :
    Inserted E n b (connectBlock E now n b).2 := by
  have ho := connectBlock_outcome E now n b
  generalize (connectBlock E now n b).2 = n' at ho ⊢
  rw [h] at ho
  cases ho with
  | aside he _ => exact ⟨he.1, ⟨_, rfl⟩, rfl⟩
  | moved he _ hr =>
    obtain ⟨u, v, evs, rfl, -⟩ := reorganize_eq_ledger hr
    exact ⟨he.1, ⟨u, rfl⟩, rfl⟩

/-- What leaves the mempool when a block connects. -/
theorem Inserted.left_iff {n' : Node} (hc : Inserted E n b n') :
    (n.mempool.contains x = true ∧ ¬n'.mempool.contains x = true) ↔
      n.mempool.contains x = true ∧ x ∈ b.transactions.map (·.txid E) := by
  rw [hc.mempool, Mempool.contains_removeConfirmed]
  tauto

/-- **A connected block's transactions are confirmed** if it is better than the selected tip;
otherwise what is confirmed stays. -/
theorem Inserted.confirmed {n' : Node} (hc : Inserted E n b n') (hw : n.dag.Wf E)
    (hw' : (n.dag.extend E b).Wf E) (hz : b.hash E ≠ .zero) :
    (Overtakes E n b ∧ ∀ x ∈ b.transactions.map (·.txid E), n'.dag.Confirmed E x) ∨
      (¬Overtakes E n b ∧ ∀ x, n'.dag.Confirmed E x ↔ n.dag.Confirmed E x) := by
  obtain ⟨u, hu⟩ := hc.dag
  obtain ⟨old, ho⟩ := hw.exists_selectedTip
  obtain ⟨t, ht⟩ := hw'.exists_selectedTip
  -- undo records have no part in it
  have hcon : ∀ x, n'.dag.Confirmed E x ↔ (n.dag.extend E b).Confirmed E x := by
    intro x
    rw [hu]
    exact Iff.rfl
  have hiff : t = b.hash E ↔ Overtakes E n b := by
    rw [hw.newTip_iff hw' hc.new ho ht]
    exact ⟨fun h s hs => Option.some.inj (ho.symm.trans hs) ▸ h, fun h => h old ho⟩
  by_cases hov : Overtakes E n b
  · obtain rfl := hiff.2 hov
    refine .inl ⟨hov, fun x hx => (hcon x).2 ?_⟩
    exact hw'.confirmed_of_tip ht hz Dag.getBlock_extend_self hx
  · have hto : t = old := (hw.selectedTip_extend hw' hc.new ho ht).resolve_left (mt hiff.1 hov)
    refine .inr ⟨hov, fun x => ?_⟩
    rw [hcon]
    refine (Dag.Within.extend hc.new).confirmed hw ?_
    rw [ht, ho, hto]

/-- **What leaves the mempool with a block is on the selected chain** exactly if the block takes the
selected tip, or each pooled transaction it has is there already. -/
theorem pending_kept_iff (hn : n.Reachable E) (mempool : Mempool) (hz : b.hash E ≠ .zero)
    (hp : n.parentsStored b = true)
    (h : (connectBlock E now { n with mempool := mempool } b).1 = true) :
    (∀ x, mempool.contains x = true →
      ¬(connectBlock E now { n with mempool := mempool } b).2.mempool.contains x = true →
      (connectBlock E now { n with mempool := mempool } b).2.dag.Confirmed E x) ↔
    Overtakes E n b ∨
      ∀ tx ∈ b.transactions, mempool.contains (tx.txid E) = true → n.dag.Confirmed E (tx.txid E) := by
  have hc := connectBlock_inserted h
  have hw : n.dag.Wf E := hn.sound.wf
  have he := connectBlock_enters h
  have hw' : (n.dag.extend E b).Wf E := (he.joins hp).wf hw
  generalize (connectBlock E now { n with mempool := mempool } b).2 = n' at hc ⊢
  have hleft := fun x => hc.left_iff (x := x)
  rcases hc.confirmed hw hw' hz with ⟨hov, hall⟩ | ⟨hov, hsame⟩
  · refine ⟨fun _ => .inl hov, fun _ x hx hnx => hall x ?_⟩
    exact ((hleft x).1 ⟨hx, hnx⟩).2
  · constructor
    · intro hk
      refine .inr fun tx htx hin => (hsame _).1 ?_
      have hgone := (hleft (tx.txid E)).2 ⟨hin, List.mem_map_of_mem htx⟩
      exact hk _ hgone.1 hgone.2
    · intro hk x hx hnx
      have hin := ((hleft x).1 ⟨hx, hnx⟩).2
      obtain ⟨tx, htx, rfl⟩ := List.mem_map.1 hin
      exact (hsame _).2 ((hk.resolve_left hov) tx htx hx)

end Node

namespace Sample

/-- Ten blocks on the genesis block and a block that merges them. -/
def wide : List Block :=
  sides.take 10 ++
    [block 20 .ltcAsic ((List.range 10).map fun k => ⟨k + 2⟩) 11 2 [coinbase 20 [subsidy]]]

/-- A transfer of a coinbase of the ten. -/
def pooled : Transaction := transfer 30 [⟨⟨1001⟩, 0⟩] [⟨1500, by decide⟩]

/-- The node of the wide graph with the transfer in its mempool. -/
def waitingNode : Node := ((run wide).acceptExternalTx env 0 pooled).2

/-- A side block with the transfer. -/
def carrier : Block := block 21 .cpu [genesisHash] 1 1 [coinbase 21 [subsidy], pooled]

/-- The next block of the chain with the transfer. -/
def confirming : Block := block 21 .cpu [⟨21⟩] 12 3 [coinbase 21 [subsidy], pooled]

theorem waitingNode_admits : (run wide).Admits env pooled waitingNode :=
  .external (Prod.ext (by decide +kernel) rfl)

end Sample

open Sample in
/-- The side block takes the transfer out of the mempool, and the chain does not have it. -/
theorem pending_lost :
    ¬∀ (n n' : Node) (tx : Transaction), n.Reachable env → n.Admits env tx n' → ∀ now b,
      n'.parentsStored b = true → (Node.connectBlock env now n' b).1 = true →
      ∀ x, n'.mempool.contains x = true →
        ¬(Node.connectBlock env now n' b).2.mempool.contains x = true →
        (Node.connectBlock env now n' b).2.dag.Confirmed env x := by
  intro h
  obtain ⟨hp, hcon, hin, hout, hlost⟩ : waitingNode.parentsStored carrier = true ∧
      (Node.connectBlock env 1717372800000 waitingNode carrier).1 = true ∧
      waitingNode.mempool.contains ⟨1030⟩ = true ∧
      ¬(Node.connectBlock env 1717372800000 waitingNode carrier).2.mempool.contains ⟨1030⟩ = true ∧
      ¬(Node.connectBlock env 1717372800000 waitingNode carrier).2.dag.Confirmed env ⟨1030⟩ := by
    decide +kernel
  exact hlost (h (run wide) waitingNode pooled (reachable_run _) waitingNode_admits 1717372800000
    carrier hp hcon ⟨1030⟩ hin hout)

open Sample in
theorem pending_kept_confirming :
    (Node.connectBlock env 1717372800000 { run wide with mempool := waitingNode.mempool }
      confirming).2.dag.Confirmed env ⟨1030⟩ := by
  obtain ⟨hp, hcon, hin, hout, htip, hbetter⟩ : (run wide).parentsStored confirming = true ∧
      (Node.connectBlock env 1717372800000 { run wide with mempool := waitingNode.mempool }
        confirming).1 = true ∧
      waitingNode.mempool.contains ⟨1030⟩ = true ∧
      ¬(Node.connectBlock env 1717372800000 { run wide with mempool := waitingNode.mempool }
        confirming).2.mempool.contains ⟨1030⟩ = true ∧
      (run wide).dag.getSelectedTip = some ⟨21⟩ ∧
      Dag.better (confirming.header.blueScore, confirming.header.blueWork, confirming.hash env)
        ((run wide).dag.key ⟨21⟩) = true := by
    decide +kernel
  refine (Node.pending_kept_iff (reachable_run wide) waitingNode.mempool (hash_ne_zero _)
    hp hcon).2 (.inl fun t ht => ?_) ⟨1030⟩ hin hout
  cases htip.symm.trans ht
  exact hbetter

end Zentra

import ZentraChain.Node.Explorer

/-!
# The explorer's view of an address (`rpc.rs`)

`get_address_detail` counts over a walk from the selected tip, `get_address_blocks` collects on a walk
from all tips.

* `address_totals_exact`: received and mined are counted once for each block of the selected tip and
  its past.
* `address_blocks_exact`: an address has at most 1000 blocks in its reply, all if it has no more.
-/

namespace Zentra

open Ancestry

/-! ## Replies -/

inductive Direction
  | receive
  | send
  deriving DecidableEq, Repr

/-- A transaction of `get_address_detail`. -/
structure AddressTx where
  txid : Hash
  timestamp : Nat
  amount : Nat
  direction : Direction
  deriving DecidableEq

/-- What `get_address_detail` counts. -/
structure AddressTotals where
  transactions : List AddressTx
  totalReceived : Nat
  minedBlocksCount : Nat
  deriving DecidableEq

/-- The reply of `get_address_detail`, without the fields that never change: no pending balance, no
outputs, and the type P2PKH. -/
structure AddressDetail where
  address : Address
  confirmedBalance : Nat
  totals : AddressTotals
  deriving DecidableEq

def TxOutput.paidTo (a : Address) : TxOutput → Option Nat
  | .standard address amount _ => if address = a then some amount.zents else none
  | .burn .. => none

/-- The amounts that a transaction pays an address. -/
def Transaction.paidTo (a : Address) (tx : Transaction) : List Nat :=
  tx.outputs.filterMap (·.paidTo a)

def Transaction.direction (E : Env) (a : Address) (tx : Transaction) : Option Direction :=
  if tx.paidTo a ≠ [] then some .receive
  else if tx.inputs.any fun i => Block.addressOf E i.publicKey = a then some .send
  else none

/-- `|n as i64| as u64`. -/
def signedAbs (n : Nat) : Nat := if n < 2 ^ 63 then n else 2 ^ 64 - n

/-- The address has an output of the coinbase. -/
def Block.minedBy (a : Address) (b : Block) : Bool :=
  match b.coinbase? with
  | some cb => cb.paidTo a ≠ []
  | none => false

def Transaction.addressTx (E : Env) (a : Address) (b : Block) (tx : Transaction) :
    Option AddressTx :=
  (tx.direction E a).map fun direction =>
    ⟨tx.txid E, b.header.timestamp, signedAbs (Wrapping.sum (2 ^ 64) (tx.paidTo a)), direction⟩

/-- Count a transaction. -/
def AddressTotals.addTx (E : Env) (a : Address) (b : Block) (s : AddressTotals)
    (tx : Transaction) : AddressTotals where
  transactions :=
    if s.transactions.length < 50 then s.transactions ++ (tx.addressTx E a b).toList
    else s.transactions
  totalReceived := (tx.paidTo a).foldl (Wrapping.add (2 ^ 64)) s.totalReceived
  minedBlocksCount := s.minedBlocksCount

/-- Count a block. -/
def AddressTotals.addBlock (E : Env) (a : Address) (s : AddressTotals) (b : Block) :
    AddressTotals :=
  let s := if b.minedBy a then
    { s with minedBlocksCount := Wrapping.add (2 ^ 32) s.minedBlocksCount 1 } else s
  b.transactions.foldl (addTx E a b) s

/-- `get_balance`: the saturating sum of the address's entries. -/
def UtxoSet.getBalance (u : UtxoSet) (a : Address) : Nat :=
  min (Finmap.total (fun e => if e.address = a then e.amount.zents else 0) u.utxos) u64Max

/-- A block of `get_address_blocks`; an input is shown as its sender and outpoint. -/
structure BlockView where
  hash : Hash
  header : Header
  confirmations : Nat
  isSelected : Bool
  transactions : List (Hash × TransactionType × List (Address × OutPoint) × List OutputView)
  deriving DecidableEq

/-- The view of a block, with the selected tip's score and chain. -/
def Block.view (E : Env) (tipScore : Nat) (selectedChain : List Hash) (b : Block) : BlockView where
  hash := b.hash E
  header := b.header
  confirmations := tipScore - b.header.blueScore + 1
  isSelected := b.hash E ∈ selectedChain
  transactions := b.transactions.map fun tx =>
    (tx.txid E, tx.txType, tx.inputs.map fun i => (Block.addressOf E i.publicKey, i.outpoint),
      tx.outputs.map (·.view))

/-- A transaction of the block pays the address, or is signed by it. -/
def Block.involves (E : Env) (a : Address) (b : Block) : Bool :=
  b.transactions.any fun tx =>
    (tx.outputs.any fun o => (o.paidTo a).isSome) ||
      tx.inputs.any fun i => Block.addressOf E i.publicKey = a

namespace Node

variable (E : Env) (n : Node)

/-- `get_address_detail`. -/
def getAddressDetail (a : Address) : AddressDetail where
  address := a
  confirmedBalance := n.utxo.getBalance a
  totals := n.dag.foldFromTip (AddressTotals.addBlock E a) ⟨[], 0, 0⟩

/-- The blocks that `get_address_blocks` collects on its walk from all tips. -/
def addressMatches (a : Address) : List Block :=
  let start := n.dag.tips.reverse
  let visit := DepthFirst.collect
    (fun h => (n.dag.getBlock h).filter fun b => b.involves E a) 200000 1000
  (DepthFirst.final (DepthFirst.run visit n.dag.followNew (n.dag.walkFuel start) start ∅
    (0, []))).2

/-- `get_address_blocks`: oldest first. -/
def getAddressBlocks (a : Address) : List BlockView :=
  let selectedChain := (n.dag.getSelectedTip.map n.dag.getSelectedChain).getD []
  ((n.addressMatches E a).insertionSort fun b c => b.header.blueScore ≤ c.header.blueScore).map
    (·.view E n.dag.tipScore selectedChain)

end Node

/-! ## Totals -/

/-- The transactions of a block that involve an address. -/
def Block.addressTxs (E : Env) (a : Address) (b : Block) : List AddressTx :=
  b.transactions.filterMap (·.addressTx E a b)

/-- What a block pays an address. -/
def Block.received (a : Address) (b : Block) : Nat :=
  (b.transactions.map fun tx => (tx.paidTo a).sum).sum

namespace AddressTotals

variable {E : Env} {a : Address} {b : Block}

/-- Count a transaction: of the history only the first 50 are kept, and the sums wrap. -/
theorem addTx_eq (tx : Transaction) (history : List AddressTx) (r m : Nat) :
    addTx E a b ⟨history.take 50, r % 2 ^ 64, m⟩ tx =
      ⟨(history ++ (tx.addressTx E a b).toList).take 50, (r + (tx.paidTo a).sum) % 2 ^ 64, m⟩ := by
  have hlen : (tx.addressTx E a b).toList.length ≤ 1 := by
    cases tx.addressTx E a b <;> simp
  unfold addTx
  rw [Wrapping.foldl_add]
  by_cases h : history.length < 50
  · have hall : history.take 50 = history := List.take_of_length_le h.le
    rw [hall, if_pos h, List.take_of_length_le (by rw [List.length_append]; omega)]
  · rw [if_neg (by rw [List.length_take]; omega), List.take_append_of_le_length (by omega)]

theorem foldl_addTx : ∀ (txs : List Transaction) (history : List AddressTx) (r m : Nat),
    txs.foldl (addTx E a b) ⟨history.take 50, r % 2 ^ 64, m⟩ =
      ⟨(history ++ txs.filterMap (·.addressTx E a b)).take 50,
        (r + (txs.map fun tx => (tx.paidTo a).sum).sum) % 2 ^ 64, m⟩
  | [], history, r, m => by
    rw [List.foldl_nil, List.filterMap_nil, List.append_nil, List.map_nil, List.sum_nil,
      Nat.add_zero]
  | tx :: txs, history, r, m => by
    have hcons : (tx :: txs).filterMap (·.addressTx E a b) =
        (tx.addressTx E a b).toList ++ txs.filterMap (·.addressTx E a b) := by
      cases h : tx.addressTx E a b with
      | none => rw [List.filterMap_cons_none h]; rfl
      | some v => rw [List.filterMap_cons_some h]; rfl
    rw [List.foldl_cons, addTx_eq, foldl_addTx txs, hcons, List.append_assoc, List.map_cons,
      List.sum_cons, Nat.add_assoc]

theorem addBlock_eq (b : Block) (history : List AddressTx) (r m : Nat) :
    addBlock E a ⟨history.take 50, r % 2 ^ 64, m % 2 ^ 32⟩ b =
      ⟨(history ++ b.addressTxs E a).take 50, (r + b.received a) % 2 ^ 64,
        (m + if b.minedBy a then 1 else 0) % 2 ^ 32⟩ := by
  unfold addBlock
  split
  · have hm : Wrapping.add (2 ^ 32) (m % 2 ^ 32) 1 = (m + 1) % 2 ^ 32 := Nat.mod_add_mod _ _ _
    simp only [hm]
    exact foldl_addTx b.transactions history r _
  · exact foldl_addTx b.transactions history r _

theorem foldl_addBlock : ∀ (bs : List Block) (history : List AddressTx) (r m : Nat),
    bs.foldl (addBlock E a) ⟨history.take 50, r % 2 ^ 64, m % 2 ^ 32⟩ =
      ⟨(history ++ bs.flatMap (·.addressTxs E a)).take 50, (r + (bs.map (·.received a)).sum) % 2 ^ 64,
        (m + bs.countP (·.minedBy a)) % 2 ^ 32⟩
  | [], history, r, m => by
    rw [List.foldl_nil, List.flatMap_nil, List.append_nil, List.map_nil, List.sum_nil,
      List.countP_nil, Nat.add_zero, Nat.add_zero]
  | b :: bs, history, r, m => by
    rw [List.foldl_cons, addBlock_eq, foldl_addBlock bs, List.flatMap_cons, List.append_assoc,
      List.map_cons, List.sum_cons, Nat.add_assoc, Nat.add_assoc, List.countP_cons,
      Nat.add_comm (List.countP _ bs)]

end AddressTotals

namespace Dag

variable {E : Env} {d : Dag} {b : Block} {h tip : Hash}

/-- The blocks that a walk from the selected tip meets. -/
def reachedBlocks (d : Dag) : List Block := d.reached.filterMap d.getBlock

/-- The blocks `bs` are the tip and its past, each once. -/
structure Lists (E : Env) (d : Dag) (tip : Hash) (bs : List Block) : Prop where
  nodup : bs.Nodup
  mem : ∀ b, b ∈ bs ↔ d.UpTo tip (b.hash E) ∧ d.getBlock (b.hash E) = some b

/-- Different hashes have different blocks. -/
theorem Wf.nodup_filterMap (hw : d.Wf E) {hs : List Hash} (hnd : hs.Nodup) :
    (hs.filterMap d.getBlock).Nodup := by
  refine hnd.filterMap fun x y b hb hb' => ?_
  rw [← hw.hash x b hb, hw.hash y b hb']

theorem Wf.reachedBlocks_lists (hw : d.Wf E) (ht : d.getSelectedTip = some tip) :
    d.Lists E tip d.reachedBlocks where
  nodup := hw.nodup_filterMap d.reached_covers.nodup
  mem b := by
    rw [reachedBlocks, List.mem_filterMap]
    constructor
    · rintro ⟨h, hh, hb⟩
      obtain rfl := hw.hash h b hb
      exact ⟨(hw.reached_iff ht).1 hh, hb⟩
    · rintro ⟨hu, hb⟩
      exact ⟨b.hash E, (hw.reached_iff ht).2 hu, hb⟩

end Dag

namespace Node

open Dag

variable {E : Env} {n : Node} {tip h txid : Hash} {b : Block} {a : Address}

theorem totals_eq (E : Env) (n : Node) (a : Address) : (n.getAddressDetail E a).totals =
    ⟨(n.dag.reachedBlocks.flatMap (·.addressTxs E a)).take 50,
      (n.dag.reachedBlocks.map (·.received a)).sum % 2 ^ 64,
      n.dag.reachedBlocks.countP (·.minedBy a) % 2 ^ 32⟩ := by
  have hfold := AddressTotals.foldl_addBlock (E := E) (a := a) n.dag.reachedBlocks [] 0 0
  rw [List.nil_append, Nat.zero_add, Nat.zero_add] at hfold
  rw [← hfold]
  exact foldFromTip_eq n.dag (AddressTotals.addBlock E a) ⟨[], 0, 0⟩

/-- **What the explorer counts for an address** is counted once for each block of the selected tip and
its past. -/
theorem address_totals_exact (E : Env) (n : Node) (tip : Hash) (a : Address)
    (hn : n.Reachable E) (ht : n.dag.getSelectedTip = some tip) :
    ∃ bs, n.dag.Lists E tip bs ∧ (n.getAddressDetail E a).totals =
      ⟨(bs.flatMap (·.addressTxs E a)).take 50, (bs.map (·.received a)).sum % 2 ^ 64,
        bs.countP (·.minedBy a) % 2 ^ 32⟩ :=
  ⟨_, hn.sound.wf.reachedBlocks_lists ht, totals_eq E n a⟩

end Node

open Sample in
theorem address_totals_exact_merged :
    ∃ bs, (run [first, side, merging]).dag.Lists env ⟨4⟩ bs ∧
      ((run [first, side, merging]).getAddressDetail env owner).totals =
        ⟨(bs.flatMap (·.addressTxs env owner)).take 50, (bs.map (·.received owner)).sum % 2 ^ 64,
          bs.countP (·.minedBy owner) % 2 ^ 32⟩ :=
  Node.address_totals_exact env (run [first, side, merging]) ⟨4⟩ owner (reachable_run _)
    (by decide +kernel)

/-! ## The blocks of an address -/

namespace Dag

variable {E : Env} {d : Dag} {h : Hash}

/-- Every stored block is a tip or in the past of one: it has a child, which scores higher, unless it
is a tip. -/
theorem TipsExact.upTo_tip (ht : d.TipsExact) (hw : d.Wf E) : ∀ (room : Nat) (h : Hash),
    (d.getBlock h).isSome → (∀ x, (d.getBlock x).isSome → d.score x ≤ d.score h + room) →
      ∃ t ∈ d.tips, d.UpTo t h
  | room, h, hs, hroom => by
    by_cases hchild : ∀ h' c, d.getBlock h' = some c → h ∉ c.header.parents
    · exact ⟨h, ht.mem h hs hchild, .inl rfl⟩
    · push Not at hchild
      obtain ⟨h', c, hc, hm⟩ := hchild
      have hs' : (d.getBlock h').isSome := by rw [hc]; rfl
      have hsc := hw.score_parent_lt hc hm
      have hle := hroom h' hs'
      cases room with
      | zero => omega
      | succ room =>
        obtain ⟨t, htt, hu⟩ := ht.upTo_tip hw room h' hs' fun x hx => by
          have := hroom x hx
          omega
        exact ⟨t, htt, hu.parent (hw.getParents_eq hc ▸ hm)⟩

/-- The hashes that a walk from all tips visits, in order. -/
def allReached (d : Dag) : List Hash :=
  DepthFirst.order d.followNew (d.walkFuel d.tips.reverse) d.tips.reverse ∅

/-- **A walk from all tips** visits every stored block. -/
theorem TipsExact.allReached_iff (ht : d.TipsExact) (hw : d.Wf E) :
    h ∈ d.allReached ↔ (d.getBlock h).isSome := by
  have hmem := (d.walk_covers d.followNew_pushes d.tips.reverse).mem_iff (x := h)
  rw [hw.parentsOf_eq] at hmem
  refine hmem.trans ⟨?_, fun hs => ?_⟩
  · rintro ⟨t, htt, rfl | hp⟩
    · exact hw.tips h (List.mem_reverse.1 htt)
    · exact mem_of_past (P := fun x => (d.getBlock x).isSome) hw.parents_stored
        (hw.tips t (List.mem_reverse.1 htt)) hp
  · obtain ⟨tip, htip⟩ := hw.exists_selectedTip
    obtain ⟨t, htt, hu⟩ := ht.upTo_tip hw (d.score tip) h hs fun x hx => by
      obtain ⟨t, htt, hle⟩ := ht.above x hx
      have htop := hw.score_le_selectedTip htip t htt
      rcases hle with rfl | hlt <;> omega
    exact ⟨t, List.mem_reverse.2 htt, hu⟩

theorem allReached_nodup (d : Dag) : d.allReached.Nodup :=
  (d.walk_covers d.followNew_pushes d.tips.reverse).nodup

/-- The walk has a visit for each stored block. -/
theorem TipsExact.allReached_length (ht : d.TipsExact) (hw : d.Wf E) :
    d.allReached.length = d.db.blocks.keys.card := by
  rw [← List.toFinset_card_of_nodup d.allReached_nodup]
  refine congrArg Finset.card (Finset.ext fun h => ?_)
  rw [List.mem_toFinset, ht.allReached_iff hw, Finmap.mem_keys, getBlock, Finmap.lookup_isSome]

end Dag

namespace Node

open Dag

variable {E : Env} {n : Node} {b : Block} {a : Address}

/-- What a hash contributes to the blocks of an address. -/
def matching (E : Env) (n : Node) (a : Address) (h : Hash) : Option Block :=
  (n.dag.getBlock h).filter fun b => b.involves E a

theorem matching_eq_some (hw : n.dag.Wf E) {h : Hash} : n.matching E a h = some b ↔
    h = b.hash E ∧ n.dag.getBlock (b.hash E) = some b ∧ b.involves E a = true := by
  rw [matching, Option.filter_eq_some_iff]
  constructor
  · rintro ⟨hb, hi⟩
    obtain rfl := hw.hash h b hb
    exact ⟨rfl, hb, hi⟩
  · rintro ⟨rfl, hb, hi⟩
    exact ⟨hb, hi⟩

theorem addressMatches_eq (E : Env) (n : Node) (a : Address) : n.addressMatches E a =
    ((n.dag.allReached.take 200000).filterMap (n.matching E a)).take 1000 := by
  have hcollect := DepthFirst.foldlM_collect (n.matching E a) 200000 1000 n.dag.allReached 0 []
    (by simp)
  rw [addressMatches, DepthFirst.run_eq]
  exact hcollect

/-- **The blocks in an address's reply** are different stored blocks that involve it, in order of their
scores. In a graph of up to 200,000 blocks they are all of them up to the limit of 1000. -/
theorem address_blocks_exact (E : Env) (n : Node) (a : Address) (hn : n.Reachable E) :
    ∃ bs all : List Block,
      n.getAddressBlocks E a = bs.map (·.view E n.dag.tipScore
        ((n.dag.getSelectedTip.map n.dag.getSelectedChain).getD [])) ∧
      bs.Pairwise (fun b c => b.header.blueScore ≤ c.header.blueScore) ∧ bs.Nodup ∧
      (∀ b ∈ bs, b ∈ all) ∧ bs.length ≤ 1000 ∧ all.Nodup ∧
      (∀ b, b ∈ all ↔ n.dag.getBlock (b.hash E) = some b ∧ b.involves E a = true) ∧
      (n.dag.db.blocks.keys.card ≤ 200000 → bs.length = min 1000 all.length ∧
        ((∀ b ∈ all, b ∈ bs) ↔ all.length ≤ 1000)) := by
  have hw := hn.sound.wf
  let all := n.dag.allReached.filterMap (n.matching E a)
  have hnodup : all.Nodup := by
    refine n.dag.allReached_nodup.filterMap fun x y b hb hb' => ?_
    rw [((matching_eq_some hw).1 hb).1, ((matching_eq_some hw).1 hb').1]
  have hmem : ∀ b, b ∈ all ↔ n.dag.getBlock (b.hash E) = some b ∧ b.involves E a = true := by
    intro b
    rw [List.mem_filterMap]
    constructor
    · rintro ⟨h, -, hb⟩
      exact ((matching_eq_some hw).1 hb).2
    · rintro ⟨hb, hi⟩
      exact ⟨b.hash E, (hn.tips.allReached_iff hw).2 (by rw [hb]; rfl),
        (matching_eq_some hw).2 ⟨rfl, hb, hi⟩⟩
  have hsub : (n.addressMatches E a).Sublist all := by
    rw [addressMatches_eq]
    exact (List.take_sublist 1000 _).trans ((List.take_sublist 200000 _).filterMap _)
  have hperm := List.perm_insertionSort (fun b c : Block => b.header.blueScore ≤ c.header.blueScore)
    (n.addressMatches E a)
  refine ⟨_, all, rfl, List.pairwise_insertionSort _ _, hperm.nodup_iff.2 (hnodup.sublist hsub),
    fun b hb => hsub.subset (hperm.mem_iff.1 hb), ?_, hnodup, hmem, fun hcard => ?_⟩
  · rw [hperm.length_eq, addressMatches_eq, List.length_take]
    exact Nat.min_le_left _ _
  · have hvisits : n.dag.allReached.take 200000 = n.dag.allReached :=
      List.take_of_length_le ((hn.tips.allReached_length hw).trans_le hcard)
    have htake : n.addressMatches E a = all.take 1000 := by
      rw [addressMatches_eq, hvisits]
    have hlen : (n.addressMatches E a).length = min 1000 all.length := by
      rw [htake, List.length_take]
    refine ⟨hperm.length_eq.trans hlen, fun hall => ?_, fun hle b hb => ?_⟩
    · have hle := (hnodup.subperm fun b hb => hperm.mem_iff.1 (hall b hb)).length_le
      omega
    · rw [hperm.mem_iff, htake, List.take_of_length_le hle]
      exact hb

end Node

open Sample in
theorem address_blocks_exact_merged :
    ∃ bs all : List Block,
      (run [first, side, merging]).getAddressBlocks env owner = bs.map (·.view env
        (run [first, side, merging]).dag.tipScore
        (((run [first, side, merging]).dag.getSelectedTip.map
          (run [first, side, merging]).dag.getSelectedChain).getD [])) ∧
      bs.length = min 1000 all.length ∧ ((∀ b ∈ all, b ∈ bs) ↔ all.length ≤ 1000) := by
  obtain ⟨bs, all, hview, -, -, -, -, -, -, hsize⟩ :=
    Node.address_blocks_exact env (run [first, side, merging]) owner (reachable_run _)
  exact ⟨bs, all, hview, hsize (by decide +kernel)⟩

end Zentra

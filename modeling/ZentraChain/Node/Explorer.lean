import ZentraChain.Lib.DepthFirst
import ZentraChain.Node.Pending
import ZentraChain.Node.Root

/-!
# The explorer's queries (`rpc.rs`)

`get_transaction`, `get_transaction_detail` and `get_block_detail` walk back from the selected tip over
all parents, with a stack and a visited set. A reply has the fields of its JSON object.

* `Wf.reached_iff`: the walk visits the tip and its past, each block once.
* `findFromTip_eq`, `foldFromTip_eq`: what a walk finds, and what it gathers.
* `transaction_found`: the transactions that are found are those of these blocks, on the selected
  chain or not.
* `block_found`: a block is found by its height exactly if one of these blocks has it.
-/

namespace Zentra

open Ancestry

/-! ## Replies -/

/-- An input; the sender's address comes from its key. -/
structure InputView where
  prevTxHash : Hash
  outputIndex : Nat
  publicKey : Nat
  address : Address
  deriving DecidableEq

inductive OutputView
  | standard (address : Address) (amount : Nat)
  | burn (amount : Nat) (burnType : BurnType)
  deriving DecidableEq

def TxInput.view (E : Env) (i : TxInput) : InputView :=
  ⟨i.prevTxHash, i.outputIndex, i.publicKey, Block.addressOf E i.publicKey⟩

def TxOutput.view : TxOutput → OutputView
  | .standard address amount _ => .standard address amount.zents
  | .burn amount burnType => .burn amount.zents burnType

/-- The reply of `get_transaction`. -/
structure TransactionReply where
  txid : Hash
  blockHash : Hash
  blockHeight : Nat
  timestamp : Nat
  txType : TransactionType
  inputs : List InputView
  outputs : List OutputView
  deriving DecidableEq

def transactionReply (E : Env) (b : Block) (tx : Transaction) : TransactionReply where
  txid := tx.txid E
  blockHash := b.hash E
  blockHeight := b.header.blueScore
  timestamp := b.header.timestamp
  txType := tx.txType
  inputs := tx.inputs.map (·.view E)
  outputs := tx.outputs.map (·.view)

/-- An input of `get_transaction_detail`, with the amount that the current set has for it. -/
structure InputDetail where
  previousTxid : Hash
  previousOutputIndex : Nat
  senderAddress : Address
  amount : Nat
  deriving DecidableEq

/-- The reply of `get_transaction_detail`; a burn has no recipient. -/
structure TransactionDetail where
  txid : Hash
  timestamp : Nat
  blockHeight : Nat
  confirmations : Nat
  inputs : List InputDetail
  outputs : List (Option Address × Nat)
  feeZents : Nat
  txSizeBytes : Nat
  deriving DecidableEq

def TxInput.detail (E : Env) (utxo : UtxoSet) (i : TxInput) : InputDetail where
  previousTxid := i.prevTxHash
  previousOutputIndex := i.outputIndex
  senderAddress := Block.addressOf E i.publicKey
  amount := ((utxo.getUtxo i.outpoint).map (·.amount.zents)).getD 0

def TxOutput.recipient : TxOutput → Option Address × Nat
  | .standard address amount _ => (some address, amount.zents)
  | .burn amount _ => (none, amount.zents)

/-- `(current_height - block_height + 1) as u32`, or 1. -/
def confirmations (currentHeight blockHeight : Nat) : Nat :=
  if currentHeight ≥ blockHeight then (currentHeight - blockHeight + 1) % 2 ^ 32 else 1

def transactionDetail (E : Env) (utxo : UtxoSet) (currentHeight : Nat) (b : Block)
    (tx : Transaction) : TransactionDetail :=
  let inputs := tx.inputs.map (·.detail E utxo)
  let inputsSum := Wrapping.sum (2 ^ 64) (inputs.map (·.amount))
  let outputsSum := tx.totalOutputAmount.zents
  { txid := tx.txid E
    timestamp := b.header.timestamp
    blockHeight := b.header.blueScore
    confirmations := confirmations currentHeight b.header.blueScore
    inputs := inputs
    outputs := tx.outputs.map (·.recipient)
    feeZents := if inputsSum ≥ outputsSum then inputsSum - outputsSum else 0
    txSizeBytes := tx.encode.length % 2 ^ 32 }

/-- The reply of `get_block_detail`, without the difficulty as a float. -/
structure BlockDetail where
  blockHash : Hash
  height : Nat
  timestamp : Nat
  /-- The first output of the coinbase, or `unknown`. -/
  minerAddress : Option Address
  transactionCount : Nat
  transactions : List Hash
  deriving DecidableEq

def Block.minerAddress (b : Block) : Option Address :=
  match b.coinbase? with
  | some cb =>
    match cb.outputs.head? with
    | some (.standard address _ _) => some address
    | _ => none
  | none => none

def blockDetail (E : Env) (b : Block) : BlockDetail where
  blockHash := b.hash E
  height := b.header.blueScore
  timestamp := b.header.timestamp
  minerAddress := b.minerAddress
  transactionCount := b.transactions.length
  transactions := b.transactions.map (·.txid E)

/-! ## Walks -/

namespace Dag

/-- The parents of a stored block. -/
def parentsOf (d : Dag) (h : Hash) : List Hash := ((d.getBlock h).map (·.header.parents)).getD []

/-- All parents are pushed; `pop` takes the last one first. -/
def followAll (d : Dag) (_ : Finset Hash) (h : Hash) : List Hash := (d.parentsOf h).reverse

/-- The parents that are not visited are pushed. -/
def followNew (d : Dag) (visited : Finset Hash) (h : Hash) : List Hash :=
  ((d.parentsOf h).filter (· ∉ visited)).reverse

/-- Steps enough for a walk. -/
def walkFuel (d : Dag) (start : List Hash) : Nat :=
  DepthFirst.steps d.parentsOf d.db.blocks.keys start

/-- The walk from the selected tip, up to a block in which `f` finds something. -/
def findFromTip {ρ : Type*} (d : Dag) (f : Hash → Block → Option ρ) : Option ρ :=
  let start := d.getSelectedTip.toList
  match DepthFirst.run (DepthFirst.seek fun h => (d.getBlock h).bind (f h)) d.followAll
    (d.walkFuel start) start ∅ () with
  | .error r => some r
  | .ok _ => none

/-- The whole walk from the selected tip. -/
def foldFromTip {σ : Type*} (d : Dag) (f : σ → Block → σ) (s : σ) : σ :=
  let start := d.getSelectedTip.toList
  DepthFirst.final (DepthFirst.run
    (fun s h => .ok (((d.getBlock h).map (f s)).getD s)) d.followAll (d.walkFuel start) start ∅ s)

/-- The score of the selected tip, or 0. -/
def tipScore (d : Dag) : Nat := ((d.getSelectedTip.bind d.getHeader).map (·.blueScore)).getD 0

/-- The hashes that a walk from the selected tip visits, in order. -/
def reached (d : Dag) : List Hash :=
  DepthFirst.order d.followAll (d.walkFuel d.getSelectedTip.toList) d.getSelectedTip.toList ∅

end Dag

namespace Node

variable (E : Env) (n : Node)

/-- `get_transaction`. -/
def getTransaction (txid : Hash) : Option TransactionReply :=
  n.dag.findFromTip fun _ b =>
    (b.transactions.find? fun tx => tx.txid E = txid).map (transactionReply E b)

/-- `get_transaction_detail`. -/
def getTransactionDetail (txid : Hash) : Option TransactionDetail :=
  n.dag.findFromTip fun _ b =>
    (b.transactions.find? fun tx => tx.txid E = txid).map
      (transactionDetail E n.utxo n.dag.tipScore b)

/-- The hash that `get_block_detail` finds for a height. -/
def blockAtHeight (height : Nat) : Option Hash :=
  n.dag.findFromTip fun h b => if b.header.blueScore = height then some h else none

/-- `get_block_detail`, for an identifier that is a hash, or else a height. -/
def getBlockDetail (blockId : Hash ⊕ Nat) : Option BlockDetail :=
  let targetHash := match blockId with
    | .inl h => some h
    | .inr height => n.blockAtHeight height
  (targetHash.bind n.dag.getBlock).map (blockDetail E)

end Node

/-! ## What a walk visits -/

namespace Dag

variable {E : Env} {d : Dag} {b : Block} {h x tip : Hash}

/-- The tip and its past. -/
def UpTo (d : Dag) (tip h : Hash) : Prop := h = tip ∨ h ∈ d.past tip

theorem UpTo.parent {p : Hash} (hu : d.UpTo tip h) (hp : p ∈ d.getParents h) : d.UpTo tip p := by
  have hpast : p ∈ d.past h := parent_mem_past hp
  rcases hu with rfl | hu
  · exact .inr hpast
  · exact .inr (past_trans hpast hu)

theorem Wf.parentsOf_eq (hw : d.Wf E) : d.parentsOf = d.getParents := by
  funext h
  rw [parentsOf, getParents, hw.header, Option.map_map]
  rfl

theorem followAll_pushes (d : Dag) : DepthFirst.Pushes d.parentsOf d.followAll where
  sub _ _ _ hy := List.mem_reverse.1 hy
  all _ _ _ hy := .inr (List.mem_reverse.2 hy)
  length _ _ := (List.length_reverse).le

theorem followNew_pushes (d : Dag) : DepthFirst.Pushes d.parentsOf d.followNew where
  sub _ _ _ hy := (List.mem_filter.1 (List.mem_reverse.1 hy)).1
  all seen _ y hy := by
    by_cases hs : y ∈ seen
    · exact .inl hs
    · exact .inr (List.mem_reverse.2 (List.mem_filter.2 ⟨hy, decide_eq_true hs⟩))
  length _ _ := by
    rw [followNew, List.length_reverse]
    exact List.length_filter_le _ _

/-- **A walk** from some hashes visits them and their pasts, each hash once. -/
theorem walk_covers {push : Finset Hash → Hash → List Hash} (d : Dag)
    (hp : DepthFirst.Pushes d.parentsOf push) (start : List Hash) :
    DepthFirst.Covers d.parentsOf start ∅
      (DepthFirst.order push (d.walkFuel start) start ∅) := by
  refine DepthFirst.order_covers hp (fun h hh => ?_) start
  have hnone : d.getBlock h = none := Finmap.lookup_eq_none.2 fun hm => hh (Finmap.mem_keys.2 hm)
  rw [parentsOf, hnone]
  rfl

theorem reached_covers (d : Dag) :
    DepthFirst.Covers d.parentsOf d.getSelectedTip.toList ∅ d.reached :=
  d.walk_covers d.followAll_pushes _

/-- **A walk from the selected tip** visits it and its past. -/
theorem Wf.reached_iff (hw : d.Wf E) (ht : d.getSelectedTip = some tip) :
    h ∈ d.reached ↔ d.UpTo tip h := by
  have hmem := d.reached_covers.mem_iff (x := h)
  rw [ht, hw.parentsOf_eq] at hmem
  rw [hmem, Option.toList_some]
  simp only [List.mem_singleton, exists_eq_left]
  rfl

/-- The selected chain is up to its tip. -/
theorem Wf.chain_upTo {chain : List Hash} (hw : d.Wf E) (hs : (d.getBlock tip).isSome)
    (hc : d.Chain tip chain) : ∀ x ∈ chain, d.UpTo tip x := by
  rcases hc with ⟨-, rfl⟩ | ⟨-, hp⟩
  · exact List.forall_mem_nil _
  · have hall := hp.forall_mem (P := fun x => (d.getBlock x).isSome ∧ d.UpTo tip x)
      (fun h p hh hn => ?_) ⟨hs, .inl rfl⟩
    · exact fun x hx => (hall x hx).2
    · obtain ⟨b, hb⟩ := Option.isSome_iff_exists.1 hh.1
      have hpb := (hw.chainNext_some hb hn).1
      exact ⟨hw.parents h b hb p hpb, hh.2.parent (hw.getParents_eq hb ▸ hpb)⟩

theorem Wf.upTo_score_le (hw : d.Wf E) (hu : d.UpTo tip h) : d.score h ≤ d.score tip := by
  rcases hu with rfl | hp
  · exact Nat.le_refl _
  · exact (hw.past_score_lt hp).le

theorem Wf.tipScore_eq (hw : d.Wf E) (ht : d.getSelectedTip = some tip) :
    d.tipScore = d.score tip := by
  obtain ⟨b, hb⟩ := Option.isSome_iff_exists.1 (hw.selectedTip_stored ht)
  rw [tipScore, ht, Option.bind_some, hw.header, hb, hw.score_eq hb]
  rfl

/-! ## What a walk finds -/

section
variable {ρ σ : Type*} {f : Hash → Block → Option ρ} {r : ρ}

theorem findFromTip_eq (d : Dag) (f : Hash → Block → Option ρ) :
    d.findFromTip f = d.reached.findSome? fun h => (d.getBlock h).bind (f h) := by
  rw [findFromTip, DepthFirst.run_eq, DepthFirst.foldlM_seek]
  unfold reached
  cases List.findSome? (fun h => (d.getBlock h).bind (f h)) (DepthFirst.order d.followAll
    (d.walkFuel d.getSelectedTip.toList) d.getSelectedTip.toList ∅) <;> rfl

theorem findFromTip_some (hf : d.findFromTip f = some r) :
    ∃ h ∈ d.reached, ∃ b, d.getBlock h = some b ∧ f h b = some r := by
  rw [findFromTip_eq] at hf
  obtain ⟨h, hh, hr⟩ := List.exists_of_findSome?_eq_some hf
  obtain ⟨b, hb, hfb⟩ := Option.bind_eq_some_iff.1 hr
  exact ⟨h, hh, b, hb, hfb⟩

/-- Something is found exactly if a block up to the tip has it. -/
theorem Wf.findFromTip_isSome_iff (hw : d.Wf E) (ht : d.getSelectedTip = some tip) :
    (d.findFromTip f).isSome ↔
      ∃ h b, d.UpTo tip h ∧ d.getBlock h = some b ∧ (f h b).isSome := by
  rw [findFromTip_eq, List.findSome?_isSome_iff]
  constructor
  · rintro ⟨h, hh, hs⟩
    obtain ⟨r, hr⟩ := Option.isSome_iff_exists.1 hs
    obtain ⟨b, hb, hf⟩ := Option.bind_eq_some_iff.1 hr
    exact ⟨h, b, (hw.reached_iff ht).1 hh, hb, Option.isSome_iff_exists.2 ⟨r, hf⟩⟩
  · rintro ⟨h, b, hu, hb, hf⟩
    exact ⟨h, (hw.reached_iff ht).2 hu, by rw [hb]; exact hf⟩

/-- What is found, in another form. -/
theorem findFromTip_map (d : Dag) (f : Hash → Block → Option ρ) (g : ρ → σ) :
    d.findFromTip (fun h b => (f h b).map g) = (d.findFromTip f).map g := by
  rw [findFromTip_eq, findFromTip_eq, List.map_findSome?]
  refine congrArg₂ _ (funext fun h => ?_) rfl
  exact (Option.map_bind).symm

theorem foldFromTip_eq (d : Dag) (f : σ → Block → σ) (s : σ) :
    d.foldFromTip f s = (d.reached.filterMap d.getBlock).foldl f s := by
  rw [foldFromTip, DepthFirst.run_eq, DepthFirst.foldlM_ok, DepthFirst.final,
    List.foldl_filterMap]
  refine congrArg (fun g => d.reached.foldl g s) (funext fun s => funext fun h => ?_)
  cases d.getBlock h <;> rfl

end

end Dag

/-! ## Transactions and blocks -/

namespace Node

open Dag

variable {E : Env} {n : Node} {tip h txid : Hash} {b : Block} {a : Address}

/-- The block and the transaction that a search for an id ends at. -/
def locate (E : Env) (n : Node) (txid : Hash) : Option (Block × Transaction) :=
  n.dag.findFromTip fun _ b => (b.transactions.find? fun tx => tx.txid E = txid).map (b, ·)

theorem getTransaction_eq (E : Env) (n : Node) (txid : Hash) : n.getTransaction E txid =
    (n.locate E txid).map fun r => transactionReply E r.1 r.2 := by
  rw [locate, ← findFromTip_map]
  simp only [Option.map_map]
  rfl

theorem getTransactionDetail_eq (E : Env) (n : Node) (txid : Hash) :
    n.getTransactionDetail E txid =
      (n.locate E txid).map fun r => transactionDetail E n.utxo n.dag.tipScore r.1 r.2 := by
  rw [locate, ← findFromTip_map]
  simp only [Option.map_map]
  rfl

theorem locate_some {tx : Transaction} (hl : n.locate E txid = some (b, tx)) :
    ∃ h ∈ n.dag.reached, n.dag.getBlock h = some b ∧ tx ∈ b.transactions ∧ tx.txid E = txid := by
  obtain ⟨h, hh, c, hc, hf⟩ := findFromTip_some hl
  obtain ⟨tx', hfind, he⟩ := Option.map_eq_some_iff.1 hf
  cases he
  refine ⟨h, hh, hc, List.mem_of_find?_eq_some hfind, ?_⟩
  simpa using List.find?_some hfind

theorem locate_isSome_iff (hw : n.dag.Wf E) (ht : n.dag.getSelectedTip = some tip) :
    (n.locate E txid).isSome ↔ ∃ h b, n.dag.UpTo tip h ∧ n.dag.getBlock h = some b ∧
      ∃ tx ∈ b.transactions, tx.txid E = txid := by
  rw [locate, hw.findFromTip_isSome_iff ht]
  simp only [Option.isSome_map, List.find?_isSome, decide_eq_true_eq]

theorem confirmed_upTo (hw : n.dag.Wf E) (ht : n.dag.getSelectedTip = some tip)
    (hc : n.dag.Confirmed E txid) : ∃ h b, n.dag.UpTo tip h ∧ n.dag.getBlock h = some b ∧
      ∃ tx ∈ b.transactions, tx.txid E = txid := by
  obtain ⟨t, ht', h, hh, b, hb, hm⟩ := confirmed_iff.1 hc
  rw [ht] at ht'
  cases ht'
  obtain ⟨chain, hchain⟩ := hw.exists_chain (hw.selectedTip_stored ht)
  rw [getSelectedChain_eq hchain] at hh
  exact ⟨h, b, hw.chain_upTo (hw.selectedTip_stored ht) hchain h hh, hb, List.mem_map.1 hm⟩

/-- **The explorer finds the transactions of the selected tip and its past**, those of the selected
chain among them, and both queries answer for the same block. -/
theorem transaction_found (E : Env) (n : Node) (tip txid : Hash) (hn : n.Reachable E)
    (ht : n.dag.getSelectedTip = some tip) :
    ((n.getTransaction E txid).isSome ↔ ∃ h b, n.dag.UpTo tip h ∧ n.dag.getBlock h = some b ∧
      ∃ tx ∈ b.transactions, tx.txid E = txid) ∧
    (n.dag.Confirmed E txid → (n.getTransaction E txid).isSome) ∧
    ((n.getTransactionDetail E txid).isSome ↔ (n.getTransaction E txid).isSome) ∧
    ∀ r detail, n.getTransaction E txid = some r → n.getTransactionDetail E txid = some detail →
      ∃ b tx, n.dag.UpTo tip (b.hash E) ∧ n.dag.getBlock (b.hash E) = some b ∧
        tx ∈ b.transactions ∧ tx.txid E = txid ∧ r = transactionReply E b tx ∧
        detail = transactionDetail E n.utxo n.dag.tipScore b tx ∧
        b.header.blueScore ≤ n.dag.tipScore := by
  have hw := hn.sound.wf
  have hiff : (n.getTransaction E txid).isSome ↔ ∃ h b, n.dag.UpTo tip h ∧
      n.dag.getBlock h = some b ∧ ∃ tx ∈ b.transactions, tx.txid E = txid := by
    rw [getTransaction_eq, Option.isSome_map, locate_isSome_iff hw ht]
  refine ⟨hiff, fun hc => hiff.2 (confirmed_upTo hw ht hc), ?_, fun r detail hr hd => ?_⟩
  · rw [getTransaction_eq, getTransactionDetail_eq, Option.isSome_map, Option.isSome_map]
  · rw [getTransaction_eq] at hr
    obtain ⟨⟨b, tx⟩, hl, rfl⟩ := Option.map_eq_some_iff.1 hr
    rw [getTransactionDetail_eq, hl] at hd
    obtain ⟨h, hh, hb, htx, hid⟩ := locate_some hl
    have hu := (hw.reached_iff ht).1 hh
    have hle := hw.upTo_score_le hu
    rw [hw.score_eq hb, ← hw.tipScore_eq ht] at hle
    obtain rfl := hw.hash h b hb
    exact ⟨b, tx, hu, hb, htx, hid, rfl, (Option.some.inj hd).symm, hle⟩

/-! ## Addresses -/

/-- **A block is found by its height** exactly if a block up to the tip has it, and the reply is of one
that does. -/
theorem block_found (hn : n.Reachable E) (ht : n.dag.getSelectedTip = some tip) (height : Nat) :
    ((n.getBlockDetail E (.inr height)).isSome ↔ ∃ h b, n.dag.UpTo tip h ∧
      n.dag.getBlock h = some b ∧ b.header.blueScore = height) ∧
    ∀ r, n.getBlockDetail E (.inr height) = some r → r.height = height := by
  have hw := hn.sound.wf
  have hat : ∀ h, n.blockAtHeight height = some h →
      ∃ b, n.dag.getBlock h = some b ∧ b.header.blueScore = height := by
    intro h hf
    obtain ⟨x, -, b, hb, hx⟩ := findFromTip_some hf
    split at hx
    · rename_i hheight
      cases hx
      exact ⟨b, hb, hheight⟩
    · cases hx
  have hiff : (n.blockAtHeight height).isSome ↔ ∃ h b, n.dag.UpTo tip h ∧
      n.dag.getBlock h = some b ∧ b.header.blueScore = height := by
    rw [blockAtHeight, hw.findFromTip_isSome_iff ht]
    simp only [Option.isSome_ite]
  refine ⟨?_, fun r hr => ?_⟩
  · rw [← hiff, getBlockDetail, Option.isSome_map]
    cases hf : n.blockAtHeight height with
    | none => rfl
    | some h =>
      obtain ⟨b, hb, -⟩ := hat h hf
      rw [Option.bind_some, hb]
      rfl
  · obtain ⟨b, hb, rfl⟩ := Option.map_eq_some_iff.1 hr
    obtain ⟨h, hf, hbh⟩ := Option.bind_eq_some_iff.1 hb
    obtain ⟨c, hc, hheight⟩ := hat h hf
    rw [hbh] at hc
    cases hc
    exact hheight

end Node

open Sample in
/-- A merged block's coinbase is found, though it is on no block of the selected chain. -/
theorem transaction_found_merged :
    ¬(run [first, side, merging]).dag.Confirmed env ⟨1002⟩ ∧
      ((run [first, side, merging]).getTransaction env ⟨1002⟩).isSome := by
  have hfound := Node.transaction_found env (run [first, side, merging]) ⟨4⟩ ⟨1002⟩ (reachable_run _)
    (by decide +kernel)
  have hup : (run [first, side, merging]).dag.UpTo ⟨4⟩ ⟨3⟩ :=
    .inr (parent_mem_past (by decide +kernel))
  exact ⟨by decide +kernel, hfound.1.2 ⟨⟨3⟩, side, hup, by decide +kernel, _, List.mem_cons_self,
    by decide +kernel⟩⟩

end Zentra

import Mathlib.Logic.Relation
import ZentraChain.Node.Reorganize

/-!
# Connecting blocks, orphans and restarts (`node.rs`)

`connectBlock`, `acceptExternalBlock` and `tryConnectOrphans` on a `Node`, `Node.new` from a
database, and the runs of a node: `Step` is one call, `Reachable` the states reached from the
genesis node. The clock and the iteration order of the orphan map are parameters of a call.
-/

namespace Zentra

namespace Node

variable (E : Env)

/-! ## `connect_block` -/

/-- The checks of `connect_block` before it touches the DAG, and the GhostDAG data it then
stores. -/
def preCheck (d : Dag) (now : Nat) (b : Block) : Except Reject GhostdagData :=
  match validateBlockHeader E d now b.header with
  | .error x => .error x
  | .ok _ =>
    match validateBlockSelfContained E b with
    | .error x => .error x
    | .ok _ =>
      let expected := GhostdagManager.defaultK.processBlock d.getGhostdag b.header.parents
      if b.header.blueScore ≠ expected.blueScore then
        .error (.blueScore b.header.blueScore expected.blueScore)
      else if b.header.blueWork ≠ expected.blueWork then
        .error (.blueWork b.header.blueWork expected.blueWork)
      else .ok expected

/-- Store the GhostDAG data, then the block. -/
def insertBlock (n : Node) (b : Block) (gd : GhostdagData) : Node :=
  { n with
    dag := (n.dag.putGhostdag (b.hash E) gd).insertBlock E b
    log := .inserting n.toNodeState b :: n.log }

/-- The updates of a successful connection: mempool and history. -/
def connected (n : Node) (b : Block) : Node :=
  let h := n.blockHistory ++ [b]
  { n with
    mempool := n.mempool.removeConfirmed (b.transactions.map (·.txid E))
    blockHistory := if h.length > 100 then h.tail else h }

def connectBlock (now : Nat) (n : Node) (b : Block) : Bool × Node :=
  if (n.dag.getBlock (b.hash E)).isSome then (false, n)
  else
    match preCheck E n.dag now b with
    | .error _ => (false, n)
    | .ok gd =>
      let oldTip := n.dag.getSelectedTip
      let n₁ := n.insertBlock E b gd
      let newTip := n₁.dag.getSelectedTip.getD (b.hash E)
      if some newTip ≠ oldTip then
        match n₁.reorganize E oldTip newTip with
        | (n₂, .error _) => (false, n₂)
        | (n₂, .ok _) =>
          (true, connected E
            { n₂ with difficulty := n₂.dag.rebuildDifficultyHistory n₂.difficulty newTip } b)
      else (true, connected E n₁ b)

/-! ## Orphans -/

/-- Are all parents of the block stored? -/
def parentsStored (n : Node) (b : Block) : Bool :=
  b.header.parents.all fun p => (n.dag.getBlock p).isSome

/-- Take an orphan out and connect it. -/
def connectReady (clock : Hash → Nat) (n : Node) (b : Block) : Node :=
  let h := b.hash E
  let n := { n with
    orphans := n.orphans.filter fun o => o.hash E ≠ h
    wanted := n.wanted.erase h }
  (connectBlock E (clock h) n b).2

/-- Rounds over the orphans whose parents are stored. A round takes one out at least, so the
number of orphans is fuel enough (`tryConnectOrphans_done`). -/
def orphanRounds (clock : Hash → Nat) (order : List Block → List Block) : Nat → Node → Node
  | 0, n => n
  | fuel + 1, n =>
    let ready := (order n.orphans).filter (n.parentsStored ·)
    if ready.isEmpty then n
    else orphanRounds clock order fuel (ready.foldl (connectReady E clock) n)

def tryConnectOrphans (clock : Hash → Nat) (order : List Block → List Block) (n : Node) : Node :=
  orphanRounds E clock order n.orphans.length n

/-- Park a block and ask for its missing parents. -/
def parkOrphan (n : Node) (b : Block) (missing : List Hash) : Node :=
  { n with
    orphans :=
      if n.orphans.length < 10000 then (n.orphans.filter fun o => o.hash E ≠ b.hash E) ++ [b]
      else n.orphans
    wanted :=
      if n.wanted.card < 10000 then missing.foldl (fun w m => insert m w) n.wanted else n.wanted }

def acceptExternalBlock (clock : Hash → Nat) (order : List Block → List Block) (n : Node)
    (b : Block) : Bool × Node :=
  if (n.dag.getBlock (b.hash E)).isSome then (false, n)
  else
    match verifyBlockPow E b.header with
    | .error _ => (false, n)
    | .ok _ =>
      let missing := b.header.parents.filter fun p => ¬(n.dag.getBlock p).isSome
      if ¬missing.isEmpty then (false, n.parkOrphan E b missing)
      else
        match connectBlock E (clock (b.hash E)) n b with
        | (true, n') => (true, tryConnectOrphans E clock order n')
        | (false, n') => (false, n')

/-! ## `ZentraNode::new` -/

/-- The block the restart's walk goes to from the stored block `b` with hash `h`. -/
def replayNext (d : Dag) (h : Hash) (b : Block) : Option Hash :=
  match d.getGhostdag h with
  | some g => if g.selectedParent ≠ .zero then some g.selectedParent else b.header.parents.head?
  | none => b.header.parents.head?

/-- The blocks met on the restart's walk from `h`, newest first. -/
def replayPath (d : Dag) : Nat → Hash → List Block
  | 0, _ => []
  | fuel + 1, h =>
    if h = .zero then []
    else
      match d.getBlock h with
      | none => []
      | some b =>
        b :: match replayNext d h b with
          | some p => replayPath d fuel p
          | none => []

/-- Apply a block of the restart's path and credit its merge blocks, whatever comes of it. -/
def replayBlock (n : Node) (b : Block) : Node :=
  let merges := n.dag.mergeBlocks (b.hash E)
  let u := (n.utxo.applyBlock E b b.header.blueScore).1
  { n with
    utxo := (UtxoSet.creditMerges E merges u).1
    difficulty := n.difficulty.recordBlock b.header.laneId b.header.timestamp b.header.bits
    blockHistory := n.blockHistory ++ [b]
    log := .applied b merges n.utxo :: n.log }

/-- The node before the selected chain is replayed. -/
def fresh (db : Db) : Node where
  dag := (Dag.new db).initGenesis E
  utxo := .empty
  mempool := .new (maxTxsPerBlock * 10)
  difficulty := .newWithNetwork E.network
  orphans := []
  wanted := ∅
  blockHistory := []
  log := []

/-- The path from the selected tip that `ZentraNode::new` replays, oldest first. -/
def startPath (d : Dag) : List Block :=
  match d.getSelectedTip with
  | some tip => (replayPath d (d.db.blocks.keys.card + 1) tip).reverse
  | none => []

/-- `ZentraNode::new` on a database. -/
def new (db : Db) : Node :=
  let n := fresh E db
  let path := startPath n.dag
  let n :=
    if path.isEmpty then
      let genesis := Block.genesis E
      { n with
        utxo := (n.utxo.applyBlock E genesis 0).1
        blockHistory := [genesis]
        log := [.applied genesis [] n.utxo] }
    else path.foldl (replayBlock E) n
  { n with blockHistory := n.blockHistory.drop (n.blockHistory.length - 100) }

/-- Restart on the same database; the log goes on. -/
def restart (n : Node) : Node :=
  let m := new E n.dag.db
  { m with log := m.log ++ .restarted :: n.log }

/-! ## Runs -/

/-- A call on a node: a block from a peer, or a block of its own on stored parents. -/
inductive Step : Node → Node → Prop
  | accept (clock : Hash → Nat) (order : List Block → List Block) (n : Node) (b : Block) :
      (∀ l, (order l).Perm l) → Step n (acceptExternalBlock E clock order n b).2
  | connect (now : Nat) (n : Node) (b : Block) :
      n.parentsStored b = true → Step n (connectBlock E now n b).2

/-- The states reached by calls from genesis. -/
def Reachable (n : Node) : Prop := Relation.ReflTransGen (Step E) (new E .empty) n

/-- A call or a restart. -/
inductive LifeStep : Node → Node → Prop
  | call {n n' : Node} : Step E n n' → LifeStep n n'
  | restart (n : Node) : LifeStep n (restart E n)

/-- The states reached by calls and restarts from genesis. -/
def LifeReachable (n : Node) : Prop := Relation.ReflTransGen (LifeStep E) (new E .empty) n

end Node

/-! ## A sample network

For concrete runs: hashes are read off a field that the sample blocks and transactions choose
differently, and every proof of work and signature is good. -/

namespace Sample

def env : Env where
  network := .devnet
  hashTx tx := ⟨1000 + tx.lockTime⟩
  hashHeader h := ⟨1 + h.nonce⟩
  combine a b := ⟨Nat.pair a.val b.val⟩
  hashKey k := k
  verify _ _ _ := true
  powHash _ _ _ := ⟨0⟩
  txSize _ := 0

/-- The owner of every sample output. -/
def owner : Address := ⟨7, .devnet⟩

/-- A coinbase with transaction hash `1000 + n`. -/
def coinbase (n : Nat) (amounts : List Amount) : Transaction where
  version := 1
  txType := .coinbase
  inputs := []
  outputs := amounts.map fun a => .standard owner a []
  payload := []
  lockTime := n

/-- A transfer of whole outputs with transaction hash `1000 + n`. -/
def transfer (n : Nat) (inputs : List OutPoint) (amounts : List Amount) : Transaction where
  version := 1
  txType := .transfer
  inputs := inputs.map fun p => ⟨p.txHash, p.index, List.replicate 64 0, 7⟩
  outputs := amounts.map fun a => .standard owner a []
  payload := []
  lockTime := n

theorem hash_ne_zero (b : Block) : b.hash env ≠ .zero := fun h =>
  absurd (congrArg Hash.val h) (Nat.ne_of_gt (Nat.lt_add_right _ Nat.one_pos))

/-- A block with hash `1 + n`. -/
def block (n : Nat) (lane : LaneId) (parents : List Hash) (score work : Nat)
    (txs : List Transaction) : Block where
  header :=
    { version := blockVersion
      parents := parents
      merkleRoot := computeMerkleRoot env (txs.map (·.txid env))
      timestamp := 1717372800000 + n
      nonce := n
      laneId := lane
      bits := DifficultyEngine.genesisDifficulty
      blueScore := score
      blueWork := work
      pruningPoint := .zero }
  transactions := txs

/-- The subsidy of the first blocks. -/
def subsidy : Amount := ⟨initialRewardZents, initialRewardZents_le⟩

/-- The hash of the genesis block. -/
def genesisHash : Hash := ⟨1⟩

/-- An ordinary block on the genesis block. -/
def first : Block := block 1 .gpu [genesisHash] 1 1 [coinbase 1 [subsidy]]

/-- Peer blocks accepted one after the other, at the genesis time. -/
def accept (E : Env) (n : Node) (blocks : List Block) : Node :=
  blocks.foldl (fun n b => (n.acceptExternalBlock E (fun _ => 1717372800000) id b).2) n

/-- A node after some peer blocks. -/
def run (blocks : List Block) : Node := accept env (.new env .empty) blocks

theorem reachable_accept {E : Env} {n : Node} (hn : n.Reachable E) : ∀ blocks : List Block,
    (accept E n blocks).Reachable E := by
  intro blocks
  induction blocks generalizing n with
  | nil => exact hn
  | cons b bs ih => exact ih (hn.tail (.accept _ _ _ _ fun _ => .refl _))

theorem reachable_run (blocks : List Block) : (run blocks).Reachable env :=
  reachable_accept .refl blocks

end Sample

end Zentra

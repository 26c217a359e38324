import ZentraChain.Core.Mempool
import ZentraChain.Node.Validate

/-!
# The node's state and `reorganize` (`node.rs`)

`NodeState` is the state of `ZentraNode` that block connection reads or writes. A `Node` also keeps
a log, newest event first: it records what the code did and nothing reads it.

`reorganize` disconnects the old branch down to the first block of the new chain that lies on the
old one, then validates and connects the new branch; at the first failure it rolls back.
-/

namespace Zentra

structure NodeState where
  dag : Dag
  utxo : UtxoSet
  mempool : Mempool
  difficulty : DifficultyManager
  /-- Blocks waiting for a parent (a map keyed by their hash). -/
  orphans : List Block
  /-- Missing parents to fetch. -/
  wanted : Finset Hash
  /-- The last blocks accepted, oldest first. -/
  blockHistory : List Block

/-- What the log records. -/
inductive Event
  /-- `b` passed the checks of `connect_block` and enters the DAG of the state `before`. -/
  | inserting (before : NodeState) (b : Block)
  /-- `validate_block_transactions` returned `Ok` for `b` against `u`. -/
  | validated (b : Block) (u : UtxoSet)
  /-- `b` is applied to `u`, then the coinbases of `merges` are credited. -/
  | applied (b : Block) (merges : List Block) (u : UtxoSet)
  /-- The block `h` is disconnected. -/
  | disconnected (h : Hash)
  /-- The node restarts. -/
  | restarted

namespace Event

/-- The state and the block of an insertion. -/
def inserting? : Event → Option (NodeState × Block)
  | .inserting s b => some (s, b)
  | _ => none

def validated? : Event → Option (Block × UtxoSet)
  | .validated b u => some (b, u)
  | _ => none

def applied? : Event → Option (Block × List Block × UtxoSet)
  | .applied b ms u => some (b, ms, u)
  | _ => none

def disconnected? : Event → Option Hash
  | .disconnected h => some h
  | _ => none

end Event

structure Node extends NodeState where
  log : List Event

/-- Why `reorganize` fails. -/
inductive ReorgError
  /-- `missing block data for block {}` -/
  | missingData (h : Hash)
  /-- `missing undo data to disconnect: {}` -/
  | missingUndo (h : Hash)
  /-- `missing block to disconnect: {}` -/
  | missingDisconnect (h : Hash)
  /-- `failed to disconnect {}: {e}` -/
  | disconnect (h : Hash) (e : ZentraError)
  /-- `missing block to connect: {}` -/
  | missingConnect (h : Hash)
  /-- `transaction validation failed for block {}: {e}` -/
  | validation (h : Hash) (e : Reject)
  /-- `failed to apply block {} to UTXO: {e}` -/
  | apply (h : Hash) (e : ZentraError)
  deriving DecidableEq, Repr

namespace Dag

/-- `mergeset_blues_of`: the blue merge blocks recorded for `h`. -/
def mergesetBluesOf (d : Dag) (h : Hash) : List Hash :=
  ((d.getGhostdag h).map (·.mergesetBlues)).getD []

/-- The blue merge blocks recorded for `h` that are stored. -/
def mergeBlocks (d : Dag) (h : Hash) : List Block := (d.mergesetBluesOf h).filterMap d.getBlock

end Dag

namespace Node

variable (E : Env)

/-- `validate_block_transactions` against the current set. -/
def validate (n : Node) (b : Block) : Node × Except Reject Unit :=
  match validateBlockTransactions E b n.utxo with
  | .error x => (n, .error x)
  | .ok _ => ({ n with log := .validated b n.utxo :: n.log }, .ok ())

/-- `apply_block_with_merges` on the current set. -/
def applyBlockWithMerges (n : Node) (b : Block) : Node × Except ZentraError BlockUndoData :=
  let merges := n.dag.mergeBlocks (b.hash E)
  let r := n.utxo.applyBlockWithMerges E b merges
  ({ n with utxo := r.1, log := .applied b merges n.utxo :: n.log }, r.2)

/-- The disconnect loop. `done` are the blocks disconnected so far, last first. -/
def disconnectLoop : List Hash → Node → List Hash → Node × List Hash × Except ReorgError Unit
  | [], n, done => (n, done, .ok ())
  | h :: hs, n, done =>
    match n.dag.getUndo h with
    | none => (n, done, .error (.missingUndo h))
    | some undo =>
      match n.dag.getBlock h with
      | none => (n, done, .error (.missingDisconnect h))
      | some b =>
        match n.utxo.disconnectBlock E b undo with
        | .error e => (n, done, .error (.disconnect h e))
        | .ok u =>
          disconnectLoop hs { n with utxo := u, log := .disconnected h :: n.log } (h :: done)

/-- The connect loop. `done` are the blocks connected so far, last first. -/
def connectLoop : List Hash → Node → List Hash → Node × List Hash × Except ReorgError Unit
  | [], n, done => (n, done, .ok ())
  | h :: hs, n, done =>
    match n.dag.getBlock h with
    | none => (n, done, .error (.missingConnect h))
    | some b =>
      match n.validate E b with
      | (n', .error x) => (n', done, .error (.validation h x))
      | (n', .ok _) =>
        match n'.applyBlockWithMerges E b with
        | (n'', .error e) => (n'', done, .error (.apply h e))
        | (n'', .ok undo) =>
          connectLoop hs { n'' with dag := n''.dag.putUndo h undo } (h :: done)

/-- The rollback's first loop: disconnect what was connected, as far as that goes. -/
def undoConnected : List Hash → Node → Node
  | [], n => n
  | h :: hs, n =>
    match n.dag.getUndo h, n.dag.getBlock h with
    | some undo, some b =>
      match n.utxo.disconnectBlock E b undo with
      | .ok u => undoConnected hs { n with utxo := u, log := .disconnected h :: n.log }
      | .error _ => undoConnected hs n
    | _, _ => undoConnected hs n

/-- The rollback's second loop: apply again what was disconnected, without validating it. -/
def redoDisconnected : List Hash → Node → Node
  | [], n => n
  | h :: hs, n =>
    match n.dag.getBlock h with
    | none => redoDisconnected hs n
    | some b =>
      match n.applyBlockWithMerges E b with
      | (n', .ok undo) => redoDisconnected hs { n' with dag := n'.dag.putUndo h undo }
      | (n', .error _) => redoDisconnected hs n'

/-- The blocks of the old chain above the first block of the new chain that lies on it. -/
def toDisconnect (old new : List Hash) : List Hash :=
  match new.find? (· ∈ old) with
  | some ancestor => old.takeWhile (· ≠ ancestor)
  | none => old

/-- The blocks of the new chain above it, oldest first. -/
def toConnect (old new : List Hash) : List Hash := (new.takeWhile (· ∉ old)).reverse

/-- Move the UTXO set from the chain `old` to the chain `new`. -/
def switchChains (n : Node) (old new : List Hash) : Node × Except ReorgError Unit :=
  match disconnectLoop E (toDisconnect old new) n [] with
  | (n₁, disconnected, .error x) => (redoDisconnected E disconnected n₁, .error x)
  | (n₁, disconnected, .ok _) =>
    match connectLoop E (toConnect old new) n₁ [] with
    | (n₂, connected, .error x) =>
      (redoDisconnected E disconnected (undoConnected E connected n₂), .error x)
    | (n₂, _, .ok _) => (n₂, .ok ())

/-- The path of `reorganize` without an old tip: the new tip alone. -/
def connectFirst (n : Node) (newTip : Hash) : Node × Except ReorgError Unit :=
  match n.dag.getBlock newTip with
  | none => (n, .error (.missingData newTip))
  | some b =>
    match n.validate E b with
    | (n', .error x) => (n', .error (.validation newTip x))
    | (n', .ok _) =>
      match n'.applyBlockWithMerges E b with
      | (n'', .error e) => (n'', .error (.apply newTip e))
      | (n'', .ok undo) => ({ n'' with dag := n''.dag.putUndo newTip undo }, .ok ())

def reorganize (n : Node) (oldTip : Option Hash) (newTip : Hash) :
    Node × Except ReorgError Unit :=
  match oldTip with
  | none => connectFirst E n newTip
  | some old =>
    if old = newTip then (n, .ok ())
    else switchChains E n (n.dag.getSelectedChain old) (n.dag.getSelectedChain newTip)

end Node

end Zentra

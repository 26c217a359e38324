import ZentraChain.Lib.Dialogue
import ZentraChain.Node.Payout
import ZentraChain.Node.Peers
import ZentraChain.Node.Pull
import ZentraChain.Node.Share

/-!
# Sessions (`p2p_sync.rs`)

`sync_from_peer` is a program of the dialer, step by step, and `handle_inbound` what the listener does
with a message. Between them are two queues; threads of other sessions, the miner and the RPC change
both nodes between any two steps.

* `program`: the two as a dialogue.
* `session_in_step`: while no read has failed, every answer read is that to the question just asked, so
  no hash is struck off the list of wanted blocks if the listener had its block.
-/

namespace Zentra

namespace Session

/-! ## Messages -/

/-- What a dialer sends. -/
inductive Request
  | hello (net genesis : String) (height : Nat) (tip : Option Hash) (p2pPort : Option UInt64)
    (peers : List String)
  | newblock (block : Block)
  | addrs (addrs : List String)
  | stats (stat : PeerMinerStat)
  | poolshare (shares : List Block)
  | getblocks (locator : List Hash)
  | getblock (h : Hash)
  | getmempool
  | addtxs (txs : List Transaction)

/-- What a listener answers. -/
inductive Reply
  | hello (net genesis : String) (height : Nat) (tip : Option Hash) (peers : List String)
  | bye
  | statsAck (poolMode : Bool) (poolAddress : String)
  | blocks (blocks : List Block)
  | block (block : Option Block)
  | mempool (txs : List Transaction)
  | addtxsAck
  /-- the connection is closed -/
  | closed

/-- The messages that are answered. -/
def Request.asks : Request → Bool
  | hello .. | stats _ | getblocks _ | getblock _ | getmempool | addtxs _ => true
  | newblock _ | addrs _ | poolshare _ => false

/-- Is the frame read? Those without blocks and transactions are taken to be short. -/
def Request.arrives : Request → Bool
  | newblock b => (Message.newblock b).arrives
  | addtxs txs => (Message.addtxs txs).arrives
  | poolshare shares => 27 + listLength (shares.map (·.sizeBytes)) ≤ maxFrame
  | _ => true

/-- Is the frame read? -/
def Reply.arrives : Reply → Bool
  | blocks bs => (Message.blocks bs).arrives
  | block b => (Message.block b).arrives
  | mempool txs => (Message.mempool txs).arrives
  | closed => false
  | _ => true

/-! ## The two sides -/

/-- The parts of a node that a session reads and writes. -/
structure Host where
  node : Node
  manualPeers : List String
  maxPeerHeight : Nat
  poolMode : Bool
  pool : MiningPool
  seenShares : Finset Hash
  pendingShares : List Block
  learnedOperatorPool : String

/-- What is fixed during a session. -/
structure Site where
  net : String
  genesis : String
  p2pPort : Option UInt64
  /-- the dialer's address on the listener's socket -/
  ip : Option String
  /-- Is the listener one of `DEFAULT_SEED_PEERS`? -/
  seed : Bool
  /-- what the dialer reports of its mining -/
  stat : PeerMinerStat
  /-- when the block, share or transaction with this hash is handled -/
  clock : Hash → Nat
  now : Nat
  /-- the iteration orders of the orphans and the wanted hashes -/
  order : List Block → List Block
  listing : Finset Hash → List Hash

/-- `handle_inbound` in its loop, or after it. -/
structure Listener where
  host : Host
  serving : Bool

/-- An array of texts. -/
def texts (l : List String) : Value := .array (l.map .string)

variable (E : Env) (B : Bech32) (S : Site)

def Host.acceptBlock (h : Host) (b : Block) : Host :=
  { h with node := (Node.acceptExternalBlock E S.clock S.order h.node b).2 }

def Host.acceptTx (h : Host) (tx : Transaction) : Host :=
  { h with node := (h.node.acceptExternalTx E (S.clock (tx.txid E)) tx).2 }

def Host.creditShare (h : Host) (b : Block) : Host :=
  let n : PoolNode := ⟨h.node.dag, h.poolMode, h.pool, h.seenShares⟩
  let n' := (n.verifyAndCreditShare E B (S.clock (b.hash E)) b).1
  { h with pool := n'.pool, seenShares := n'.seenShares }

/-- A message that was read. -/
def Listener.handle (l : Listener) : Request → Option Reply × Listener
  | .hello net genesis _ _ p2pPort peers =>
    if net ≠ S.net ∨ genesis ≠ S.genesis then (some .bye, { l with serving := false })
    else
      let reached := PeerTable.addReachable l.host.manualPeers S.ip
        (.object [("p2p_port", .number p2pPort)])
      let h := { l.host with manualPeers := PeerTable.mergePeers reached (texts peers) }
      (some (.hello S.net S.genesis h.node.currentHeight h.node.dag.getSelectedTip
        (h.manualPeers.take 50)), { l with host := h })
  | .newblock b => (none, { l with host := l.host.acceptBlock E S b })
  | .addrs addrs =>
    (none, { l with host := { l.host with
      manualPeers := PeerTable.addAddrs l.host.manualPeers (.object [("addrs", texts addrs)]) } })
  | .stats stat =>
    let pool := l.host.pool.applyPeerStats E.network l.host.poolMode S.now stat
    (some (.statsAck l.host.poolMode pool.address), { l with host := { l.host with pool := pool } })
  | .poolshare shares =>
    (none, { l with host := (shares.take 500).foldl (Host.creditShare E B S) l.host })
  | .getblocks locator => (some (.blocks (l.host.node.dag.answer locator)), l)
  | .getblock h => (some (.block (l.host.node.dag.getBlock h)), l)
  | .getmempool => (some (.mempool l.host.node.mempoolSnapshot), l)
  | .addtxs txs => (some .addtxsAck, { l with host := txs.foldl (Host.acceptTx E S) l.host })

/-- The next message; one that is too long ends the loop, and then there are no answers. -/
def Listener.serve (l : Listener) (q : Request) : Option Reply × Listener :=
  if l.serving ∧ q.arrives then l.handle E B S q
  else (if q.asks then some .closed else none, { l with serving := false })

/-- Where `sync_from_peer` is. -/
inductive Phase
  | hello
  | helloWait
  | greeted (height : Nat) (tip : Option Hash) (peers : List String)
  | push (fromHeight : Nat)
  | pushing (batch : List Block) (short : Bool) (fromHeight : Nat)
  | addrs
  | stats
  | statsWait
  | learned (poolMode : Bool) (poolAddress : String)
  | shares
  | submit (shares : List Block)
  | pull
  | pullWait
  | batch (blocks : List Block) (short : Bool) (accepted : Nat)
  | round (left : Nat)
  | want (left : Nat) (hashes : List Hash) (gotAny : Bool)
  | wantWait (left : Nat) (h : Hash) (hashes : List Hash) (gotAny : Bool)
  | fetched (left : Nat) (h : Hash) (block : Option Block) (hashes : List Hash) (gotAny : Bool)
  | getmempool
  | mempoolWait
  | relay (txs : List Transaction)
  | offer
  | ackWait
  | done

/-- Is an answer read next? -/
def Phase.waiting : Phase → Bool
  | helloWait | statsWait | pullWait | wantWait .. | mempoolWait | ackWait => true
  | _ => false

/-! The phases after an answer; one of another type is taken for a bad one. -/

def Reply.greets (genesis : String) : Reply → Phase
  | hello _ theirs height tip peers => if theirs ≠ genesis then .done else .greeted height tip peers
  | _ => .done

def Reply.acknowledges : Reply → Phase
  | statsAck poolMode poolAddress => .learned poolMode poolAddress
  | _ => .shares

def Reply.brings : Reply → Phase
  | blocks bs => if bs.isEmpty then .round syncBatch else .batch bs (bs.length < syncBatch) 0
  | _ => .round syncBatch

def Reply.fetches (left : Nat) (h : Hash) (hashes : List Hash) (gotAny : Bool) : Reply → Phase
  | block b => .fetched left h b hashes gotAny
  | _ => .fetched left h none hashes gotAny

def Reply.relays : Reply → Phase
  | mempool txs => .relay txs
  | _ => .offer

open Dialogue in
/-- `sync_from_peer`. -/
def next : Phase → Host → Move Host Phase Request Reply
  | .hello, n =>
    .send (.hello S.net S.genesis n.node.currentHeight n.node.dag.getSelectedTip S.p2pPort
      (n.manualPeers.take 50)) .helloWait .done
  | .helloWait, _ => .recv (Reply.greets S.genesis) .done
  | .greeted height tip peers, n =>
    let known := match tip with
      | some t => (n.node.dag.getBlock t).isSome
      | none => false
    .work { n with
        manualPeers := PeerTable.mergePeers n.manualPeers (texts peers)
        maxPeerHeight := max n.maxPeerHeight height }
      (if n.node.currentHeight > height then .push (if known then height else 0) else .addrs)
  | .push fromHeight, n =>
    let batch := n.node.dag.blocksAbove fromHeight syncBatch
    .work n (if batch.isEmpty then .addrs else .pushing batch (batch.length < syncBatch) fromHeight)
  | .pushing (b :: bs) short _, _ =>
    .send (.newblock b) (.pushing bs short b.header.blueScore) .done
  | .pushing [] short fromHeight, n => .work n (if short then .addrs else .push fromHeight)
  | .addrs, n => .send (.addrs (n.manualPeers.take 50)) .stats .stats
  | .stats, _ => .send (.stats S.stat) .statsWait .statsWait
  | .statsWait, _ => .recv Reply.acknowledges .shares
  | .learned poolMode poolAddress, n =>
    .work { n with
        learnedOperatorPool :=
          if S.seed ∧ poolMode ∧ poolAddress ≠ "" then poolAddress else n.learnedOperatorPool }
      .shares
  | .shares, n => .work { n with pendingShares := [] } (.submit n.pendingShares)
  | .submit shares, n =>
    if shares.isEmpty then .work n .pull else .send (.poolshare (shares.take 200)) .pull .pull
  | .pull, n => .send (.getblocks n.node.dag.locator) .pullWait (.round syncBatch)
  | .pullWait, _ => .recv Reply.brings (.round syncBatch)
  | .batch (b :: bs) short accepted, n =>
    let r := Node.acceptExternalBlock E S.clock S.order n.node b
    .work { n with node := r.2 } (.batch bs short (if r.1 then accepted + 1 else accepted))
  | .batch [] short accepted, n =>
    .work n (if accepted = 0 then .round syncBatch else if short then .round syncBatch else .pull)
  | .round 0, n => .work n .getmempool
  | .round (left + 1), n =>
    let want := S.listing n.node.wanted
    .work n (if want.isEmpty then .getmempool else .want left want false)
  | .want left (h :: hashes) gotAny, _ =>
    .send (.getblock h) (.wantWait left h hashes gotAny) (.want left hashes gotAny)
  | .want left [] gotAny, n =>
    .work { n with node := Node.tryConnectOrphans E S.clock S.order n.node }
      (if gotAny then .round left else .getmempool)
  | .wantWait left h hashes gotAny, _ =>
    .recv (Reply.fetches left h hashes gotAny) (.want left hashes gotAny)
  | .fetched left h block hashes gotAny, n =>
    match block.filter fun b => b.hash E = h with
    | some b =>
      let m := (Node.acceptExternalBlock E S.clock S.order n.node b).2
      .work { n with node := { m with wanted := m.wanted.erase h } } (.want left hashes true)
    | none =>
      .work { n with node := { n.node with wanted := n.node.wanted.erase h } }
        (.want left hashes gotAny)
  | .getmempool, _ => .send .getmempool .mempoolWait .mempoolWait
  | .mempoolWait, _ => .recv Reply.relays .offer
  | .relay (tx :: txs), n => .work (n.acceptTx E S tx) (.relay txs)
  | .relay [], n => .work n .offer
  | .offer, n =>
    if n.node.mempoolSnapshot.isEmpty then .work n .done
    else .send (.addtxs n.node.mempoolSnapshot) .ackWait .ackWait
  | .ackWait, _ => .recv (fun _ => .done) .done
  | .done, _ => .stop

/-! ## The dialogue -/

theorem Listener.serve_asks (l : Listener) (q : Request) :
    (l.serve E B S q).1.isSome = q.asks := by
  unfold Listener.serve
  split_ifs with hserving hasks
  · cases q with
    | hello net genesis height tip p2pPort peers =>
      simp only [Listener.handle]
      split_ifs <;> rfl
    | _ => rfl
  · exact hasks.symm
  · exact (Bool.not_eq_true _ ▸ hasks : q.asks = false).symm

/-- No answer is waited for on either branch. -/
theorem Phase.not_waiting_ite {c : Prop} [Decidable c] {w w' : Phase} (h : w.waiting = false)
    (h' : w'.waiting = false) : (if c then w else w').waiting = false := by
  split_ifs
  · exact h
  · exact h'

theorem Reply.greets_waiting (genesis : String) (r : Reply) : (r.greets genesis).waiting = false := by
  cases r with
  | hello => exact Phase.not_waiting_ite rfl rfl
  | _ => rfl

theorem Reply.acknowledges_waiting (r : Reply) : r.acknowledges.waiting = false := by cases r <;> rfl

theorem Reply.brings_waiting (r : Reply) : r.brings.waiting = false := by
  cases r with
  | blocks => exact Phase.not_waiting_ite rfl rfl
  | _ => rfl

theorem Reply.fetches_waiting {left : Nat} {h : Hash} {hashes : List Hash} {gotAny : Bool}
    (r : Reply) : (r.fetches left h hashes gotAny).waiting = false := by cases r <;> rfl

theorem Reply.relays_waiting (r : Reply) : r.relays.waiting = false := by cases r <;> rfl

theorem next_disciplined (w : Phase) (n : Host) :
    (next E S w n).Disciplined Request.asks Phase.waiting w := by
  cases w with
  | helloWait => exact ⟨rfl, Reply.greets_waiting _, rfl⟩
  | statsWait => exact ⟨rfl, Reply.acknowledges_waiting, rfl⟩
  | pullWait => exact ⟨rfl, Reply.brings_waiting, rfl⟩
  | wantWait => exact ⟨rfl, Reply.fetches_waiting, rfl⟩
  | mempoolWait => exact ⟨rfl, Reply.relays_waiting, rfl⟩
  | ackWait => exact ⟨rfl, fun _ => rfl, rfl⟩
  | greeted | push => exact ⟨rfl, Phase.not_waiting_ite rfl rfl⟩
  | pushing batch =>
    cases batch with
    | nil => exact ⟨rfl, Phase.not_waiting_ite rfl rfl⟩
    | cons => exact ⟨rfl, rfl⟩
  | submit shares =>
    simp only [next]
    split_ifs
    · exact ⟨rfl, rfl⟩
    · exact ⟨rfl, rfl⟩
  | batch blocks =>
    cases blocks with
    | nil => exact ⟨rfl, Phase.not_waiting_ite rfl (Phase.not_waiting_ite rfl rfl)⟩
    | cons => exact ⟨rfl, rfl⟩
  | round left =>
    cases left with
    | zero => exact ⟨rfl, rfl⟩
    | succ => exact ⟨rfl, Phase.not_waiting_ite rfl rfl⟩
  | want left hashes =>
    cases hashes with
    | nil => exact ⟨rfl, Phase.not_waiting_ite rfl rfl⟩
    | cons => exact ⟨rfl, rfl⟩
  | fetched left h block =>
    simp only [next]
    split
    · exact ⟨rfl, rfl⟩
    · exact ⟨rfl, rfl⟩
  | relay txs => cases txs <;> exact ⟨rfl, rfl⟩
  | offer =>
    simp only [next]
    split_ifs
    · exact ⟨rfl, rfl⟩
    · exact ⟨rfl, rfl⟩
  | done => rfl
  | _ => exact ⟨rfl, rfl⟩

/-- A session of a dialer at `S` with a listener at `T`. -/
def program (T : Site) : Dialogue.Program Host Listener Phase Request Reply where
  next := next E S
  serve := Listener.serve E B T
  asks := Request.asks
  readable := Reply.arrives
  waiting := Phase.waiting
  serve_asks := Listener.serve_asks E B T
  disciplined := next_disciplined E S

/-! ## What a step does -/

/-- Is an answer to `getblock` at hand? -/
def Phase.fetching : Phase → Bool
  | fetched .. => true
  | _ => false

/-- The question whose answer is read in a phase. -/
def Phase.Asks : Phase → Request → Prop
  | helloWait, .hello .. | statsWait, .stats _ | pullWait, .getblocks _ | mempoolWait, .getmempool
  | ackWait, .addtxs _ => True
  | wantWait _ h _ _, .getblock h' => h' = h
  | _, _ => False

/-- The answers of the type that is read in a phase. -/
def Phase.Fits : Phase → Reply → Prop
  | helloWait, .hello .. | helloWait, .bye | statsWait, .statsAck .. | pullWait, .blocks _
  | wantWait .., .block _ | mempoolWait, .mempool _ | ackWait, .addtxsAck => True
  | _, _ => False

/-- The work of a dialer. -/
inductive Works (n : Host) : Host → Prop
  | aside {n' : Host} : n'.node = n.node → n'.seenShares = n.seenShares →
    (n'.manualPeers = n.manualPeers ∨
      ∃ peers, n'.manualPeers = PeerTable.mergePeers n.manualPeers (texts peers)) → Works n n'
  | accept (b : Block) : Works n (n.acceptBlock E S b)
  | connect : Works n { n with node := Node.tryConnectOrphans E S.clock S.order n.node }
  | fetch (b : Block) (h : Hash) : Works n { n with node :=
      { (n.acceptBlock E S b).node with wanted := (n.acceptBlock E S b).node.wanted.erase h } }
  | strike (h : Hash) : Works n { n with node := { n.node with wanted := n.node.wanted.erase h } }
  | relay (tx : Transaction) : Works n (n.acceptTx E S tx)

open Dialogue in
/-- What can be next. -/
def Spec (w : Phase) (n : Host) : Move Host Phase Request Reply → Prop
  | .send q ok err => ok.fetching = false ∧ err.fetching = false ∧ (q.asks = true → ok.Asks q)
  | .recv ok err => err.fetching = false ∧ ∀ r, (ok r).fetching = true →
    ∃ left h hashes gotAny, w = .wantWait left h hashes gotAny ∧ ok r = r.fetches left h hashes gotAny
  | .work n' w' => w'.fetching = false ∧ Works E S n n'
  | .stop => True

section
variable {E B S}

theorem Phase.not_fetching_ite {c : Prop} [Decidable c] {w w' : Phase} (h : w.fetching = false)
    (h' : w'.fetching = false) : (if c then w else w').fetching = false := by
  split_ifs
  · exact h
  · exact h'

theorem Works.refl (n : Host) : Works E S n n := .aside rfl rfl (.inl rfl)

theorem next_spec (w : Phase) (n : Host) : Spec E S w n (next E S w n) := by
  have hnone : ∀ {w : Phase} {P : Prop}, w.fetching = false → w.fetching = true → P := by
    intro w P h h'
    exact Bool.noConfusion (h.symm.trans h')
  cases w with
  | hello | stats | pull | getmempool => exact ⟨rfl, rfl, fun _ => trivial⟩
  | addrs => exact ⟨rfl, rfl, nofun⟩
  | helloWait =>
    refine ⟨rfl, fun r => hnone ?_⟩
    cases r with
    | hello => exact Phase.not_fetching_ite rfl rfl
    | _ => rfl
  | statsWait => exact ⟨rfl, fun r => hnone (by cases r <;> rfl)⟩
  | pullWait =>
    refine ⟨rfl, fun r => hnone ?_⟩
    cases r with
    | blocks => exact Phase.not_fetching_ite rfl rfl
    | _ => rfl
  | wantWait left h hashes gotAny => exact ⟨rfl, fun r _ => ⟨left, h, hashes, gotAny, rfl, rfl⟩⟩
  | mempoolWait => exact ⟨rfl, fun r => hnone (by cases r <;> rfl)⟩
  | ackWait => exact ⟨rfl, fun r => hnone rfl⟩
  | greeted height tip peers =>
    exact ⟨Phase.not_fetching_ite rfl rfl, .aside rfl rfl (.inr ⟨peers, rfl⟩)⟩
  | push => exact ⟨Phase.not_fetching_ite rfl rfl, .refl n⟩
  | pushing batch =>
    cases batch with
    | nil => exact ⟨Phase.not_fetching_ite rfl rfl, .refl n⟩
    | cons => exact ⟨rfl, rfl, nofun⟩
  | learned => exact ⟨rfl, .aside rfl rfl (.inl rfl)⟩
  | shares => exact ⟨rfl, .aside rfl rfl (.inl rfl)⟩
  | submit shares =>
    simp only [next]
    split_ifs
    · exact ⟨rfl, .refl n⟩
    · exact ⟨rfl, rfl, nofun⟩
  | batch blocks =>
    cases blocks with
    | nil => exact ⟨Phase.not_fetching_ite rfl (Phase.not_fetching_ite rfl rfl), .refl n⟩
    | cons b => exact ⟨rfl, .accept b⟩
  | round left =>
    cases left with
    | zero => exact ⟨rfl, .refl n⟩
    | succ => exact ⟨Phase.not_fetching_ite rfl rfl, .refl n⟩
  | want left hashes =>
    cases hashes with
    | nil => exact ⟨Phase.not_fetching_ite rfl rfl, .connect⟩
    | cons => exact ⟨rfl, rfl, fun _ => rfl⟩
  | fetched left h block =>
    simp only [next]
    split
    · rename_i b hb
      exact ⟨rfl, .fetch b h⟩
    · exact ⟨rfl, .strike h⟩
  | relay txs =>
    cases txs with
    | nil => exact ⟨rfl, .refl n⟩
    | cons tx => exact ⟨rfl, .relay tx⟩
  | offer =>
    simp only [next]
    split_ifs
    · exact ⟨rfl, .refl n⟩
    · exact ⟨rfl, rfl, fun _ => trivial⟩
  | done => trivial

/-! ## The nodes -/

variable {T : Site} {w w' : Phase} {n n' : Host} {l : Listener} {q : Request}

theorem acceptBlock_moves (ho : ∀ l, (S.order l).Perm l) (n : Host) (b : Block) :
    Node.Moves E n.node (n.acceptBlock E S b).node :=
  (Node.Step.accept S.clock S.order n.node b ho).moves

/-- A transaction is pooled, or nothing happens. -/
theorem acceptExternalTx_cases (now : Nat) (n : Node) (tx : Transaction) :
    (n.acceptExternalTx E now tx).2 = n ∨ ∃ fee m, n.mempool.addTransaction E now tx fee = .ok m ∧
      (n.acceptExternalTx E now tx).2 = { n with mempool := m } := by
  unfold Node.acceptExternalTx
  split_ifs
  · exact .inl rfl
  · exact .inl rfl
  · split
    · exact .inl rfl
    · split
      · exact .inl rfl
      · dsimp only
        split_ifs
        · exact .inl rfl
        · exact .inl rfl
        · split
          · rename_i m hm
            exact .inr ⟨_, m, hm, rfl⟩
          · exact .inl rfl

theorem acceptTx_moves (n : Host) (tx : Transaction) :
    Node.Moves E n.node (n.acceptTx E S tx).node := by
  unfold Host.acceptTx
  obtain heq | ⟨fee, m, -, heq⟩ := acceptExternalTx_cases (S.clock (tx.txid E)) n.node tx
  · rw [heq]
  · rw [heq]
    exact .single (.blind ⟨rfl, rfl, rfl⟩)

theorem acceptTxs_moves : ∀ (txs : List Transaction) (n : Host),
    Node.Moves E n.node (txs.foldl (Host.acceptTx E S) n).node
  | [], _ => .refl
  | tx :: txs, n => (acceptTx_moves n tx).trans (acceptTxs_moves txs _)

theorem creditShares_node : ∀ (shares : List Block) (n : Host),
    (shares.foldl (Host.creditShare E B S) n).node = n.node
  | [], _ => rfl
  | b :: shares, n => creditShares_node shares (n.creditShare E B S b)

theorem serve_moves (ho : ∀ l, (S.order l).Perm l) (l : Listener) (q : Request) :
    Node.Moves E l.host.node (l.serve E B S q).2.host.node := by
  unfold Listener.serve
  split_ifs
  · cases q with
    | hello =>
      simp only [Listener.handle]
      split_ifs
      · exact .refl
      · exact .refl
    | newblock b => exact acceptBlock_moves ho l.host b
    | poolshare shares =>
      show Node.Moves E l.host.node ((shares.take 500).foldl (Host.creditShare E B S) l.host).node
      rw [creditShares_node]
    | addtxs txs => exact acceptTxs_moves txs l.host
    | _ => exact .refl
  · exact .refl
  · exact .refl

/-! ## In step -/

theorem serve_getblock (l : Listener) (h : Hash) :
    (l.serve E B S (.getblock h)).1 = some .closed ∨
      (l.serve E B S (.getblock h)).1 = some (.block (l.host.node.dag.getBlock h)) := by
  unfold Listener.serve
  split_ifs with hs ha
  · exact .inr rfl
  · exact .inl rfl
  · exact absurd rfl ha

/-- The last question, while nothing has failed, and the answer that is at hand. -/
structure Talk (s : Dialogue.State Host Listener Phase Request Reply) : Prop where
  question : s.phase.waiting = true → s.missed = 0 → s.unasked = 0 →
    ∃ q, s.asked.getLast? = some q ∧ s.phase.Asks q
  answer : ∀ left h block hashes gotAny, s.phase = .fetched left h block hashes gotAny →
    s.missed = 0 → s.unasked = 0 → s.asked.getLast? = some (.getblock h) ∧
      ∃ r, s.read.getLast? = some r ∧ r.fetches left h hashes gotAny = s.phase

/-- Nothing is known between questions. -/
theorem Talk.of_idle {s : Dialogue.State Host Listener Phase Request Reply}
    (hw : s.phase.waiting = false) (hf : s.phase.fetching = false) : Talk s where
  question := fun h => Bool.noConfusion (hw.symm.trans h)
  answer := fun left h block hashes gotAny hp => by
    rw [hp] at hf
    cases hf

variable {A : Host → Host → Prop} {C : Listener → Listener → Prop}
  {s t : Dialogue.State Host Listener Phase Request Reply}

theorem Talk.step (ht : Talk s) (h : Dialogue.Step (program E B S T) A C s t) : Talk t := by
  cases h with
  | @send q ok err h =>
    have hs := next_spec (E := E) (S := S) s.phase s.client
    rw [show next E S s.phase s.client = _ from h] at hs
    obtain ⟨-, hok⟩ := Dialogue.Program.send_waiting h
    refine ⟨fun hw _ _ => ⟨q, ?_, hs.2.2 (hok.symm.trans hw)⟩, fun _ _ _ _ _ hp => ?_⟩
    · have hq : q.asks = true := hok.symm.trans hw
      show (if q.asks = true then s.asked ++ [q] else s.asked).getLast? = some q
      rw [if_pos hq, List.getLast?_concat]
    · have hf := hs.1
      rw [show ok = _ from hp] at hf
      cases hf
  | @sendFails q ok err h =>
    have hs := next_spec (E := E) (S := S) s.phase s.client
    rw [show next E S s.phase s.client = _ from h] at hs
    refine ⟨fun hw _ hu => ?_, fun _ _ _ _ _ hp => ?_⟩
    · change (if err.waiting = true then s.unasked + 1 else s.unasked) = 0 at hu
      rw [if_pos hw] at hu
      cases hu
    · have hf := hs.2.1
      rw [show err = _ from hp] at hf
      cases hf
  | @recv ok err r rs h hr hread =>
    have hs := next_spec (E := E) (S := S) s.phase s.client
    rw [show next E S s.phase s.client = _ from h] at hs
    obtain ⟨hw, hok, -⟩ := Dialogue.Program.recv_waiting h
    refine ⟨fun hw' => Bool.noConfusion ((hok r).symm.trans hw'), ?_⟩
    intro left x block hashes gotAny hp hm hu
    change ok r = .fetched left x block hashes gotAny at hp
    obtain ⟨left', x', hashes', gotAny', hphase, hfetch⟩ := hs.2 r (by rw [hp]; rfl)
    obtain ⟨q, hq, hasks⟩ := ht.question hw hm hu
    rw [hphase] at hasks
    have hsame : left = left' ∧ x = x' ∧ hashes = hashes' ∧ gotAny = gotAny' := by
      rw [hp] at hfetch
      cases r <;> simp only [Reply.fetches, Phase.fetched.injEq] at hfetch <;> simp [hfetch]
    obtain ⟨rfl, rfl, rfl, rfl⟩ := hsame
    refine ⟨?_, r, List.getLast?_concat, hfetch.symm⟩
    cases q with
    | getblock y =>
      rw [show y = x from hasks] at hq
      exact hq
    | _ => exact hasks.elim
  | @recvFails ok err h =>
    exact ⟨fun _ hm => absurd hm (Nat.succ_ne_zero _), fun _ _ _ _ _ _ hm => absurd hm (Nat.succ_ne_zero _)⟩
  | @work a w h =>
    have hs := next_spec (E := E) (S := S) s.phase s.client
    rw [show next E S s.phase s.client = _ from h] at hs
    exact .of_idle (Dialogue.Program.work_waiting h).2 hs.1
  | serve hq => exact ⟨ht.question, ht.answer⟩
  | client h => exact ⟨ht.question, ht.answer⟩
  | server h => exact ⟨ht.question, ht.answer⟩

theorem Talk.run (ht : Talk s) (h : Dialogue.Run (program E B S T) A C s t) : Talk t := by
  induction h with
  | refl => exact ht
  | tail _ hst ih => exact ih.step hst

/-- The block at hand is what the listener had stored under the wanted hash. -/
theorem Talk.block (ht : Talk s) (hi : Dialogue.InStep (program E B S T) s) (hm : s.missed = 0)
    (hu : s.unasked = 0) {left : Nat} {h : Hash} {block : Option Block} {hashes : List Hash}
    {gotAny : Bool} (hp : s.phase = .fetched left h block hashes gotAny) :
    ∃ q m, (q, m) ∈ s.served ∧ block = m.host.node.dag.getBlock h := by
  obtain ⟨hlast, r, hr, hfetch⟩ := ht.answer left h block hashes gotAny hp hm hu
  have hcount := hi.count
  rw [hm, hu, show (program E B S T).waiting s.phase = false by rw [hp]; rfl] at hcount
  have hlen : s.asked.length = s.read.length := by simpa using hcount
  rw [List.getLast?_eq_getElem?] at hlast hr
  obtain ⟨q, m, hq, hserved, hserve⟩ := hi.answered hr
  rw [← hlen, hlast] at hq
  obtain rfl := Option.some.inj hq
  refine ⟨_, m, List.mem_of_getElem? hserved, ?_⟩
  have hread : r.arrives = true := hi.readable r (List.mem_of_getElem? hr)
  change (m.serve E B T (.getblock h)).1 = some r at hserve
  rcases serve_getblock m h with hm | hm
  · -- nothing is read from a closed connection
    rw [hserve] at hm
    rw [Option.some.inj hm] at hread
    cases hread
  · rw [hserve] at hm
    rw [Option.some.inj hm, hp] at hfetch
    exact (Phase.fetched.inj hfetch).2.2.1.symm

end

end Session

namespace Sample

open Session

/-- Two nodes of one network. -/
def site : Site where
  net := "devnet"
  genesis := "1"
  p2pPort := some 16110
  ip := some "10.0.0.1"
  seed := false
  stat := ⟨0, false, ""⟩
  clock := fun _ => 1717372800000
  now := 1717372800000
  order := id
  listing := fun _ => []

def host (blocks : List Block) : Host :=
  ⟨run blocks, [], 0, false, .new "" "zentradev1pool" 0, ∅, [], ""⟩

end Sample

end Zentra

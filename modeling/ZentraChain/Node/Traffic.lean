import ZentraChain.Core.MempoolWf
import ZentraChain.Node.Mining
import ZentraChain.Node.Orphans
import ZentraChain.Node.Session
import ZentraChain.Node.ShareQueue

/-!
# Under any traffic (`node.rs`, `p2p_sync.rs`)

A node answers any number of peers and dials others, while it mines. Each peer sends whatever fits in a
frame, and sessions fail at any time. What the node keeps in memory besides its database, the members of
its pool and the peers that its operator adds stays within fixed bounds.

* `Host.Bounded`: the bounds.
* `next_bounded`, `serve_bounded`: what one step of a session does to them.
* `memory_bounded`: they hold in every run.
-/

namespace Zentra

/-! ## The mempool -/

namespace Mempool

variable {E : Env} {m : Mempool}

/-- The indexes agree, and hold so many transactions at most. -/
structure Bounded (E : Env) (m : Mempool) : Prop where
  wf : Wf E m
  maxSize : m.maxSize = maxTxsPerBlock * 10

@[simp] theorem maxSize_removeTransaction (m : Mempool) (txid : Hash) :
    (m.removeTransaction txid).maxSize = m.maxSize := by
  unfold removeTransaction
  split <;> rfl

@[simp] theorem maxSize_removeAll (txids : List Hash) (m : Mempool) :
    (txids.foldl (fun m txid => m.removeTransaction txid) m).maxSize = m.maxSize := by
  induction txids generalizing m with
  | nil => rfl
  | cons txid txids ih => simp [ih]

theorem maxSize_step (E : Env) (m : Mempool) (c : MempoolCall) :
    (Mempool.step E m c).maxSize = m.maxSize := by
  cases c with
  | add tx fee now =>
    simp only [Mempool.step]
    cases hadd : m.addTransaction E now tx fee with
    | error => rfl
    | ok m' => rw [(addTransaction_ok hadd).2.2.2]
  | _ => simp [Mempool.step, removeConfirmed, evictOlderThan, clear]

theorem Bounded.step (h : Bounded E m) (c : MempoolCall) : Bounded E (Mempool.step E m c) :=
  ⟨h.wf.step c, (maxSize_step E m c).trans h.maxSize⟩

theorem Bounded.size (h : Bounded E m) : m.size ≤ maxTxsPerBlock * 10 := h.maxSize ▸ h.wf.size

end Mempool

/-! ## The node -/

/-- A block that a frame can hold. -/
def Block.Framed (b : Block) : Prop := 24 + 2 * b.sizeBytes ≤ maxFrame

/-- The parents that a frame can hold. -/
def maxFrameParents : Nat := 65531

theorem Block.Framed.parents {b : Block} (h : b.Framed) :
    b.header.parents.length ≤ maxFrameParents := by
  unfold Framed maxFrame at h
  rw [b.sizeBytes_eq] at h
  unfold maxFrameParents
  omega

namespace Node

variable {E : Env} {n n' : Node} {b : Block} {now : Nat}

/-- What a node keeps besides its database. The last block that is parked can have many parents. -/
structure Bounded (E : Env) (n : Node) : Prop where
  mempool : n.mempool.Bounded E
  orphans : n.orphans.length ≤ 10000
  hashes : (n.orphans.map (·.hash E)).Nodup
  framed : ∀ o ∈ n.orphans, o.Framed
  wanted : n.wanted.card ≤ 9999 + maxFrameParents
  history : n.blockHistory.length ≤ 100

theorem Bounded.call (h : Bounded E n) (c : MempoolCall) :
    Bounded E { n with mempool := n.mempool.step E c } :=
  { h with mempool := h.mempool.step c }

theorem Bounded.erase_wanted (h : Bounded E n) (x : Hash) :
    Bounded E { n with wanted := n.wanted.erase x } :=
  { h with wanted := Finset.card_erase_le.trans h.wanted }

theorem Bounded.filter_orphans (h : Bounded E n) (p : Block → Bool) :
    Bounded E { n with orphans := n.orphans.filter p } :=
  { h with
    orphans := (List.length_filter_le _ _).trans h.orphans
    hashes := h.hashes.sublist (List.filter_sublist.map _)
    framed := fun o ho => h.framed o (List.mem_of_mem_filter ho) }

theorem Bounded.ledger (h : Bounded E n) (hl : Ledger E n n') : Bounded E n' := by
  obtain ⟨m, u, evs, rfl, -⟩ := hl
  exact ⟨h.mempool, h.orphans, h.hashes, h.framed, h.wanted, h.history⟩

theorem Bounded.connected (h : Bounded E n) : Bounded E (connected E n b) := by
  refine ⟨h.mempool.step (.removeConfirmed _), h.orphans, h.hashes, h.framed, h.wanted, ?_⟩
  have hhistory := h.history
  simp only [Node.connected]
  split_ifs with hlong
  · simp at hlong ⊢
    omega
  · omega

theorem Bounded.connectBlock (h : Bounded E n) (now : Nat) (b : Block) :
    Bounded E (connectBlock E now n b).2 := by
  have ho := connectBlock_outcome E now n b
  have henter : Bounded E (n.enter E b) :=
    ⟨h.mempool, h.orphans, h.hashes, h.framed, h.wanted, h.history⟩
  generalize (Node.connectBlock E now n b).1 = r at ho
  generalize (Node.connectBlock E now n b).2 = n' at ho ⊢
  cases ho with
  | refused => exact h
  | aside => exact henter.connected
  | moved _ _ hr =>
    have hl := henter.ledger (reorganize_eq_ledger hr)
    exact .connected (b := b) ⟨hl.mempool, hl.orphans, hl.hashes, hl.framed, hl.wanted, hl.history⟩
  | failed _ _ hr => exact henter.ledger (reorganize_eq_ledger hr)

/-! ### Orphans -/

theorem card_foldl_insert (missing : List Hash) (w : Finset Hash) :
    (missing.foldl (fun w m => insert m w) w).card ≤ w.card + missing.length := by
  induction missing generalizing w with
  | nil => exact le_rfl
  | cons m missing ih =>
    have hcard := ih (insert m w)
    have hinsert := Finset.card_insert_le m w
    simp only [List.foldl_cons, List.length_cons]
    omega

theorem Bounded.parkOrphan (h : Bounded E n) (hb : b.Framed) {missing : List Hash}
    (hm : missing.length ≤ b.header.parents.length) : Bounded E (n.parkOrphan E b missing) := by
  have hparents := hb.parents
  refine ⟨h.mempool, ?_, ?_, ?_, ?_, h.history⟩
  · have hfilter := List.length_filter_le (fun o => decide (o.hash E ≠ b.hash E)) n.orphans
    have horphans := h.orphans
    simp only [Node.parkOrphan]
    split_ifs with hroom
    · simp only [List.length_append, List.length_cons, List.length_nil]
      omega
    · omega
  · simp only [Node.parkOrphan]
    split_ifs
    · simp only [List.map_append, List.map_cons, List.map_nil, List.nodup_append]
      refine ⟨h.hashes.sublist (List.filter_sublist.map _), List.nodup_singleton _, ?_⟩
      intro x hx y hy hxy
      obtain ⟨o, ho, rfl⟩ := List.mem_map.1 hx
      rw [List.mem_singleton.1 hy] at hxy
      simp [hxy] at ho
    · exact h.hashes
  · simp only [Node.parkOrphan]
    split_ifs
    · intro o ho
      rcases List.mem_append.1 ho with ho | ho
      · exact h.framed o (List.mem_of_mem_filter ho)
      · rwa [List.mem_singleton.1 ho]
    · exact h.framed
  · have hinsert := card_foldl_insert missing n.wanted
    have hwanted := h.wanted
    simp only [Node.parkOrphan]
    split_ifs with hroom
    · omega
    · exact hwanted

theorem Bounded.connectReady (h : Bounded E n) (clock : Hash → Nat) (b : Block) :
    Bounded E (connectReady E clock n b) :=
  ((h.filter_orphans _).erase_wanted (b.hash E)).connectBlock _ b

theorem Bounded.foldl_connectReady (clock : Hash → Nat) : ∀ (bs : List Block) {n : Node},
    Bounded E n → Bounded E (bs.foldl (Node.connectReady E clock) n)
  | [], _, h => h
  | b :: bs, _, h => foldl_connectReady clock bs (h.connectReady clock b)

theorem Bounded.orphanRounds (clock : Hash → Nat) (order : List Block → List Block) :
    ∀ (fuel : Nat) {n : Node}, Bounded E n → Bounded E (orphanRounds E clock order fuel n)
  | 0, _, h => h
  | fuel + 1, n, h => by
    simp only [Node.orphanRounds]
    split_ifs
    · exact h
    · exact orphanRounds clock order fuel (foldl_connectReady clock _ h)

theorem Bounded.acceptExternalBlock (h : Bounded E n) (hb : b.Framed) (clock : Hash → Nat)
    (order : List Block → List Block) : Bounded E (acceptExternalBlock E clock order n b).2 := by
  have hconnect := h.connectBlock (clock (b.hash E)) b
  unfold Node.acceptExternalBlock
  split_ifs
  · exact h
  · split
    · exact h
    · dsimp only
      split_ifs
      · split
        · rename_i n' hn'
          rw [hn'] at hconnect
          exact hconnect.orphanRounds clock order _
        · rename_i n' hn'
          rwa [hn'] at hconnect
      · exact h.parkOrphan hb (List.length_filter_le _ _)

/-! ### Transactions -/

theorem Bounded.acceptExternalTx (h : Bounded E n) (now : Nat) (tx : Transaction) :
    Bounded E (n.acceptExternalTx E now tx).2 := by
  obtain heq | ⟨fee, m, hadd, heq⟩ := Session.acceptExternalTx_cases now n tx
  · rwa [heq]
  · rw [heq]
    have hcall := h.call (.add tx fee now)
    simpa only [Mempool.step, hadd] using hcall

theorem selectLoop_bounded {u : UtxoSet} {height : Nat} : ∀ (txs : List Transaction) {s : Selection},
    s.mempool.Bounded E → (selectLoop E u height txs s).mempool.Bounded E
  | [], _, h => h
  | tx :: txs, s, h => by
    have hstep : (selectStep E u height s tx).mempool.Bounded E := by
      obtain heq | ⟨-, -, -, fee, -, heq⟩ := selectStep_cases E u height s tx
      · rw [heq]
        exact h.step (.remove _)
      · rw [heq]
        exact h
    simp only [selectLoop]
    split_ifs
    · exact hstep
    · exact selectLoop_bounded txs hstep

theorem Bounded.mineTemplate (h : Bounded E n) (now : Nat) (miner : Miner) :
    Bounded E (n.mineTemplate E now miner).1 :=
  { h with mempool := selectLoop_bounded _ h.mempool }

/-! ### Starting -/

end Node

namespace Session

/-! ## Sessions -/

variable {E : Env} {B : Bech32} {S T : Site} {n n' : Host} {w w' : Phase} {b : Block} {r : Reply}

/-- What a node keeps in memory. -/
structure Host.Bounded (E : Env) (n : Host) : Prop where
  node : n.node.Bounded E
  peers : n.manualPeers.length ≤ PeerTable.maxPeers
  seenShares : n.seenShares.card ≤ 200000
  pendingShares : n.pendingShares.length ≤ 5000

theorem Host.Bounded.of_node {m : Node} (h : n.Bounded E) (hm : m.Bounded E) :
    Host.Bounded E { n with node := m } := { h with node := hm }

theorem Host.Bounded.acceptTxs : ∀ (txs : List Transaction) {n : Host}, n.Bounded E →
    (txs.foldl (Host.acceptTx E S) n).Bounded E
  | [], _, h => h
  | tx :: txs, _, h => acceptTxs txs (h.of_node (h.node.acceptExternalTx _ tx))

theorem card_remember (seen : Finset Hash) (h : Hash) : (remember seen h).card ≤ 200000 := by
  unfold remember
  split_ifs with hfull
  · simp
  · omega

theorem Host.Bounded.creditShare (h : n.Bounded E) (b : Block) :
    (n.creditShare E B S b).Bounded E := by
  refine ⟨h.node, h.peers, ?_, h.pendingShares⟩
  simp only [Host.creditShare, PoolNode.verifyAndCreditShare]
  split_ifs
  · exact h.seenShares
  · split
    · exact h.seenShares
    · exact card_remember _ _
  · exact h.seenShares

theorem Host.Bounded.creditShares : ∀ (shares : List Block) {n : Host}, n.Bounded E →
    (shares.foldl (Host.creditShare E B S) n).Bounded E
  | [], _, h => h
  | b :: shares, _, h => creditShares shares (h.creditShare b)

/-! ### What arrives -/

theorem framed_of_listLength {k : Nat} {bs : List Block} (hk : 24 ≤ k)
    (h : k + listLength (bs.map (·.sizeBytes)) ≤ maxFrame) : ∀ b ∈ bs, b.Framed := by
  intro b hb
  have hle : 2 * b.sizeBytes + 2 ≤ ((bs.map (·.sizeBytes)).map fun s => 2 * s + 2).sum :=
    List.single_le_sum (fun _ _ => Nat.zero_le _) _
      (List.mem_map_of_mem (f := fun s => 2 * s + 2) (List.mem_map_of_mem hb))
  unfold listLength at h
  unfold Block.Framed
  omega

theorem framed_of_newblock (h : (Request.newblock b).arrives = true) : b.Framed := by
  simp only [Request.arrives, Message.arrives, Message.payload_length, Message.length,
    decide_eq_true_eq] at h
  unfold Block.Framed
  omega

/-- **What a message does to the bounds**: nothing. -/
theorem serve_bounded {l : Listener} (h : l.host.Bounded E) (q : Request) :
    (l.serve E B T q).2.host.Bounded E := by
  unfold Listener.serve
  split_ifs with hserve hasks
  · cases q with
    | hello net genesis height tip p2pPort peers =>
      simp only [Listener.handle]
      split_ifs
      · exact h
      · refine ⟨h.node, ?_, h.seenShares, h.pendingShares⟩
        have hreached := PeerTable.kept_length.addReachable h.peers T.ip
          (.object [("p2p_port", .number p2pPort)])
        exact PeerTable.kept_length.mergePeers hreached (texts peers)
    | newblock b =>
      exact h.of_node (h.node.acceptExternalBlock (framed_of_newblock hserve.2) _ _)
    | addrs addrs =>
      refine ⟨h.node, ?_, h.seenShares, h.pendingShares⟩
      exact PeerTable.length_addAddrs h.peers (.object [("addrs", texts addrs)])
    | stats stat => exact ⟨h.node, h.peers, h.seenShares, h.pendingShares⟩
    | poolshare shares => exact .creditShares _ h
    | addtxs txs => exact .acceptTxs txs h
    | _ => exact h
  · exact h
  · exact h

/-- The blocks at hand were in a frame. -/
def Phase.Framed : Phase → Prop
  | .batch blocks _ _ => ∀ b ∈ blocks, b.Framed
  | .fetched _ _ block _ _ => ∀ b ∈ block, b.Framed
  | _ => True

theorem Phase.framed_ite {c : Prop} [Decidable c] (h : w.Framed) (h' : w'.Framed) :
    (if c then w else w').Framed := by
  split_ifs
  · exact h
  · exact h'

theorem framed_brings (h : r.arrives = true) : r.brings.Framed := by
  cases r with
  | blocks bs =>
    simp only [Reply.arrives, Message.arrives, Message.payload_length, Message.length,
      decide_eq_true_eq] at h
    exact Phase.framed_ite trivial (framed_of_listLength le_rfl h)
  | _ => trivial

theorem framed_fetches {left : Nat} {x : Hash} {hashes : List Hash} {gotAny : Bool}
    (h : r.arrives = true) : (r.fetches left x hashes gotAny).Framed := by
  cases r with
  | block block =>
    intro b hb
    have hblock : block = some b := hb
    subst hblock
    simp only [Reply.arrives, Message.arrives, Message.payload_length, Message.length,
      decide_eq_true_eq] at h
    exact h
  | _ => exact fun _ hb => absurd hb (Option.not_mem_none _)

/-- What the dialer's next step keeps. -/
def Kept (E : Env) (n : Host) : Dialogue.Move Host Phase Request Reply → Prop
  | .send _ ok err => ok.Framed ∧ err.Framed
  | .recv ok err => (∀ r, r.arrives = true → (ok r).Framed) ∧ err.Framed
  | .work n' w' => (n.Bounded E → n'.Bounded E) ∧ w'.Framed
  | .stop => True

/-- **What a step of a dialer does to the bounds**: nothing. -/
theorem next_bounded (hw : w.Framed) : Kept E n (next E S w n) := by
  cases w with
  | hello | addrs | stats | pull | getmempool => exact ⟨trivial, trivial⟩
  | helloWait =>
    refine ⟨fun r _ => ?_, trivial⟩
    cases r with
    | hello => exact Phase.framed_ite trivial trivial
    | _ => trivial
  | greeted height tip peers =>
    refine ⟨fun h => ?_, Phase.framed_ite trivial trivial⟩
    refine ⟨h.node, ?_, h.seenShares, h.pendingShares⟩
    exact PeerTable.kept_length.mergePeers h.peers (texts peers)
  | push => exact ⟨id, Phase.framed_ite trivial trivial⟩
  | pushing batch =>
    cases batch with
    | nil => exact ⟨id, Phase.framed_ite trivial trivial⟩
    | cons => exact ⟨trivial, trivial⟩
  | statsWait => exact ⟨fun r _ => by cases r <;> trivial, trivial⟩
  | learned => exact ⟨fun h => ⟨h.node, h.peers, h.seenShares, h.pendingShares⟩, trivial⟩
  | shares => exact ⟨fun h => ⟨h.node, h.peers, h.seenShares, by simp⟩, trivial⟩
  | submit shares =>
    simp only [next]
    split_ifs
    · exact ⟨id, trivial⟩
    · exact ⟨trivial, trivial⟩
  | pullWait => exact ⟨fun r => framed_brings, trivial⟩
  | batch blocks =>
    cases blocks with
    | nil => exact ⟨id, Phase.framed_ite trivial (Phase.framed_ite trivial trivial)⟩
    | cons b blocks =>
      obtain ⟨hb, hblocks⟩ := List.forall_mem_cons.1 hw
      exact ⟨fun h => h.of_node (h.node.acceptExternalBlock hb _ _), hblocks⟩
  | round left =>
    cases left with
    | zero => exact ⟨id, trivial⟩
    | succ => exact ⟨id, Phase.framed_ite trivial trivial⟩
  | want left hashes =>
    cases hashes with
    | nil =>
      exact ⟨fun h => h.of_node (h.node.orphanRounds _ _ _), Phase.framed_ite trivial trivial⟩
    | cons => exact ⟨trivial, trivial⟩
  | wantWait => exact ⟨fun r => framed_fetches, trivial⟩
  | fetched left x block hashes gotAny =>
    simp only [next]
    split
    · rename_i b hb
      have hframed : b.Framed := hw b (Option.filter_eq_some_iff.1 hb).1
      exact ⟨fun h => h.of_node ((h.node.acceptExternalBlock hframed _ _).erase_wanted x), trivial⟩
    · exact ⟨fun h => h.of_node (h.node.erase_wanted x), trivial⟩
  | mempoolWait => exact ⟨fun r _ => by cases r <;> trivial, trivial⟩
  | relay txs =>
    cases txs with
    | nil => exact ⟨id, trivial⟩
    | cons tx => exact ⟨fun h => h.of_node (h.node.acceptExternalTx _ tx), trivial⟩
  | offer =>
    simp only [next]
    split_ifs
    · exact ⟨id, trivial⟩
    · exact ⟨trivial, trivial⟩
  | ackWait => exact ⟨fun _ _ => trivial, trivial⟩
  | done => trivial

/-! ## A node in the network -/

/-- A node, and where the sessions are that it dials. -/
structure Station where
  host : Host
  dialed : List (Site × Phase)

/-- A step of a session, or of another thread of the node. A call of the node or its mempool is one. -/
inductive Station.Step (E : Env) (B : Bech32) : Station → Station → Prop
  /-- a message of some peer -/
  | serve (s : Station) (T : Site) (q : Request) :
    Step E B s { s with host := (Listener.serve E B T ⟨s.host, true⟩ q).2.host }
  | dial (s : Station) (S : Site) : Step E B s { s with dialed := s.dialed ++ [(S, .hello)] }
  | send {s : Station} {i : Nat} {S : Site} {w ok err : Phase} {q : Request} (sent : Bool)
    (hi : s.dialed[i]? = some (S, w)) (h : next E S w s.host = .send q ok err) :
    Step E B s { s with dialed := s.dialed.set i (S, if sent then ok else err) }
  /-- any answer of the peer that can be read, or none -/
  | recv {s : Station} {i : Nat} {S : Site} {w err : Phase} {ok : Reply → Phase} (r : Option Reply)
    (hi : s.dialed[i]? = some (S, w)) (h : next E S w s.host = .recv ok err)
    (hr : ∀ x ∈ r, x.arrives = true) :
    Step E B s { s with dialed := s.dialed.set i (S, (r.map ok).getD err) }
  | work {s : Station} {i : Nat} {S : Site} {w w' : Phase} {n : Host}
    (hi : s.dialed[i]? = some (S, w)) (h : next E S w s.host = .work n w') :
    Step E B s ⟨n, s.dialed.set i (S, w')⟩
  | hangUp (s : Station) (i : Nat) : Step E B s { s with dialed := s.dialed.eraseIdx i }
  /-- the miner's template -/
  | template (s : Station) (now : Nat) (miner : Miner) :
    Step E B s { s with host := { s.host with node := (s.host.node.mineTemplate E now miner).1 } }
  /-- a block of the node's own -/
  | connect (s : Station) (now : Nat) (b : Block) :
    Step E B s { s with host := { s.host with node := (Node.connectBlock E now s.host.node b).2 } }
  | pushShares (s : Station) (template : Block) (nonces : List Nat) :
    Step E B s { s with host := { s.host with
      pendingShares := Zentra.pushShares template nonces s.host.pendingShares } }
  /-- eviction by age, payouts, the faucet and what wallets send -/
  | mempool (s : Station) (c : MempoolCall) :
    Step E B s { s with host := { s.host with
      node := { s.host.node with mempool := s.host.node.mempool.step E c } } }

/-- The bounds, and sessions that hold what a frame holds. -/
structure Station.Bounded (E : Env) (s : Station) : Prop where
  host : s.host.Bounded E
  dialed : ∀ x ∈ s.dialed, x.2.Framed

theorem length_pushShares {template : Block} (nonces : List Nat) {pend : List Block}
    (h : pend.length ≤ 5000) : (pushShares template nonces pend).length ≤ 5000 := by
  induction nonces generalizing pend with
  | nil => exact h
  | cons x nonces ih =>
    rw [pushShares]
    split_ifs
    · exact h
    · exact ih (by simp; omega)

variable {s t : Station}

/-- A session moves on. -/
theorem Station.Bounded.set (h : s.Bounded E) (i : Nat) (hw : w.Framed) :
    ∀ x ∈ s.dialed.set i (S, w), x.2.Framed := by
  intro x hx
  rcases List.mem_or_eq_of_mem_set hx with hx | rfl
  · exact h.dialed x hx
  · exact hw

theorem Station.Bounded.framed {i : Nat} (h : s.Bounded E) (hi : s.dialed[i]? = some (S, w)) :
    w.Framed := h.dialed _ (List.mem_of_getElem? hi)

/-- **One step keeps the bounds.** -/
theorem Station.Bounded.step (h : s.Bounded E) (hst : Station.Step E B s t) : t.Bounded E := by
  cases hst with
  | serve T q => exact ⟨serve_bounded h.host q, h.dialed⟩
  | dial S =>
    refine ⟨h.host, fun x hx => ?_⟩
    rcases List.mem_append.1 hx with hx | hx
    · exact h.dialed x hx
    · rw [List.mem_singleton.1 hx]
      trivial
  | @send i S w ok err q sent hi hm =>
    have hk := next_bounded (E := E) (S := S) (n := s.host) (h.framed hi)
    rw [hm] at hk
    exact ⟨h.host, h.set i (Phase.framed_ite hk.1 hk.2)⟩
  | @recv i S w err ok r hi hm hr =>
    have hk := next_bounded (E := E) (S := S) (n := s.host) (h.framed hi)
    rw [hm] at hk
    refine ⟨h.host, h.set i ?_⟩
    cases r with
    | none => exact hk.2
    | some r => exact hk.1 r (hr r rfl)
  | @work i S w w' n hi hm =>
    have hk := next_bounded (E := E) (S := S) (n := s.host) (h.framed hi)
    rw [hm] at hk
    exact ⟨hk.1 h.host, h.set i hk.2⟩
  | hangUp i => exact ⟨h.host, fun x hx => h.dialed x (List.mem_of_mem_eraseIdx hx)⟩
  | template now miner => exact ⟨h.host.of_node (h.host.node.mineTemplate now miner), h.dialed⟩
  | connect now b => exact ⟨h.host.of_node (h.host.node.connectBlock now b), h.dialed⟩
  | pushShares template nonces =>
    exact ⟨{ h.host with pendingShares := length_pushShares nonces h.host.pendingShares }, h.dialed⟩
  | mempool c => exact ⟨h.host.of_node (h.host.node.call c), h.dialed⟩

theorem Station.Bounded.run (h : s.Bounded E) (hrun : Relation.ReflTransGen (Station.Step E B) s t) :
    t.Bounded E := by
  induction hrun with
  | refl => exact h
  | tail _ hst ih => exact ih.step hst

/-- A node as it starts on a database, with the peers of its files. -/
def Host.start (E : Env) (db : Db) (peers : List String) (poolMode : Bool) (pool : MiningPool) :
    Host where
  node := .new E db
  manualPeers := peers
  maxPeerHeight := 0
  poolMode := poolMode
  pool := pool
  seenShares := ∅
  pendingShares := []
  learnedOperatorPool := ""

end Session

namespace Sample

open Session

def station : Station := ⟨.start env .empty [] false (.new "" "zentradev1pool" 0), []⟩

/-- A peer sent a block whose parent is not known. -/
def parked : Station :=
  { station with
    host := (Listener.serve env bech32 site ⟨station.host, true⟩ (.newblock waiting)).2.host }

end Sample

end Zentra

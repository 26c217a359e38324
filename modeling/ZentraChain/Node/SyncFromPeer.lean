import ZentraChain.Node.Session

/-!
# Undisturbed sessions (`p2p_sync.rs`)

A session whose reads and sends do not fail, on nodes that do nothing else. `syncFromPeer` computes what
becomes of both with calls of the listener in place of messages: the history is pushed, the blocks and
missing parents are pulled as in `Node.pullPhase`, and the pooled transactions go both ways.

* `session_unique`: however the steps of the two sides interleave, the session ends, and as computed.
-/

namespace Zentra

namespace Session

open Dialogue

/-! ## Calls in place of messages -/

section
variable (E : Env) (B : Bech32) (S T : Site)

/-- The rounds of `Node.resolveRounds`; is the stream still readable after them? -/
def rounds (p : Dag) : Nat → Bool → Node → Bool × Node
  | 0, readable, n => (readable, n)
  | left + 1, readable, n =>
    let want := S.listing n.wanted
    if want.isEmpty then (readable, n)
    else
      let s := want.foldl (Node.request E S.clock S.order p) ⟨n, readable, false⟩
      let n₁ := Node.tryConnectOrphans E S.clock S.order s.node
      if s.gotAny then rounds p left s.readable n₁ else (s.readable, n₁)

/-- The blocks that a dialer sends to a peer that is behind: from the genesis on if the peer's tip is not
known. -/
def history (n : Host) (height : Nat) (tip : Option Hash) : List Block :=
  let known := match tip with
    | some t => (n.node.dag.getBlock t).isSome
    | none => false
  if n.node.currentHeight > height then n.node.dag.pushed (if known then height else 0) else []

/-- The dialer has read the `hello`. -/
def Host.greet (n : Host) (height : Nat) (peers : List String) : Host :=
  { n with
    manualPeers := PeerTable.mergePeers n.manualPeers (texts peers)
    maxPeerHeight := max n.maxPeerHeight height }

/-- The dialer has read the answer to `stats`, or failed to. -/
def Host.learn (n : Host) : Option Reply → Host
  | some (.statsAck poolMode poolAddress) =>
    { n with
      learnedOperatorPool :=
        if S.seed ∧ poolMode ∧ poolAddress ≠ "" then poolAddress else n.learnedOperatorPool }
  | _ => n

/-- The blocks pulled. -/
def pulled (n : Host) (l : Listener) : Bool × Node :=
  let p := l.host.node.dag
  let r := if l.serving then
      Node.pullLoop E S.clock S.order p (p.db.blocks.keys.card + 1) n.node
    else (false, n.node)
  rounds E S p syncBatch r.1 r.2

/-- From the pull loop on. -/
def pullAndRelay (n : Host) (l : Listener) : Host × Listener :=
  let r := pulled E S n l
  let n₁ := { n with node := r.2 }
  let txs := l.host.node.mempoolSnapshot
  let n₂ := if r.1 ∧ (Message.mempool txs).arrives then txs.foldl (Host.acceptTx E S) n₁ else n₁
  let ours := n₂.node.mempoolSnapshot
  (n₂, if ours.isEmpty then l else (l.serve E B T (.addtxs ours)).2)

/-- From the shares on. -/
def submitAndPull (n : Host) (l : Listener) : Host × Listener :=
  pullAndRelay E B S T { n with pendingShares := [] }
    (if n.pendingShares.isEmpty then l
      else (l.serve E B T (.poolshare (n.pendingShares.take 200))).2)

/-- After the `hello`. -/
def exchange (n : Host) (l : Listener) (height : Nat) (tip : Option Hash) (peers : List String) :
    Host × Listener :=
  let l₁ := (history n height tip).foldl (fun l b => (l.serve E B T (.newblock b)).2) l
  let n₁ := n.greet height peers
  let l₂ := (l₁.serve E B T (.addrs (n₁.manualPeers.take 50))).2
  let ack := l₂.serve E B T (.stats S.stat)
  submitAndPull E B S T (n₁.learn S (ack.1.filter Reply.arrives)) ack.2

/-- `sync_from_peer` with a listener that is called. -/
def syncFromPeer (n : Host) (l : Listener) : Host × Listener :=
  let hello := l.serve E B T (.hello S.net S.genesis n.node.currentHeight n.node.dag.getSelectedTip
    S.p2pPort (n.manualPeers.take 50))
  match hello.1.filter Reply.arrives with
  | some (.hello _ genesis height tip peers) =>
    if genesis ≠ S.genesis then (n, hello.2) else exchange E B S T n hello.2 height tip peers
  | _ => (n, hello.2)

end

variable {E : Env} {B : Bech32} {S T : Site} {n : Host} {l : Listener} {o : Bool}

/-- The rounds are those of the pull phase. -/
theorem rounds_node (p : Dag) : ∀ (left : Nat) (o : Bool) (n : Node),
    (rounds E S p left o n).2 =
      Node.resolveRounds E S.clock S.order S.listing p left o n
  | 0, _, _ => rfl
  | left + 1, o, n => by
    simp only [rounds, Node.resolveRounds]
    split
    · rfl
    · split
      · exact rounds_node p left _ _
      · rfl

/-- **The pull is the pull phase.** -/
theorem pulled_node (hl : l.serving = true) :
    (pulled E S n l).2 = Node.pullPhase E S.clock S.order S.listing l.host.node.dag n.node := by
  simp only [pulled, hl, if_true, rounds_node]
  rfl

/-! ## Answers -/

/-- A question that changes nothing on the listener. -/
theorem serve_of_handle {q : Request} {r : Reply} (ha : q.asks = true) (hq : q.arrives = true)
    (hh : l.handle E B T q = (some r, l)) :
    l.serve E B T q = (some (if l.serving then r else .closed), l) := by
  obtain ⟨host, serving⟩ := l
  unfold Listener.serve
  cases serving with
  | false =>
    rw [if_neg (fun h => Bool.noConfusion h.1), ha]
    rfl
  | true =>
    rw [if_pos ⟨rfl, hq⟩, hh]
    rfl

/-- And what is read of its answer. -/
theorem answer_of_handle {q : Request} {r : Reply} (ha : q.asks = true) (hq : q.arrives = true)
    (hh : l.handle E B T q = (some r, l)) :
    (program E B S T).answer l o q =
      if o = true ∧ l.serving = true ∧ r.arrives = true then some r else none := by
  unfold Program.answer
  change (if o = true then (l.serve E B T q).1.filter Reply.arrives else none) = _
  rw [serve_of_handle ha hq hh]
  cases o with
  | false => rfl
  | true =>
    cases hl : l.serving with
    | false => rfl
    | true => cases hr : r.arrives <;> simp [Option.filter, hr]

/-- Such a question is read at once, or never. -/
theorem call_leads {w ok err err' : Phase} {k : Reply → Phase} {q : Request} {r : Reply}
    (h : next E S w n = .send q ok err) (hk : next E S ok n = .recv k err') (ha : q.asks = true)
    (hq : q.arrives = true) (hh : l.handle E B T q = (some r, l)) :
    Leads (program E B S T) ⟨w, n, l, o⟩
      (if o = true ∧ l.serving = true ∧ r.arrives = true then ⟨k r, n, l, true⟩
        else ⟨err', n, l, false⟩) := by
  have hask := Leads.ask (P := program E B S T) (b := l) (o := o) h ha hk
  rw [answer_of_handle ha hq hh, show ((program E B S T).serve l q).2 = l from
    congrArg Prod.snd (serve_of_handle ha hq hh)] at hask
  split_ifs at hask ⊢
  · exact hask
  · exact hask

/-! ## The push -/

theorem pushing_leads (short : Bool) : ∀ (bs : List Block) (f : Nat) (l : Listener),
    Leads (program E B S T) ⟨.pushing bs short f, n, l, o⟩
      ⟨.pushing [] short ((bs.getLast?.map (·.header.blueScore)).getD f), n,
        bs.foldl (fun l b => (l.serve E B T (.newblock b)).2) l, o⟩
  | [], f, l => .refl _
  | b :: bs, f, l => by
    have htell : Leads (program E B S T) ⟨.pushing (b :: bs) short f, n, l, o⟩
        ⟨.pushing bs short b.header.blueScore, n, (l.serve E B T (.newblock b)).2, o⟩ :=
      Leads.tell (q := .newblock b) (P := program E B S T) rfl rfl
    have hlast : (((b :: bs).getLast?.map (·.header.blueScore)).getD f) =
        ((bs.getLast?.map (·.header.blueScore)).getD b.header.blueScore) := by
      cases bs with
      | nil => rfl
      | cons c bs => simp [List.getLast?_cons]
    rw [hlast]
    exact htell.trans (pushing_leads short bs b.header.blueScore _)

/-- A batch, and how the loop goes on after it. -/
theorem batch_leads {f : Nat} {bs : List Block} {x : Block}
    (hbs : n.node.dag.blocksAbove f syncBatch = bs) (hlast : bs.getLast? = some x) :
    Leads (program E B S T) ⟨.push f, n, l, o⟩
      ⟨if bs.length < syncBatch then .addrs else .push x.header.blueScore, n,
        bs.foldl (fun l b => (l.serve E B T (.newblock b)).2) l, o⟩ := by
  have hne : bs.isEmpty = false := by
    cases bs with
    | nil => cases hlast
    | cons => rfl
  have hwork : next E S (.push f) n = .work n (.pushing bs (decide (bs.length < syncBatch)) f) := by
    simp only [next, hbs, hne, Bool.false_eq_true, if_false]
  have hsend := pushing_leads (E := E) (B := B) (S := S) (T := T) (n := n) (o := o)
    (decide (bs.length < syncBatch)) bs f l
  refine (Leads.work hwork).trans (hsend.trans (Leads.work ?_))
  show next E S (.pushing [] (decide (bs.length < syncBatch)) _) n = _
  simp only [next, hlast, Option.map_some, Option.getD_some, decide_eq_true_eq]

/-- **The push loop sends the history.** -/
theorem push_leads (ht : n.node.dag.TipsExact) (hw : n.node.dag.Wf E) :
    ∀ (fuel f : Nat) (l : Listener), (n.node.dag.allAbove f).length < fuel →
      Leads (program E B S T) ⟨.push f, n, l, o⟩
        ⟨.addrs, n, (n.node.dag.pushLoop fuel f).flatten.foldl
          (fun l b => (l.serve E B T (.newblock b)).2) l, o⟩
  | 0, f, l, h => absurd h (Nat.not_lt_zero _)
  | fuel + 1, f, l, h => by
    have hsorted := ht.blocksAbove_sorted hw
    unfold Dag.pushLoop
    rcases Paging.page_cases (show 0 < syncBatch by decide) (n.node.dag.allAbove f) with
      hnil | ⟨hne, hlt⟩ | ⟨init, x, rest, he, hlen⟩
    · have hpages : Paging.pages (fun b : Block => b.header.blueScore)
          (fun f => n.node.dag.blocksAbove f syncBatch) syncBatch (fuel + 1) f = [] :=
        Paging.pages_nil hnil
      rw [hpages]
      refine Leads.work ?_
      show next E S (.push f) n = _
      simp only [next, Dag.blocksAbove, hnil, List.take_nil, List.isEmpty_nil, if_true]
    · have hpages : Paging.pages (fun b : Block => b.header.blueScore)
          (fun f => n.node.dag.blocksAbove f syncBatch) syncBatch (fuel + 1) f =
            [n.node.dag.allAbove f] := Paging.pages_short hne hlt
      have hpage : n.node.dag.blocksAbove f syncBatch = n.node.dag.allAbove f :=
        List.take_of_length_le hlt.le
      have hb := batch_leads (E := E) (B := B) (S := S) (T := T) (l := l) (o := o) hpage
        (List.getLast?_eq_some_getLast hne)
      rw [if_pos hlt] at hb
      rw [hpages, List.flatten_singleton]
      exact hb
    · have hpages : Paging.pages (fun b : Block => b.header.blueScore)
          (fun f => n.node.dag.blocksAbove f syncBatch) syncBatch (fuel + 1) f =
            (init ++ [x]) :: n.node.dag.pushLoop fuel x.header.blueScore :=
        Paging.pages_full he hlen
      have hpage : n.node.dag.blocksAbove f syncBatch = init ++ [x] := by
        rw [Dag.blocksAbove, he, ← hlen, List.take_left]
      have hb := batch_leads (E := E) (B := B) (S := S) (T := T) (l := l) (o := o) hpage
        List.getLast?_concat
      rw [if_neg (Nat.not_lt.2 hlen.ge)] at hb
      obtain ⟨-, hless⟩ := hsorted.length_lt he
      have hfuel : (n.node.dag.allAbove x.header.blueScore).length < fuel := by
        rw [hlen] at hless
        have hpos : 0 < syncBatch := by decide
        omega
      rw [hpages, List.flatten_cons, List.foldl_append]
      exact hb.trans (push_leads ht hw fuel _ _ hfuel)

/-! ## The pull -/

theorem accepting_leads (short : Bool) : ∀ (bs : List Block) (accepted : Nat) (n : Host),
    Leads (program E B S T) ⟨.batch bs short accepted, n, l, o⟩
      ⟨.batch [] short (accepted + (Node.acceptBatch E S.clock S.order bs n.node).1),
        { n with node := (Node.acceptBatch E S.clock S.order bs n.node).2 }, l, o⟩
  | [], accepted, n => .refl _
  | b :: bs, accepted, n => by
    have hwork : next E S (.batch (b :: bs) short accepted) n = .work (n.acceptBlock E S b)
        (.batch bs short (if (Node.acceptExternalBlock E S.clock S.order n.node b).1 then
          accepted + 1 else accepted)) := rfl
    have hrest := accepting_leads short bs
      (if (Node.acceptExternalBlock E S.clock S.order n.node b).1 then accepted + 1 else accepted)
      (n.acceptBlock E S b)
    have hcount : (if (Node.acceptExternalBlock E S.clock S.order n.node b).1 then accepted + 1
        else accepted) + (Node.acceptBatch E S.clock S.order bs (n.acceptBlock E S b).node).1 =
          accepted + (Node.acceptBatch E S.clock S.order (b :: bs) n.node).1 := by
      simp only [Node.acceptBatch, Host.acceptBlock]
      split_ifs <;> omega
    rw [hcount] at hrest
    exact (Leads.work hwork).trans hrest

/-- A batch adds a block that the listener has, unless none of it is accepted. -/
theorem unknown_acceptBatch {p : Dag} {m : Node} (hw : p.Wf E) (ho : ∀ l, (S.order l).Perm l)
    (hacc : (Node.acceptBatch E S.clock S.order (p.answer m.dag.locator) m).1 ≠ 0) :
    (p.unknown (Node.acceptBatch E S.clock S.order (p.answer m.dag.locator) m).2.dag).card <
      (p.unknown m.dag).card := by
  obtain ⟨b, hb, hnone, hs⟩ := Node.acceptBatch_gains ho hacc
  have hwi : m.dag.Within (Node.acceptBatch E S.clock S.order (p.answer m.dag.locator) m).2.dag :=
    Node.acceptBatch_within ho _ m
  refine Finset.card_lt_card (Finset.ssubset_iff_of_subset ?_ |>.2 ⟨b.hash E, ?_, fun hin => ?_⟩)
  · exact Finset.monotone_filter_right _ fun x _ hx => hwi.getBlock_none hx
  · exact Finset.mem_filter.2 ⟨Dag.mem_keys.2 ⟨b, Dag.mem_answer hw hb⟩, hnone⟩
  · rw [(Finset.mem_filter.1 hin).2] at hs
    cases hs

/-- **The loop over the batches.** -/
theorem pull_leads (hw : l.host.node.dag.Wf E) (ho : ∀ l, (S.order l).Perm l)
    (hl : l.serving = true) : ∀ (fuel : Nat) (n : Host),
    (l.host.node.dag.unknown n.node.dag).card < fuel →
      Leads (program E B S T) ⟨.pull, n, l, true⟩ ⟨.round syncBatch,
        { n with node := (Node.pullLoop E S.clock S.order l.host.node.dag fuel n.node).2 }, l,
        (Node.pullLoop E S.clock S.order l.host.node.dag fuel n.node).1⟩
  | 0, n, h => absurd h (Nat.not_lt_zero _)
  | fuel + 1, n, h => by
    have hcall := call_leads (E := E) (B := B) (S := S) (T := T) (n := n) (l := l) (o := true)
      (w := .pull) (q := .getblocks n.node.dag.locator)
      (r := .blocks (l.host.node.dag.answer n.node.dag.locator)) rfl rfl rfl rfl rfl
    generalize harr : l.host.node.dag.answer n.node.dag.locator = arr at hcall
    simp only [Node.pullLoop, harr]
    by_cases hread : (Message.blocks arr).arrives = true
    · rw [if_pos ⟨rfl, hl, hread⟩] at hcall
      rw [if_neg (not_not.2 hread)]
      refine hcall.trans ?_
      by_cases hempty : arr.isEmpty = true
      · rw [if_pos hempty]
        show Leads _ ⟨if arr.isEmpty = true then _ else _, n, l, true⟩ _
        rw [if_pos hempty]
        exact .refl _
      · rw [if_neg hempty]
        show Leads _ ⟨if arr.isEmpty = true then _ else _, n, l, true⟩ _
        rw [if_neg hempty]
        have hless := unknown_acceptBatch (E := E) (S := S) (m := n.node) hw ho
        rw [harr] at hless
        refine (accepting_leads _ arr 0 n).trans ((Leads.work rfl).trans ?_)
        rw [Nat.zero_add]
        generalize Node.acceptBatch E S.clock S.order arr n.node = r at hless
        by_cases hzero : r.1 = 0
        · rw [if_pos hzero, if_pos hzero]
          exact .refl _
        · rw [if_neg hzero, if_neg hzero]
          by_cases hshort : arr.length < syncBatch
          · rw [if_pos (decide_eq_true hshort), if_pos hshort]
            exact .refl _
          · rw [if_neg (by simpa using hshort), if_neg hshort]
            exact pull_leads hw ho hl fuel { n with node := r.2 }
              (Nat.lt_of_lt_of_le (hless hzero) (Nat.le_of_lt_succ h))
    · rw [if_neg fun h => hread h.2.2] at hcall
      rw [if_pos hread]
      exact hcall

/-! ## The rounds -/

/-- The dialer before the next wanted hash. -/
def seeking (n : Host) (l : Listener) (left : Nat) (hashes : List Hash) (s : Pull) :
    Point Host Listener Phase :=
  ⟨.want left hashes s.gotAny, { n with node := s.node }, l, s.readable⟩

theorem request_leads (left : Nat) (h : Hash) (hashes : List Hash) (s : Pull)
    (hl : s.readable = true → l.serving = true) :
    Leads (program E B S T) (seeking n l left (h :: hashes) s)
      (seeking n l left hashes (Node.request E S.clock S.order l.host.node.dag s h)) := by
  obtain ⟨m, o, gotAny⟩ := s
  have hcall := call_leads (E := E) (B := B) (S := S) (T := T) (n := { n with node := m }) (l := l)
    (o := o) (w := .want left (h :: hashes) gotAny) (q := .getblock h)
    (r := .block (l.host.node.dag.getBlock h)) rfl rfl rfl rfl rfl
  unfold Node.request
  cases o with
  | false => exact hcall
  | true =>
    by_cases harr : (Message.block (l.host.node.dag.getBlock h)).arrives = true
    · rw [if_pos ⟨rfl, hl rfl, harr⟩] at hcall
      rw [if_neg (not_not.2 rfl), if_neg (not_not.2 harr)]
      refine hcall.trans ?_
      generalize l.host.node.dag.getBlock h = block
      have hwork : ∀ {n' : Host} {w : Phase},
          next E S (.fetched left h block hashes gotAny) { n with node := m } = .work n' w →
          Leads (program E B S T) ⟨.fetched left h block hashes gotAny, { n with node := m }, l, true⟩
            ⟨w, n', l, true⟩ := fun hn => Leads.work hn
      cases block with
      | none => exact hwork rfl
      | some b =>
        by_cases hb : b.hash E = h
        · simp only [hb, if_true]
          exact hwork (by simp [next, Option.filter, hb])
        · simp only [hb, if_false]
          exact hwork (by simp [next, Option.filter, hb])
    · rw [if_neg fun hc => harr hc.2.2] at hcall
      rw [if_neg (not_not.2 rfl), if_pos harr]
      exact hcall

theorem request_readable {p : Dag} {s : Pull} {h : Hash}
    (hs : (Node.request E S.clock S.order p s h).readable = true) : s.readable = true := by
  by_contra hread
  unfold Node.request at hs
  rw [if_pos hread] at hs
  exact hread hs

theorem requests_leads (left : Nat) : ∀ (hashes : List Hash) (s : Pull),
    (s.readable = true → l.serving = true) →
      Leads (program E B S T) (seeking n l left hashes s)
        (seeking n l left [] (hashes.foldl (Node.request E S.clock S.order l.host.node.dag) s))
  | [], _, _ => .refl _
  | h :: hashes, _, hl => (request_leads left h hashes _ hl).trans
    (requests_leads left hashes _ fun hs => hl (request_readable hs))

theorem requests_readable {p : Dag} : ∀ (hashes : List Hash) (s : Pull),
    (hashes.foldl (Node.request E S.clock S.order p) s).readable = true → s.readable = true
  | [], _, h => h
  | _ :: hashes, _, h => request_readable (requests_readable hashes _ h)

/-- **The rounds.** -/
theorem rounds_leads : ∀ (left : Nat) (o : Bool) (n : Host),
    (o = true → l.serving = true) →
      Leads (program E B S T) ⟨.round left, n, l, o⟩ ⟨.getmempool,
        { n with node := (rounds E S l.host.node.dag left o n.node).2 }, l,
        (rounds E S l.host.node.dag left o n.node).1⟩
  | 0, o, n, _ => Leads.work rfl
  | left + 1, o, n, hl => by
    simp only [rounds]
    by_cases hempty : (S.listing n.node.wanted).isEmpty = true
    · rw [if_pos hempty]
      refine Leads.work ?_
      show next E S (.round (left + 1)) n = _
      simp only [next, hempty, if_true]
    · rw [if_neg hempty]
      have hwork : next E S (.round (left + 1)) n =
          .work n (.want left (S.listing n.node.wanted) false) := by
        simp only [next, hempty, Bool.false_eq_true, if_false]
      have hreq := requests_leads (E := E) (B := B) (S := S) (T := T) (n := n) (l := l) left
        (S.listing n.node.wanted) ⟨n.node, o, false⟩ hl
      have hread := requests_readable (E := E) (S := S) (p := l.host.node.dag)
        (S.listing n.node.wanted) ⟨n.node, o, false⟩
      generalize (S.listing n.node.wanted).foldl
        (Node.request E S.clock S.order l.host.node.dag) ⟨n.node, o, false⟩ = s at hreq hread
      refine (Leads.work hwork).trans (hreq.trans ((Leads.work rfl).trans ?_))
      by_cases hgot : s.gotAny = true
      · rw [if_pos hgot, if_pos hgot]
        exact rounds_leads left s.readable
          { n with node := Node.tryConnectOrphans E S.clock S.order s.node } fun h => hl (hread h)
      · rw [if_neg hgot, if_neg hgot]
        exact .refl _

/-! ## The relay -/

theorem relay_leads : ∀ (txs : List Transaction) (n : Host),
    Leads (program E B S T) ⟨.relay txs, n, l, o⟩
      ⟨.offer, txs.foldl (Host.acceptTx E S) n, l, o⟩
  | [], _ => Leads.work rfl
  | tx :: txs, n => by
    have hwork : Leads (program E B S T) ⟨.relay (tx :: txs), n, l, o⟩
      ⟨.relay txs, n.acceptTx E S tx, l, o⟩ := Leads.work rfl
    exact hwork.trans (relay_leads txs (n.acceptTx E S tx))

theorem offer_leads : ∃ r, Leads (program E B S T) ⟨.offer, n, l, o⟩
    ⟨.done, n, if n.node.mempoolSnapshot.isEmpty = true then l
      else (l.serve E B T (.addtxs n.node.mempoolSnapshot)).2, r⟩ := by
  by_cases hempty : n.node.mempoolSnapshot.isEmpty = true
  · refine ⟨o, ?_⟩
    rw [if_pos hempty]
    refine Leads.work ?_
    show next E S .offer n = _
    simp only [next, hempty, if_true]
  · have hsend : (program E B S T).next .offer n =
        .send (.addtxs n.node.mempoolSnapshot) .ackWait .ackWait := by
      show next E S .offer n = _
      simp only [next, hempty, Bool.false_eq_true, if_false]
    have hask := Leads.ask (b := l) (o := o) hsend rfl rfl
    have hdone : (((program E B S T).answer l o (.addtxs n.node.mempoolSnapshot)).map
        fun _ => Phase.done).getD .done = .done := by
      cases (program E B S T).answer l o (.addtxs n.node.mempoolSnapshot) <;> rfl
    rw [hdone] at hask
    rw [if_neg hempty]
    exact ⟨_, hask⟩

theorem rounds_readable {p : Dag} : ∀ {left : Nat} {o : Bool} {n : Node},
    (rounds E S p left o n).1 = true → o = true
  | 0, _, _, h => h
  | left + 1, o, n, h => by
    simp only [rounds] at h
    split_ifs at h
    · exact h
    · exact requests_readable _ _ (rounds_readable h)
    · exact requests_readable _ _ h

theorem pulled_leads (hw : l.host.node.dag.Wf E) (ho : ∀ l, (S.order l).Perm l)
    (hl : l.serving = true → o = true) (n : Host) :
    Leads (program E B S T) ⟨.pull, n, l, o⟩
      ⟨.getmempool, { n with node := (pulled E S n l).2 }, l, (pulled E S n l).1⟩ := by
  unfold pulled
  by_cases hserving : l.serving = true
  · rw [hl hserving]
    simp only [hserving, if_true]
    have hcard : (l.host.node.dag.unknown n.node.dag).card < l.host.node.dag.db.blocks.keys.card + 1 :=
      Nat.lt_succ_of_le (Finset.card_filter_le _ _)
    exact (pull_leads hw ho hserving _ n hcard).trans (rounds_leads _ _ _ fun _ => hserving)
  · simp only [hserving, Bool.false_eq_true, if_false]
    have hcall := call_leads (E := E) (B := B) (S := S) (T := T) (n := n) (l := l)
      (o := o) (w := .pull) (q := .getblocks n.node.dag.locator)
      (r := .blocks (l.host.node.dag.answer n.node.dag.locator)) rfl rfl rfl rfl rfl
    rw [if_neg fun h => hserving h.2.1] at hcall
    exact hcall.trans (rounds_leads _ _ _ nofun)

theorem pulled_serving (h : (pulled E S n l).1 = true) : l.serving = true := by
  unfold pulled at h
  by_contra hserving
  simp only [hserving, if_false] at h
  cases rounds_readable h

/-- **From the pull loop on.** -/
theorem pullAndRelay_leads (hw : l.host.node.dag.Wf E) (ho : ∀ l, (S.order l).Perm l)
    (hl : l.serving = true → o = true) (n : Host) :
    ∃ r, Leads (program E B S T) ⟨.pull, n, l, o⟩
      ⟨.done, (pullAndRelay E B S T n l).1, (pullAndRelay E B S T n l).2, r⟩ := by
  have hpull := pulled_leads (B := B) (T := T) hw ho hl n
  have hserving := pulled_serving (E := E) (S := S) (n := n) (l := l)
  unfold pullAndRelay
  generalize pulled E S n l = r at hpull hserving
  have hcall := call_leads (E := E) (B := B) (S := S) (T := T) (n := { n with node := r.2 }) (l := l)
    (o := r.1) (w := .getmempool) (q := .getmempool)
    (r := .mempool l.host.node.mempoolSnapshot) rfl rfl rfl rfl rfl
  by_cases hread : r.1 = true ∧ (Message.mempool l.host.node.mempoolSnapshot).arrives = true
  · rw [if_pos ⟨hread.1, hserving hread.1, hread.2⟩] at hcall
    simp only [if_pos hread]
    obtain ⟨r', hoffer⟩ := offer_leads (E := E) (B := B) (S := S) (T := T) (l := l) (o := true)
      (n := l.host.node.mempoolSnapshot.foldl (Host.acceptTx E S) { n with node := r.2 })
    exact ⟨r', hpull.trans (hcall.trans ((relay_leads _ _).trans hoffer))⟩
  · rw [if_neg fun h => hread ⟨h.1, h.2.2⟩] at hcall
    simp only [if_neg hread]
    obtain ⟨r', hoffer⟩ := offer_leads (E := E) (B := B) (S := S) (T := T) (l := l) (o := false)
      (n := { n with node := r.2 })
    exact ⟨r', hpull.trans (hcall.trans hoffer)⟩

/-! ## The whole session -/

/-- A listener that still serves has served all along. -/
theorem serve_serving {q : Request} (h : (l.serve E B T q).2.serving = true) : l.serving = true := by
  unfold Listener.serve at h
  split_ifs at h with hs
  exact hs.1

theorem serve_sound (ho : ∀ l, (T.order l).Perm l) (hs : Node.Sound E l.host.node) (q : Request) :
    Node.Sound E (l.serve E B T q).2.host.node := hs.moves (serve_moves ho l q)

theorem newblocks_sound (ho : ∀ l, (T.order l).Perm l) : ∀ (bs : List Block) (l : Listener),
    Node.Sound E l.host.node → Node.Sound E
      (bs.foldl (fun l b => (l.serve E B T (.newblock b)).2) l).host.node
  | [], _, hs => hs
  | b :: bs, _, hs => newblocks_sound ho bs _ (serve_sound ho hs (.newblock b))

theorem submitAndPull_leads (hs : Node.Sound E l.host.node) (hS : ∀ l, (S.order l).Perm l)
    (hT : ∀ l, (T.order l).Perm l) (hl : l.serving = true → o = true) (n : Host) :
    ∃ r, Leads (program E B S T) ⟨.shares, n, l, o⟩
      ⟨.done, (submitAndPull E B S T n l).1, (submitAndPull E B S T n l).2, r⟩ := by
  have hwork : Leads (program E B S T) ⟨.shares, n, l, o⟩
    ⟨.submit n.pendingShares, { n with pendingShares := [] }, l, o⟩ := Leads.work rfl
  unfold submitAndPull
  by_cases hempty : n.pendingShares.isEmpty = true
  · rw [if_pos hempty]
    have hskip : next E S (.submit n.pendingShares) { n with pendingShares := [] } =
        .work { n with pendingShares := [] } .pull := by
      simp only [next, hempty, if_true]
    obtain ⟨r, hrest⟩ := pullAndRelay_leads (B := B) (T := T) hs.wf hS hl
      { n with pendingShares := [] }
    exact ⟨r, hwork.trans ((Leads.work hskip).trans hrest)⟩
  · rw [if_neg hempty]
    have hsend : next E S (.submit n.pendingShares) { n with pendingShares := [] } =
        .send (.poolshare (n.pendingShares.take 200)) .pull .pull := by
      simp only [next, hempty, Bool.false_eq_true, if_false]
    obtain ⟨r, hrest⟩ := pullAndRelay_leads (B := B) (T := T) (o := o)
      (serve_sound (B := B) hT hs (.poolshare (n.pendingShares.take 200))).wf hS
      (fun h => hl (serve_serving h)) { n with pendingShares := [] }
    exact ⟨r, hwork.trans ((Leads.tell hsend rfl).trans hrest)⟩

/-- The answer to `stats` is read if the listener serves. -/
theorem stats_leads (n : Host) :
    let ack := l.serve E B T (.stats S.stat)
    Leads (program E B S T) ⟨.stats, n, l, true⟩
      ⟨.shares, n.learn S (ack.1.filter Reply.arrives), ack.2, (ack.1.filter Reply.arrives).isSome⟩ := by
  have hask := Leads.ask (P := program E B S T) (w := .stats) (a := n) (b := l) (o := true)
    (q := .stats S.stat) rfl rfl rfl
  have hanswer : (program E B S T).answer l true (.stats S.stat) =
      (l.serve E B T (.stats S.stat)).1.filter Reply.arrives := rfl
  rw [hanswer] at hask
  refine hask.trans ?_
  generalize (l.serve E B T (.stats S.stat)).1.filter Reply.arrives = ack
  cases ack with
  | none => exact .refl _
  | some r =>
    cases r with
    | statsAck => exact Leads.work rfl
    | _ => exact .refl _

theorem stats_serving (h : (l.serve E B T (.stats S.stat)).2.serving = true) :
    ((l.serve E B T (.stats S.stat)).1.filter Reply.arrives).isSome = true := by
  have hs := serve_serving h
  unfold Listener.serve
  rw [if_pos ⟨hs, rfl⟩]
  rfl

/-- The history is sent to a peer that is behind. -/
theorem greeted_leads (hn : n.node.Reachable E) (height : Nat) (tip : Option Hash)
    (peers : List String) :
    Leads (program E B S T) ⟨.greeted height tip peers, n, l, true⟩
      ⟨.addrs, n.greet height peers, (history n height tip).foldl
        (fun l b => (l.serve E B T (.newblock b)).2) l, true⟩ := by
  have hpush : ∀ f, Leads (program E B S T) ⟨.push f, n.greet height peers, l, true⟩
      ⟨.addrs, n.greet height peers,
        (n.node.dag.pushed f).foldl (fun l b => (l.serve E B T (.newblock b)).2) l, true⟩ :=
    fun f => push_leads (n := n.greet height peers) hn.tips hn.sound.wf _ f l
      (hn.tips.length_allAbove_lt hn.sound.wf f)
  have hwork : Leads (program E B S T) ⟨.greeted height tip peers, n, l, true⟩
    ⟨_, n.greet height peers, l, true⟩ := Leads.work rfl
  refine hwork.trans ?_
  unfold history
  by_cases hgt : n.node.currentHeight > height
  · rw [if_pos hgt, if_pos hgt]
    exact hpush _
  · rw [if_neg hgt, if_neg hgt]
    exact .refl _

/-- **After the `hello`.** -/
theorem exchange_leads (hn : n.node.Reachable E) (hs : Node.Sound E l.host.node)
    (hS : ∀ l, (S.order l).Perm l) (hT : ∀ l, (T.order l).Perm l) (height : Nat) (tip : Option Hash)
    (peers : List String) :
    ∃ r, Leads (program E B S T) ⟨.greeted height tip peers, n, l, true⟩
      ⟨.done, (exchange E B S T n l height tip peers).1, (exchange E B S T n l height tip peers).2,
        r⟩ := by
  unfold exchange
  dsimp only
  have hpush := greeted_leads (B := B) (S := S) (T := T) (l := l) hn height tip peers
  have hs₁ := newblocks_sound (B := B) hT (history n height tip) l hs
  generalize (history n height tip).foldl (fun l b => (l.serve E B T (.newblock b)).2) l = l₁
    at hpush hs₁
  have haddrs : Leads (program E B S T) ⟨.addrs, n.greet height peers, l₁, true⟩
      ⟨.stats, n.greet height peers,
        (l₁.serve E B T (.addrs ((n.greet height peers).manualPeers.take 50))).2, true⟩ :=
    Leads.tell rfl rfl
  have hs₂ := serve_sound (B := B) hT hs₁ (.addrs ((n.greet height peers).manualPeers.take 50))
  generalize (l₁.serve E B T (.addrs ((n.greet height peers).manualPeers.take 50))).2 = l₂
    at haddrs hs₂
  obtain ⟨r, hrest⟩ := submitAndPull_leads (B := B)
    (serve_sound (B := B) hT hs₂ (.stats S.stat)) hS hT stats_serving
    ((n.greet height peers).learn S ((l₂.serve E B T (.stats S.stat)).1.filter Reply.arrives))
  exact ⟨r, hpush.trans (haddrs.trans ((stats_leads _).trans hrest))⟩

theorem syncFromPeer_leads (hn : n.node.Reachable E) (hs : Node.Sound E l.host.node)
    (hS : ∀ l, (S.order l).Perm l) (hT : ∀ l, (T.order l).Perm l) :
    ∃ r, Leads (program E B S T) ⟨.hello, n, l, true⟩
      ⟨.done, (syncFromPeer E B S T n l).1, (syncFromPeer E B S T n l).2, r⟩ := by
  have hask := Leads.ask (P := program E B S T) (w := .hello) (a := n) (b := l) (o := true)
    (q := .hello S.net S.genesis n.node.currentHeight n.node.dag.getSelectedTip S.p2pPort
      (n.manualPeers.take 50)) rfl rfl rfl
  have hs' := serve_sound (B := B) hT hs (.hello S.net S.genesis n.node.currentHeight
    n.node.dag.getSelectedTip S.p2pPort (n.manualPeers.take 50))
  unfold syncFromPeer
  have hanswer : ∀ q, (program E B S T).answer l true q =
      (l.serve E B T q).1.filter Reply.arrives := fun _ => rfl
  rw [hanswer] at hask
  change Leads _ _ ⟨_, n, (l.serve E B T _).2, _⟩ at hask
  generalize l.serve E B T (.hello S.net S.genesis n.node.currentHeight n.node.dag.getSelectedTip
    S.p2pPort (n.manualPeers.take 50)) = hello at hask hs' ⊢
  dsimp only
  generalize hello.1.filter Reply.arrives = r at hask
  cases r with
  | none => exact ⟨_, hask⟩
  | some r =>
    cases r with
    | hello net genesis height tip peers =>
      change Leads _ _ ⟨if genesis ≠ S.genesis then _ else _, n, hello.2, true⟩ at hask
      dsimp only
      by_cases hg : genesis ≠ S.genesis
      · rw [if_pos hg] at hask ⊢
        exact ⟨_, hask⟩
      · rw [if_neg hg] at hask ⊢
        obtain ⟨r, hrest⟩ := exchange_leads (B := B) (l := hello.2) hn hs' hS hT height tip peers
        exact ⟨r, hask.trans hrest⟩
    | _ => exact ⟨_, hask⟩

end Session

open Session Dialogue in
/-- **An undisturbed session comes to its end, and to one only.** However the steps of dialer and listener
interleave, there are no more of them than in one fixed number, and they can always go on to a state that
has both sides done and the nodes as `syncFromPeer` computes them. -/
theorem session_unique (E : Env) (B : Bech32) (S T : Site) (hS : ∀ l, (S.order l).Perm l)
    (hT : ∀ l, (T.order l).Perm l) (n : Host) (l : Listener) (hn : n.node.Reachable E)
    (hl : l.host.node.Reachable E) :
    ∃ k z, z.phase = .done ∧ z.requests = [] ∧
      (z.client, z.server) = syncFromPeer E B S T n l ∧
      ∀ m c, Steps (Quiet (program E B S T)) m ⟨.hello, n, l, [], []⟩ c →
        m ≤ k ∧ Steps (Quiet (program E B S T)) (k - m) c z := by
  obtain ⟨r, hleads⟩ := syncFromPeer_leads (B := B) hn hl.sound hS hT
  obtain ⟨k, rs, hk⟩ := hleads.ends rfl
  exact ⟨k, _, rfl, rfl, rfl, hk⟩

open Session Dialogue Sample in
/-- The listener has a block, and in the end the dialer has it. -/
theorem session_unique_pulls : ∃ k z, z.phase = .done ∧
    (z.client.node.dag.getBlock (first.hash env)).isSome = true ∧
    ∀ m c, Steps (Quiet (program env bech32 site site)) m
      ⟨.hello, host [], ⟨host [first], true⟩, [], []⟩ c →
        m ≤ k ∧ Steps (Quiet (program env bech32 site site)) (k - m) c z := by
  obtain ⟨k, z, hdone, -, hsides, hruns⟩ := session_unique env bech32 site site (fun _ => .refl _)
    (fun _ => .refl _) (host []) ⟨host [first], true⟩ (reachable_run _) (reachable_run _)
  refine ⟨k, z, hdone, ?_, hruns⟩
  rw [show z.client = _ from congrArg Prod.fst hsides]
  decide +kernel

end Zentra

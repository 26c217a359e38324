import ZentraChain.Node.Admission
import ZentraChain.Node.Crash
import ZentraChain.Node.Frames

/-!
# Pulling blocks from a peer (`p2p_sync.rs`)

`sync_from_peer` sends the first hashes of its selected chain and gets the lowest blocks above the
first one that the peer has; then it asks for the missing parents of orphans, round by round. The peer
does not change meanwhile.

* `pullLoop_fuel`: the loop over the batches ends by itself.
* `leads`: requests that come to a block whose parents are stored.
* `pull_progress`: when a session adds a block.
-/

namespace Zentra

namespace Dag

/-- The first hashes of the selected chain, tip first. -/
def locator (d : Dag) : List Hash :=
  match d.getSelectedTip with
  | some tip => (d.getSelectedChain tip).take 32
  | none => []

/-- The blocks that the peer answers a locator with. -/
def answer (p : Dag) (locator : List Hash) : List Block :=
  p.blocksAbove (p.commonHeight (some locator) 0) syncBatch

/-- `d'` has a block that `d` has not. -/
def Gains (d d' : Dag) : Prop := ∃ h, d.getBlock h = none ∧ (d'.getBlock h).isSome

/-- The peer's blocks that are not stored. -/
def unknown (p d : Dag) : Finset Hash := p.db.blocks.keys.filter fun h => d.getBlock h = none

theorem mem_answer {E : Env} {p : Dag} (hw : p.Wf E) {locator : List Hash} {b : Block}
    (h : b ∈ p.answer locator) : p.getBlock (b.hash E) = some b := by
  obtain ⟨nodes, all, hf⟩ := search_above p (p.commonHeight (some locator) 0)
  have hin := (List.perm_insertionSort _ _).mem_iff.1 (List.mem_of_mem_take h)
  obtain ⟨x, -, xs, he⟩ := hf.mem_out.1 hin
  have hx := (expandAbove_eq_some.1 he).1
  rw [hw.hash x b hx]
  exact hx

theorem Gains.mono {d d' d'' : Dag} (h : d.Gains d') (hwi : d'.Within d'') : d.Gains d'' := by
  obtain ⟨x, hnone, hs⟩ := h
  exact ⟨x, hnone, hwi.stored hs⟩

end Dag

/-- Is the frame read by its receiver? -/
def Message.arrives (m : Message) : Bool := m.payload.length ≤ maxFrame

/-- A session while orphans are resolved. After a frame that is too long `readable` is false: the bytes
that follow are digits, taken for lengths that are all too large. -/
structure Pull where
  node : Node
  readable : Bool
  gotAny : Bool

namespace Node

section
variable (E : Env) (clock : Hash → Nat) (order : List Block → List Block)

/-- The blocks of a batch one after the other, and how many of them are accepted. -/
def acceptBatch : List Block → Node → Nat × Node
  | [], n => (0, n)
  | b :: bs, n =>
    let r := acceptExternalBlock E clock order n b
    let s := acceptBatch bs r.2
    (if r.1 then s.1 + 1 else s.1, s.2)

/-- The loop over the batches, with the peer's graph `p`: is the stream still readable after it, and
the node. -/
def pullLoop (p : Dag) : Nat → Node → Bool × Node
  | 0, n => (true, n)
  | fuel + 1, n =>
    let arr := p.answer n.dag.locator
    if ¬(Message.blocks arr).arrives then (false, n)
    else if arr.isEmpty then (true, n)
    else
      let r := acceptBatch E clock order arr n
      if r.1 = 0 then (true, r.2)
      else if arr.length < syncBatch then (true, r.2)
      else pullLoop p fuel r.2

/-- `getblock` for a wanted hash, and what is done with the answer. -/
def request (p : Dag) (s : Pull) (h : Hash) : Pull :=
  if ¬s.readable then s
  else if ¬(Message.block (p.getBlock h)).arrives then { s with readable := false }
  else
    match p.getBlock h with
    | some b =>
      if b.hash E = h then
        let n := (acceptExternalBlock E clock order s.node b).2
        { s with node := { n with wanted := n.wanted.erase h }, gotAny := true }
      else { s with node := { s.node with wanted := s.node.wanted.erase h } }
    | none => { s with node := { s.node with wanted := s.node.wanted.erase h } }

/-- The rounds of requests. The wanted hashes are listed in some order. -/
def resolveRounds (listing : Finset Hash → List Hash) (p : Dag) : Nat → Bool → Node → Node
  | 0, _, n => n
  | fuel + 1, readable, n =>
    let want := listing n.wanted
    if want.isEmpty then n
    else
      let s := want.foldl (request E clock order p) ⟨n, readable, false⟩
      let n₁ := tryConnectOrphans E clock order s.node
      if s.gotAny then resolveRounds listing p fuel s.readable n₁ else n₁

/-- The pull phase of `sync_from_peer`. A batch that does not end the loop adds a block of the peer, so
there are no more batches than blocks (`pullLoop_fuel`). -/
def pullPhase (listing : Finset Hash → List Hash) (p : Dag) (n : Node) : Node :=
  let r := pullLoop E clock order p (p.db.blocks.keys.card + 1) n
  resolveRounds E clock order listing p syncBatch r.1 r.2

end

variable {E : Env} {clock : Hash → Nat} {order : List Block → List Block}
  {listing : Finset Hash → List Hash} {p : Dag} {n m : Node} {b : Block} {h : Hash} {k : Nat}

/-! ## One block -/

/-- The parents of a block that are not stored. -/
def missing (n : Node) (b : Block) : List Hash :=
  b.header.parents.filter fun q => ¬(n.dag.getBlock q).isSome

theorem mem_missing {q : Hash} :
    q ∈ n.missing b ↔ q ∈ b.header.parents ∧ n.dag.getBlock q = none := by
  simp [missing]

theorem missing_isEmpty : (n.missing b).isEmpty = n.parentsStored b := by
  rw [Bool.eq_iff_iff, List.isEmpty_iff, missing, List.filter_eq_nil_iff, parentsStored, List.all_eq_true]
  simp [Option.isSome_iff_ne_none]

/-- What becomes of a peer's block. -/
inductive AcceptOutcome (E : Env) (clock : Hash → Nat) (n : Node) (b : Block) : Bool → Node → Prop
  | known (hs : (n.dag.getBlock (b.hash E)).isSome) : AcceptOutcome E clock n b false n
  | refused (hnew : n.dag.getBlock (b.hash E) = none)
    (hne : ¬Enters E (clock (b.hash E)) n b)
    (hp : verifyBlockPow E b.header = .ok () → n.parentsStored b = true) :
    AcceptOutcome E clock n b false n
  | parked (hnew : n.dag.getBlock (b.hash E) = none) (hp : n.parentsStored b = false) :
    AcceptOutcome E clock n b false (n.parkOrphan E b (n.missing b))
  | entered (he : Enters E (clock (b.hash E)) n b) (hp : n.parentsStored b = true) {r : Bool}
    {n' : Node} (hs : (n'.dag.getBlock (b.hash E)).isSome) : AcceptOutcome E clock n b r n'

theorem tryConnectOrphans_within (E : Env) (clock : Hash → Nat) (order : List Block → List Block)
    (n : Node) : n.dag.Within (tryConnectOrphans E clock order n).dag :=
  (orphanRounds_actions clock order n.orphans.length n).moves.within

theorem acceptExternalBlock_outcome (E : Env) (clock : Hash → Nat) (order : List Block → List Block)
    (n : Node) (b : Block) : AcceptOutcome E clock n b (acceptExternalBlock E clock order n b).1
      (acceptExternalBlock E clock order n b).2 := by
  unfold acceptExternalBlock
  split
  · rename_i hs
    exact .known hs
  · rename_i hs
    have hnew : n.dag.getBlock (b.hash E) = none := by simpa using hs
    split
    · rename_i x hx
      exact .refused hnew (fun he => by rw [he.checks.1.pow] at hx; cases hx) (fun h => by rw [h] at hx; cases hx)
    · show AcceptOutcome E clock n b
        (if ¬(n.missing b).isEmpty = true then (false, n.parkOrphan E b (n.missing b)) else _).1
        (if ¬(n.missing b).isEmpty = true then (false, n.parkOrphan E b (n.missing b)) else _).2
      rw [missing_isEmpty]
      cases hp : n.parentsStored b with
      | false => exact .parked hnew hp
      | true =>
        simp only [not_true_eq_false, if_false]
        by_cases he : Enters E (clock (b.hash E)) n b
        · have hs : ((connectBlock E (clock (b.hash E)) n b).2.dag.getBlock (b.hash E)).isSome := by
            rw [he.getBlock, if_pos rfl]
            rfl
          split
          · rename_i n' hc
            rw [hc] at hs
            exact .entered he hp ((tryConnectOrphans_within E clock order n').stored hs)
          · rename_i n' hc
            rw [hc] at hs
            exact .entered he hp hs
        · rw [connectBlock_refused he]
          exact .refused hnew he fun _ => hp

theorem acceptExternalBlock_within (E : Env) (clock : Hash → Nat) (ho : ∀ l, (order l).Perm l)
    (n : Node) (b : Block) : n.dag.Within (acceptExternalBlock E clock order n b).2.dag :=
  (Step.accept clock order n b ho).moves.within

/-! ## Stored blocks stay -/

section
variable (ho : ∀ l, (order l).Perm l)
include ho

theorem acceptBatch_within : ∀ (bs : List Block) (n : Node),
    n.dag.Within (acceptBatch E clock order bs n).2.dag
  | [], _ => .refl _
  | b :: bs, n => (acceptExternalBlock_within E clock ho n b).trans (acceptBatch_within bs _)

theorem pullLoop_within (p : Dag) : ∀ (fuel : Nat) (n : Node),
    n.dag.Within (pullLoop E clock order p fuel n).2.dag
  | 0, _ => .refl _
  | fuel + 1, n => by
    have hb : n.dag.Within (acceptBatch E clock order (p.answer n.dag.locator) n).2.dag :=
      acceptBatch_within ho _ n
    simp only [pullLoop]
    split
    · exact .refl _
    · split
      · exact .refl _
      · split
        · exact hb
        · split
          · exact hb
          · exact hb.trans (pullLoop_within p fuel _)

theorem request_within (p : Dag) (s : Pull) (h : Hash) :
    s.node.dag.Within (request E clock order p s h).node.dag := by
  unfold request
  split
  · exact .refl _
  · split
    · exact .refl _
    · split
      · split
        · exact acceptExternalBlock_within E clock ho s.node _
        · exact .refl _
      · exact .refl _

theorem foldl_request_within (p : Dag) : ∀ (hs : List Hash) (s : Pull),
    s.node.dag.Within (hs.foldl (request E clock order p) s).node.dag
  | [], _ => .refl _
  | h :: hs, s => (request_within ho p s h).trans (foldl_request_within p hs _)

theorem resolveRounds_within (listing : Finset Hash → List Hash) (p : Dag) :
    ∀ (fuel : Nat) (r : Bool) (n : Node),
      n.dag.Within (resolveRounds E clock order listing p fuel r n).dag
  | 0, _, _ => .refl _
  | fuel + 1, r, n => by
    have hfold : n.dag.Within
        ((listing n.wanted).foldl (request E clock order p) ⟨n, r, false⟩).node.dag :=
      foldl_request_within ho p _ ⟨n, r, false⟩
    have hround := hfold.trans (tryConnectOrphans_within E clock order _)
    simp only [resolveRounds]
    split
    · exact .refl _
    · split
      · exact hround.trans (resolveRounds_within listing p fuel _ _)
      · exact hround

/-- A block that is accepted is new. -/
theorem acceptBatch_gains : ∀ {bs : List Block} {n : Node}, (acceptBatch E clock order bs n).1 ≠ 0 →
    ∃ b ∈ bs, n.dag.getBlock (b.hash E) = none ∧
      ((acceptBatch E clock order bs n).2.dag.getBlock (b.hash E)).isSome
  | [], _, h => absurd rfl h
  | b :: bs, n, h => by
    have hout := acceptExternalBlock_outcome E clock order n b
    simp only [acceptBatch] at h ⊢
    cases hr : (acceptExternalBlock E clock order n b).1 with
    | true =>
      rw [hr] at hout
      generalize (acceptExternalBlock E clock order n b).2 = n₁ at hout
      cases hout with
      | entered he hp hs => exact ⟨b, List.mem_cons_self, he.1, (acceptBatch_within ho bs n₁).stored hs⟩
    | false =>
      rw [hr, if_neg Bool.false_ne_true] at h
      obtain ⟨c, hc, hnone, hs⟩ := acceptBatch_gains h
      exact ⟨c, List.mem_cons_of_mem _ hc,
        (acceptExternalBlock_within E clock ho n b).getBlock_none hnone, hs⟩

/-- **The loop over the batches ends by itself.** -/
theorem pullLoop_fuel (hw : p.Wf E) : ∀ (fuel fuel' : Nat) (n : Node),
    (p.unknown n.dag).card < fuel → (p.unknown n.dag).card < fuel' →
      pullLoop E clock order p fuel n = pullLoop E clock order p fuel' n
  | 0, _, _, h, _ => absurd h (Nat.not_lt_zero _)
  | _ + 1, 0, _, _, h => absurd h (Nat.not_lt_zero _)
  | fuel + 1, fuel' + 1, n, h, h' => by
    simp only [pullLoop]
    split
    · rfl
    · split
      · rfl
      · split
        · rfl
        · rename_i hacc
          split
          · rfl
          · -- a block of the peer is no longer unknown
            obtain ⟨b, hb, hnone, hs⟩ := acceptBatch_gains ho hacc
            have hwi : n.dag.Within (acceptBatch E clock order (p.answer n.dag.locator) n).2.dag :=
              acceptBatch_within ho _ n
            have hlt : (p.unknown (acceptBatch E clock order (p.answer n.dag.locator) n).2.dag).card <
                (p.unknown n.dag).card := by
              refine Finset.card_lt_card (Finset.ssubset_iff_of_subset ?_ |>.2 ⟨b.hash E, ?_, ?_⟩)
              · exact Finset.monotone_filter_right _ fun x _ hx => hwi.getBlock_none hx
              · exact Finset.mem_filter.2 ⟨Dag.mem_keys.2 ⟨b, Dag.mem_answer hw hb⟩, hnone⟩
              · intro hin
                rw [(Finset.mem_filter.1 hin).2] at hs
                cases hs
            exact pullLoop_fuel hw fuel fuel' _ (by omega) (by omega)

end

/-! ## Requests -/

/-- A request for `h`, and requests for missing parents in the next rounds, come in `k` rounds to a block
of the peer whose parents are all stored. -/
def leads (n : Node) (p : Dag) : Nat → Hash → Prop
  | 0, _ => False
  | k + 1, h => ∃ b, p.getBlock h = some b ∧ n.dag.getBlock h = none ∧
      (n.parentsStored b = true ∨ ∃ q ∈ b.header.parents, leads n p k q)

theorem leads.succ : ∀ {k : Nat} {h : Hash}, n.leads p k h → n.leads p (k + 1) h
  | 0, _, hl => hl.elim
  | _ + 1, _, ⟨b, hb, hnew, hl⟩ => by
    refine ⟨b, hb, hnew, hl.imp_right ?_⟩
    rintro ⟨q, hq, hl⟩
    exact ⟨q, hq, hl.succ⟩

theorem parentsStored_congr (hd : m.dag = n.dag) (b : Block) : m.parentsStored b = n.parentsStored b := by
  unfold parentsStored
  rw [hd]

theorem missing_congr (hd : m.dag = n.dag) (b : Block) : m.missing b = n.missing b := by
  unfold missing
  rw [hd]

theorem enters_congr (hd : m.dag = n.dag) {now : Nat} : Enters E now m b ↔ Enters E now n b := by
  unfold Enters
  rw [hd]

theorem parkOrphan_orphans {ms : List Hash} {o : Block} (h : o ∈ (n.parkOrphan E b ms).orphans) :
    o ∈ n.orphans ∨ o = b := by
  unfold parkOrphan at h
  simp only at h
  split at h
  · rcases List.mem_append.1 h with h | h
    · exact .inl (List.mem_filter.1 h).1
    · exact .inr (List.mem_singleton.1 h)
  · exact .inl h

/-- The limit on the wanted hashes. -/
theorem parkOrphan_wanted {ms : List Hash} {q : Hash} : q ∈ (n.parkOrphan E b ms).wanted ↔
    q ∈ n.wanted ∨ (n.wanted.card < 10000 ∧ q ∈ ms) := by
  unfold parkOrphan
  simp only
  split
  · rename_i hlt
    have hmem : q ∈ ms.foldl (fun w m => insert m w) n.wanted ↔ q ∈ n.wanted ∨ q ∈ ms.map id :=
      mem_foldl_insert id
    rw [hmem]
    simp [hlt]
  · rename_i hlt
    simp [hlt]

/-! ## A session that adds nothing -/

/-- The graph is as it was, no orphan can be connected, and no wanted hash leads anywhere in `k` rounds. -/
structure Idle (E : Env) (clock : Hash → Nat) (n : Node) (p : Dag) (k : Nat) (m : Node) : Prop where
  dag : m.dag = n.dag
  orphans : ∀ o ∈ m.orphans, n.parentsStored o = true → ¬Enters E (clock (o.hash E)) n o
  wanted : ∀ w ∈ m.wanted, ¬n.leads p k w

namespace Idle

theorem pred (hi : Idle E clock n p (k + 1) m) : Idle E clock n p k m :=
  ⟨hi.dag, hi.orphans, fun w hw hl => hi.wanted w hw hl.succ⟩

theorem erase (hi : Idle E clock n p k m) (h : Hash) :
    Idle E clock n p k { m with wanted := m.wanted.erase h } :=
  ⟨hi.dag, hi.orphans, fun w hw => hi.wanted w (Finset.mem_of_mem_erase hw)⟩

/-- A block of the peer that leads nowhere is parked or refused. -/
theorem accept (hi : Idle E clock n p k m) (hb : p.getBlock (b.hash E) = some b)
    (hl : ¬n.leads p (k + 1) (b.hash E)) : (acceptExternalBlock E clock order m b).1 = false ∧
      Idle E clock n p k (acceptExternalBlock E clock order m b).2 := by
  have hout := acceptExternalBlock_outcome E clock order m b
  generalize (acceptExternalBlock E clock order m b).1 = r at hout ⊢
  generalize (acceptExternalBlock E clock order m b).2 = m' at hout ⊢
  cases hout with
  | known _ => exact ⟨rfl, hi⟩
  | refused _ _ _ => exact ⟨rfl, hi⟩
  | parked hnew hp =>
    rw [hi.dag] at hnew
    rw [parentsStored_congr hi.dag] at hp
    refine ⟨rfl, hi.dag, fun o ho hps => ?_, fun w hw hlw => ?_⟩
    · rcases parkOrphan_orphans ho with ho | rfl
      · exact hi.orphans o ho hps
      · rw [hp] at hps
        cases hps
    · rcases parkOrphan_wanted.1 hw with hw | ⟨-, hw⟩
      · exact hi.wanted w hw hlw
      · exact hl ⟨b, hb, hnew, .inr ⟨w, (mem_missing.1 hw).1, hlw⟩⟩
  | entered he hp _ =>
    rw [parentsStored_congr hi.dag] at hp
    exact absurd ⟨b, hb, ((enters_congr hi.dag).1 he).1, .inl hp⟩ hl

theorem batch : ∀ {bs : List Block} {m : Node}, Idle E clock n p k m →
    (∀ b ∈ bs, p.getBlock (b.hash E) = some b ∧ ¬n.leads p (k + 1) (b.hash E)) →
    (acceptBatch E clock order bs m).1 = 0 ∧ Idle E clock n p k (acceptBatch E clock order bs m).2
  | [], m, hi, _ => ⟨rfl, hi⟩
  | b :: bs, m, hi, hbs => by
    obtain ⟨hb, hl⟩ := hbs b List.mem_cons_self
    obtain ⟨hr, hi'⟩ : _ ∧ Idle E clock n p k (acceptExternalBlock E clock order m b).2 :=
      hi.accept hb hl
    obtain ⟨h0, hrest⟩ := hi'.batch fun c hc => hbs c (List.mem_cons_of_mem _ hc)
    simp only [acceptBatch]
    rw [hr, if_neg Bool.false_ne_true]
    exact ⟨h0, hrest⟩

theorem request (hw : p.Wf E) {s : Pull} (hi : Idle E clock n p k s.node)
    (hl : ¬n.leads p (k + 1) h) : Idle E clock n p k (request E clock order p s h).node := by
  unfold Node.request
  split
  · exact hi
  · split
    · exact hi
    · split
      · rename_i b hb
        have hh := hw.hash h b hb
        rw [if_pos hh]
        rw [← hh] at hb hl
        exact (hi.accept hb hl).2.erase h
      · exact hi.erase h

theorem requests (hw : p.Wf E) : ∀ {hs : List Hash} {s : Pull}, Idle E clock n p k s.node →
    (∀ h ∈ hs, ¬n.leads p (k + 1) h) →
    Idle E clock n p k (hs.foldl (Node.request E clock order p) s).node
  | [], _, hi, _ => hi
  | h :: hs, s, hi, hl => by
    have hi' : Idle E clock n p k (Node.request E clock order p s h).node :=
      hi.request hw (hl h List.mem_cons_self)
    exact hi'.requests hw fun x hx => hl x (List.mem_cons_of_mem _ hx)

/-- Orphans that are refused. -/
theorem connectReady : ∀ {bs : List Block} {m : Node}, Idle E clock n p k m →
    (∀ b ∈ bs, ¬Enters E (clock (b.hash E)) n b) →
    Idle E clock n p k (bs.foldl (connectReady E clock) m)
  | [], _, hi, _ => hi
  | b :: bs, m, hi, hbs => by
    have hi' : Idle E clock n p k (Node.connectReady E clock m b) := by
      have hne : ∀ os w, ¬Enters E (clock (b.hash E)) { m with orphans := os, wanted := w } b :=
        fun os w he => hbs b List.mem_cons_self ((enters_congr hi.dag).1 he)
      unfold Node.connectReady
      simp only
      rw [connectBlock_refused (hne _ _)]
      exact ⟨hi.dag, fun o ho => hi.orphans o (List.mem_filter.1 ho).1,
        fun w hw => hi.wanted w (Finset.mem_of_mem_erase hw)⟩
    exact hi'.connectReady fun c hc => hbs c (List.mem_cons_of_mem _ hc)

theorem orphanRounds (ho : ∀ l, (order l).Perm l) : ∀ {fuel : Nat} {m : Node},
    Idle E clock n p k m → Idle E clock n p k (orphanRounds E clock order fuel m)
  | 0, _, hi => hi
  | fuel + 1, m, hi => by
    simp only [Node.orphanRounds]
    split
    · exact hi
    · refine (hi.connectReady fun b hb => ?_).orphanRounds ho
      obtain ⟨hin, hp⟩ := List.mem_filter.1 hb
      rw [parentsStored_congr hi.dag] at hp
      exact hi.orphans b ((ho _).mem_iff.1 hin) hp

/-- **The rounds of requests.** -/
theorem resolveRounds (hw : p.Wf E) (ho : ∀ l, (order l).Perm l) (hlist : ∀ s, ∀ h ∈ listing s, h ∈ s) :
    ∀ {fuel : Nat} {r : Bool} {m : Node}, Idle E clock n p fuel m →
      (resolveRounds E clock order listing p fuel r m).dag = n.dag
  | 0, _, _, hi => hi.dag
  | fuel + 1, r, m, hi => by
    have hround : Idle E clock n p fuel (tryConnectOrphans E clock order
        ((listing m.wanted).foldl (Node.request E clock order p) ⟨m, r, false⟩).node) := by
      refine orphanRounds ho (requests hw hi.pred fun h hh => ?_)
      exact hi.wanted h (hlist _ h hh)
    simp only [Node.resolveRounds]
    split
    · exact hi.dag
    · split
      · exact hround.resolveRounds hw ho hlist
      · exact hround.dag

end Idle

/-! ## A session that comes to a block -/

/-- The peer's blocks are acceptable: their work is verified, and they pass the checks once their parents
are stored. -/
def Acceptable (E : Env) (clock : Hash → Nat) (n : Node) (p : Dag) : Prop :=
  ∀ h b, p.getBlock h = some b → n.dag.getBlock h = none →
    verifyBlockPow E b.header = .ok () ∧ (n.parentsStored b = true → Enters E (clock h) n b)

theorem leads.unknown : ∀ {k : Nat} {h : Hash}, n.leads p k h → n.dag.getBlock h = none
  | _ + 1, _, ⟨_, _, hnew, _⟩ => hnew

theorem tryConnectOrphans_noReady (ho : ∀ l, (order l).Perm l) (hr : n.NoReady) :
    tryConnectOrphans E clock order n = n := by
  have hempty : (order n.orphans).filter (n.parentsStored ·) = [] := by
    refine List.filter_eq_nil_iff.2 fun b hb => ?_
    rw [hr b ((ho _).mem_iff.1 hb)]
    exact Bool.false_ne_true
  unfold tryConnectOrphans
  cases n.orphans.length with
  | zero => rfl
  | succ fuel =>
    simp only [orphanRounds]
    rw [hempty]
    rfl

/-- Nothing has been added, no orphan is ready, and what is wanted is in `S`. -/
structure Seeking (n : Node) (S : Finset Hash) (m : Node) : Prop where
  dag : m.dag = n.dag
  ready : m.NoReady
  wanted : m.wanted ⊆ S

namespace Seeking

section
variable {S : Finset Hash} (hS : S.card < 10000) (hacc : Acceptable E clock n p)
include hS hacc

/-- A block of the peer is added, or its missing parents are wanted. -/
theorem accept (order : List Block → List Block) (hs : Seeking n S m)
    (hb : p.getBlock (b.hash E) = some b)
    (hclosed : n.dag.getBlock (b.hash E) = none → ∀ q ∈ n.missing b, q ∈ S) :
    n.dag.Gains (acceptExternalBlock E clock order m b).2.dag ∨
      (Seeking n S (acceptExternalBlock E clock order m b).2 ∧
        m.wanted ⊆ (acceptExternalBlock E clock order m b).2.wanted ∧
        ∀ k, n.leads p (k + 1) (b.hash E) → ∃ q ∈ b.header.parents,
          q ∈ (acceptExternalBlock E clock order m b).2.wanted ∧ n.leads p k q) := by
  have hout := acceptExternalBlock_outcome E clock order m b
  generalize (acceptExternalBlock E clock order m b).1 = r at hout
  generalize (acceptExternalBlock E clock order m b).2 = m' at hout ⊢
  cases hout with
  | known hst =>
    refine .inr ⟨hs, Finset.Subset.refl _, fun k hl => ?_⟩
    rw [hs.dag, hl.unknown] at hst
    cases hst
  | refused hnew hne hp =>
    rw [hs.dag] at hnew
    obtain ⟨hpow, henter⟩ := hacc _ b hb hnew
    have hready := hp hpow
    rw [parentsStored_congr hs.dag] at hready
    exact absurd ((enters_congr hs.dag).2 (henter hready)) hne
  | parked hnew hp =>
    have hroom : m.wanted.card < 10000 := (Finset.card_le_card hs.wanted).trans_lt hS
    have hready : (m.parkOrphan E b (m.missing b)).NoReady := parkOrphan_noReady hs.ready hp
    rw [hs.dag] at hnew
    rw [parentsStored_congr hs.dag] at hp
    refine .inr ⟨⟨hs.dag, hready, fun q hq => ?_⟩, fun q hq => parkOrphan_wanted.2 (.inl hq), ?_⟩
    · rcases parkOrphan_wanted.1 hq with hq | ⟨-, hq⟩
      · exact hs.wanted hq
      · rw [missing_congr hs.dag] at hq
        exact hclosed hnew q hq
    · rintro k ⟨c, hc, -, hl⟩
      cases hb.symm.trans hc
      rcases hl with hl | ⟨q, hq, hl⟩
      · rw [hp] at hl
        cases hl
      · refine ⟨q, hq, parkOrphan_wanted.2 (.inr ⟨hroom, mem_missing.2 ⟨hq, ?_⟩⟩), hl⟩
        rw [hs.dag]
        exact hl.unknown
  | entered he _ hst => exact .inl ⟨b.hash E, ((enters_congr hs.dag).1 he).1, hst⟩

theorem batch (ho : ∀ l, (order l).Perm l) : ∀ {bs : List Block} {m : Node}, Seeking n S m →
    (∀ b ∈ bs, p.getBlock (b.hash E) = some b ∧
      (n.dag.getBlock (b.hash E) = none → ∀ q ∈ n.missing b, q ∈ S)) →
    n.dag.Gains (acceptBatch E clock order bs m).2.dag ∨
      (Seeking n S (acceptBatch E clock order bs m).2 ∧
        m.wanted ⊆ (acceptBatch E clock order bs m).2.wanted ∧
        ∀ b ∈ bs, ∀ k, n.leads p (k + 1) (b.hash E) →
          ∃ q ∈ (acceptBatch E clock order bs m).2.wanted, n.leads p k q)
  | [], m, hs, _ => .inr ⟨hs, Finset.Subset.refl _, fun b hb => absurd hb List.not_mem_nil⟩
  | b :: bs, m, hs, hbs => by
    obtain ⟨hb, hclosed⟩ := hbs b List.mem_cons_self
    rcases hs.accept hS hacc order hb hclosed with hg | ⟨hs', hsub, hl⟩
    · exact .inl (hg.mono (acceptBatch_within ho bs _))
    · rcases hs'.batch ho fun c hc => hbs c (List.mem_cons_of_mem _ hc) with hg | ⟨hs'', hsub', hl'⟩
      · exact .inl hg
      · refine .inr ⟨hs'', hsub.trans hsub', fun c hc k hlc => ?_⟩
        rcases List.mem_cons.1 hc with rfl | hc
        · obtain ⟨q, -, hq, hlq⟩ := hl k hlc
          exact ⟨q, hsub' hq, hlq⟩
        · exact hl' c hc k hlc

/-- A wanted hash is answered: its block is added, or its missing parents are wanted instead. -/
theorem request (order : List Block → List Block) (hw : p.Wf E)
    (hblocks : ∀ h, (Message.block (p.getBlock h)).arrives = true) {s : Pull}
    (hs : Seeking n S s.node) (hr : s.readable = true)
    (hclosed : ∀ b, p.getBlock h = some b → n.dag.getBlock h = none → ∀ q ∈ n.missing b, q ∈ S) :
    n.dag.Gains (request E clock order p s h).node.dag ∨
      (Seeking n S (request E clock order p s h).node ∧
        (∀ w ∈ s.node.wanted, w ≠ h → w ∈ (request E clock order p s h).node.wanted) ∧
        ∀ k, n.leads p (k + 1) h →
          ∃ q ∈ (request E clock order p s h).node.wanted, n.leads p k q) := by
  have herase : ∀ {m : Node}, Seeking n S m → Seeking n S { m with wanted := m.wanted.erase h } :=
    fun hs => ⟨hs.dag, hs.ready, (Finset.erase_subset _ _).trans hs.wanted⟩
  unfold Node.request
  rw [hr, hblocks h]
  simp only [not_true_eq_false, if_false]
  cases hb : p.getBlock h with
  | none =>
    refine .inr ⟨herase hs, fun w hw hne => Finset.mem_erase.2 ⟨hne, hw⟩, ?_⟩
    rintro k ⟨b, hb', -⟩
    rw [hb] at hb'
    cases hb'
  | some b =>
    obtain rfl := hw.hash h b hb
    simp only [if_true]
    rcases hs.accept hS hacc order hb (hclosed b hb) with hg | ⟨hs', hsub, hl⟩
    · exact .inl hg
    · refine .inr ⟨herase hs', fun w hw hne => Finset.mem_erase.2 ⟨hne, hsub hw⟩, fun k hlk => ?_⟩
      obtain ⟨q, hq, hqw, hlq⟩ := hl k hlk
      refine ⟨q, Finset.mem_erase.2 ⟨?_, hqw⟩, hlq⟩
      -- a block scores higher than its parents
      rintro rfl
      exact Nat.lt_irrefl _ (hw.score_parent_lt hb hq)

end

end Seeking

/-- Short frames keep the stream readable, and a stored block counts as an answer. -/
theorem request_answered (clock : Hash → Nat) (order : List Block → List Block) (hw : p.Wf E)
    (hblocks : ∀ h, (Message.block (p.getBlock h)).arrives = true) :
    ∀ (hs : List Hash) (s : Pull), s.readable = true →
      (hs.foldl (request E clock order p) s).readable = true ∧
        (s.gotAny = true ∨ (∃ h ∈ hs, (p.getBlock h).isSome) →
          (hs.foldl (request E clock order p) s).gotAny = true)
  | [], s, hr => ⟨hr, fun h => h.elim id fun ⟨_, hin, _⟩ => absurd hin List.not_mem_nil⟩
  | h :: hs, s, hr => by
    have hstep : (request E clock order p s h).readable = true ∧
        (s.gotAny = true ∨ (p.getBlock h).isSome → (request E clock order p s h).gotAny = true) := by
      unfold request
      rw [hr, hblocks h]
      simp only [not_true_eq_false, if_false]
      cases hb : p.getBlock h with
      | none => simp
      | some b => simp [hw.hash h b hb]
    obtain ⟨h1, h2⟩ :=
      request_answered clock order hw hblocks hs (request E clock order p s h) hstep.1
    refine ⟨h1, fun hgot => h2 ?_⟩
    rcases hgot with hgot | ⟨x, hx, hsome⟩
    · exact .inl (hstep.2 (.inl hgot))
    · rcases List.mem_cons.1 hx with rfl | hx
      · exact .inl (hstep.2 (.inr hsome))
      · exact .inr ⟨x, hx, hsome⟩

section
variable {S : Finset Hash} (hS : S.card < 10000) (hacc : Acceptable E clock n p) (hw : p.Wf E)
  (hblocks : ∀ h, (Message.block (p.getBlock h)).arrives = true) (ho : ∀ l, (order l).Perm l)
  (hclosed : ∀ h ∈ S, ∀ b, p.getBlock h = some b → n.dag.getBlock h = none →
    ∀ q ∈ n.missing b, q ∈ S)
include hS hacc hw hblocks ho hclosed

/-- **A round of requests comes one step closer.** -/
theorem requests_closer : ∀ (hs : List Hash) (s : Pull), Seeking n S s.node → s.readable = true →
    (∀ h ∈ hs, h ∈ S) →
    (∃ w ∈ s.node.wanted, n.leads p k w ∨ (w ∈ hs ∧ n.leads p (k + 1) w)) →
    n.dag.Gains (hs.foldl (request E clock order p) s).node.dag ∨
      (Seeking n S (hs.foldl (request E clock order p) s).node ∧
        ∃ w ∈ (hs.foldl (request E clock order p) s).node.wanted, n.leads p k w)
  | [], s, hseek, _, _, ⟨w, hw', hl⟩ =>
    .inr ⟨hseek, w, hw', hl.resolve_right fun h => List.not_mem_nil h.1⟩
  | h :: hs, s, hseek, hr, hin, ⟨w, hw', hl⟩ => by
    have hr' : (request E clock order p s h).readable = true :=
      (request_answered clock order hw hblocks [h] s hr).1
    rcases hseek.request hS hacc order hw hblocks hr (hclosed h (hin h List.mem_cons_self)) with
      hg | ⟨hseek', hkeep, hnext⟩
    · exact .inl (hg.mono (foldl_request_within ho p hs _))
    · refine requests_closer hs _ hseek' hr' (fun x hx => hin x (List.mem_cons_of_mem _ hx)) ?_
      by_cases hwh : w = h
      · have hl' : n.leads p (k + 1) h := hwh ▸ hl.elim leads.succ And.right
        obtain ⟨q, hq, hlq⟩ := hnext k hl'
        exact ⟨q, hq, .inl hlq⟩
      · refine ⟨w, hkeep w hw' hwh, hl.imp_right fun h => ⟨?_, h.2⟩⟩
        exact (List.mem_cons.1 h.1).resolve_left hwh

/-- **The rounds come to a block.** -/
theorem resolveRounds_gains (hlist : ∀ s h, h ∈ listing s ↔ h ∈ s) :
    ∀ {fuel : Nat} {m : Node}, Seeking n S m → (∃ w ∈ m.wanted, n.leads p fuel w) →
      n.dag.Gains (resolveRounds E clock order listing p fuel true m).dag
  | 0, _, _, ⟨_, _, hl⟩ => hl.elim
  | fuel + 1, m, hseek, ⟨w, hwanted, hl⟩ => by
    have hwl := (hlist _ _).2 hwanted
    have hne : (listing m.wanted).isEmpty = false := by
      rw [List.isEmpty_eq_false_iff_exists_mem]
      exact ⟨w, hwl⟩
    have hstored : (p.getBlock w).isSome := by
      obtain ⟨b, hb, -⟩ := hl
      rw [hb]
      rfl
    have hround := requests_closer hS hacc hw hblocks ho hclosed (listing m.wanted) ⟨m, true, false⟩ hseek
      rfl (fun h hh => hseek.wanted ((hlist _ _).1 hh)) ⟨w, hwanted, .inr ⟨hwl, hl⟩⟩
    have hanswer := request_answered clock order hw hblocks (listing m.wanted) ⟨m, true, false⟩ rfl
    simp only [resolveRounds]
    rw [hne, if_neg Bool.false_ne_true, hanswer.2 (.inr ⟨w, hwl, hstored⟩), if_pos rfl, hanswer.1]
    rcases hround with hg | ⟨hseek', hnext⟩
    · exact hg.mono ((tryConnectOrphans_within E clock order _).trans
        (resolveRounds_within ho listing p _ _ _))
    · rw [tryConnectOrphans_noReady ho hseek'.ready]
      exact resolveRounds_gains hlist hseek' hnext

end

/-! ## The session -/

/-- The peer's first answer. -/
def firstAnswer (n : Node) (p : Dag) : List Block := p.answer n.dag.locator

/-- Requests lead to a block in the rounds there are: from a block of the first answer, or from a hash
that is wanted already. -/
def Leads (E : Env) (n : Node) (p : Dag) : Prop :=
  (∃ b ∈ n.firstAnswer p, n.leads p (syncBatch + 1) (b.hash E)) ∨
    ∃ w ∈ n.wanted, n.leads p syncBatch w

/-- No orphan is ready, all frames are short enough, and there is room for what may be wanted. -/
structure Unhindered (n : Node) (p : Dag) : Prop where
  ready : n.NoReady
  answer : (Message.blocks (n.firstAnswer p)).arrives = true
  block : ∀ h b, p.getBlock h = some b → (Message.block (some b)).arrives = true
  room : ∃ S : Finset Hash, S.card < 10000 ∧ n.wanted ⊆ S ∧
    ∀ h b, h ∈ S ∨ b ∈ n.firstAnswer p → p.getBlock h = some b → n.dag.getBlock h = none →
      ∀ q ∈ n.missing b, q ∈ S

/-- What the first batch adds, the session adds. -/
theorem pullPhase_of_batch (ho : ∀ l, (order l).Perm l)
    (harr : (Message.blocks (n.firstAnswer p)).arrives = true)
    (hg : n.dag.Gains (acceptBatch E clock order (n.firstAnswer p) n).2.dag) :
    n.dag.Gains (pullPhase E clock order listing p n).dag := by
  refine Dag.Gains.mono ?_ (resolveRounds_within ho listing p _ _ _)
  unfold firstAnswer at harr hg
  simp only [pullLoop]
  rw [harr, if_neg (not_not.2 rfl)]
  split
  · rename_i he
    rw [List.isEmpty_iff.1 he] at hg
    exact hg
  · split
    · exact hg
    · split
      · exact hg
      · exact hg.mono (pullLoop_within ho p _ _)

/-- A block of a batch whose parents are stored. -/
theorem acceptBatch_ready (ho : ∀ l, (order l).Perm l) (hacc : Acceptable E clock n p) :
    ∀ {bs : List Block} {m : Node},
    m.dag = n.dag → (∀ b ∈ bs, p.getBlock (b.hash E) = some b) →
    (∃ b ∈ bs, n.leads p 1 (b.hash E)) → n.dag.Gains (acceptBatch E clock order bs m).2.dag
  | [], _, _, _, ⟨_, hb, _⟩ => absurd hb List.not_mem_nil
  | b :: bs, m, hd, hbs, ⟨c, hc, hl⟩ => by
    have hb := hbs b List.mem_cons_self
    have hrest : ∀ {m' : Node}, m'.dag = n.dag → ¬(c = b) →
        n.dag.Gains (acceptBatch E clock order bs m').2.dag := fun hd' hne =>
      acceptBatch_ready ho hacc hd' (fun x hx => hbs x (List.mem_cons_of_mem _ hx))
        ⟨c, (List.mem_cons.1 hc).resolve_left hne, hl⟩
    have hready : c = b → n.dag.getBlock (b.hash E) = none ∧ n.parentsStored b = true := by
      rintro rfl
      obtain ⟨x, hx, hnew, hp | ⟨q, -, hq⟩⟩ := hl
      · cases hb.symm.trans hx
        exact ⟨hnew, hp⟩
      · exact hq.elim
    have hout := acceptExternalBlock_outcome E clock order m b
    simp only [acceptBatch]
    generalize (acceptExternalBlock E clock order m b).1 = r at hout
    generalize (acceptExternalBlock E clock order m b).2 = m' at hout ⊢
    cases hout with
    | known hs =>
      refine hrest hd fun h => ?_
      rw [hd, (hready h).1] at hs
      cases hs
    | refused hnew hne _ =>
      refine hrest hd fun h => hne ?_
      obtain ⟨hnew', hp⟩ := hready h
      exact (enters_congr hd).2 ((hacc _ b hb hnew').2 hp)
    | parked hnew hp =>
      refine hrest hd fun h => ?_
      rw [parentsStored_congr hd, (hready h).2] at hp
      cases hp
    | entered he _ hs =>
      have hg : n.dag.Gains m'.dag := ⟨b.hash E, ((enters_congr hd).1 he).1, hs⟩
      exact hg.mono (acceptBatch_within ho bs m')

section
variable (hw : p.Wf E) (ho : ∀ l, (order l).Perm l)
include hw ho

/-- Without a way to a block, the session adds nothing. -/
theorem pullPhase_idle (hlist : ∀ s h, h ∈ listing s ↔ h ∈ s) (hl : ¬Leads E n p)
    (horphans : ∀ o ∈ n.orphans, n.parentsStored o = true → ¬Enters E (clock (o.hash E)) n o) :
    (pullPhase E clock order listing p n).dag = n.dag := by
  have hi : Idle E clock n p syncBatch n :=
    ⟨rfl, horphans, fun w hw' hlw => hl (.inr ⟨w, hw', hlw⟩)⟩
  have hb : (acceptBatch E clock order (p.answer n.dag.locator) n).1 = 0 ∧
      Idle E clock n p syncBatch (acceptBatch E clock order (p.answer n.dag.locator) n).2 :=
    hi.batch fun b hb => ⟨Dag.mem_answer hw hb, fun hlb => hl (.inl ⟨b, hb, hlb⟩)⟩
  have hloop : Idle E clock n p syncBatch
      (pullLoop E clock order p (p.db.blocks.keys.card + 1) n).2 := by
    simp only [pullLoop]
    split
    · exact hi
    · split
      · exact hi
      · rw [if_pos hb.1]
        exact hb.2
  exact hloop.resolveRounds hw ho fun s h => (hlist s h).1

theorem pullPhase_gains (hlist : ∀ s h, h ∈ listing s ↔ h ∈ s) (hacc : Acceptable E clock n p)
    (hu : n.Unhindered p) (hl : Leads E n p) :
    n.dag.Gains (pullPhase E clock order listing p n).dag := by
  obtain ⟨S, hS, hwanted, hclosed⟩ := hu.room
  have hblocks : ∀ h, (Message.block (p.getBlock h)).arrives = true := by
    intro h
    cases hb : p.getBlock h with
    | none => rfl
    | some b => exact hu.block h b hb
  have hseek : Seeking n S n := ⟨rfl, hu.ready, hwanted⟩
  have hrounds : ∀ {m : Node}, Seeking n S m → (∃ w ∈ m.wanted, n.leads p syncBatch w) →
      n.dag.Gains (resolveRounds E clock order listing p syncBatch true m).dag :=
    resolveRounds_gains hS hacc hw hblocks ho (fun h hh b => hclosed h b (.inl hh)) hlist
  have hbatch : n.dag.Gains (acceptBatch E clock order (n.firstAnswer p) n).2.dag ∨ _ :=
    hseek.batch hS hacc ho fun b hb =>
      ⟨Dag.mem_answer hw hb, hclosed _ b (.inr hb) (Dag.mem_answer hw hb)⟩
  rcases hbatch with hg | ⟨hseek', hsub, hnext⟩
  · exact pullPhase_of_batch ho hu.answer hg
  · by_cases hcount : (acceptBatch E clock order (n.firstAnswer p) n).1 = 0
    · have hloop : pullLoop E clock order p (p.db.blocks.keys.card + 1) n =
          (true, (acceptBatch E clock order (n.firstAnswer p) n).2) := by
        have harr := hu.answer
        unfold firstAnswer at harr hcount ⊢
        simp only [pullLoop]
        rw [harr, if_neg (not_not.2 rfl), if_pos hcount]
        split
        · rename_i he
          rw [List.isEmpty_iff.1 he]
          rfl
        · rfl
      unfold pullPhase
      rw [hloop]
      refine hrounds hseek' ?_
      rcases hl with ⟨b, hb, hlb⟩ | ⟨w, hw', hlw⟩
      · exact hnext b hb _ hlb
      · exact ⟨w, hsub hw', hlw⟩
    · obtain ⟨b, -, hnone, hs⟩ := acceptBatch_gains ho hcount
      exact pullPhase_of_batch ho hu.answer ⟨_, hnone, hs⟩

end

/-- **When a session adds a block.** Unhindered, exactly if requests lead to a block whose parents are
stored; in any case only if they do or an orphan can be connected; and whenever there is such a block in
the first answer and it arrives. -/
theorem pull_progress (E : Env) (clock : Hash → Nat) (order : List Block → List Block)
    (listing : Finset Hash → List Hash) (n p : Node) (hp : p.LifeReachable E)
    (ho : ∀ l, (order l).Perm l) (hlist : ∀ s h, h ∈ listing s ↔ h ∈ s)
    (hacc : Acceptable E clock n p.dag) :
    (n.Unhindered p.dag →
      (n.dag.Gains (pullPhase E clock order listing p.dag n).dag ↔ Leads E n p.dag)) ∧
    (n.dag.Gains (pullPhase E clock order listing p.dag n).dag → Leads E n p.dag ∨
      ∃ o ∈ n.orphans, n.parentsStored o = true ∧ Enters E (clock (o.hash E)) n o) ∧
    ((Message.blocks (n.firstAnswer p.dag)).arrives = true →
      (∃ b ∈ n.firstAnswer p.dag, n.leads p.dag 1 (b.hash E)) →
        n.dag.Gains (pullPhase E clock order listing p.dag n).dag) := by
  obtain ⟨hw, -⟩ := hp.wf_cached
  have honly : n.dag.Gains (pullPhase E clock order listing p.dag n).dag → Leads E n p.dag ∨
      ∃ o ∈ n.orphans, n.parentsStored o = true ∧ Enters E (clock (o.hash E)) n o := by
    rintro ⟨h, hnone, hs⟩
    by_contra hno
    obtain ⟨hl, horphans⟩ := not_or.1 hno
    rw [pullPhase_idle hw ho hlist hl fun o ho' hps he => horphans ⟨o, ho', hps, he⟩, hnone] at hs
    cases hs
  refine ⟨fun hu => ⟨fun hg => ?_, pullPhase_gains hw ho hlist hacc hu⟩, honly, fun harr hb => ?_⟩
  · refine (honly hg).resolve_right ?_
    rintro ⟨o, ho', hps, -⟩
    rw [hu.ready o ho'] at hps
    cases hps
  · exact pullPhase_of_batch ho harr
      (acceptBatch_ready ho hacc rfl (fun b hb => Dag.mem_answer hw hb) hb)

/-! ## Deliveries park nothing -/

theorem Delivers.parked {l : List Block} (hd : Delivers E clock n l m) :
    m.orphans = n.orphans ∧ m.wanted = n.wanted := by
  induction hd with
  | nil _ => exact ⟨rfl, rfl⟩
  | cons _ _ _ ih => rwa [(connectBlock_parked _ _ _).1, (connectBlock_parked _ _ _).2] at ih

end Node

namespace Sample

open Node

/-- A block on the sibling with number 1. -/
def heir : Block := block 600 .gpu [⟨3⟩] 2 2 [coinbase 2 [subsidy]]

variable {ks : List Nat} {n p : Node} {h : Hash} {b : Block}

/-- They come without orphans. -/
theorem kin_parked
    (hd : Delivers env (fun _ => 1717372800000) (new env .empty) (kin [] ks) n) :
    n.orphans = [] ∧ n.wanted = ∅ := by
  obtain ⟨h1, h2⟩ := hd.parked
  rw [h1, h2]
  exact ⟨new_orphans _ _, rfl⟩

/-- The heir passes the checks of every node that has its parent. -/
theorem heir_enters (hd : Delivers env (fun _ => 1717372800000) (new env .empty) (kin [] (1 :: ks)) n)
    (hks : ∀ k ∈ 1 :: ks, k < 599) : n.parentsStored heir = true ∧ Enters env 1717372800000 n heir := by
  have hnew : n.dag.getBlock (heir.hash env) = none := by
    by_contra hne
    obtain ⟨b, hb⟩ := Option.ne_none_iff_exists'.1 hne
    rcases (kin_getBlock hd).1 hb with ⟨hh, -⟩ | ⟨k, hk, -, hh⟩
    · exact absurd hh (by decide)
    · have hv : 601 = 1 + (k + 1) := congrArg Hash.val hh
      have := hks k hk
      omega
  have hw := (hd.reachable .refl).sound.wf
  cases hd with
  | cons hp he hd =>
    obtain ⟨hps, hent⟩ : (connectBlock env 1717372800000 (new env .empty) (sibling [] 1)).2.parentsStored
        heir = true ∧ Enters env 1717372800000
          (connectBlock env 1717372800000 (new env .empty) (sibling [] 1)).2 heir := by
      unfold Enters
      decide +kernel
    have hn' : (connectBlock env 1717372800000 (new env .empty) (sibling [] 1)).2.Reachable env :=
      .tail .refl (.connect _ _ _ hp)
    refine ⟨List.all_eq_true.2 fun q hq => ?_, hent.mono hd.within hn'.sound.wf hw hps hnew⟩
    exact hd.within.stored (List.all_eq_true.1 hps q hq)

/-- The sibling with the lowest hash is selected, and the genesis block comes next. -/
theorem kin_locator (hd : Delivers env (fun _ => 1717372800000) (new env .empty) (kin [] ks) n)
    (h0 : 0 ∈ ks) : n.currentHeight = 1 ∧ n.dag.locator = [⟨2⟩, genesisHash] := by
  have hn := hd.reachable .refl
  have hw := hn.sound.wf
  have hzero : n.dag.getBlock ⟨2⟩ = some (sibling [] 0) := (kin_getBlock hd).2 (.inr ⟨0, h0, rfl, rfl⟩)
  have hgen : n.dag.getBlock genesisHash = some (.genesis env) := (kin_getBlock hd).2 (.inl ⟨rfl, rfl⟩)
  obtain ⟨t, ht⟩ := hw.exists_selectedTip
  have hbest := hn.best_of_all ht (h := ⟨2⟩) (by rw [hzero]; rfl)
  obtain ⟨b, hb⟩ := Option.isSome_iff_exists.1 (hw.selectedTip_stored ht)
  rw [Bool.eq_false_iff, ne_eq, Dag.better_iff, hw.key_eq hzero, hw.key_eq hb, hw.score_eq hzero,
    hw.score_eq hb] at hbest
  obtain rfl : t = ⟨2⟩ := by
    rcases (kin_getBlock hd).1 hb with ⟨-, rfl⟩ | ⟨k, -, rfl, rfl⟩
    · exact absurd (.inl (show 0 < 1 from Nat.one_pos)) hbest
    · cases k with
      | zero => rfl
      | succ k =>
        refine absurd (.inr (.inr ⟨rfl, rfl, ?_⟩)) hbest
        show 2 < 1 + (k + 1 + 1)
        omega
  have hnext : n.dag.chainNext ⟨2⟩ = some genesisHash := by
    refine Dag.chainNext_eq_some.2 ⟨?_, by decide⟩
    rw [hw.prev_eq hzero]
    exact List.mem_singleton.1 (GhostdagManager.selectedParent_mem (List.cons_ne_nil _ _))
  have hlast : n.dag.chainNext genesisHash = none := by
    unfold Dag.chainNext
    rw [hw.prev_eq hgen]
    rfl
  have hchain : n.dag.getSelectedChain ⟨2⟩ = [⟨2⟩, genesisHash] :=
    Dag.getSelectedChain_eq (.inr ⟨by decide, .step hnext (.last hlast)⟩)
  refine ⟨?_, ?_⟩
  · unfold currentHeight
    rw [ht, Option.bind_some, hw.header, hzero]
    rfl
  · unfold Dag.locator
    rw [ht]
    show (n.dag.getSelectedChain ⟨2⟩).take 32 = _
    rw [hchain]
    rfl

theorem heir_getBlock
    (hd : Delivers env (fun _ => 1717372800000) (new env .empty) (kin [] ks ++ [heir]) p) :
    p.dag.getBlock h = some b ↔ (h = genesisHash ∧ b = .genesis env) ∨
      b ∈ heir :: kin [] ks ∧ b.hash env = h := by
  rw [delivered_getBlock hd, List.mem_append, List.mem_singleton, List.mem_cons,
    or_comm (a := b = heir)]

theorem heir_height
    (hd : Delivers env (fun _ => 1717372800000) (new env .empty) (kin [] ks ++ [heir]) p) :
    1 < p.currentHeight := by
  have hp := hd.reachable .refl
  have hw := hp.sound.wf
  obtain ⟨t, ht⟩ := hw.exists_selectedTip
  have hheir : p.dag.getBlock (heir.hash env) = some heir :=
    (heir_getBlock hd).2 (.inr ⟨List.mem_cons_self, rfl⟩)
  have hbest := hp.best_of_all ht (h := heir.hash env) (by rw [hheir]; rfl)
  obtain ⟨b, hb⟩ := Option.isSome_iff_exists.1 (hw.selectedTip_stored ht)
  rw [Bool.eq_false_iff, ne_eq, Dag.better_iff, hw.key_eq hheir, hw.key_eq hb, hw.score_eq hheir,
    hw.score_eq hb] at hbest
  have hscore : heir.header.blueScore = 2 := rfl
  have htop : p.currentHeight = b.header.blueScore := by
    unfold currentHeight
    rw [ht, Option.bind_some, hw.header, hb]
    rfl
  rw [htop]
  simp only [hscore] at hbest
  omega

/-- The genesis block is the first that the peer has of a chain over a sibling that it has not. -/
theorem heir_common
    (hd : Delivers env (fun _ => 1717372800000) (new env .empty) (kin [] ks ++ [heir]) p) (h0 : 0 ∉ ks) :
    p.dag.commonHeight (some [⟨2⟩, genesisHash]) 0 = 0 := by
  have htwo : p.dag.getBlock ⟨2⟩ = none := by
    by_contra hne
    obtain ⟨b, hb⟩ := Option.ne_none_iff_exists'.1 hne
    rcases (heir_getBlock hd).1 hb with ⟨hh, -⟩ | ⟨hin, hh⟩
    · exact absurd hh (by decide)
    · rcases List.mem_cons.1 hin with rfl | hin
      · exact absurd hh (by decide)
      · obtain ⟨k, hk, rfl⟩ := List.mem_map.1 hin
        have hv : 1 + (k + 1) = 2 := congrArg Hash.val hh
        obtain rfl : k = 0 := by omega
        exact h0 hk
  have hgen : p.dag.getBlock genesisHash = some (.genesis env) := (heir_getBlock hd).2 (.inl ⟨rfl, rfl⟩)
  simp only [Dag.commonHeight, List.findSome?_cons, htwo, hgen]
  rfl

/-- With 500 siblings below the heir, the first batch above the genesis block has no room for it. -/
theorem heir_left_out
    (hd : Delivers env (fun _ => 1717372800000) (new env .empty) (kin [] ks ++ [heir]) p)
    (hnd : ks.Nodup) (hlen : ks.length = 500) (hb : b ∈ p.dag.blocksAbove 0 syncBatch) :
    b ∈ kin [] ks := by
  have hp := hd.reachable .refl
  have hs := hp.tips.blocksAbove_sorted hp.sound.wf
  have hmem : ∀ b, b ∈ p.dag.allAbove 0 ↔ b ∈ heir :: kin [] ks := by
    intro b
    rw [hs.mem, heir_getBlock hd]
    constructor
    · rintro ⟨⟨-, rfl⟩ | ⟨hb, -⟩, hpos⟩
      · exact absurd hpos (by decide)
      · exact hb
    · intro hb
      refine ⟨.inr ⟨hb, rfl⟩, ?_⟩
      rcases List.mem_cons.1 hb with rfl | hb
      · decide
      · obtain ⟨k, -, rfl⟩ := List.mem_map.1 hb
        exact Nat.one_pos
  have hscore : ∀ b ∈ kin [] ks, b.header.blueScore = 1 := by
    intro b hb
    obtain ⟨k, -, rfl⟩ := List.mem_map.1 hb
    rfl
  have hnot : heir ∉ kin [] ks := fun hin => absurd (hscore heir hin) (by decide)
  have hkin : (kin [] ks).Nodup := hnd.map fun j k h => sibling_injective (congrArg (·.hash env) h)
  have hperm : (p.dag.allAbove 0).Perm (heir :: kin [] ks) :=
    (List.perm_ext_iff_of_nodup (hs.nodup 0) (List.nodup_cons.2 ⟨hnot, hkin⟩)).2 hmem
  have hcount : (p.dag.allAbove 0).length = 501 := by
    rw [hperm.length_eq, List.length_cons, kin, List.length_map, hlen]
  unfold Dag.blocksAbove syncBatch at hb
  refine (List.mem_cons.1 ((hmem b).1 (List.mem_of_mem_take hb))).resolve_left ?_
  rintro rfl
  -- the block after the batch would be a sibling, of a lower score
  obtain ⟨c, hc⟩ : ∃ c, (p.dag.allAbove 0).drop 500 = [c] := by
    rw [← List.length_eq_one_iff, List.length_drop, hcount]
  have hsplit := List.take_append_drop 500 (p.dag.allAbove 0)
  rw [hc] at hsplit
  have hsorted := hs.sorted 0
  have hnodup := hs.nodup 0
  rw [← hsplit] at hsorted hnodup
  have hle := (List.pairwise_append.1 hsorted).2.2 heir hb c (List.mem_singleton_self c)
  have hne := (List.nodup_append.1 hnodup).2.2 heir hb c (List.mem_singleton_self c)
  have hin := (hmem c).1 (by rw [← hsplit]; simp)
  rw [hscore c ((List.mem_cons.1 hin).resolve_left (Ne.symm hne))] at hle
  exact absurd hle (by decide)

end Sample

open Node Sample in
/-- The peer has one more block, of score 2, on a sibling that we have. Our own sibling is selected, so
the first batch starts above the genesis block, and has only the 500 siblings that we both have. -/
theorem pull_stalls :
    ¬∀ (E : Env) (clock : Hash → Nat) (order : List Block → List Block)
      (listing : Finset Hash → List Hash) (n p : Node), n.Reachable E → p.Reachable E →
      (∀ l, (order l).Perm l) → (∀ s h, h ∈ listing s ↔ h ∈ s) → Acceptable E clock n p.dag →
      n.currentHeight < p.currentHeight →
      n.dag.Gains (pullPhase E clock order listing p.dag n).dag := by
  intro h
  have hnd : (1 :: 0 :: List.range' 2 499).Nodup := by
    rw [List.nodup_cons, List.mem_cons, List.mem_range'_1, List.nodup_cons, List.mem_range'_1]
    exact ⟨by omega, by omega, List.nodup_range'⟩
  have hnd' : (1 :: List.range' 2 499).Nodup := hnd.sublist ((List.sublist_cons_self _ _).cons_cons _)
  have hlt : ∀ k ∈ 1 :: 0 :: List.range' 2 499, k < 599 := by
    intro k hk
    rw [List.mem_cons, List.mem_cons, List.mem_range'_1] at hk
    omega
  have hsub : ∀ k ∈ 1 :: List.range' 2 499, k ∈ 1 :: 0 :: List.range' 2 499 := fun k hk =>
    ((List.sublist_cons_self _ _).cons_cons _).subset hk
  obtain ⟨n, hd⟩ := kin_delivered [] hnd
  obtain ⟨q, hq⟩ := kin_delivered [] hnd'
  obtain ⟨hqs, hqe⟩ := heir_enters hq fun k hk => hlt k (hsub k hk)
  obtain ⟨hns, hne⟩ := heir_enters hd hlt
  have hp := hq.append (.cons hqs hqe (.nil _))
  generalize (connectBlock env _ q heir).2 = p at hp
  have hpr := hp.reachable .refl
  have hw := hpr.sound.wf
  obtain ⟨horphans, hwanted⟩ := kin_parked hd
  obtain ⟨hheight, hloc⟩ := kin_locator hd (by simp)
  have hkin : ∀ b ∈ kin [] (1 :: List.range' 2 499), n.dag.getBlock (b.hash env) = some b := by
    intro b hb
    obtain ⟨k, hk, rfl⟩ := List.mem_map.1 hb
    exact (kin_getBlock hd).2 (.inr ⟨k, hsub k hk, rfl, rfl⟩)
  have hacc : Acceptable env (fun _ => 1717372800000) n p.dag := by
    intro h b hb hnone
    rcases (heir_getBlock hp).1 hb with ⟨rfl, rfl⟩ | ⟨hin, rfl⟩
    · rw [(kin_getBlock hd).2 (.inl ⟨rfl, rfl⟩)] at hnone
      cases hnone
    · rcases List.mem_cons.1 hin with rfl | hin
      · exact ⟨hne.checks.1.pow, fun _ => hne⟩
      · rw [hkin b hin] at hnone
        cases hnone
  have hanswer : ∀ b ∈ n.firstAnswer p.dag, b ∈ kin [] (1 :: List.range' 2 499) := by
    intro b hb
    rw [firstAnswer, Dag.answer, hloc, heir_common hp (by simp)] at hb
    exact heir_left_out hp hnd' (by simp) hb
  have hleads : ¬Leads env n p.dag := by
    rintro (⟨b, hb, hl⟩ | ⟨w, hw, -⟩)
    · have hnone := hl.unknown
      rw [hkin b (hanswer b hb)] at hnone
      cases hnone
    · rw [hwanted] at hw
      exact absurd hw (Finset.notMem_empty _)
  have hidle : (pullPhase env (fun _ => 1717372800000) id (fun s => s.toList) p.dag n).dag = n.dag := by
    refine pullPhase_idle hw (fun _ => .refl _) (fun _ _ => Finset.mem_toList) hleads ?_
    rw [horphans]
    exact fun o ho => absurd ho List.not_mem_nil
  obtain ⟨x, hnone, hs⟩ := h env (fun _ => 1717372800000) id (fun s => s.toList) n p
    (hd.reachable .refl) hpr (fun _ => .refl _) (fun _ _ => Finset.mem_toList) hacc
    (hheight ▸ heir_height hp)
  rw [hidle, hnone] at hs
  cases hs

open Node Sample in
/-- From the genesis block, the first batch of a peer is taken in. -/
theorem pull_progress_merging :
    (Node.new env .empty).dag.Gains (pullPhase env (fun _ => 1717372800000) id (fun s => s.toList)
      (run [first, side, merging]).dag (Node.new env .empty)).dag := by
  have hall : ∀ h ∈ (run [first, side, merging]).dag.db.blocks.keys,
      ∀ b ∈ (run [first, side, merging]).dag.getBlock h, (Node.new env .empty).dag.getBlock h = none →
        verifyBlockPow env b.header = .ok () ∧ ((Node.new env .empty).parentsStored b = true →
          Enters env 1717372800000 (.new env .empty) b) := by
    unfold Enters
    decide +kernel
  have hacc : Acceptable env (fun _ => 1717372800000) (.new env .empty)
      (run [first, side, merging]).dag := fun h b hb =>
    hall h (Dag.mem_keys.2 ⟨b, hb⟩) b hb
  obtain ⟨harr, hin, hnone, hp, hb⟩ : (Message.blocks ((Node.new env .empty).firstAnswer
        (run [first, side, merging]).dag)).arrives = true ∧
      first ∈ (Node.new env .empty).firstAnswer (run [first, side, merging]).dag ∧
      (Node.new env .empty).dag.getBlock ((first).hash env) = none ∧
      (Node.new env .empty).parentsStored first = true ∧
      (run [first, side, merging]).dag.getBlock ((first).hash env) = some first := by
    decide +kernel
  exact (pull_progress env (fun _ => 1717372800000) id (fun s => s.toList) (.new env .empty)
    (run [first, side, merging]) (reachable_run _).life (fun _ => .refl _)
    (fun _ _ => Finset.mem_toList) hacc).2.2 harr ⟨first, hin, first, hb, hnone, .inl hp⟩

end Zentra

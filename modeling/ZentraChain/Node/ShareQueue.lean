import ZentraChain.Core.Block
import ZentraChain.Lib.Runs

/-!
# Shares on their way to the operator (`node.rs`, `p2p_sync.rs`)

The mining worker queues the shares it finds. Each sync takes the whole queue and sends the first 200
of it to its own peer, whatever becomes of them.

* `tracked_run`: every share is in one place, and what a sync can send of at most 200 is sent.
* `noneDropped_run_iff`: when all shares that leave the queue reach an operator.
-/

namespace Zentra

/-- A share of a template. -/
def Block.withNonce (template : Block) (nonce : Nat) : Block :=
  { template with header := { template.header with nonce := nonce } }

/-- The shares of a template are queued while there are less than 5,000. -/
def pushShares (template : Block) : List Nat → List Block → List Block
  | [], pend => pend
  | n :: ns, pend =>
    if pend.length ≥ 5000 then pend else pushShares template ns (pend ++ [template.withNonce n])

/-- The shares in a `poolshare` frame. -/
def poolshareFrame (shares : List Block) : List Block := shares.take 200

inductive QueueCall
  /-- The worker queues what it found. -/
  | push (template : Block) (nonces : List Nat)
  /-- A sync takes the queue. -/
  | drain
  /-- The sync `i` of those that took the queue sends its frame; the peer may be an operator, and the
  sending may fail. -/
  | send (i : Nat) (operator sent : Bool)

/-- A sync past its sending. -/
structure FinishedSync where
  /-- What it took from the queue. -/
  taken : List Block
  /-- What it put in its frame. -/
  frame : List Block
  operator : Bool
  sent : Bool

/-- What an operator was sent. -/
def FinishedSync.delivered (s : FinishedSync) : List Block :=
  if s.operator ∧ s.sent then s.frame else []

/-- The queue, and the syncs at work. -/
structure ShareQueue where
  pendingShares : List Block
  /-- What the syncs took that did not send yet. -/
  taken : List (List Block)
  finished : List FinishedSync
  /-- All shares that were ever in the queue. -/
  queued : Multiset Block

namespace ShareQueue

def init (pendingShares : List Block) : ShareQueue := ⟨pendingShares, [], [], ↑pendingShares⟩

def step (q : ShareQueue) : QueueCall → ShareQueue
  | .push template nonces =>
    let pendingShares := pushShares template nonces q.pendingShares
    { q with
      pendingShares := pendingShares
      queued := q.queued + ↑(pendingShares.drop q.pendingShares.length) }
  | .drain => { q with pendingShares := [], taken := q.taken ++ [q.pendingShares] }
  | .send i operator sent =>
    match q.taken[i]? with
    | none => q
    | some shares =>
      { q with
        taken := q.taken.eraseIdx i
        -- an empty batch is not sent
        finished := ⟨shares, if shares = [] then [] else poolshareFrame shares, operator,
          sent⟩ :: q.finished }

/-- The shares that syncs took and did not send yet. -/
def inHand (q : ShareQueue) : Multiset Block := (q.taken.map (↑)).sum

/-- The shares of the syncs past their sending. -/
def removed (q : ShareQueue) : Multiset Block := (q.finished.map fun s => (↑s.taken)).sum

/-- Every share that was queued is in one place, and a sync of at most 200 shares sent all of them, to
an operator if its peer is one and it could send. -/
structure Tracked (q : ShareQueue) : Prop where
  places : q.queued = ↑q.pendingShares + q.inHand + q.removed
  delivered : ∀ s ∈ q.finished, s.taken.length ≤ 200 →
    s.frame = s.taken ∧ s.delivered = if s.operator ∧ s.sent then s.taken else []

/-- All removed shares were delivered. -/
def NoneDropped (q : ShareQueue) : Prop := ∀ s ∈ q.finished, s.delivered = s.taken

/-- A sync that took any shares took at most 200, and sends them to an operator. -/
def Delivers (q : ShareQueue) : QueueCall → Prop
  | .send i operator sent => ∀ shares ∈ q.taken[i]?, shares ≠ [] →
      operator = true ∧ sent = true ∧ shares.length ≤ 200
  | _ => True

variable {q : ShareQueue} {c : QueueCall} {shares : List Block}

theorem pushShares_prefix (template : Block) (nonces : List Nat) (pend : List Block) :
    pend <+: pushShares template nonces pend := by
  induction nonces generalizing pend with
  | nil => exact List.prefix_refl _
  | cons n ns ih =>
    rw [pushShares]
    split_ifs
    · exact List.prefix_refl _
    · exact (List.prefix_append _ _).trans (ih _)

theorem poolshareFrame_eq_iff : poolshareFrame shares = shares ↔ shares.length ≤ 200 := by
  constructor
  · intro h
    have hlen : min 200 shares.length = shares.length := by
      rw [← List.length_take]
      exact congrArg List.length h
    omega
  · exact List.take_of_length_le

theorem frame_eq_iff :
    (if shares = [] then [] else poolshareFrame shares) = shares ↔ shares.length ≤ 200 := by
  split_ifs with h
  · subst h
    exact iff_of_true rfl (Nat.zero_le _)
  · exact poolshareFrame_eq_iff

/-- **No call loses track of a share.** -/
theorem Tracked.step (ht : q.Tracked) (c : QueueCall) : (q.step c).Tracked := by
  cases c with
  | push template nonces =>
    refine ⟨?_, ht.delivered⟩
    obtain ⟨new, hnew⟩ := pushShares_prefix template nonces q.pendingShares
    show q.queued + ↑((pushShares template nonces q.pendingShares).drop q.pendingShares.length) =
      ↑(pushShares template nonces q.pendingShares) + q.inHand + q.removed
    rw [← hnew, List.drop_left, ht.places, ← Multiset.coe_add]
    abel
  | drain =>
    refine ⟨?_, ht.delivered⟩
    show q.queued = ↑([] : List Block) + ((q.taken ++ [q.pendingShares]).map (↑)).sum + q.removed
    rw [ht.places, List.map_append, List.sum_append, List.map_singleton, List.sum_singleton,
      Multiset.coe_nil, inHand]
    abel
  | send i operator sent =>
    cases hi : q.taken[i]? with
    | none =>
      simp only [ShareQueue.step, hi]
      exact ht
    | some shares =>
      simp only [ShareQueue.step, hi]
      constructor
      · show q.queued = ↑q.pendingShares + ((q.taken.eraseIdx i).map (↑)).sum +
          (↑shares + q.removed)
        have hperm : q.taken.Perm (shares :: q.taken.eraseIdx i) := by
          obtain ⟨hlt, rfl⟩ := List.getElem?_eq_some_iff.1 hi
          exact (List.getElem_cons_eraseIdx_perm hlt).symm
        have hsum : q.inHand = ↑shares + ((q.taken.eraseIdx i).map (↑)).sum := by
          rw [inHand, (hperm.map _).sum_eq, List.map_cons, List.sum_cons]
        rw [ht.places, hsum]
        abel
      · refine List.forall_mem_cons.2 ⟨fun hlen => ?_, ht.delivered⟩
        refine ⟨frame_eq_iff.2 hlen, ?_⟩
        rw [FinishedSync.delivered]
        simp only [frame_eq_iff.2 hlen]

/-- **Tracking**, in every interleaving of the worker and the syncs. -/
theorem tracked_run (pendingShares : List Block) (calls : List QueueCall) :
    Runs.Always step Tracked (init pendingShares) calls := by
  refine Runs.always_of_each (C := fun _ _ => True) (fun q c ht _ => ht.step c) ⟨?_, nofun⟩
    (Runs.each_true _)
  show (↑pendingShares : Multiset Block) = ↑pendingShares + 0 + 0
  rw [add_zero, add_zero]

/-- **Which calls drop no share.** -/
theorem noneDropped_step_iff (hd : q.NoneDropped) : (q.step c).NoneDropped ↔ q.Delivers c := by
  cases c with
  | push template nonces => exact iff_of_true hd trivial
  | drain => exact iff_of_true hd trivial
  | send i operator sent =>
    cases hi : q.taken[i]? with
    | none =>
      simp only [step, Delivers, hi]
      exact iff_of_true hd nofun
    | some shares =>
      have hdel : q.Delivers (.send i operator sent) ↔
          (shares ≠ [] → operator = true ∧ sent = true ∧ shares.length ≤ 200) := by
        simp only [Delivers, hi, Option.mem_some_iff, forall_eq']
      rw [hdel]
      unfold NoneDropped at hd ⊢
      simp only [step, hi]
      rw [List.forall_mem_cons, and_iff_left hd, FinishedSync.delivered]
      by_cases hempty : shares = []
      · subst hempty
        exact iff_of_true (ite_self _) fun h => absurd rfl h
      · by_cases hsent : operator = true ∧ sent = true
        · rw [if_pos hsent, frame_eq_iff]
          exact ⟨fun h _ => ⟨hsent.1, hsent.2, h⟩, fun h => (h hempty).2.2⟩
        · rw [if_neg hsent]
          exact iff_of_false (Ne.symm hempty) fun h => hsent ⟨(h hempty).1, (h hempty).2.1⟩

/-- **No share is dropped**, in an interleaving of the worker and the syncs, exactly if every sync that
takes shares takes at most 200 and sends them to an operator. -/
theorem noneDropped_run_iff (pendingShares : List Block) (calls : List QueueCall) :
    Runs.Always step NoneDropped (init pendingShares) calls ↔
      Runs.Each step Delivers (init pendingShares) calls :=
  Runs.always_iff_each (Q := fun _ => True) (D := fun _ => True) (fun _ _ _ _ _ => trivial)
    (fun _ _ _ _ hd => noneDropped_step_iff hd) (fun _ _ => trivial) trivial nofun

end ShareQueue

namespace Sample

def shareTemplate : Block := ⟨Header.genesis .devnet, []⟩

end Sample

open Sample in
/-- A share found while the next peer is no operator is dropped. -/
theorem found_share_dropped :
    ¬∀ (pendingShares : List Block) (calls : List QueueCall),
      Runs.Always ShareQueue.step ShareQueue.NoneDropped (ShareQueue.init pendingShares) calls := by
  intro h
  have hlast := (h [] [.push shareTemplate [7], .drain, .send 0 false true]).last _
    List.mem_cons_self
  revert hlast
  decide +kernel

end Zentra

import ZentraChain.Lib.Threads
import ZentraChain.Node.Share
import ZentraChain.Node.ShareQueue

/-!
# The search for a nonce (`miner.rs`)

`mine_block` hashes one header with the nonces `i`, `i + n`, `i + 2n`, … in thread `i` of `n`. The
threads share flags, a counter and the list of shares, and their atomic operations interleave in any
order, with those that stop and start mining from elsewhere.

* `mineBlock_run`: in every run, a nonce that is found makes a valid proof of work, and a search fails
  only if mining was stopped; the shares are good for the operator; the counter has every hash once,
  and the last ones of a thread that finds a nonce twice.
* `shares_exact`: before the nonces wrap around, exactly the shares among the nonces tried are
  recorded, each once.
-/

namespace Zentra

/-- What the threads of a search only read. -/
structure NonceSearch where
  /-- The proof-of-work hash of the header bytes and a nonce. -/
  hash : Nat → Hash
  target : Hash
  shareTarget : Option Hash
  /-- Is there a list for shares? -/
  sink : Bool
  numThreads : Nat

namespace NonceSearch

/-- Where a thread is. -/
inductive Phase
  /-- `local_stop.load` -/
  | testStop
  /-- `is_mining.load` -/
  | testMining
  /-- `compute_pow_hash` -/
  | hash
  /-- the counter gets 1,024 hashes at a time -/
  | count
  | share
  | check
  /-- what the counter did not get yet, when a nonce is found -/
  | countFound
  | storeNonce
  | storeFound
  | storeStop
  /-- after the loop, which was left by `break` or not -/
  | flush (won : Bool)
  | done (won : Bool)
  deriving DecidableEq, Repr

structure Worker where
  threadIdx : Nat
  nonce : Nat
  localHashes : Nat
  phase : Phase
  /-- How many nonces it has left behind. -/
  passed : Nat
  deriving DecidableEq, Repr

/-- What the threads share. -/
structure Shared where
  localStop : Bool
  isMining : Bool
  found : Bool
  foundNonce : Nat
  hashesDone : Nat
  shares : List Nat
  deriving DecidableEq, Repr

variable (S : NonceSearch)

/-- Good for a block. -/
def solves (nonce : Nat) : Bool := (S.hash nonce).meetsTarget S.target

/-- Good for a share and not for a block, when shares are kept. -/
def isShare (nonce : Nat) : Bool :=
  match S.shareTarget with
  | some st => (S.hash nonce).meetsTarget st && !S.solves nonce && S.sink
  | none => false

/-- `hashes_done.fetch_add`. -/
def Shared.count (g : Shared) (n : Nat) : Shared :=
  { g with hashesDone := (g.hashesDone + n) % 2 ^ 64 }

/-- One atomic step of a thread. -/
def step (w : Worker) (g : Shared) : Worker × Shared :=
  match w.phase with
  | .testStop => ({ w with phase := if g.localStop then .flush false else .testMining }, g)
  | .testMining => ({ w with phase := if g.isMining then .hash else .flush false }, g)
  | .hash => ({ w with localHashes := w.localHashes + 1, phase := .count }, g)
  | .count =>
    if w.localHashes ≥ 1024 then
      ({ w with localHashes := 0, phase := .share }, g.count w.localHashes)
    else ({ w with phase := .share }, g)
  | .share =>
    ({ w with phase := .check },
      if S.isShare w.nonce ∧ g.shares.length < 100000 then { g with shares := g.shares ++ [w.nonce] }
      else g)
  | .check =>
    if S.solves w.nonce then ({ w with phase := .countFound }, g)
    else
      ({ w with
        nonce := (w.nonce + S.numThreads) % 2 ^ 64
        passed := w.passed + 1
        phase := .testStop }, g)
  | .countFound => ({ w with phase := .storeNonce }, g.count w.localHashes)
  | .storeNonce => ({ w with phase := .storeFound }, { g with foundNonce := w.nonce })
  | .storeFound => ({ w with phase := .storeStop }, { g with found := true })
  | .storeStop => ({ w with phase := .flush true }, { g with localStop := true })
  | .flush won => ({ w with phase := .done won }, g.count w.localHashes)
  | .done _ => (w, g)

/-- The threads at work. -/
abbrev State := Threads.State Worker Shared

/-- The threads start with their own numbers as nonces. -/
def start (isMining : Bool) (hashesDone : Nat) : State :=
  ⟨(List.range S.numThreads).map fun i => ⟨i, i % 2 ^ 64, 0, .testStop, 0⟩,
    ⟨false, isMining, false, 0, hashesDone, []⟩⟩

/-- What happens next: a step of a thread, or mining is switched from elsewhere. -/
inductive Event
  | thread (i : Nat)
  | stop
  | resume
  deriving DecidableEq, Repr

def apply (s : State) : Event → State
  | .thread i => Threads.stepAt S.step s i
  | .stop => { s with shared := { s.shared with isMining := false } }
  | .resume => { s with shared := { s.shared with isMining := true } }

def run (s : State) (events : List Event) : State := events.foldl S.apply s

/-! ## What a thread knows -/

/-- The nonce at hand is hashed. -/
def Phase.hashed : Phase → Nat
  | .testStop | .testMining | .hash | .flush false | .done false => 0
  | _ => 1

/-- The nonce at hand is a share in the list, if it is one. -/
def Phase.settled : Phase → Nat
  | .testStop | .testMining | .hash | .count | .share | .flush false | .done false => 0
  | _ => 1

/-- How many nonces it has hashed. -/
def Worker.tried (w : Worker) : Nat := w.passed + w.phase.hashed

/-- How many of its nonces were looked at for shares. -/
def Worker.settled (w : Worker) : Nat := w.passed + w.phase.settled

/-- It has found a nonce. -/
def Phase.Wins (p : Phase) : Prop :=
  p ∈ [.countFound, .storeNonce, .storeFound, .storeStop, .flush true, .done true]

/-- It gave up. -/
def Phase.Quits (p : Phase) : Prop := p ∈ [.flush false, .done false]

/-- A thread, beside the shared state; `calm` says that mining is never stopped. -/
structure Worker.Ok (calm : Prop) (w : Worker) (g : Shared) : Prop where
  nonce : w.nonce = (w.threadIdx + w.passed * S.numThreads) % 2 ^ 64
  hashes : w.localHashes = if w.phase = .count then w.passed % 1024 + 1 else w.tried % 1024
  wins : w.phase.Wins → S.solves w.nonce
  stored : w.phase = .storeFound ∨ w.phase = .storeStop → S.solves g.foundNonce
  told : w.phase = .storeStop ∨ w.phase = .flush true ∨ w.phase = .done true → g.found
  quits : calm → w.phase.Quits → g.localStop

structure Shared.Ok (calm : Prop) (g : Shared) : Prop where
  found : g.found → S.solves g.foundNonce
  stops : g.localStop → g.found
  shares : ∀ n ∈ g.shares, S.isShare n
  room : g.shares.length ≤ 100000
  mining : calm → g.isMining

variable {S} {calm : Prop} {w v : Worker} {g : Shared}

/-- What a step does to the flags and the shares. -/
theorem step_shared (S : NonceSearch) (w : Worker) (g : Shared) :
    let g' := (S.step w g).2
    g'.isMining = g.isMining ∧
    (g'.found = g.found ∨ w.phase = .storeFound ∧ g'.found = true) ∧
    (g'.foundNonce = g.foundNonce ∨ w.phase = .storeNonce ∧ g'.foundNonce = w.nonce) ∧
    (g'.localStop = g.localStop ∨ w.phase = .storeStop ∧ g'.localStop = true) ∧
    (g'.shares = g.shares ∨ w.phase = .share ∧ S.isShare w.nonce ∧ g.shares.length < 100000 ∧
      g'.shares = g.shares ++ [w.nonce]) := by
  cases hp : w.phase with
  | share =>
    simp only [step, hp]
    split
    · rename_i h
      exact ⟨rfl, .inl rfl, .inl rfl, .inl rfl, .inr ⟨trivial, h.1, h.2, rfl⟩⟩
    · exact ⟨rfl, .inl rfl, .inl rfl, .inl rfl, .inl rfl⟩
  | count =>
    simp only [step, hp]
    split <;> exact ⟨rfl, .inl rfl, .inl rfl, .inl rfl, .inl rfl⟩
  | check =>
    simp only [step, hp]
    split <;> exact ⟨rfl, .inl rfl, .inl rfl, .inl rfl, .inl rfl⟩
  | storeNonce => simp [step, hp]
  | storeFound => simp [step, hp]
  | storeStop => simp [step, hp]
  | _ => simp [step, hp, Shared.count]

theorem Shared.Ok.step (hg : g.Ok S calm) (hw : w.Ok S calm g) : (S.step w g).2.Ok S calm := by
  obtain ⟨hmining, hfound, hnonce, hstop, hshares⟩ := step_shared S w g
  refine ⟨fun h => ?_, fun h => ?_, fun n hn => ?_, ?_, fun hc => ?_⟩
  · rcases hnonce with hnonce | ⟨hp, hnonce⟩
    · rw [hnonce]
      rcases hfound with hfound | ⟨hp, -⟩
      · rw [hfound] at h
        exact hg.found h
      · exact hw.stored (.inl hp)
    · rw [hnonce]
      exact hw.wins (by simp [Phase.Wins, hp])
  · rcases hfound with hfound | ⟨-, hfound⟩
    · rw [hfound]
      rcases hstop with hstop | ⟨hp, -⟩
      · rw [hstop] at h
        exact hg.stops h
      · exact hw.told (.inl hp)
    · exact hfound
  · rcases hshares with hshares | ⟨-, hshare, -, hshares⟩
    · rw [hshares] at hn
      exact hg.shares n hn
    · rw [hshares, List.mem_append, List.mem_singleton] at hn
      rcases hn with hn | hn
      · exact hg.shares n hn
      · rw [hn]
        exact hshare
  · rcases hshares with hshares | ⟨-, -, hlt, hshares⟩
    · rw [hshares]
      exact hg.room
    · rw [hshares, List.length_append, List.length_singleton]
      exact hlt
  · rw [hmining]
    exact hg.mining hc

/-- A step of another thread. -/
theorem Worker.Ok.other (hw : w.Ok S calm g) (hv : v.Ok S calm g) :
    v.Ok S calm (S.step w g).2 := by
  obtain ⟨-, hfound, hnonce, hstop, -⟩ := step_shared S w g
  refine { hv with stored := fun hp => ?_, told := fun hp => ?_, quits := fun hc hp => ?_ }
  · rcases hnonce with hnonce | ⟨hw', hnonce⟩
    · rw [hnonce]
      exact hv.stored hp
    · rw [hnonce]
      exact hw.wins (by simp [Phase.Wins, hw'])
  · rcases hfound with hfound | ⟨-, hfound⟩
    · rw [hfound]
      exact hv.told hp
    · exact hfound
  · rcases hstop with hstop | ⟨-, hstop⟩
    · rw [hstop]
      exact hv.quits hc hp
    · exact hstop

/-- Before a nonce is found there is little to know. -/
theorem Worker.Ok.quiet (hq : w.phase ∈ [.testStop, .testMining, .hash, .count, .share, .check])
    (hnonce : w.nonce = (w.threadIdx + w.passed * S.numThreads) % 2 ^ 64)
    (hhashes : w.localHashes = if w.phase = .count then w.passed % 1024 + 1 else w.tried % 1024) :
    w.Ok S calm g := by
  have hwins : ¬w.phase.Wins ∧ ¬w.phase.Quits := by
    simp only [List.mem_cons, List.not_mem_nil, or_false] at hq
    rcases hq with h | h | h | h | h | h <;> simp [Phase.Wins, Phase.Quits, h]
  refine ⟨hnonce, hhashes, fun h => absurd h hwins.1, fun h => absurd ?_ hwins.1,
    fun h => absurd ?_ hwins.1, fun _ h => absurd h hwins.2⟩
  · rcases h with h | h <;> simp [Phase.Wins, h]
  · rcases h with h | h | h <;> simp [Phase.Wins, h]

theorem Worker.Ok.step (hg : g.Ok S calm) (hw : w.Ok S calm g) :
    (S.step w g).1.Ok S calm (S.step w g).2 := by
  have hnonce := hw.nonce
  have hhashes := hw.hashes
  have hwins := hw.wins
  have htold := hw.told
  have hquits := hw.quits
  cases hp : w.phase with
  | testStop =>
    simp only [NonceSearch.step, hp]
    simp [hp, Worker.tried, Phase.hashed] at hhashes
    split
    · rename_i hs
      exact ⟨hnonce, hhashes, by simp [Phase.Wins], by simp, by simp, fun _ _ => hs⟩
    · exact .quiet (by simp) hnonce hhashes
  | testMining =>
    simp only [NonceSearch.step, hp]
    simp [hp, Worker.tried, Phase.hashed] at hhashes
    split
    · exact .quiet (by simp) hnonce hhashes
    · -- mining was stopped
      rename_i hm
      exact ⟨hnonce, hhashes, by simp [Phase.Wins], by simp, by simp,
        fun hc => absurd (hg.mining hc) hm⟩
  | hash =>
    simp only [NonceSearch.step, hp]
    simp [hp, Worker.tried, Phase.hashed] at hhashes
    exact .quiet (by simp) hnonce (by simp [hhashes])
  | count =>
    simp only [NonceSearch.step, hp]
    simp [hp] at hhashes
    split
    · refine .quiet (by simp) hnonce ?_
      show 0 = (w.passed + 1) % 1024
      omega
    · refine .quiet (by simp) hnonce ?_
      show w.localHashes = (w.passed + 1) % 1024
      omega
  | share =>
    simp only [NonceSearch.step, hp]
    simp [hp, Worker.tried, Phase.hashed] at hhashes
    exact .quiet (by simp) hnonce hhashes
  | check =>
    simp only [NonceSearch.step, hp]
    simp [hp, Worker.tried, Phase.hashed] at hhashes
    split
    · rename_i hs
      exact ⟨hnonce, hhashes, fun _ => hs, by simp, by simp, by simp [Phase.Quits]⟩
    · refine .quiet (by simp) ?_ hhashes
      show (w.nonce + S.numThreads) % 2 ^ 64 =
        (w.threadIdx + (w.passed + 1) * S.numThreads) % 2 ^ 64
      rw [hnonce, Nat.mod_add_mod, Nat.add_assoc, Nat.succ_mul]
  | countFound =>
    simp only [NonceSearch.step, hp]
    simp [hp, Worker.tried, Phase.hashed] at hhashes
    exact ⟨hnonce, hhashes, fun _ => hwins (by simp [Phase.Wins, hp]), by simp, by simp,
      by simp [Phase.Quits]⟩
  | storeNonce =>
    simp only [NonceSearch.step, hp]
    simp [hp, Worker.tried, Phase.hashed] at hhashes
    have hs := hwins (by simp [Phase.Wins, hp])
    exact ⟨hnonce, hhashes, fun _ => hs, fun _ => hs, by simp, by simp [Phase.Quits]⟩
  | storeFound =>
    simp only [NonceSearch.step, hp]
    simp [hp, Worker.tried, Phase.hashed] at hhashes
    exact ⟨hnonce, hhashes, fun _ => hwins (by simp [Phase.Wins, hp]),
      fun _ => hw.stored (.inl hp), fun _ => rfl, by simp [Phase.Quits]⟩
  | storeStop =>
    simp only [NonceSearch.step, hp]
    simp [hp, Worker.tried, Phase.hashed] at hhashes
    exact ⟨hnonce, hhashes, fun _ => hwins (by simp [Phase.Wins, hp]), by simp,
      fun _ => htold (.inl hp), by simp [Phase.Quits]⟩
  | flush won =>
    simp only [NonceSearch.step, hp]
    cases won
    · simp [hp, Worker.tried, Phase.hashed] at hhashes
      exact ⟨hnonce, hhashes, by simp [Phase.Wins], by simp, by simp,
        fun hc _ => hquits hc (by simp [Phase.Quits, hp])⟩
    · simp [hp, Worker.tried, Phase.hashed] at hhashes
      exact ⟨hnonce, hhashes, fun _ => hwins (by simp [Phase.Wins, hp]), by simp,
        fun _ => htold (.inr (.inl hp)), by simp [Phase.Quits]⟩
  | done won =>
    simp only [NonceSearch.step, hp]
    exact hw

theorem step_threadIdx (S : NonceSearch) (w : Worker) (g : Shared) :
    (S.step w g).1.threadIdx = w.threadIdx := by
  unfold NonceSearch.step
  split
  case h_4 => split <;> rfl
  case h_6 => split <;> rfl
  all_goals rfl

/-- All threads, with their numbers, and what they share. -/
def Ok (S : NonceSearch) (calm : Prop) : State → Prop :=
  Threads.Inv (Shared.Ok S calm) fun i w g => w.threadIdx = i ∧ w.Ok S calm g

variable {s : State}

theorem ok_start (isMining : Bool) (hashesDone : Nat) (hc : calm → isMining = true) :
    Ok S calm (S.start isMining hashesDone) where
  shared := ⟨by simp [start], by simp [start], by simp [start], by simp [start], hc⟩
  thread i w hw := by
    rw [start, List.getElem?_map, Option.map_eq_some_iff] at hw
    obtain ⟨j, hj, rfl⟩ := hw
    have hji : j = i := by
      obtain ⟨hlt, hget⟩ := List.getElem?_eq_some_iff.1 hj
      rw [List.getElem_range] at hget
      exact hget.symm
    exact ⟨hji, .quiet (by simp) (by simp) rfl⟩

theorem Ok.apply (hs : Ok S calm s) (e : Event) (he : e = .stop → ¬calm) :
    Ok S calm (S.apply s e) := by
  cases e with
  | thread i =>
    refine Threads.inv_stepAt (fun i w g hg hw => ⟨hg.step hw.2, ?_, hw.2.step hg⟩)
      (fun i j w v g _ _ hw hv => ⟨hv.1, hw.2.other hv.2⟩) hs i
    rw [step_threadIdx]
    exact hw.1
  | stop =>
    exact ⟨{ hs.shared with mining := fun hc => absurd hc (he rfl) },
      fun i w hw => ⟨(hs.thread i w hw).1, { (hs.thread i w hw).2 with }⟩⟩
  | resume =>
    exact ⟨{ hs.shared with mining := fun _ => rfl },
      fun i w hw => ⟨(hs.thread i w hw).1, { (hs.thread i w hw).2 with }⟩⟩

theorem Ok.run (hs : Ok S calm s) (events : List Event) (he : ∀ e ∈ events, e = .stop → ¬calm) :
    Ok S calm (S.run s events) := by
  induction events generalizing s with
  | nil => exact hs
  | cons e events ih =>
    obtain ⟨he, hes⟩ := List.forall_mem_cons.1 he
    exact ih (hs.apply e he) hes

theorem length_run (S : NonceSearch) (s : State) (events : List Event) :
    (S.run s events).threads.length = s.threads.length := by
  induction events generalizing s with
  | nil => rfl
  | cons e events ih =>
    rw [NonceSearch.run, List.foldl_cons, ← NonceSearch.run, ih]
    cases e with
    | thread i => exact Threads.length_stepAt s i
    | _ => rfl

/-! ## The counter of hashes -/

/-- What the counter has of a thread's hashes: a thread that found a nonce hands in the last ones when
it finds it, and once more when it ends. -/
def Worker.counted (w : Worker) : Nat :=
  match w.phase with
  | .storeNonce | .storeFound | .storeStop | .flush true => w.tried
  | .done true => w.tried + w.tried % 1024
  | .done false => w.tried
  | _ => w.tried - w.localHashes

theorem Worker.Ok.counted (hw : w.Ok S calm g) : ∃ k,
    (S.step w g).1.counted = w.counted + k ∧
      (S.step w g).2.hashesDone ≡ g.hashesDone + k [MOD 2 ^ 64] := by
  have hhashes := hw.hashes
  have hadd : ∀ n, (g.count n).hashesDone ≡ g.hashesDone + n [MOD 2 ^ 64] :=
    fun n => Nat.mod_modEq _ _
  cases hp : w.phase with
  | testStop =>
    simp only [NonceSearch.step, hp]
    split <;> exact ⟨0, by simp [Worker.counted, Worker.tried, Phase.hashed, hp], rfl⟩
  | testMining =>
    simp only [NonceSearch.step, hp]
    split <;> exact ⟨0, by simp [Worker.counted, Worker.tried, Phase.hashed, hp], rfl⟩
  | hash =>
    simp only [NonceSearch.step, hp]
    exact ⟨0, by simp [Worker.counted, Worker.tried, Phase.hashed, hp], rfl⟩
  | count =>
    simp only [NonceSearch.step, hp]
    simp [hp] at hhashes
    have hmod := Nat.mod_le w.passed 1024
    split
    · refine ⟨w.localHashes, ?_, hadd _⟩
      simp [Worker.counted, Worker.tried, Phase.hashed, hp]
      omega
    · exact ⟨0, by simp [Worker.counted, Worker.tried, Phase.hashed, hp], rfl⟩
  | share =>
    simp only [NonceSearch.step, hp]
    refine ⟨0, by simp [Worker.counted, Worker.tried, Phase.hashed, hp], ?_⟩
    split <;> rfl
  | check =>
    simp only [NonceSearch.step, hp]
    split <;> exact ⟨0, by simp [Worker.counted, Worker.tried, Phase.hashed, hp], rfl⟩
  | countFound =>
    simp only [NonceSearch.step, hp]
    simp [hp, Worker.tried, Phase.hashed] at hhashes
    have hmod := Nat.mod_le (w.passed + 1) 1024
    refine ⟨w.localHashes, ?_, hadd _⟩
    simp [Worker.counted, Worker.tried, Phase.hashed, hp]
    omega
  | storeNonce =>
    simp only [NonceSearch.step, hp]
    exact ⟨0, by simp [Worker.counted, Worker.tried, Phase.hashed, hp], rfl⟩
  | storeFound =>
    simp only [NonceSearch.step, hp]
    exact ⟨0, by simp [Worker.counted, Worker.tried, Phase.hashed, hp], rfl⟩
  | storeStop =>
    simp only [NonceSearch.step, hp]
    exact ⟨0, by simp [Worker.counted, Worker.tried, Phase.hashed, hp], rfl⟩
  | flush won =>
    simp only [NonceSearch.step, hp]
    refine ⟨w.localHashes, ?_, hadd _⟩
    cases won
    · simp [hp, Worker.tried, Phase.hashed] at hhashes
      have hmod := Nat.mod_le w.passed 1024
      simp [Worker.counted, Worker.tried, Phase.hashed, hp]
      omega
    · simp [hp, Worker.tried, Phase.hashed] at hhashes
      simp [Worker.counted, Worker.tried, Phase.hashed, hp, hhashes]
  | done won =>
    simp only [NonceSearch.step, hp]
    exact ⟨0, rfl, rfl⟩

theorem counted_run (S : NonceSearch) (isMining : Bool) (hashesDone : Nat) (events : List Event) :
    (S.run (S.start isMining hashesDone) events).shared.hashesDone ≡
      hashesDone + ((S.run (S.start isMining hashesDone) events).threads.map
        Worker.counted).sum [MOD 2 ^ 64] := by
  have hrun : ∀ (events : List Event) (s : State), Ok S False s →
      s.shared.hashesDone ≡ hashesDone + (s.threads.map Worker.counted).sum [MOD 2 ^ 64] →
        (S.run s events).shared.hashesDone ≡
          hashesDone + ((S.run s events).threads.map Worker.counted).sum [MOD 2 ^ 64] := by
    intro events
    induction events with
    | nil => exact fun _ _ h => h
    | cons e events ih =>
      intro s hs h
      refine ih _ (hs.apply e fun _ => id) ?_
      cases e with
      | thread i => exact Threads.tally_stepAt (fun w hw => (hs.thread i w hw).2.counted) h
      | _ => exact h
  refine hrun events _ (ok_start isMining hashesDone fun h => h.elim) ?_
  have hzero : ((S.start isMining hashesDone).threads.map Worker.counted).sum = 0 := by
    refine List.sum_eq_zero fun n hn => ?_
    rw [start, List.map_map] at hn
    obtain ⟨i, -, rfl⟩ := List.mem_map.1 hn
    rfl
  rw [hzero]
  rfl

/-! ## The shares -/

/-- The nonce of a thread's turn `k`. -/
def turn (S : NonceSearch) (threadIdx k : Nat) : Nat := (threadIdx + k * S.numThreads) % 2 ^ 64

/-- The shares of a thread. -/
def Worker.shares (S : NonceSearch) (w : Worker) : List Nat :=
  ((List.range w.settled).map (S.turn w.threadIdx)).filter S.isShare

theorem step_settled (S : NonceSearch) (w : Worker) (g : Shared) :
    (S.step w g).1.settled = w.settled + if w.phase = .share then 1 else 0 := by
  cases hp : w.phase with
  | testStop =>
    simp only [NonceSearch.step, hp]
    split <;> simp [Worker.settled, Phase.settled, hp]
  | testMining =>
    simp only [NonceSearch.step, hp]
    split <;> simp [Worker.settled, Phase.settled, hp]
  | count =>
    simp only [NonceSearch.step, hp]
    split <;> simp [Worker.settled, Phase.settled, hp]
  | check =>
    simp only [NonceSearch.step, hp]
    split <;> simp [Worker.settled, Phase.settled, hp]
  | flush won => cases won <;> simp [NonceSearch.step, Worker.settled, Phase.settled, hp]
  | _ => simp [NonceSearch.step, Worker.settled, Phase.settled, hp]

/-- A step records the share that its thread looks at. -/
theorem Worker.Ok.shares (hw : w.Ok S calm g) (hroom : g.shares.length < 100000) (n : Nat) : ∃ k,
    ((S.step w g).1.shares S).count n = (w.shares S).count n + k ∧
      (S.step w g).2.shares.count n ≡ g.shares.count n + k [MOD 0] := by
  unfold Worker.shares
  rw [step_settled, step_threadIdx]
  by_cases hp : w.phase = .share
  · have hsettled : w.settled = w.passed := by
      rw [Worker.settled, hp]
      rfl
    have hturn : S.turn w.threadIdx w.settled = w.nonce := by
      rw [hsettled, turn, hw.nonce]
    rw [if_pos hp, List.range_succ, List.map_append, List.filter_append, List.count_append,
      List.map_singleton, hturn]
    by_cases hs : S.isShare w.nonce
    · refine ⟨_, rfl, ?_⟩
      simp [NonceSearch.step, hp, hs, hroom, Nat.ModEq]
    · refine ⟨0, by simp [hs], ?_⟩
      simp [NonceSearch.step, hp, hs, Nat.ModEq]
  · rw [if_neg hp]
    refine ⟨0, rfl, ?_⟩
    obtain ⟨-, -, -, -, hshares | ⟨hp', -⟩⟩ := step_shared S w g
    · rw [hshares]
      rfl
    · exact absurd hp' hp

theorem length_shares_apply (S : NonceSearch) (s : State) (e : Event) :
    s.shared.shares.length ≤ (S.apply s e).shared.shares.length := by
  cases e with
  | thread i =>
    show _ ≤ (Threads.stepAt S.step s i).shared.shares.length
    cases h : s.threads[i]? with
    | none => rw [Threads.stepAt_none h]
    | some w =>
      rw [Threads.stepAt_some h]
      obtain ⟨-, -, -, -, hshares | ⟨-, -, -, hshares⟩⟩ := step_shared S w s.shared
      · rw [hshares]
      · rw [hshares, List.length_append]
        exact Nat.le_add_right _ _
  | _ => exact Nat.le_refl _

theorem length_shares_run (S : NonceSearch) (s : State) (events : List Event) :
    s.shared.shares.length ≤ (S.run s events).shared.shares.length := by
  induction events generalizing s with
  | nil => exact Nat.le_refl _
  | cons e events ih => exact (length_shares_apply S s e).trans (ih (S.apply s e))

theorem shares_run (S : NonceSearch) (isMining : Bool) (hashesDone : Nat) (events : List Event)
    (hroom : (S.run (S.start isMining hashesDone) events).shared.shares.length < 100000) (n : Nat) :
    (S.run (S.start isMining hashesDone) events).shared.shares.count n =
      ((S.run (S.start isMining hashesDone) events).threads.map
        fun w => (w.shares S).count n).sum := by
  have hrun : ∀ (events : List Event) (s : State), Ok S False s →
      (S.run s events).shared.shares.length < 100000 →
      s.shared.shares.count n ≡ 0 + (s.threads.map fun w => (w.shares S).count n).sum [MOD 0] →
        (S.run s events).shared.shares.count n ≡
          0 + ((S.run s events).threads.map fun w => (w.shares S).count n).sum [MOD 0] := by
    intro events
    induction events with
    | nil => exact fun _ _ _ h => h
    | cons e events ih =>
      intro s hs hlen h
      refine ih _ (hs.apply e fun _ => id) hlen ?_
      have hlt : s.shared.shares.length < 100000 :=
        Nat.lt_of_le_of_lt (length_shares_run S s (e :: events)) hlen
      cases e with
      | thread i =>
        exact Threads.tally_stepAt (c := fun g => g.shares.count n)
          (fun w hw => (hs.thread i w hw).2.shares hlt n) h
      | _ => exact h
  have h := hrun events _ (ok_start isMining hashesDone fun h => h.elim) hroom ?_
  · rwa [Nat.zero_add, Nat.modEq_zero_iff] at h
  · have hzero : ((S.start isMining hashesDone).threads.map
        fun w => (w.shares S).count n).sum = 0 := by
      refine List.sum_eq_zero fun m hm => ?_
      rw [start, List.map_map] at hm
      obtain ⟨i, -, rfl⟩ := List.mem_map.1 hm
      rfl
    rw [hzero]
    rfl

theorem turn_eq {threadIdx settled k : Nat} (hpos : 0 < S.numThreads)
    (hwrap : threadIdx + settled * S.numThreads ≤ 2 ^ 64) (hk : k < settled) :
    S.turn threadIdx k = threadIdx + k * S.numThreads := by
  refine Nat.mod_eq_of_lt (Nat.lt_of_lt_of_le ?_ hwrap)
  exact Nat.add_lt_add_left (Nat.mul_lt_mul_of_pos_right hk hpos) _

/-- Before it wraps around, a thread's shares are its own. -/
theorem Worker.mem_shares (hpos : 0 < S.numThreads) (hidx : w.threadIdx < S.numThreads)
    (hwrap : w.threadIdx + w.settled * S.numThreads ≤ 2 ^ 64) {n : Nat} :
    n ∈ w.shares S ↔ S.isShare n ∧ n % S.numThreads = w.threadIdx ∧ n / S.numThreads < w.settled := by
  rw [Worker.shares, List.mem_filter, List.mem_map, and_comm]
  refine and_congr_right fun _ => ⟨fun h => ?_, fun h => ?_⟩
  · obtain ⟨k, hk, rfl⟩ := h
    rw [List.mem_range] at hk
    rw [turn_eq hpos hwrap hk, Nat.add_mul_mod_self_right, Nat.mod_eq_of_lt hidx,
      Nat.add_mul_div_right _ _ hpos, Nat.div_eq_of_lt hidx, Nat.zero_add]
    exact ⟨rfl, hk⟩
  · refine ⟨n / S.numThreads, List.mem_range.2 h.2, ?_⟩
    rw [turn_eq hpos hwrap h.2, ← h.1, Nat.mul_comm, Nat.mod_add_div]

theorem Worker.nodup_shares (hpos : 0 < S.numThreads)
    (hwrap : w.threadIdx + w.settled * S.numThreads ≤ 2 ^ 64) : (w.shares S).Nodup := by
  refine List.Nodup.filter _ (List.Nodup.map_on (fun k hk l hl h => ?_) List.nodup_range)
  rw [turn_eq hpos hwrap (List.mem_range.1 hk), turn_eq hpos hwrap (List.mem_range.1 hl)] at h
  exact Nat.eq_of_mul_eq_mul_right hpos (Nat.add_left_cancel h)

/-- **Exactly the shares among the nonces tried are recorded, each once**, while the nonces do not
wrap around and the list has room: nonce `n` is looked at in turn `n / t` of thread `n % t` of `t`. -/
theorem shares_exact (S : NonceSearch) (hpos : 0 < S.numThreads) (isMining : Bool)
    (hashesDone : Nat) (events : List Event) (s : State)
    (hs : s = S.run (S.start isMining hashesDone) events)
    (hroom : s.shared.shares.length < 100000)
    (hwrap : ∀ w ∈ s.threads, w.threadIdx + w.settled * S.numThreads ≤ 2 ^ 64) :
    s.shared.shares.Nodup ∧ ∀ n, n ∈ s.shared.shares ↔ S.isShare n ∧
      ∃ w, s.threads[n % S.numThreads]? = some w ∧ n / S.numThreads < w.settled := by
  have hok : Ok S False s := by
    rw [hs]
    exact (ok_start isMining hashesDone fun h => h.elim).run events fun _ _ _ => id
  have hlen : s.threads.length = S.numThreads := by
    rw [hs, length_run, start, List.length_map, List.length_range]
  have hcount := fun n => by
    have h := shares_run S isMining hashesDone events (hs ▸ hroom) n
    rwa [← hs] at h
  have hidx : ∀ (i : Nat) (v : Worker), s.threads[i]? = some v → v.threadIdx = i ∧
      v.threadIdx < S.numThreads ∧ v.threadIdx + v.settled * S.numThreads ≤ 2 ^ 64 := by
    intro i v hv
    obtain ⟨hlt, hget⟩ := List.getElem?_eq_some_iff.1 hv
    have hi := (hok.thread i v hv).1
    exact ⟨hi, hi ▸ hlen ▸ hlt, hwrap v (List.mem_of_getElem? hv)⟩
  -- the shares `n` are those of the thread `n % t`
  have hone : ∀ n, ∃ w, s.threads[n % S.numThreads]? = some w ∧
      s.shared.shares.count n = (w.shares S).count n := by
    intro n
    have hlt : n % S.numThreads < s.threads.length := by
      rw [hlen]
      exact Nat.mod_lt _ hpos
    refine ⟨_, List.getElem?_eq_getElem hlt, ?_⟩
    rw [hcount n]
    refine Threads.sum_map_eq_single _ _ _ _ (List.getElem?_eq_getElem hlt) fun i v hi hv => ?_
    obtain ⟨hvi, hvt, hvw⟩ := hidx i v hv
    rw [List.count_eq_zero, Worker.mem_shares hpos hvt hvw]
    exact fun h => hi (hvi ▸ h.2.1.symm)
  refine ⟨List.nodup_iff_count_le_one.2 fun n => ?_, fun n => ?_⟩
  · obtain ⟨w, hw, hc⟩ := hone n
    obtain ⟨-, -, hww⟩ := hidx _ w hw
    rw [hc]
    exact List.nodup_iff_count_le_one.1 (Worker.nodup_shares hpos hww) n
  · obtain ⟨w, hw, hc⟩ := hone n
    obtain ⟨hwi, hwt, hww⟩ := hidx _ w hw
    rw [← List.count_pos_iff, hc, List.count_pos_iff, Worker.mem_shares hpos hwt hww, hwi]
    refine and_congr_right fun _ => ⟨fun h => ⟨w, hw, h.2⟩, fun h => ?_⟩
    obtain ⟨v, hv, hlt⟩ := h
    rw [hw, Option.some.injEq] at hv
    rw [hv]
    exact ⟨rfl, hlt⟩

/-- Every nonce is a share. -/
def lucky : NonceSearch := ⟨fun _ => ⟨5⟩, ⟨0⟩, some ⟨10⟩, true, 2⟩

/-- Two threads in turn. -/
theorem shares_exact_lucky :
    (lucky.run (lucky.start true 0) (List.replicate 6 (.thread 0) ++
      List.replicate 5 (.thread 1))).shared.shares.Nodup :=
  (shares_exact lucky (by decide) true 0 _ _ rfl (by decide) (by decide)).1

end NonceSearch

/-! ## The miner -/

/-- The search of `mine_block` on a template, in a lane. -/
def NonceSearch.ofTemplate (E : Env) (lane : LaneId) (shareTarget : Option Hash) (sink : Bool)
    (template : Block) (threads : Nat) : NonceSearch where
  hash := E.powHash lane template.header
  target := Header.targetFromBits template.header.bits
  shareTarget := shareTarget
  sink := sink
  numThreads := max threads 1

/-- What `mine_block` returns when its threads have ended, and what the template is then. -/
def NonceSearch.mineBlock (s : State) (template : Block) : Bool × Block :=
  if s.shared.found then (true, template.withNonce s.shared.foundNonce) else (false, template)

/-- The search hashes the header that a validator does. -/
theorem NonceSearch.ofTemplate_hash {E : Env} {lane : LaneId} {template : Block}
    (hlane : template.header.laneId = lane) (hnonce : template.header.nonce = 0) (n : Nat) :
    E.powHash lane template.header n = (template.withNonce n).header.powHash E := by
  have hzero : { (template.withNonce n).header with nonce := 0 } = template.header := by
    show { template.header with nonce := 0 } = template.header
    rw [← hnonce]
  rw [Header.powHash, hzero, ← hlane]
  rfl

open NonceSearch in
/-- **Mining is sound.** However the threads of a search interleave, with mining stopped and resumed
at any time: a nonce that is found solves the block, no search fails unless mining was stopped, the
shares are what an operator asks of them, and the counter has each hash once, but the last ones of a
thread that finds a nonce twice. -/
theorem mineBlock_run (E : Env) (lane : LaneId) (shareTarget : Option Hash) (sink : Bool)
    (template : Block) (threads : Nat) (isMining : Bool) (hashesDone : Nat)
    (events : List NonceSearch.Event) (S : NonceSearch)
    (hS : S = NonceSearch.ofTemplate E lane shareTarget sink template threads)
    (s : State) (hs : s = S.run (S.start isMining hashesDone) events)
    (hlane : template.header.laneId = lane) (hnonce : template.header.nonce = 0)
    (hdone : ∀ w ∈ s.threads, ∃ won, w.phase = .done won) :
    ((mineBlock s template).1 = true → verifyBlockPow E (mineBlock s template).2.header = .ok ()) ∧
    ((mineBlock s template).1 = false → isMining = false ∨ .stop ∈ events) ∧
    (∀ n ∈ s.shared.shares, ∃ st, shareTarget = some st ∧
      powMeetsTarget E (template.withNonce n).header st = true ∧
      verifyBlockPow E (template.withNonce n).header ≠ .ok ()) ∧
    s.shared.hashesDone ≡ hashesDone + (s.threads.map fun w =>
      w.tried + if w.phase = .done true then w.tried % 1024 else 0).sum [MOD 2 ^ 64] := by
  have hok : S.Ok (isMining = true ∧ .stop ∉ events) s := by
    rw [hs]
    exact (ok_start isMining hashesDone fun h => h.1).run events fun e he hstop hc =>
      hc.2 (hstop ▸ he)
  have hhash := NonceSearch.ofTemplate_hash (E := E) hlane hnonce
  have hsolves : ∀ n, S.solves n ↔ verifyBlockPow E (template.withNonce n).header = .ok () := by
    intro n
    have h : S.solves n = ((template.withNonce n).header.powHash E).meetsTarget
        (Header.targetFromBits template.header.bits) := by
      rw [hS, ← hhash]
      rfl
    show _ ↔ (if ((template.withNonce n).header.powHash E).meetsTarget
      (Header.targetFromBits template.header.bits) then _ else _) = _
    rw [h]
    by_cases hm : ((template.withNonce n).header.powHash E).meetsTarget
        (Header.targetFromBits template.header.bits)
    · simp [hm]
    · simp [hm]
  refine ⟨fun h => ?_, fun h => ?_, fun n hn => ?_, ?_⟩
  · unfold mineBlock at h ⊢
    split at h
    · rename_i hfound
      rw [if_pos hfound]
      exact (hsolves _).1 (hok.shared.found hfound)
    · cases h
  · -- a thread that gave up was told to, or mining was stopped
    by_contra hcalm
    rw [not_or, Bool.not_eq_false] at hcalm
    have hfound : s.shared.found = true := by
      have hpos : 0 < s.threads.length := by
        rw [hs, length_run, start, List.length_map, List.length_range, hS]
        exact Nat.lt_of_lt_of_le Nat.zero_lt_one (Nat.le_max_right _ _)
      have hw := hok.thread 0 _ (List.getElem?_eq_getElem hpos)
      obtain ⟨won, hp⟩ := hdone _ (List.getElem_mem hpos)
      cases won with
      | false => exact hok.shared.stops (hw.2.quits hcalm (by simp [Phase.Quits, hp]))
      | true => exact hw.2.told (.inr (.inr hp))
    rw [mineBlock, if_pos hfound] at h
    cases h
  · have hshare := hok.shared.shares n hn
    unfold isShare at hshare
    split at hshare
    · rename_i st hst
      rw [Bool.and_eq_true, Bool.and_eq_true, Bool.not_eq_true', Bool.eq_false_iff] at hshare
      refine ⟨st, ?_, ?_, fun hv => hshare.1.2 ((hsolves n).2 hv)⟩
      · rw [hS] at hst
        exact hst
      · rw [powMeetsTarget, ← hhash]
        rw [hS] at hshare
        exact hshare.1.1
    · cases hshare
  · have hcounted := counted_run S isMining hashesDone events
    rw [← hs] at hcounted
    have hmap : s.threads.map Worker.counted = s.threads.map fun w =>
        w.tried + if w.phase = .done true then w.tried % 1024 else 0 := by
      refine List.map_congr_left fun w hw => ?_
      obtain ⟨won, hp⟩ := hdone w hw
      cases won <;> simp [Worker.counted, hp]
    rwa [hmap] at hcounted

open NonceSearch Sample in
/-- The first thread finds a nonce, and the other one stops. -/
theorem mineBlock_run_two :
    let S := NonceSearch.ofTemplate env .cpu none false shareTemplate 2
    let events := List.replicate 11 (.thread 0) ++ List.replicate 2 (.thread 1)
    verifyBlockPow env (mineBlock (S.run (S.start true 0) events) shareTemplate).2.header = .ok () :=
  (mineBlock_run env .cpu none false shareTemplate 2 true 0 _ _ rfl _ rfl rfl rfl
    (by decide +kernel)).1 (by decide +kernel)

end Zentra

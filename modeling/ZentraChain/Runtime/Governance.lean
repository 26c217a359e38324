import ZentraChain.Lib.Runs
import ZentraChain.Lib.Wrapping
import ZentraChain.Types

/-!
# Governance (`governance.rs`)

Parameters are proposed, voted on for a window of blocks, and applied if more votes were for them
than against.

* `processProposals_eq`: a call applies the first expired proposal that is approved, and drops all
  expired ones.
* `GovernanceLog.Tracked.step`: the proposals are those submitted, with the votes cast on them.
* `GovernanceLog.safe_run`: what is applied was proposed, valid, won its vote, and is applied once.
-/

namespace Zentra

/-- `DEFAULT_VOTING_WINDOW_BLOCKS`. -/
def defaultVotingWindowBlocks : Nat := 1728000

/-- `MIN_TX_FEE_ZENTS`. -/
def minTxFeeZents : Nat := 1000

inductive GovernanceError
  /-- `Gas price multiplier cannot be zero` -/
  | zeroGasPriceMultiplier
  /-- `Max block size cannot be zero` -/
  | zeroMaxBlockSize
  /-- `Max txs per block cannot be zero` -/
  | zeroMaxTxsPerBlock
  /-- `Max block size exceeds 100 MB limit` -/
  | maxBlockSizeLimit
  /-- `Max txs per block exceeds 1M limit` -/
  | maxTxsPerBlockLimit
  /-- `Voting power must be greater than zero` -/
  | zeroVotingPower
  /-- `Proposal {} not found` -/
  | notFound (proposalId : Nat)
  deriving DecidableEq, Repr

structure GovernanceParams where
  gasPriceMultiplier : Nat
  maxBlockSize : Nat
  maxTxsPerBlock : Nat
  minTxFee : Nat
  deriving DecidableEq, Repr

namespace GovernanceParams

/-- `GovernanceParams::default`. -/
def default : GovernanceParams := ⟨10000, Zentra.maxBlockSize, Zentra.maxTxsPerBlock, minTxFeeZents⟩

def validate (p : GovernanceParams) : Except GovernanceError Unit :=
  if p.gasPriceMultiplier = 0 then .error .zeroGasPriceMultiplier
  else if p.maxBlockSize = 0 then .error .zeroMaxBlockSize
  else if p.maxTxsPerBlock = 0 then .error .zeroMaxTxsPerBlock
  else if p.maxBlockSize > 100 * 1048576 then .error .maxBlockSizeLimit
  else if p.maxTxsPerBlock > 1000000 then .error .maxTxsPerBlockLimit
  else .ok ()

end GovernanceParams

structure GovernanceProposal where
  id : Nat
  proposedParams : GovernanceParams
  votesFor : Nat
  votesAgainst : Nat
  proposedAtHeight : Nat
  expiresAtHeight : Nat
  deriving DecidableEq, Repr

namespace GovernanceProposal

def isApproved (p : GovernanceProposal) : Bool := p.votesFor > p.votesAgainst ∧ p.votesFor > 0

def isExpired (p : GovernanceProposal) (currentHeight : Nat) : Bool :=
  currentHeight ≥ p.expiresAtHeight

/-- A vote on the proposal. -/
def count (p : GovernanceProposal) (approve : Bool) (votingPower : Nat) : GovernanceProposal :=
  if approve then { p with votesFor := satAdd p.votesFor votingPower }
  else { p with votesAgainst := satAdd p.votesAgainst votingPower }

@[simp] theorem count_id (p : GovernanceProposal) (approve : Bool) (votingPower : Nat) :
    (p.count approve votingPower).id = p.id := by
  cases approve <;> rfl

end GovernanceProposal

structure GovernanceEngine where
  currentParams : GovernanceParams
  pendingProposals : List GovernanceProposal
  nextProposalId : Nat
  /-- Each change, with the height it was made at. -/
  appliedHistory : List (Nat × Nat)

/-- The variables of the loop of `process_proposals`. -/
structure GovernanceRound where
  currentParams : GovernanceParams
  appliedHistory : List (Nat × Nat)
  appliedThisRound : Bool
  stillPending : List GovernanceProposal

/-- The body of the loop of `process_proposals`. -/
def GovernanceRound.step (currentHeight : Nat) (r : GovernanceRound) (p : GovernanceProposal) :
    GovernanceRound :=
  if p.isExpired currentHeight then
    if p.isApproved && !r.appliedThisRound then
      { r with
        currentParams := p.proposedParams
        appliedHistory := r.appliedHistory ++ [(p.id, currentHeight)]
        appliedThisRound := true }
    else r
  else { r with stillPending := r.stillPending ++ [p] }

namespace GovernanceEngine

def new : GovernanceEngine := ⟨.default, [], 1, []⟩

def propose (g : GovernanceEngine) (params : GovernanceParams) (height : Nat) :
    GovernanceEngine × Except GovernanceError Nat :=
  match params.validate with
  | .error e => (g, .error e)
  | .ok () =>
    let id := g.nextProposalId
    let proposal : GovernanceProposal :=
      { id := id
        proposedParams := params
        votesFor := 0
        votesAgainst := 0
        proposedAtHeight := height
        expiresAtHeight := Wrapping.add (2 ^ 64) height defaultVotingWindowBlocks }
    ({ g with
        nextProposalId := Wrapping.add (2 ^ 64) g.nextProposalId 1
        pendingProposals := g.pendingProposals ++ [proposal] }, .ok id)

/-- A vote on the first proposal with an id. -/
def voteOn (proposalId : Nat) (approve : Bool) (votingPower : Nat) :
    List GovernanceProposal → Option (List GovernanceProposal)
  | [] => none
  | p :: ps =>
    if p.id = proposalId then some (p.count approve votingPower :: ps)
    else (voteOn proposalId approve votingPower ps).map (p :: ·)

def vote (g : GovernanceEngine) (proposalId : Nat) (approve : Bool) (votingPower : Nat) :
    GovernanceEngine × Except GovernanceError Unit :=
  if votingPower = 0 then (g, .error .zeroVotingPower)
  else
    match voteOn proposalId approve votingPower g.pendingProposals with
    | none => (g, .error (.notFound proposalId))
    | some ps => ({ g with pendingProposals := ps }, .ok ())

def getProposal (g : GovernanceEngine) (proposalId : Nat) : Option GovernanceProposal :=
  g.pendingProposals.find? fun p => p.id = proposalId

def processProposals (g : GovernanceEngine) (currentHeight : Nat) : GovernanceEngine :=
  let r := g.pendingProposals.foldl (GovernanceRound.step currentHeight)
    ⟨g.currentParams, g.appliedHistory, false, []⟩
  { g with
    currentParams := r.currentParams
    appliedHistory := r.appliedHistory
    pendingProposals := r.stillPending }

/-! ## What the operations do -/

/-- The proposal that a call of `process_proposals` applies. -/
def winner (g : GovernanceEngine) (currentHeight : Nat) : Option GovernanceProposal :=
  g.pendingProposals.find? fun p => p.isExpired currentHeight && p.isApproved

/-- What is pending after a call of `process_proposals`. -/
def unexpired (g : GovernanceEngine) (currentHeight : Nat) : List GovernanceProposal :=
  g.pendingProposals.filter fun p => !p.isExpired currentHeight

variable {g : GovernanceEngine} {params : GovernanceParams} {h id power : Nat} {approve : Bool}

/-- After the change of a round, the loop only sorts. -/
theorem round_applied (h : Nat) (ps : List GovernanceProposal) (r : GovernanceRound)
    (hr : r.appliedThisRound = true) : ps.foldl (GovernanceRound.step h) r =
      { r with stillPending := r.stillPending ++ ps.filter fun p => !p.isExpired h } := by
  induction ps generalizing r with
  | nil => simp
  | cons p ps ih =>
    rw [List.foldl_cons]
    by_cases he : p.isExpired h
    · have hstep : GovernanceRound.step h r p = r := by simp [GovernanceRound.step, he, hr]
      rw [hstep, ih r hr, List.filter_cons_of_neg (by simp [he])]
    · have hstep : GovernanceRound.step h r p =
          { r with stillPending := r.stillPending ++ [p] } := by simp [GovernanceRound.step, he]
      have hrest := ih { r with stillPending := r.stillPending ++ [p] } hr
      rw [hstep, hrest, List.filter_cons_of_pos (by simp [he]), List.append_assoc,
        List.singleton_append]

/-- Before, it looks for the first approved proposal. -/
theorem round_open (h : Nat) (ps : List GovernanceProposal) (r : GovernanceRound)
    (hr : r.appliedThisRound = false) :
    let r' := ps.foldl (GovernanceRound.step h) r
    r'.stillPending = r.stillPending ++ (ps.filter fun p => !p.isExpired h) ∧
      match ps.find? fun p => p.isExpired h && p.isApproved with
      | none => r'.currentParams = r.currentParams ∧ r'.appliedHistory = r.appliedHistory
      | some p =>
        r'.currentParams = p.proposedParams ∧
          r'.appliedHistory = r.appliedHistory ++ [(p.id, h)] := by
  induction ps generalizing r with
  | nil => simp
  | cons p ps ih =>
    by_cases he : p.isExpired h
    · by_cases ha : p.isApproved
      · simp [GovernanceRound.step, he, ha, hr, round_applied]
      · simpa [GovernanceRound.step, he, ha] using ih r hr
    · have hrest := ih { r with stillPending := r.stillPending ++ [p] } hr
      simpa [GovernanceRound.step, he] using hrest

/-- **One call.** It applies the first proposal that is expired and approved, if there is one, and
drops all that are expired. -/
theorem processProposals_eq (g : GovernanceEngine) (h : Nat) : g.processProposals h =
    match g.winner h with
    | none => { g with pendingProposals := g.unexpired h }
    | some p =>
      { g with
        currentParams := p.proposedParams
        appliedHistory := g.appliedHistory ++ [(p.id, h)]
        pendingProposals := g.unexpired h } := by
  obtain ⟨hpending, happlied⟩ :=
    round_open h g.pendingProposals ⟨g.currentParams, g.appliedHistory, false, []⟩ rfl
  unfold processProposals winner
  split at happlied
  · simp [hpending, happlied, unexpired]
  · simp [hpending, happlied, unexpired]

theorem winner_spec {p : GovernanceProposal} (hw : g.winner h = some p) :
    p ∈ g.pendingProposals ∧ p.expiresAtHeight ≤ h ∧ p.votesAgainst < p.votesFor := by
  have hmem := List.mem_of_find?_eq_some hw
  have hp := List.find?_some hw
  simp only [GovernanceProposal.isExpired, GovernanceProposal.isApproved, Bool.and_eq_true,
    decide_eq_true_eq] at hp
  exact ⟨hmem, hp.1, hp.2.1⟩

theorem mem_unexpired {p : GovernanceProposal} :
    p ∈ g.unexpired h ↔ p ∈ g.pendingProposals ∧ h < p.expiresAtHeight := by
  simp [unexpired, GovernanceProposal.isExpired]

/-- At most one proposal is applied by a call. -/
theorem processProposals_history (g : GovernanceEngine) (h : Nat) :
    ∃ new, (g.processProposals h).appliedHistory = g.appliedHistory ++ new ∧ new.length ≤ 1 := by
  rw [processProposals_eq]
  cases g.winner h with
  | none => exact ⟨[], by simp, by simp⟩
  | some p => exact ⟨[(p.id, h)], rfl, by simp⟩

theorem propose_cases (g : GovernanceEngine) (params : GovernanceParams) (h : Nat) :
    (∃ e, g.propose params h = (g, .error e)) ∨
      params.validate = .ok () ∧ g.propose params h =
        ({ g with
            nextProposalId := Wrapping.add (2 ^ 64) g.nextProposalId 1
            pendingProposals := g.pendingProposals ++ [⟨g.nextProposalId, params, 0, 0, h,
              Wrapping.add (2 ^ 64) h defaultVotingWindowBlocks⟩] }, .ok g.nextProposalId) := by
  unfold propose
  cases params.validate with
  | error e => exact .inl ⟨e, rfl⟩
  | ok _ => exact .inr ⟨rfl, rfl⟩

/-- A pending proposal is found by its id. -/
theorem getProposal_id {p : GovernanceProposal} (hn : (g.pendingProposals.map (·.id)).Nodup)
    (hp : p ∈ g.pendingProposals) : g.getProposal p.id = some p := by
  cases hf : g.getProposal p.id with
  | none => simpa using List.find?_eq_none.1 hf p hp
  | some q =>
    have hid : q.id = p.id := by simpa using List.find?_some hf
    exact congrArg some (List.inj_on_of_nodup_map hn (List.mem_of_find?_eq_some hf) hp hid)

theorem voteOn_ids {ps ps' : List GovernanceProposal} (hv : voteOn id approve power ps = some ps') :
    ps'.map (·.id) = ps.map (·.id) := by
  induction ps generalizing ps' with
  | nil => cases hv
  | cons p ps ih =>
    simp only [voteOn] at hv
    split_ifs at hv with hp
    · cases hv
      simp
    · obtain ⟨qs, hqs, rfl⟩ := Option.map_eq_some_iff.1 hv
      simp [ih hqs]

/-- One proposal has the vote, and the others are as before. -/
theorem mem_voteOn {ps ps' : List GovernanceProposal} (hn : (ps.map (·.id)).Nodup)
    (hv : voteOn id approve power ps = some ps') {p : GovernanceProposal} (hp : p ∈ ps') :
    (p ∈ ps ∧ p.id ≠ id) ∨ ∃ q ∈ ps, q.id = id ∧ p = q.count approve power := by
  induction ps generalizing ps' with
  | nil => cases hv
  | cons q ps ih =>
    simp only [List.map_cons, List.nodup_cons, List.mem_map, not_exists, not_and] at hn
    simp only [voteOn] at hv
    split_ifs at hv with hq
    · cases hv
      rcases List.mem_cons.1 hp with rfl | hp
      · exact .inr ⟨q, List.mem_cons_self, hq, rfl⟩
      · exact .inl ⟨List.mem_cons_of_mem _ hp, hq ▸ hn.1 p hp⟩
    · obtain ⟨qs, hqs, rfl⟩ := Option.map_eq_some_iff.1 hv
      rcases List.mem_cons.1 hp with rfl | hp
      · exact .inl ⟨List.mem_cons_self, hq⟩
      · rcases ih hn.2 hqs hp with ⟨hmem, hne⟩ | ⟨x, hx, hid, hpx⟩
        · exact .inl ⟨List.mem_cons_of_mem _ hmem, hne⟩
        · exact .inr ⟨x, List.mem_cons_of_mem _ hx, hid, hpx⟩

theorem vote_cases (g : GovernanceEngine) (id : Nat) (approve : Bool) (power : Nat) :
    (∃ e, g.vote id approve power = (g, .error e)) ∨
      ∃ ps, voteOn id approve power g.pendingProposals = some ps ∧
        g.vote id approve power = ({ g with pendingProposals := ps }, .ok ()) := by
  unfold vote
  split_ifs
  · exact .inl ⟨_, rfl⟩
  · cases hv : voteOn id approve power g.pendingProposals with
    | none => exact .inl ⟨_, rfl⟩
    | some ps => exact .inr ⟨ps, rfl, rfl⟩

end GovernanceEngine

/-! ## Runs -/

inductive GovernanceCall
  | propose (params : GovernanceParams) (height : Nat)
  | vote (proposalId : Nat) (approve : Bool) (votingPower : Nat)
  | processProposals (currentHeight : Nat)

/-- What was proposed, and all votes cast on it since. -/
structure Submission where
  params : GovernanceParams
  height : Nat
  votesFor : Nat
  votesAgainst : Nat

namespace Submission

/-- A vote, whatever the size of the counters. -/
def count (s : Submission) (approve : Bool) (votingPower : Nat) : Submission :=
  if approve then { s with votesFor := s.votesFor + votingPower }
  else { s with votesAgainst := s.votesAgainst + votingPower }

/-- The proposal is the one submitted, with counters that saturate. -/
structure Matches (s : Submission) (p : GovernanceProposal) : Prop where
  params : p.proposedParams = s.params
  valid : s.params.validate = .ok ()
  expires : p.expiresAtHeight = s.height + defaultVotingWindowBlocks
  votesFor : p.votesFor = min s.votesFor u64Max
  votesAgainst : p.votesAgainst = min s.votesAgainst u64Max

theorem Matches.count {s : Submission} {p : GovernanceProposal} (h : s.Matches p) (approve : Bool)
    (votingPower : Nat) : (s.count approve votingPower).Matches (p.count approve votingPower) := by
  obtain ⟨hparams, hvalid, hexpires, hfor, hagainst⟩ := h
  cases approve with
  | true =>
    refine ⟨hparams, hvalid, hexpires, ?_, hagainst⟩
    exact (congrArg (satAdd · votingPower) hfor).trans (Saturating.add_min_left ..)
  | false =>
    refine ⟨hparams, hvalid, hexpires, hfor, ?_⟩
    exact (congrArg (satAdd · votingPower) hagainst).trans (Saturating.add_min_left ..)

/-- Counters that differ are of votes that do. -/
theorem Matches.majority {s : Submission} {p : GovernanceProposal} (h : s.Matches p)
    (hp : p.votesAgainst < p.votesFor) : s.votesAgainst < s.votesFor := by
  rw [h.votesFor, h.votesAgainst] at hp
  omega

end Submission

/-- A change of the parameters, as things stood when it was made. -/
structure AppliedChange where
  proposal : GovernanceProposal
  submission : Submission
  height : Nat

/-- The proposals of a run. -/
structure GovernanceLog where
  engine : GovernanceEngine
  /-- How many were accepted. -/
  proposals : Nat
  /-- By id. -/
  submitted : Nat → Option Submission
  applied : List AppliedChange

namespace GovernanceLog

def start : GovernanceLog := ⟨.new, 0, fun _ => none, []⟩

/-- What a new entry of the history was when it was made. -/
def change (l : GovernanceLog) (e : Nat × Nat) : Option AppliedChange :=
  match l.engine.getProposal e.1, l.submitted e.1 with
  | some p, some s => some ⟨p, s, e.2⟩
  | _, _ => none

def step (l : GovernanceLog) : GovernanceCall → GovernanceLog
  | .propose params height =>
    let r := l.engine.propose params height
    match r.2 with
    | .error _ => { l with engine := r.1 }
    | .ok id =>
      { l with
        engine := r.1
        proposals := l.proposals + 1
        submitted := Function.update l.submitted id (some ⟨params, height, 0, 0⟩) }
  | .vote id approve votingPower =>
    let r := l.engine.vote id approve votingPower
    match r.2 with
    | .error _ => { l with engine := r.1 }
    | .ok () =>
      { l with
        engine := r.1
        submitted :=
          Function.update l.submitted id ((l.submitted id).map (·.count approve votingPower)) }
  | .processProposals height =>
    let g := l.engine.processProposals height
    { l with
      engine := g
      applied := l.applied ++
        (g.appliedHistory.drop l.engine.appliedHistory.length).filterMap l.change }

/-- The proposals are at heights whose window does not wrap, and there are fewer than 2^64. -/
def Fits (l : GovernanceLog) (c : GovernanceCall) : Prop :=
  (∀ params height, c = .propose params height → height < 2 ^ 64 - defaultVotingWindowBlocks) ∧
    (l.step c).proposals < 2 ^ 64

structure Safe (l : GovernanceLog) : Prop where
  valid : l.engine.currentParams.validate = .ok ()
  /-- The parameters are those of the last change. -/
  params : l.engine.currentParams =
    (l.applied.getLast?.map fun a => a.submission.params).getD .default
  history : l.engine.appliedHistory = l.applied.map fun a => (a.proposal.id, a.height)
  /-- Of the counters, and of the votes. -/
  majority : ∀ a ∈ l.applied, a.proposal.votesAgainst < a.proposal.votesFor ∧
    a.submission.votesAgainst < a.submission.votesFor
  window : ∀ a ∈ l.applied, a.submission.height + defaultVotingWindowBlocks ≤ a.height
  /-- By one call, whatever the height. -/
  atMostOne : ∀ h, ∃ new, (l.engine.processProposals h).appliedHistory =
    l.engine.appliedHistory ++ new ∧ new.length ≤ 1
  once : (l.engine.appliedHistory.map (·.1)).Nodup
  done : ∀ p ∈ l.engine.pendingProposals, p.id ∉ l.engine.appliedHistory.map (·.1)

/-- What is pending is what was submitted, under ids that are used once. -/
structure Tracked (l : GovernanceLog) : Prop where
  nextId : l.engine.nextProposalId = (l.proposals + 1) % 2 ^ 64
  known : ∀ id s, l.submitted id = some s → id ≤ l.proposals
  pending : ∀ p ∈ l.engine.pendingProposals, ∃ s, l.submitted p.id = some s ∧ s.Matches p
  nodup : (l.engine.pendingProposals.map (·.id)).Nodup
  applied : ∀ id ∈ l.engine.appliedHistory.map (·.1), ∃ s, l.submitted id = some s

variable {l : GovernanceLog} {c : GovernanceCall} {params : GovernanceParams}
  {height id votingPower : Nat} {approve : Bool}

theorem Tracked.start : start.Tracked := ⟨rfl, nofun, nofun, .nil, nofun⟩

theorem Safe.start : start.Safe :=
  ⟨rfl, rfl, rfl, nofun, nofun, GovernanceEngine.new.processProposals_history, .nil, nofun⟩

/-- A new proposal has a new id. -/
theorem Tracked.fresh (ht : l.Tracked) (hfit : l.proposals + 1 < 2 ^ 64) :
    l.engine.nextProposalId = l.proposals + 1 ∧ l.submitted l.engine.nextProposalId = none := by
  have hid : l.engine.nextProposalId = l.proposals + 1 := ht.nextId.trans (Nat.mod_eq_of_lt hfit)
  refine ⟨hid, ?_⟩
  cases hs : l.submitted l.engine.nextProposalId with
  | none => rfl
  | some s =>
    have := ht.known _ s hs
    omega

theorem Tracked.propose (ht : l.Tracked) (hfit : l.Fits (.propose params height)) :
    (l.step (.propose params height)).Tracked := by
  obtain ⟨hheight, hcount⟩ := hfit
  rcases l.engine.propose_cases params height with ⟨e, he⟩ | ⟨hvalid, he⟩
  · have hsame : l.step (.propose params height) = l := by simp [GovernanceLog.step, he]
    rwa [hsame]
  · simp only [GovernanceLog.step, he] at hcount ⊢
    obtain ⟨hid, hnone⟩ := ht.fresh hcount
    have hold : ∀ id s, l.submitted id = some s → id ≠ l.engine.nextProposalId := by
      intro id s hs heq
      rw [heq, hnone] at hs
      cases hs
    have hkept : ∀ id s, l.submitted id = some s → Function.update l.submitted
        l.engine.nextProposalId (some ⟨params, height, 0, 0⟩) id = some s :=
      fun id s hs => (Function.update_of_ne (hold id s hs) ..).trans hs
    have hwindow : Wrapping.add (2 ^ 64) height defaultVotingWindowBlocks =
        height + defaultVotingWindowBlocks := by
      have := hheight params height rfl
      exact Nat.mod_eq_of_lt (by omega)
    refine ⟨?_, ?_, ?_, ?_, ?_⟩
    · simp only [Wrapping.add, ht.nextId, Nat.mod_add_mod]
    · intro id s hs
      by_cases hn : id = l.engine.nextProposalId
      · simp [hn, hid]
      · have hs' : l.submitted id = some s := (Function.update_of_ne hn ..).symm.trans hs
        exact (ht.known id s hs').trans (Nat.le_succ _)
    · intro p hp
      rcases List.mem_append.1 hp with hp | hp
      · obtain ⟨s, hs, hm⟩ := ht.pending p hp
        exact ⟨s, hkept _ s hs, hm⟩
      · obtain rfl := List.mem_singleton.1 hp
        exact ⟨⟨params, height, 0, 0⟩, Function.update_self .., rfl, hvalid, hwindow, rfl, rfl⟩
    · simp only [List.map_append, List.map_cons, List.map_nil, List.nodup_append,
        List.mem_singleton, List.mem_map]
      refine ⟨ht.nodup, List.nodup_singleton _, ?_⟩
      intro a ha b hb
      obtain ⟨p, hp, rfl⟩ := ha
      obtain ⟨s, hs, -⟩ := ht.pending p hp
      exact hb ▸ hold _ s hs
    · intro id hmem
      obtain ⟨s, hs⟩ := ht.applied id hmem
      exact ⟨s, hkept _ s hs⟩

theorem Tracked.vote (ht : l.Tracked) : (l.step (.vote id approve votingPower)).Tracked := by
  rcases l.engine.vote_cases id approve votingPower with ⟨e, he⟩ | ⟨ps, hv, he⟩
  · have hsame : l.step (.vote id approve votingPower) = l := by simp [GovernanceLog.step, he]
    rwa [hsame]
  · have hsub : ∀ k, (l.step (.vote id approve votingPower)).submitted k =
        if k = id then (l.submitted k).map (·.count approve votingPower) else l.submitted k := by
      intro k
      by_cases hk : k = id <;> simp [GovernanceLog.step, he, hk]
    have heng : (l.step (.vote id approve votingPower)).engine =
        { l.engine with pendingProposals := ps } := by simp [GovernanceLog.step, he]
    have hcount : (l.step (.vote id approve votingPower)).proposals = l.proposals := by
      simp [GovernanceLog.step, he]
    refine ⟨?_, ?_, ?_, ?_, ?_⟩
    · rw [heng, hcount]
      exact ht.nextId
    · intro k s hs
      rw [hcount]
      rw [hsub] at hs
      split_ifs at hs
      · obtain ⟨s', hs', -⟩ := Option.map_eq_some_iff.1 hs
        exact ht.known k s' hs'
      · exact ht.known k s hs
    · intro p hp
      rw [heng] at hp
      rcases GovernanceEngine.mem_voteOn ht.nodup hv hp with ⟨hmem, hne⟩ | ⟨q, hq, hqid, rfl⟩
      · obtain ⟨s, hs, hm⟩ := ht.pending p hmem
        exact ⟨s, by rw [hsub, if_neg hne, hs], hm⟩
      · obtain ⟨s, hs, hm⟩ := ht.pending q hq
        refine ⟨s.count approve votingPower, ?_, hm.count approve votingPower⟩
        rw [hsub, GovernanceProposal.count_id, if_pos hqid, hs, Option.map_some]
    · rw [heng]
      exact (GovernanceEngine.voteOn_ids hv).symm ▸ ht.nodup
    · intro k hk
      rw [heng] at hk
      obtain ⟨s, hs⟩ := ht.applied k hk
      rw [hsub, hs]
      split_ifs
      · exact ⟨_, rfl⟩
      · exact ⟨s, rfl⟩

/-- The entry of a proposal that is applied. -/
theorem Tracked.change {p : GovernanceProposal} (ht : l.Tracked)
    (hp : p ∈ l.engine.pendingProposals) (height : Nat) :
    ∃ s, l.submitted p.id = some s ∧ s.Matches p ∧
      l.change (p.id, height) = some ⟨p, s, height⟩ := by
  obtain ⟨s, hs, hm⟩ := ht.pending p hp
  refine ⟨s, hs, hm, ?_⟩
  simp [GovernanceLog.change, GovernanceEngine.getProposal_id ht.nodup hp, hs]

/-- What a call of `process_proposals` does to a run. -/
theorem Tracked.process_cases (ht : l.Tracked) (height : Nat) :
    (l.step (.processProposals height) =
        { l with engine := { l.engine with pendingProposals := l.engine.unexpired height } }) ∨
      ∃ p s, p ∈ l.engine.pendingProposals ∧ l.submitted p.id = some s ∧ s.Matches p ∧
        p.expiresAtHeight ≤ height ∧ p.votesAgainst < p.votesFor ∧
        l.step (.processProposals height) =
          { l with
            engine :=
              { l.engine with
                currentParams := p.proposedParams
                appliedHistory := l.engine.appliedHistory ++ [(p.id, height)]
                pendingProposals := l.engine.unexpired height }
            applied := l.applied ++ [⟨p, s, height⟩] } := by
  have heq := l.engine.processProposals_eq height
  cases hw : l.engine.winner height with
  | none =>
    rw [hw] at heq
    exact .inl (by simp [GovernanceLog.step, heq])
  | some p =>
    rw [hw] at heq
    obtain ⟨hp, hexp, hmaj⟩ := GovernanceEngine.winner_spec hw
    obtain ⟨s, hs, hm, hc⟩ := ht.change hp height
    exact .inr ⟨p, s, hp, hs, hm, hexp, hmaj, by simp [GovernanceLog.step, heq, hc]⟩

theorem Tracked.process (ht : l.Tracked) (height : Nat) :
    (l.step (.processProposals height)).Tracked := by
  have hpending : ∀ p ∈ l.engine.unexpired height, ∃ s, l.submitted p.id = some s ∧ s.Matches p :=
    fun p hp => ht.pending p (GovernanceEngine.mem_unexpired.1 hp).1
  have hnodup : ((l.engine.unexpired height).map (·.id)).Nodup :=
    ht.nodup.sublist (List.filter_sublist.map _)
  rcases ht.process_cases height with he | ⟨p, s, -, hs, -, -, -, he⟩
  · rw [he]
    exact ⟨ht.nextId, ht.known, hpending, hnodup, ht.applied⟩
  · rw [he]
    refine ⟨ht.nextId, ht.known, hpending, hnodup, ?_⟩
    intro id hid
    simp only [List.map_append, List.map_cons, List.map_nil, List.mem_append,
      List.mem_singleton] at hid
    rcases hid with hid | rfl
    · exact ht.applied id hid
    · exact ⟨s, hs⟩

theorem Tracked.step (ht : l.Tracked) (hfit : l.Fits c) : (l.step c).Tracked := by
  cases c with
  | propose params height => exact ht.propose hfit
  | vote id approve votingPower => exact ht.vote
  | processProposals height => exact ht.process height

/-- A new proposal is not one of those applied. -/
theorem Safe.propose (hs : l.Safe) (ht : l.Tracked) (hfit : l.Fits (.propose params height)) :
    (l.step (.propose params height)).Safe := by
  obtain ⟨-, hcount⟩ := hfit
  rcases l.engine.propose_cases params height with ⟨e, he⟩ | ⟨-, he⟩
  · have hsame : l.step (.propose params height) = l := by simp [GovernanceLog.step, he]
    rwa [hsame]
  · simp only [GovernanceLog.step, he] at hcount ⊢
    refine ⟨hs.valid, hs.params, hs.history, hs.majority, hs.window,
      GovernanceEngine.processProposals_history _, hs.once, ?_⟩
    intro p hp
    rcases List.mem_append.1 hp with hp | hp
    · exact hs.done p hp
    · obtain rfl := List.mem_singleton.1 hp
      intro hmem
      obtain ⟨s, hsome⟩ := ht.applied _ hmem
      have hnone := (ht.fresh hcount).2
      exact absurd (hnone.symm.trans hsome) (by simp)

/-- Votes are for proposals that are pending already. -/
theorem Safe.vote (hs : l.Safe) : (l.step (.vote id approve votingPower)).Safe := by
  rcases l.engine.vote_cases id approve votingPower with ⟨e, he⟩ | ⟨ps, hv, he⟩
  · have hsame : l.step (.vote id approve votingPower) = l := by simp [GovernanceLog.step, he]
    rwa [hsame]
  · simp only [GovernanceLog.step, he]
    refine ⟨hs.valid, hs.params, hs.history, hs.majority, hs.window,
      GovernanceEngine.processProposals_history _, hs.once, ?_⟩
    intro p hp hmem
    have hid : p.id ∈ l.engine.pendingProposals.map (·.id) :=
      GovernanceEngine.voteOn_ids hv ▸ List.mem_map_of_mem hp
    obtain ⟨q, hq, hqp⟩ := List.mem_map.1 hid
    exact hs.done q hq (hqp ▸ hmem)

/-- **What a call applies** won its vote, and is not pending any more. -/
theorem Safe.process (hs : l.Safe) (ht : l.Tracked) (height : Nat) :
    (l.step (.processProposals height)).Safe := by
  rcases ht.process_cases height with he | ⟨p, s, hp, -, hm, hexp, hmaj, he⟩
  · rw [he]
    exact ⟨hs.valid, hs.params, hs.history, hs.majority, hs.window,
      GovernanceEngine.processProposals_history _, hs.once,
      fun q hq => hs.done q (GovernanceEngine.mem_unexpired.1 hq).1⟩
  · rw [he]
    refine ⟨?_, ?_, ?_, ?_, ?_, GovernanceEngine.processProposals_history _, ?_, ?_⟩
    · exact hm.params ▸ hm.valid
    · simp [hm.params]
    · simp [hs.history]
    · simpa [or_imp, forall_and, hmaj, hm.majority hmaj] using hs.majority
    · intro a ha
      rcases List.mem_append.1 ha with ha | ha
      · exact hs.window a ha
      · obtain rfl := List.mem_singleton.1 ha
        exact hm.expires ▸ hexp
    · simp only [List.map_append, List.map_cons, List.map_nil]
      rw [← List.concat_eq_append]
      exact hs.once.concat (hs.done p hp)
    · intro q hq
      obtain ⟨hmem, hlt⟩ := GovernanceEngine.mem_unexpired.1 hq
      simp only [List.map_append, List.map_cons, List.map_nil, List.mem_append,
        List.mem_singleton, not_or]
      refine ⟨hs.done q hmem, fun hid => ?_⟩
      have hqp := List.inj_on_of_nodup_map ht.nodup hmem hp hid
      rw [hqp] at hlt
      omega

theorem Safe.step (hs : l.Safe) (ht : l.Tracked) (hfit : l.Fits c) : (l.step c).Safe := by
  cases c with
  | propose params height => exact hs.propose ht hfit
  | vote id approve votingPower => exact hs.vote
  | processProposals height => exact hs.process ht height

theorem proposals_step (l : GovernanceLog) (c : GovernanceCall) :
    l.proposals ≤ (l.step c).proposals := by
  cases c with
  | propose params height =>
    rcases l.engine.propose_cases params height with ⟨e, he⟩ | ⟨-, he⟩ <;> simp [step, he]
  | vote id approve votingPower =>
    rcases l.engine.vote_cases id approve votingPower with ⟨e, he⟩ | ⟨ps, -, he⟩ <;> simp [step, he]
  | processProposals height => exact Nat.le_refl _

theorem proposals_run (l : GovernanceLog) (calls : List GovernanceCall) :
    l.proposals ≤ (calls.foldl step l).proposals := by
  induction calls generalizing l with
  | nil => exact Nat.le_refl _
  | cons c cs ih => exact (proposals_step l c).trans (ih _)

theorem each_fits {calls : List GovernanceCall}
    (hh : ∀ params height, .propose params height ∈ calls →
      height < 2 ^ 64 - defaultVotingWindowBlocks)
    (hn : (calls.foldl step l).proposals < 2 ^ 64) : Runs.Each step Fits l calls := by
  induction calls generalizing l with
  | nil => trivial
  | cons c cs ih =>
    have hhead : l.Fits c := by
      refine ⟨fun params height hc => hh params height (hc ▸ List.mem_cons_self), ?_⟩
      exact Nat.lt_of_le_of_lt (proposals_run _ cs) hn
    exact ⟨hhead, ih (fun params height hc => hh params height (List.mem_cons_of_mem _ hc)) hn⟩

/-- **Governance**, in every run from a new engine, whatever the order of the heights. -/
theorem safe_run (calls : List GovernanceCall)
    (hh : ∀ params height, .propose params height ∈ calls →
      height < 2 ^ 64 - defaultVotingWindowBlocks)
    (hn : (calls.foldl step start).proposals < 2 ^ 64) : Runs.Always step Safe start calls := by
  have hstep : ∀ (l : GovernanceLog) c, l.Tracked ∧ l.Safe → l.Fits c →
      (l.step c).Tracked ∧ (l.step c).Safe := by
    intro l c h hc
    exact ⟨h.1.step hc, h.2.step h.1 hc⟩
  exact (Runs.always_of_each hstep ⟨.start, .start⟩ (each_fits hh hn)).imp fun _ h => h.2

end GovernanceLog

namespace Sample

/-- Larger blocks are proposed, voted for and applied. -/
def governanceRun : List GovernanceCall :=
  [.propose ⟨10000, 2097152, 10000, 1000⟩ 10, .vote 1 true 5, .vote 1 false 2,
    .processProposals 1728009, .processProposals 1728010]

end Sample

open Sample in
theorem safe_run_larger_blocks :
    Runs.Always GovernanceLog.step GovernanceLog.Safe GovernanceLog.start governanceRun ∧
      (governanceRun.foldl GovernanceLog.step GovernanceLog.start).engine.appliedHistory =
        [(1, 1728010)] := by
  refine ⟨GovernanceLog.safe_run governanceRun ?_ (by decide +kernel), by decide +kernel⟩
  intro params height h
  simp only [governanceRun, List.mem_cons, GovernanceCall.propose.injEq, reduceCtorEq,
    List.not_mem_nil, or_false] at h
  simp [h.2, defaultVotingWindowBlocks]

end Zentra

import ZentraChain.Finance.Amm
import ZentraChain.Lib.FinmapSum
import ZentraChain.Lib.Runs
import ZentraChain.Types

/-!
# The quarantine (`quarantine.rs`)

A node's quarantines are merged into one entry: the collateral adds up, the heights are those of the
last one.

* `Tracked.step`: the entry of a node has the collateral of its quarantines and the last one's height.
* `sound_run_iff`: no release is too early exactly if no quarantine ends before the one that it is
  merged with.
-/

namespace Zentra

/-- `QUARANTINE_LOCK_BLOCKS`. -/
def quarantineLockBlocks : Nat := 1262304000

inductive QuarantineReason
  | invalidSignature | maliciousRelease | protocolViolation
  deriving DecidableEq, Repr

structure QuarantineEntry where
  nodeId : Nat
  quarantinedAtHeight : Nat
  unlockHeight : Nat
  lockedCollateral : U128
  reason : QuarantineReason
  deriving DecidableEq, Repr

inductive QuarantineError
  /-- `node {} is not quarantined` -/
  | notQuarantined (nodeId : Nat)
  /-- `quarantine lock has not expired — {} blocks remaining (current: {}, unlock: {})` -/
  | notExpired (blocksRemaining current unlock : Nat)
  deriving DecidableEq, Repr

structure QuarantineManager where
  quarantinedNodes : Finmap fun _ : Nat => QuarantineEntry

/-- Where a quarantine imposed at some height ends. -/
def unlockOf (height : Nat) : Nat := satAdd height quarantineLockBlocks

namespace QuarantineManager

def new : QuarantineManager := ⟨∅⟩

/-- The entry of a node. -/
def entry (m : QuarantineManager) (nodeId : Nat) : Option QuarantineEntry :=
  m.quarantinedNodes.lookup nodeId

/-- `execute_quarantine`. -/
def executeQuarantine (m : QuarantineManager) (nodeId currentHeight : Nat) (collateral : U128)
    (reason : QuarantineReason) : QuarantineManager × QuarantineEntry :=
  let unlockHeight := unlockOf currentHeight
  let e : QuarantineEntry :=
    match m.entry nodeId with
    | some existing =>
      { existing with
        quarantinedAtHeight := currentHeight
        unlockHeight := unlockHeight
        lockedCollateral := existing.lockedCollateral.saturatingAdd collateral
        reason := reason }
    | none => ⟨nodeId, currentHeight, unlockHeight, collateral, reason⟩
  (⟨m.quarantinedNodes.insert nodeId e⟩, e)

/-- `process_unlock`. -/
def processUnlock (m : QuarantineManager) (nodeId currentHeight : Nat) :
    QuarantineManager × Except QuarantineError U128 :=
  match m.entry nodeId with
  | none => (m, .error (.notQuarantined nodeId))
  | some e =>
    if currentHeight < e.unlockHeight then
      (m, .error (.notExpired (e.unlockHeight - currentHeight) currentHeight e.unlockHeight))
    else (⟨m.quarantinedNodes.erase nodeId⟩, .ok e.lockedCollateral)

variable {m : QuarantineManager} {n k h : Nat} {c : U128} {r : QuarantineReason}

theorem entry_executeQuarantine : (m.executeQuarantine n h c r).1.entry k =
    if k = n then some (m.executeQuarantine n h c r).2 else m.entry k :=
  Finmap.lookup_insert_ite ..

theorem executeQuarantine_unlockHeight :
    (m.executeQuarantine n h c r).2.unlockHeight = unlockOf h := by
  unfold executeQuarantine
  cases m.entry n <;> rfl

theorem entry_erase : (⟨m.quarantinedNodes.erase n⟩ : QuarantineManager).entry k =
    if k = n then none else m.entry k := Finmap.lookup_erase_ite ..

theorem processUnlock_cases (m : QuarantineManager) (n h : Nat) :
    (∃ e, m.processUnlock n h = (m, .error e)) ∨
      ∃ e, m.entry n = some e ∧ e.unlockHeight ≤ h ∧
        m.processUnlock n h = (⟨m.quarantinedNodes.erase n⟩, .ok e.lockedCollateral) := by
  unfold processUnlock
  cases he : m.entry n with
  | none => exact .inl ⟨_, rfl⟩
  | some e =>
    by_cases hlt : h < e.unlockHeight
    · exact .inl ⟨_, if_pos hlt⟩
    · exact .inr ⟨e, rfl, Nat.not_lt.1 hlt, if_neg hlt⟩

/-- A node is released exactly when its entry's lock has ended. -/
theorem processUnlock_ok_iff {a : U128} : (m.processUnlock n h).2 = .ok a ↔
    ∃ e, m.entry n = some e ∧ e.unlockHeight ≤ h ∧ e.lockedCollateral = a := by
  unfold processUnlock
  cases he : m.entry n with
  | none => simp
  | some e =>
    by_cases hlt : h < e.unlockHeight
    · simp [hlt]
    · simp [hlt, Nat.not_lt.1 hlt]

end QuarantineManager

/-! ## Runs -/

inductive QuarantineCall
  | quarantine (nodeId height : Nat) (collateral : U128) (reason : QuarantineReason)
  | unlock (nodeId height : Nat)

/-- The node that a call is about. -/
def QuarantineCall.node : QuarantineCall → Nat
  | quarantine n _ _ _ => n
  | unlock n _ => n

/-- The quarantines in a run. -/
structure QuarantineLog where
  manager : QuarantineManager
  /-- For each node, height and collateral of the quarantines since its last release, last first. -/
  imposed : Nat → List (Nat × U128)

namespace QuarantineLog

def start : QuarantineLog := ⟨.new, fun _ => []⟩

def step (l : QuarantineLog) : QuarantineCall → QuarantineLog
  | .quarantine n h c r =>
    { manager := (l.manager.executeQuarantine n h c r).1
      imposed := Function.update l.imposed n ((h, c) :: l.imposed n) }
  | .unlock n h =>
    { manager := (l.manager.processUnlock n h).1
      imposed :=
        if (l.manager.processUnlock n h).2.isOk then Function.update l.imposed n [] else l.imposed }

/-- The collateral of some quarantines. -/
def collateralOf (qs : List (Nat × U128)) : Nat := (qs.map (·.2.val)).sum

/-- Whatever is called next: a release is not too early, and of all collateral; an error changes
nothing, and a call for another node changes nothing of this one. -/
structure Sound (l : QuarantineLog) : Prop where
  release : ∀ n h a, (l.manager.processUnlock n h).2 = .ok a → ∀ q ∈ l.imposed n, unlockOf q.1 ≤ h
  amount : ∀ n h a, (l.manager.processUnlock n h).2 = .ok a →
    a.val = min (collateralOf (l.imposed n)) u128Max
  error : ∀ n h e, (l.manager.processUnlock n h).2 = .error e →
    (l.manager.processUnlock n h).1 = l.manager
  other : ∀ (c : QuarantineCall) n, c.node ≠ n →
    (l.step c).manager.entry n = l.manager.entry n

/-- A quarantine does not end before the one that it is merged with. -/
def Extends (l : QuarantineLog) : QuarantineCall → Prop
  | .quarantine n h _ _ => ∀ e ∈ l.manager.entry n, e.unlockHeight ≤ unlockOf h
  | .unlock _ _ => True

/-- What an entry has of the quarantines that were merged into it. -/
def Merged (e : Option QuarantineEntry) : List (Nat × U128) → Prop
  | [] => e = none
  | q :: qs => ∃ x, e = some x ∧ x.unlockHeight = unlockOf q.1 ∧
      x.lockedCollateral.val = min (collateralOf (q :: qs)) u128Max

/-- The entries are those of the quarantines. -/
def Tracked (l : QuarantineLog) : Prop := ∀ n, Merged (l.manager.entry n) (l.imposed n)

/-- No entry ends before a quarantine that was merged into it. -/
def Latest (l : QuarantineLog) : Prop :=
  ∀ n, ∀ e ∈ l.manager.entry n, ∀ q ∈ l.imposed n, unlockOf q.1 ≤ e.unlockHeight

variable {l : QuarantineLog} {c : QuarantineCall} {n h : Nat}

theorem Tracked.start : start.Tracked := fun _ => rfl

/-- An entry ends with one of its quarantines, and locks the collateral of all. -/
theorem Merged.of_some {x : QuarantineEntry} {qs : List (Nat × U128)} (hm : Merged (some x) qs) :
    (∃ q ∈ qs, unlockOf q.1 = x.unlockHeight) ∧
      x.lockedCollateral.val = min (collateralOf qs) u128Max := by
  cases qs with
  | nil => cases hm
  | cons q qs =>
    obtain ⟨y, hy, hu, hsum⟩ := hm
    cases hy
    exact ⟨⟨q, List.mem_cons_self, hu.symm⟩, hsum⟩

theorem Merged.of_none {qs : List (Nat × U128)} (hm : Merged none qs) : qs = [] := by
  cases qs with
  | nil => rfl
  | cons q qs =>
    obtain ⟨x, hx, -⟩ := hm
    cases hx

/-- The entry of a node after a quarantine. -/
theorem merged_executeQuarantine {m : QuarantineManager} {qs : List (Nat × U128)} {a : U128}
    {r : QuarantineReason} (hm : Merged (m.entry n) qs) :
    Merged (some (m.executeQuarantine n h a r).2) ((h, a) :: qs) := by
  refine ⟨_, rfl, QuarantineManager.executeQuarantine_unlockHeight, ?_⟩
  unfold QuarantineManager.executeQuarantine
  cases qs with
  | nil =>
    rw [show m.entry n = none from hm]
    have hle := a.le_max
    simp [collateralOf, hle]
  | cons q qs =>
    obtain ⟨x, hx, -, hsum⟩ := hm
    rw [hx]
    simp only [U128.saturatingAdd, hsum, collateralOf, List.map_cons, List.sum_cons]
    omega

/-- **No call loses track of the collateral.** -/
theorem Tracked.step (ht : l.Tracked) (c : QuarantineCall) : (l.step c).Tracked := by
  intro k
  cases c with
  | quarantine n h a r =>
    simp only [QuarantineLog.step, QuarantineManager.entry_executeQuarantine]
    by_cases hk : k = n
    · subst hk
      rw [if_pos rfl, Function.update_self]
      exact merged_executeQuarantine (ht k)
    · rw [if_neg hk, Function.update_of_ne hk]
      exact ht k
  | unlock n h =>
    simp only [QuarantineLog.step]
    rcases l.manager.processUnlock_cases n h with ⟨e, he⟩ | ⟨e, -, -, he⟩
    · simpa [he, Except.isOk, Except.toBool] using ht k
    · simp only [he, Except.isOk, Except.toBool, if_true, QuarantineManager.entry_erase]
      by_cases hk : k = n
      · subst hk
        simp [Merged]
      · rw [if_neg hk, Function.update_of_ne hk]
        exact ht k

/-- Releases are in time exactly if no entry ends too early. -/
theorem sound_iff (ht : l.Tracked) : l.Sound ↔ l.Latest := by
  constructor
  · intro hs n e he q hq
    exact hs.release n e.unlockHeight e.lockedCollateral
      (QuarantineManager.processUnlock_ok_iff.2 ⟨e, he, Nat.le_refl _, rfl⟩) q hq
  · intro hl
    refine ⟨fun n h a ho q hq => ?_, fun n h a ho => ?_, fun n h e ho => ?_, fun c k hk => ?_⟩
    · obtain ⟨e, he, hle, -⟩ := QuarantineManager.processUnlock_ok_iff.1 ho
      exact (hl n e he q hq).trans hle
    · obtain ⟨e, he, -, rfl⟩ := QuarantineManager.processUnlock_ok_iff.1 ho
      have hm := ht n
      rw [he] at hm
      exact hm.of_some.2
    · rcases l.manager.processUnlock_cases n h with ⟨e', he⟩ | ⟨e', -, -, he⟩
      · rw [he]
      · rw [he] at ho
        cases ho
    · cases c with
      | quarantine n h a r =>
        exact QuarantineManager.entry_executeQuarantine.trans (if_neg (Ne.symm hk))
      | unlock n h =>
        simp only [step]
        rcases l.manager.processUnlock_cases n h with ⟨e, he⟩ | ⟨e, -, -, he⟩
        · rw [he]
        · rw [he]
          exact QuarantineManager.entry_erase.trans (if_neg (Ne.symm hk))

/-- **Which calls keep the entries late enough.** -/
theorem latest_step_iff (ht : l.Tracked) (hl : l.Latest) : (l.step c).Latest ↔ l.Extends c := by
  cases c with
  | unlock n h =>
    refine iff_of_true (fun k e he q hq => ?_) trivial
    simp only [step] at he hq
    rcases l.manager.processUnlock_cases n h with ⟨x, hx⟩ | ⟨x, -, -, hx⟩
    · simp only [hx, Except.isOk, Except.toBool, Bool.false_eq_true, if_false] at he hq
      exact hl k e he q hq
    · simp only [hx, Except.isOk, Except.toBool, if_true, QuarantineManager.entry_erase] at he hq
      by_cases hk : k = n
      · simp [hk] at he
      · rw [if_neg hk] at he
        rw [Function.update_of_ne hk] at hq
        exact hl k e he q hq
  | quarantine n h a r =>
    simp only [Latest, step, QuarantineManager.entry_executeQuarantine]
    constructor
    · intro hl' e he
      have hm := ht n
      rw [Option.mem_def.1 he] at hm
      obtain ⟨q, hq, hu⟩ := hm.of_some.1
      have := hl' n (l.manager.executeQuarantine n h a r).2 (by simp) q (by simp [hq])
      rwa [QuarantineManager.executeQuarantine_unlockHeight, hu] at this
    · intro hx k e he q hq
      by_cases hk : k = n
      · subst hk
        simp only [if_true, Option.mem_def, Option.some.injEq] at he
        subst he
        rw [QuarantineManager.executeQuarantine_unlockHeight]
        simp only [Function.update_self, List.mem_cons] at hq
        rcases hq with rfl | hq
        · exact Nat.le_refl _
        · have hm := ht k
          cases hent : l.manager.entry k with
          | none =>
            rw [hent] at hm
            simp [hm.of_none] at hq
          | some x => exact (hl k x hent q hq).trans (hx x hent)
      · rw [if_neg hk] at he
        rw [Function.update_of_ne hk] at hq
        exact hl k e he q hq

/-- **Quarantine.** In a run, releases are never too early, and nothing is lost, exactly if no
quarantine ends before the one that it is merged with. -/
theorem sound_run_iff (calls : List QuarantineCall) :
    Runs.Always step Sound start calls ↔ Runs.Each step Extends start calls :=
  Runs.always_iff_each (Q := Tracked) (D := fun _ => True) (fun _ c _ ht _ => ht.step c)
    (fun _ c _ ht hs => (sound_iff (ht.step c)).trans (latest_step_iff ht ((sound_iff ht).1 hs)))
    (fun _ _ => trivial) .start ((sound_iff .start).2 nofun)

end QuarantineLog

/-- A node's second quarantine is for an older offence, and shortens the lock of the first. -/
theorem older_offence_releases :
    ¬∀ calls, Runs.Always QuarantineLog.step QuarantineLog.Sound QuarantineLog.start calls := by
  intro h
  have hrun := (h [.quarantine 7 1000 ⟨50, by decide⟩ .invalidSignature,
    .quarantine 7 100 ⟨20, by decide⟩ .maliciousRelease]).last
  have hle := hrun.release 7 1262304100 ⟨70, by decide⟩ (by decide +kernel)
    (1000, ⟨50, by decide⟩) (by decide +kernel)
  revert hle
  decide +kernel

end Zentra

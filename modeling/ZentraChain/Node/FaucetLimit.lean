import ZentraChain.Lib.FinmapSum
import ZentraChain.Lib.Runs

/-!
# The public faucet's limiter (`main.rs`)

One claim for an IP every six hours, one every three seconds, and a number of claims a day.

* `FaucetLimiter.faucetAllow_cases`: a call is refused, or it is granted under the three limits.
* `FaucetGrants.limited_run`: whatever is pruned, all grants of a run keep to them.
-/

namespace Zentra

/-- `FAUCET_IP_COOLDOWN_MS`. -/
def faucetIpCooldownMs : Nat := 6 * 60 * 60 * 1000

/-- `FAUCET_GLOBAL_GAP_MS`. -/
def faucetGlobalGapMs : Nat := 3000

/-- `FAUCET_DAILY_CAP`. -/
def faucetDailyCap : Nat := 500

inductive FaucetRefusal
  /-- `faucet daily limit reached, try tomorrow` -/
  | dailyLimit
  /-- `faucet busy, try again in a few seconds` -/
  | busy
  /-- `this IP already claimed recently — one claim per 6 hours` -/
  | ipRecent
  deriving DecidableEq, Repr

structure FaucetLimiter where
  /-- The last grant of an IP. -/
  perIp : Finmap fun _ : String => Nat
  lastGlobalMs : Nat
  day : Nat
  todayCount : Nat

/-- The UTC day of a time in milliseconds. -/
def utcDay (now : Nat) : Nat := now / 86400000

theorem utcDay_mono {a b : Nat} (h : a ≤ b) : utcDay a ≤ utcDay b := Nat.div_le_div_right h

namespace FaucetLimiter

/-- `FAUCET_LIMITER`. -/
def new : FaucetLimiter := ⟨∅, 0, 0, 0⟩

/-- The counter starts again on a new day. -/
def rollover (l : FaucetLimiter) (day : Nat) : FaucetLimiter :=
  if day ≠ l.day then { l with day := day, todayCount := 0 } else l

/-- Stale entries go once there are many. -/
def prune (l : FaucetLimiter) (now : Nat) : FaucetLimiter :=
  if l.perIp.keys.card > 100000 then
    { l with perIp := l.perIp.retain fun _ t => now - t < faucetIpCooldownMs }
  else l

/-- `faucet_allow`. -/
def faucetAllow (l : FaucetLimiter) (ip : String) (now : Nat) :
    FaucetLimiter × Except FaucetRefusal Unit :=
  let l := l.rollover (utcDay now)
  if l.todayCount ≥ faucetDailyCap then (l, .error .dailyLimit)
  else if now - l.lastGlobalMs < faucetGlobalGapMs then (l, .error .busy)
  else if (l.perIp.lookup ip).any fun last => now - last < faucetIpCooldownMs then
    (l, .error .ipRecent)
  else
    let l := l.prune now
    ({ l with
        perIp := l.perIp.insert ip now
        lastGlobalMs := now
        todayCount := l.todayCount + 1 }, .ok ())

variable {l : FaucetLimiter} {ip k : String} {now t d : Nat}

@[simp] theorem rollover_perIp : (l.rollover d).perIp = l.perIp := by
  unfold rollover
  split_ifs <;> rfl

@[simp] theorem rollover_lastGlobalMs : (l.rollover d).lastGlobalMs = l.lastGlobalMs := by
  unfold rollover
  split_ifs <;> rfl

@[simp] theorem rollover_day : (l.rollover d).day = d := by
  unfold rollover
  split_ifs with h
  · rfl
  · exact (not_not.1 h).symm

@[simp] theorem prune_day : (l.prune now).day = l.day := by
  unfold prune
  split_ifs <;> rfl

@[simp] theorem prune_todayCount : (l.prune now).todayCount = l.todayCount := by
  unfold prune
  split_ifs <;> rfl

/-- Only what is stale is pruned. -/
theorem prune_perIp (now : Nat) (h : l.perIp.lookup k = some t) :
    (l.prune now).perIp.lookup k = some t ∨ t + faucetIpCooldownMs ≤ now := by
  by_cases hstale : now - t < faucetIpCooldownMs
  · refine .inl ?_
    unfold prune
    split_ifs
    · exact Finmap.lookup_retain_eq_some.2 ⟨h, by simpa using hstale⟩
    · exact h
  · have hpos : 0 < faucetIpCooldownMs := by decide
    exact .inr (by omega)

/-- **One call.** -/
theorem faucetAllow_cases (l : FaucetLimiter) (ip : String) (now : Nat) :
    (∃ e, l.faucetAllow ip now = (l.rollover (utcDay now), .error e)) ∨
      (l.rollover (utcDay now)).todayCount < faucetDailyCap ∧
        l.lastGlobalMs + faucetGlobalGapMs ≤ now ∧
        (∀ last, l.perIp.lookup ip = some last → last + faucetIpCooldownMs ≤ now) ∧
        l.faucetAllow ip now =
          (⟨((l.rollover (utcDay now)).prune now).perIp.insert ip now, now, utcDay now,
            (l.rollover (utcDay now)).todayCount + 1⟩, .ok ()) := by
  have hgap : 0 < faucetGlobalGapMs := by decide
  have hcooldown : 0 < faucetIpCooldownMs := by decide
  unfold faucetAllow
  dsimp only
  split_ifs with hcap hbusy hip
  · exact .inl ⟨_, rfl⟩
  · exact .inl ⟨_, rfl⟩
  · exact .inl ⟨_, rfl⟩
  · refine .inr ⟨by omega, ?_, ?_, by simp⟩
    · rw [rollover_lastGlobalMs] at hbusy
      omega
    · intro last hlast
      simp only [rollover_perIp, hlast, Option.any_some, decide_eq_true_eq] at hip
      omega

end FaucetLimiter

/-! ## Runs -/

structure FaucetCall where
  ip : String
  now : Nat

/-- The grants of a run, last first. -/
structure FaucetGrants where
  limiter : FaucetLimiter
  grants : List FaucetCall
  /-- The time of the last call. -/
  clock : Nat

namespace FaucetGrants

def start : FaucetGrants := ⟨.new, [], 0⟩

def step (g : FaucetGrants) (c : FaucetCall) : FaucetGrants where
  limiter := (g.limiter.faucetAllow c.ip c.now).1
  grants := if (g.limiter.faucetAllow c.ip c.now).2.isOk then c :: g.grants else g.grants
  clock := c.now

/-- The clock does not go back. -/
def InOrder (g : FaucetGrants) (c : FaucetCall) : Prop := g.clock ≤ c.now

/-- The grants on a day. -/
def onDay (grants : List FaucetCall) (day : Nat) : List FaucetCall :=
  grants.filter fun c => utcDay c.now = day

/-- All grants keep to the limits. -/
structure Limited (g : FaucetGrants) : Prop where
  gap : g.grants.Pairwise fun c earlier => earlier.now + faucetGlobalGapMs ≤ c.now
  cooldown : g.grants.Pairwise fun c earlier =>
    earlier.ip = c.ip → earlier.now + faucetIpCooldownMs ≤ c.now
  daily : ∀ day, (onDay g.grants day).length ≤ faucetDailyCap

/-- What the limiter still knows of the grants. -/
structure Tracked (g : FaucetGrants) : Prop where
  last : ∀ c ∈ g.grants, c.now ≤ g.limiter.lastGlobalMs
  clock : g.limiter.lastGlobalMs ≤ g.clock
  perIp : ∀ c ∈ g.grants, (∃ t, g.limiter.perIp.lookup c.ip = some t ∧ c.now ≤ t) ∨
    c.now + faucetIpCooldownMs ≤ g.clock
  day : g.limiter.day ≤ utcDay g.clock
  past : ∀ c ∈ g.grants, utcDay c.now ≤ g.limiter.day
  today : (onDay g.grants g.limiter.day).length = g.limiter.todayCount

variable {g : FaucetGrants} {c : FaucetCall}

theorem Tracked.start : start.Tracked :=
  ⟨nofun, Nat.le_refl _, nofun, Nat.zero_le _, nofun, rfl⟩

/-- The counter is that of the day of the call. -/
theorem Tracked.rollover (ht : g.Tracked) (hc : g.InOrder c) :
    (onDay g.grants (utcDay c.now)).length =
      (g.limiter.rollover (utcDay c.now)).todayCount := by
  have hle : g.limiter.day ≤ utcDay c.now := ht.day.trans (utcDay_mono hc)
  unfold FaucetLimiter.rollover
  split_ifs with hday
  · refine List.length_eq_zero_iff.2 (List.filter_eq_nil_iff.2 fun e he => ?_)
    have := ht.past e he
    simp only [decide_eq_true_eq]
    omega
  · rw [not_not.1 hday]
    exact ht.today

theorem Tracked.step (ht : g.Tracked) (hc : g.InOrder c) : (g.step c).Tracked := by
  have hlast : g.limiter.lastGlobalMs ≤ c.now := ht.clock.trans hc
  have hday : g.limiter.day ≤ utcDay c.now := ht.day.trans (utcDay_mono hc)
  have hcount := ht.rollover hc
  rcases g.limiter.faucetAllow_cases c.ip c.now with ⟨e, he⟩ | ⟨-, -, -, he⟩
  · simp only [FaucetGrants.step, he, Except.isOk, Except.toBool, Bool.false_eq_true, if_false]
    refine ⟨by simpa using ht.last, by simpa using hlast, fun e he => ?_, by simp,
      fun e he => by simpa using (ht.past e he).trans hday, by simpa using hcount⟩
    simpa using (ht.perIp e he).imp_right fun h => h.trans hc
  · simp only [FaucetGrants.step, he, Except.isOk, Except.toBool, if_true]
    refine ⟨?_, Nat.le_refl _, ?_, Nat.le_refl _, ?_, ?_⟩
    · intro e he
      rcases List.mem_cons.1 he with rfl | he
      · exact Nat.le_refl _
      · exact (ht.last e he).trans hlast
    · intro e he
      rcases List.mem_cons.1 he with rfl | he
      · exact .inl ⟨e.now, by simp, Nat.le_refl _⟩
      · by_cases hip : e.ip = c.ip
        · exact .inl ⟨c.now, (Finmap.lookup_insert_ite ..).trans (if_pos hip),
            (ht.last e he).trans hlast⟩
        · rw [Finmap.lookup_insert_of_ne _ hip]
          rcases ht.perIp e he with ⟨t, hlook, hle⟩ | hold
          · have hroll : (g.limiter.rollover (utcDay c.now)).perIp.lookup e.ip = some t := by
              simpa using hlook
            rcases FaucetLimiter.prune_perIp c.now hroll with hkept | hstale
            · exact .inl ⟨t, hkept, hle⟩
            · exact .inr ((Nat.add_le_add_right hle _).trans hstale)
          · exact .inr (hold.trans hc)
    · intro e he
      rcases List.mem_cons.1 he with rfl | he
      · exact Nat.le_refl _
      · exact (ht.past e he).trans hday
    · simp only [onDay] at hcount ⊢
      rw [List.filter_cons_of_pos (by simp), List.length_cons, hcount]

/-- **A grant is within the limits**, and those before stay so. -/
theorem Limited.step (hl : g.Limited) (ht : g.Tracked) (hc : g.InOrder c) :
    (g.step c).Limited := by
  rcases g.limiter.faucetAllow_cases c.ip c.now with ⟨e, he⟩ | ⟨hcap, hgap, hip, he⟩
  · have hsame : (g.step c).grants = g.grants := by
      simp [FaucetGrants.step, he, Except.isOk, Except.toBool]
    exact ⟨hsame ▸ hl.gap, hsame ▸ hl.cooldown, hsame ▸ hl.daily⟩
  · have hgrants : (g.step c).grants = c :: g.grants := by
      simp [FaucetGrants.step, he, Except.isOk, Except.toBool]
    refine ⟨?_, ?_, fun day => ?_⟩
    · rw [hgrants]
      refine List.pairwise_cons.2 ⟨fun e hmem => ?_, hl.gap⟩
      have := ht.last e hmem
      omega
    · rw [hgrants]
      refine List.pairwise_cons.2 ⟨fun e hmem hsame => ?_, hl.cooldown⟩
      rcases ht.perIp e hmem with ⟨t, hlook, hle⟩ | hold
      · have := hip t (hsame ▸ hlook)
        omega
      · exact hold.trans hc
    · rw [hgrants]
      by_cases hday : utcDay c.now = day
      · have hcount := ht.rollover hc
        simp only [onDay, ← hday] at hcount ⊢
        rw [List.filter_cons_of_pos (by simp), List.length_cons, hcount]
        omega
      · have hother : onDay (c :: g.grants) day = onDay g.grants day :=
          List.filter_cons_of_neg (by simpa using hday)
        rw [hother]
        exact hl.daily day

theorem each_inOrder {calls : List FaucetCall} (hc : ∀ c ∈ calls, g.clock ≤ c.now)
    (h : calls.Pairwise fun a b => a.now ≤ b.now) : Runs.Each step InOrder g calls := by
  induction calls generalizing g with
  | nil => trivial
  | cons c cs ih =>
    obtain ⟨hcs, hpair⟩ := List.pairwise_cons.1 h
    exact ⟨hc c List.mem_cons_self, ih hcs hpair⟩

/-- **The faucet's limits**, in every run of calls whose times do not go back. -/
theorem limited_run (calls : List FaucetCall) (h : calls.Pairwise fun a b => a.now ≤ b.now) :
    Runs.Always step Limited start calls := by
  have hstep : ∀ (g : FaucetGrants) c, g.Tracked ∧ g.Limited → g.InOrder c →
      (g.step c).Tracked ∧ (g.step c).Limited := by
    intro g c hg hc
    exact ⟨hg.1.step hc, hg.2.step hg.1 hc⟩
  have hstart : start.Limited := ⟨.nil, .nil, fun _ => Nat.zero_le _⟩
  exact (Runs.always_of_each hstep ⟨.start, hstart⟩
    (each_inOrder (fun _ _ => Nat.zero_le _) h)).imp fun _ h => h.2

end FaucetGrants

/-- A second client has to wait, and the first one's IP is refused for six hours. -/
theorem limited_run_two_clients :
    let calls : List FaucetCall :=
      [⟨"10.0.0.1", 86400000⟩, ⟨"10.0.0.2", 86401000⟩, ⟨"10.0.0.2", 86403000⟩,
        ⟨"10.0.0.1", 90000000⟩, ⟨"10.0.0.1", 108000000⟩]
    Runs.Always FaucetGrants.step FaucetGrants.Limited FaucetGrants.start calls ∧
      ((calls.foldl FaucetGrants.step FaucetGrants.start).grants.map (·.now)) =
        [108000000, 86403000, 86400000] :=
  ⟨FaucetGrants.limited_run _ (by simp), by decide +kernel⟩

end Zentra

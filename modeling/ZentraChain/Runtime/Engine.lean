import ZentraChain.Lib.Borsh
import ZentraChain.Lib.FinmapSum
import ZentraChain.Lib.Runs
import ZentraChain.Lib.Wrapping
import ZentraChain.Types

/-!
# Contract execution (`engine.rs`, `gas.rs`)

A contract is what it calls: the host functions, in some order, each with the memory that it exports
then. A call that panics ends the execution without a result.

* `HostLog.Tracked.step`: the meter has what was charged, and only logs are charged less than they
  cost.
* `HostLog.paid_run_iff`: all effects are paid for exactly if every log fits what is left of the gas.
-/

namespace Zentra

/-! ## Gas -/

def gasPerStorageRead : Nat := 100

def gasPerStorageWrite : Nat := 500

def gasPerLogByte : Nat := 2

inductive GasError
  /-- `Gas overflow: used={}, requested={}` -/
  | overflow (used requested : Nat)
  /-- `Out of gas: limit={}, used={}, requested={}` -/
  | outOfGas (limit used requested : Nat)
  deriving DecidableEq, Repr

structure GasMeter where
  gasLimit : Nat
  gasUsed : Nat
  used_le : gasUsed ≤ gasLimit
  limit_le : gasLimit ≤ u64Max

namespace GasMeter

def new (limit : UInt64) : GasMeter :=
  ⟨limit.toNat, 0, Nat.zero_le _, Nat.le_sub_one_of_lt limit.toNat_lt⟩

/-- `consume`: the meter that is left, if there was enough. -/
def consume (m : GasMeter) (amount : Nat) : Except GasError GasMeter :=
  if m.gasUsed + amount > u64Max then .error (.overflow m.gasUsed amount)
  else if h : m.gasUsed + amount > m.gasLimit then
    .error (.outOfGas m.gasLimit m.gasUsed amount)
  else .ok { m with gasUsed := m.gasUsed + amount, used_le := Nat.not_lt.1 h }

def consumeStorageRead (m : GasMeter) : Except GasError GasMeter := m.consume gasPerStorageRead

def consumeStorageWrite (m : GasMeter) : Except GasError GasMeter := m.consume gasPerStorageWrite

/-- What a log of some length costs. -/
def logCost (len : Nat) : Nat := satMul len gasPerLogByte

def consumeLog (m : GasMeter) (len : Nat) : Except GasError GasMeter := m.consume (logCost len)

/-- There is enough, or nothing is taken. -/
theorem consume_cases (m : GasMeter) (amount : Nat) :
    (m.gasUsed + amount ≤ m.gasLimit ∧ ∃ m', m.consume amount = .ok m' ∧
        m'.gasUsed = m.gasUsed + amount ∧ m'.gasLimit = m.gasLimit) ∨
      (m.gasLimit < m.gasUsed + amount ∧ ∃ e, m.consume amount = .error e) := by
  unfold consume
  have hlimit := m.limit_le
  by_cases h : m.gasUsed + amount ≤ m.gasLimit
  · rw [if_neg (by omega), dif_neg (by omega)]
    exact .inl ⟨h, _, rfl, rfl, rfl⟩
  · refine .inr ⟨by omega, ?_⟩
    by_cases hmax : m.gasUsed + amount > u64Max
    · exact ⟨_, if_pos hmax⟩
    · rw [if_neg hmax, dif_pos (by omega)]
      exact ⟨_, rfl⟩

end GasMeter

/-! ## Host functions -/

structure HostState where
  gasMeter : GasMeter
  logs : List String
  blockHeight : Nat
  /-- By the 32 bytes of an address. -/
  balances : Finmap fun _ : Nat => Nat
  returnData : List UInt8

/-- `ptr as usize`. -/
def asUsize (ptr : Int32) : Nat := (ptr.toInt % 2 ^ 64).toNat

/-- The message of a log: bytes of the memory, if it is exported and they are UTF-8. -/
def logMessage (memory : Option (List UInt8)) (ptr len : Nat) : Option String :=
  match memory with
  | none => none
  | some data =>
    if ptr + len < 2 ^ 64 ∧ ptr + len ≤ data.length then
      String.fromUTF8? ⟨((data.drop ptr).take len).toArray⟩
    else none

/-- `ptr + 32 <= data.len()`. -/
def addressFits (data : List UInt8) (ptr : Nat) : Bool := Wrapping.add (2 ^ 64) ptr 32 ≤ data.length

/-- `data[ptr..ptr + 32]`: there is none if the range panics. -/
def addressAt (data : List UInt8) (ptr : Nat) : Option Nat :=
  if ptr + 32 ≤ data.length then some (Borsh.ofBe ((data.drop ptr).take 32)) else none

namespace HostState

variable (s : HostState) (memory : Option (List UInt8))

def balance (addr : Nat) : Nat := (s.balances.lookup addr).getD 0

/-- `host_log`. -/
def hostLog (ptr len : Int32) : HostState :=
  match logMessage memory (asUsize ptr) (asUsize len) with
  | none => s
  | some msg =>
    { s with
      -- `let _ =`: a charge that fails is not noticed
      gasMeter :=
        match s.gasMeter.consumeLog (asUsize len) with
        | .ok m => m
        | .error _ => s.gasMeter
      logs := s.logs ++ [msg] }

/-- `host_get_block_height`. -/
def hostGetBlockHeight : Int64 := Int64.ofNat s.blockHeight

/-- The balance that `host_get_balance` finds, if the address is within the memory. -/
def readBalance (addrPtr : Int32) : Option (Option Nat) :=
  match memory with
  | none => some none
  | some data =>
    if addressFits data (asUsize addrPtr) then
      (addressAt data (asUsize addrPtr)).map fun addr => some (s.balance addr)
    else some none

/-- `host_get_balance`. -/
def hostGetBalance (addrPtr : Int32) : Option (HostState × Int64) :=
  match s.gasMeter.consumeStorageRead with
  | .error _ => some (s, -1)
  | .ok m =>
    (s.readBalance memory addrPtr).map fun b => ({ s with gasMeter := m }, Int64.ofNat (b.getD 0))

/-- The balances after `host_transfer`, if it succeeds. -/
def moveBalance (fromPtr toPtr : Int32) (amount : Int64) :
    Option (Option (Finmap fun _ : Nat => Nat)) :=
  if amount ≤ 0 then some none
  else
    let amount := amount.toInt.toNat
    match memory with
    | none => some none
    | some data =>
      if addressFits data (asUsize fromPtr) && addressFits data (asUsize toPtr) then
        match addressAt data (asUsize fromPtr), addressAt data (asUsize toPtr) with
        | some sender, some receiver =>
          let fromBal := s.balance sender
          if fromBal < amount then some none
          else
            let balances := s.balances.insert sender (fromBal - amount)
            let toBal := (balances.lookup receiver).getD 0
            some (some (balances.insert receiver (Wrapping.add (2 ^ 64) toBal amount)))
        | _, _ => none
      else some none

/-- `host_transfer`. -/
def hostTransfer (fromPtr toPtr : Int32) (amount : Int64) : Option (HostState × Int32) :=
  match s.gasMeter.consumeStorageWrite with
  | .error _ => some (s, -1)
  | .ok m =>
    (s.moveBalance memory fromPtr toPtr amount).map fun b =>
      match b with
      | none => ({ s with gasMeter := m }, -1)
      | some balances => ({ s with gasMeter := m, balances := balances }, 0)

end HostState

/-! ## Executions -/

inductive HostFunction
  | log (ptr len : Int32)
  | getBlockHeight
  | getBalance (addrPtr : Int32)
  | transfer (fromPtr toPtr : Int32) (amount : Int64)
  deriving DecidableEq

/-- A call of the contract, with the memory that it exports, if it does. -/
structure HostCall where
  function : HostFunction
  memory : Option (List UInt8)

/-- The state after a call that does not panic. -/
def HostState.call (s : HostState) (c : HostCall) : Option HostState :=
  match c.function with
  | .log ptr len => some (s.hostLog c.memory ptr len)
  | .getBlockHeight => some s
  | .getBalance addrPtr => (s.hostGetBalance c.memory addrPtr).map (·.1)
  | .transfer fromPtr toPtr amount => (s.hostTransfer c.memory fromPtr toPtr amount).map (·.1)

structure ExecutionResult where
  returnData : List UInt8
  gasUsed : Nat
  logs : List String

def HostState.new (gasLimit : UInt64) : HostState := ⟨.new gasLimit, [], 0, ∅, []⟩

/-- What `execute_contract` returns, for the fuel that is left. -/
def HostState.result (s : HostState) (gasLimit : UInt64) (fuelRemaining : Nat) : ExecutionResult :=
  let fuelUsed := gasLimit.toNat - fuelRemaining
  ⟨s.returnData, max fuelUsed s.gasMeter.gasUsed, s.logs⟩

/-- `execute_contract`, of a contract that makes some calls and leaves some fuel. -/
def executeContract (gasLimit : UInt64) (calls : List HostCall) (fuelRemaining : Nat) :
    Option ExecutionResult :=
  (calls.foldlM HostState.call (.new gasLimit)).map (·.result gasLimit fuelRemaining)

/-! ## Effects -/

/-- What a call did, and what it was charged. -/
inductive HostEffect
  | logged (message : String) (len charged : Nat)
  | balanceRead (charged : Nat)
  | balanceWritten (charged : Nat)

namespace HostEffect

def cost : HostEffect → Nat
  | logged _ len _ => GasMeter.logCost len
  | balanceRead _ => gasPerStorageRead
  | balanceWritten _ => gasPerStorageWrite

def charged : HostEffect → Nat
  | logged _ _ charged => charged
  | balanceRead charged => charged
  | balanceWritten charged => charged

def message : HostEffect → Option String
  | logged message _ _ => some message
  | _ => none

end HostEffect

/-- The effects of an execution. -/
structure HostLog where
  host : HostState
  effects : List HostEffect

namespace HostLog

def start (gasLimit : UInt64) : HostLog := ⟨.new gasLimit, []⟩

/-- The effect of a call that leaves a meter. -/
def effect (s : HostState) (c : HostCall) (m : GasMeter) : Option HostEffect :=
  let charged := m.gasUsed - s.gasMeter.gasUsed
  match c.function with
  | .log ptr len =>
    (logMessage c.memory (asUsize ptr) (asUsize len)).map fun msg =>
      .logged msg (asUsize len) charged
  | .getBlockHeight => none
  | .getBalance addrPtr =>
    match s.gasMeter.consumeStorageRead with
    | .error _ => none
    | .ok _ => (s.readBalance c.memory addrPtr).join.map fun _ => .balanceRead charged
  | .transfer fromPtr toPtr amount =>
    (s.hostTransfer c.memory fromPtr toPtr amount).bind fun r =>
      if r.2 = 0 then some (.balanceWritten charged) else none

def call (l : HostLog) (c : HostCall) : Option HostLog :=
  (l.host.call c).map fun s => ⟨s, l.effects ++ (effect l.host c s.gasMeter).toList⟩

/-- An execution, until it panics. -/
def step (l : Option HostLog) (c : HostCall) : Option HostLog := l.bind (·.call c)

/-- An execution that returns here has paid for its effects, and for each of its logs in full. -/
def PaidFor (gasLimit : UInt64) (l : Option HostLog) : Prop :=
  ∀ x ∈ l, (x.effects.map (·.cost)).sum ≤ gasLimit.toNat ∧
    (∀ fuelRemaining,
      (x.host.result gasLimit fuelRemaining).logs = x.effects.filterMap (·.message)) ∧
    ∀ e ∈ x.effects, e.message.isSome → e.charged = e.cost

/-- A log that is appended costs no more than is left of the gas. -/
def Fits (l : Option HostLog) (c : HostCall) : Prop :=
  ∀ x ∈ l, ∀ ptr len, c.function = .log ptr len →
    (logMessage c.memory (asUsize ptr) (asUsize len)).isSome →
      x.host.gasMeter.gasUsed + GasMeter.logCost (asUsize len) ≤ x.host.gasMeter.gasLimit

/-- What a call does to the meter and the logs, and when its effect is charged in full. -/
structure Charges (s s' : HostState) (effect : Option HostEffect) : Prop where
  limit : s'.gasMeter.gasLimit = s.gasMeter.gasLimit
  used : s.gasMeter.gasUsed + (effect.elim 0 (·.charged)) ≤ s'.gasMeter.gasUsed
  logs : s'.logs = s.logs ++ (effect.bind (·.message)).toList
  full : ∀ e ∈ effect, e.charged = e.cost ↔
    (e.message.isSome → s.gasMeter.gasUsed + e.cost ≤ s.gasMeter.gasLimit)

variable {s s' : HostState} {c : HostCall} {gasLimit : UInt64}

theorem Charges.log (s : HostState) (memory : Option (List UInt8)) (ptr len : Int32) :
    Charges s (s.hostLog memory ptr len)
      (effect s ⟨.log ptr len, memory⟩ (s.hostLog memory ptr len).gasMeter) := by
  simp only [effect, HostState.hostLog]
  cases logMessage memory (asUsize ptr) (asUsize len) with
  | none => exact ⟨rfl, Nat.le_refl _, by simp, by simp⟩
  | some msg =>
    have hle := s.gasMeter.used_le
    simp only [GasMeter.consumeLog, Option.map_some]
    rcases s.gasMeter.consume_cases (GasMeter.logCost (asUsize len)) with
      ⟨hfit, m, hm, hused, hlimit⟩ | ⟨hfit, e, he⟩
    · rw [hm]
      refine ⟨hlimit, by simp [HostEffect.charged]; omega, rfl, ?_⟩
      simp [HostEffect.charged, HostEffect.cost, HostEffect.message, hused, hfit]
    · rw [he]
      refine ⟨rfl, by simp [HostEffect.charged], rfl, ?_⟩
      simp [HostEffect.charged, HostEffect.cost, HostEffect.message]
      omega

theorem Charges.getBalance {memory : Option (List UInt8)} {addrPtr : Int32} {v : Int64}
    (h : s.hostGetBalance memory addrPtr = some (s', v)) :
    Charges s s' (effect s ⟨.getBalance addrPtr, memory⟩ s'.gasMeter) := by
  simp only [HostState.hostGetBalance, GasMeter.consumeStorageRead] at h
  simp only [effect, GasMeter.consumeStorageRead]
  rcases s.gasMeter.consume_cases gasPerStorageRead with ⟨-, m, hm, hused, hlimit⟩ | ⟨-, e, he⟩
  · rw [hm] at h ⊢
    obtain ⟨b, hb, hs⟩ := Option.map_eq_some_iff.1 h
    obtain ⟨rfl, rfl⟩ := Prod.mk.inj hs
    cases b with
    | none => exact ⟨hlimit, by simp [hb]; omega, by simp [hb], by simp [hb]⟩
    | some b =>
      refine ⟨hlimit, by simp [hb, HostEffect.charged]; omega, by simp [hb, HostEffect.message], ?_⟩
      simp [hb, HostEffect.charged, HostEffect.cost, HostEffect.message, hused]
  · rw [he] at h ⊢
    cases h
    exact ⟨rfl, Nat.le_refl _, by simp, by simp⟩

theorem Charges.transfer {memory : Option (List UInt8)} {fromPtr toPtr : Int32} {amount : Int64}
    {v : Int32} (h : s.hostTransfer memory fromPtr toPtr amount = some (s', v)) :
    Charges s s' (effect s ⟨.transfer fromPtr toPtr amount, memory⟩ s'.gasMeter) := by
  simp only [effect, h, Option.bind_some]
  unfold HostState.hostTransfer GasMeter.consumeStorageWrite at h
  rcases s.gasMeter.consume_cases gasPerStorageWrite with ⟨-, m, hm, hused, hlimit⟩ | ⟨-, e, he⟩
  · rw [hm] at h
    obtain ⟨b, -, hs⟩ := Option.map_eq_some_iff.1 h
    cases b with
    | none =>
      obtain ⟨rfl, rfl⟩ := Prod.mk.inj hs
      exact ⟨hlimit, by simp; omega, by simp, by simp⟩
    | some balances =>
      obtain ⟨rfl, rfl⟩ := Prod.mk.inj hs
      refine ⟨hlimit, by simp [HostEffect.charged]; omega, by simp [HostEffect.message], ?_⟩
      simp [HostEffect.charged, HostEffect.cost, HostEffect.message, hused]
  · rw [he] at h
    cases h
    exact ⟨rfl, Nat.le_refl _, by simp, by simp⟩

/-- **One call.** -/
theorem Charges.call (h : s.call c = some s') : Charges s s' (effect s c s'.gasMeter) := by
  obtain ⟨function, memory⟩ := c
  cases function with
  | log ptr len =>
    cases h
    exact .log s memory ptr len
  | getBlockHeight =>
    cases h
    exact ⟨rfl, Nat.le_refl _, by simp [effect], by simp [effect]⟩
  | getBalance addrPtr =>
    obtain ⟨r, hr, rfl⟩ := Option.map_eq_some_iff.1 h
    exact .getBalance hr
  | transfer fromPtr toPtr amount =>
    unfold HostState.call at h
    obtain ⟨r, hr, rfl⟩ := Option.map_eq_some_iff.1 h
    exact .transfer hr

/-! ## Runs -/

/-- The meter covers what was charged, and has charged all but logs in full. -/
structure Covered (gasLimit : UInt64) (x : HostLog) : Prop where
  limit : x.host.gasMeter.gasLimit = gasLimit.toNat
  used : (x.effects.map (·.charged)).sum ≤ x.host.gasMeter.gasUsed
  logs : x.host.logs = x.effects.filterMap (·.message)
  full : ∀ e ∈ x.effects, e.message = none → e.charged = e.cost

/-- The execution has not panicked, and is covered. -/
def Tracked (gasLimit : UInt64) (l : Option HostLog) : Prop := ∀ x ∈ l, x.Covered gasLimit

variable {x x' : HostLog} {l : Option HostLog}

theorem Tracked.start (gasLimit : UInt64) : Tracked gasLimit (some (start gasLimit)) := by
  intro x hx
  cases hx
  exact ⟨rfl, Nat.le_refl _, rfl, nofun⟩

theorem Covered.call (hx : x.Covered gasLimit) (h : x.call c = some x') :
    x'.Covered gasLimit := by
  obtain ⟨s, hs, rfl⟩ := Option.map_eq_some_iff.1 h
  have hc := Charges.call hs
  obtain ⟨hlimit, hused, hlogs, hfull⟩ := hx
  refine ⟨hc.limit.trans hlimit, ?_, ?_, ?_⟩
  · have hle := hc.used
    cases he : effect x.host c s.gasMeter with
    | none =>
      simp only [he, Option.elim_none] at hle
      simp only [Option.toList_none, List.append_nil]
      omega
    | some e =>
      simp only [he, Option.elim_some] at hle
      simp only [Option.toList_some, List.map_append, List.sum_append, List.map_cons, List.map_nil,
        List.sum_singleton]
      omega
  · rw [hc.logs, hlogs]
    cases effect x.host c s.gasMeter with
    | none => simp
    | some e => cases hm : e.message <;> simp [hm]
  · intro e he hm
    rcases List.mem_append.1 he with he | he
    · exact hfull e he hm
    · exact (hc.full e (Option.mem_toList.1 he)).2 (by simp [hm])

theorem Tracked.step (h : Tracked gasLimit l) (c : HostCall) :
    Tracked gasLimit (HostLog.step l c) := by
  intro x' hx'
  obtain ⟨x, hx, hc⟩ := Option.bind_eq_some_iff.1 hx'
  exact (h x hx).call hc

/-- Only logs have messages. -/
theorem effect_message {m : GasMeter} {e : HostEffect} (he : effect s c m = some e)
    (hm : e.message.isSome) : ∃ ptr len, c.function = .log ptr len ∧
      (logMessage c.memory (asUsize ptr) (asUsize len)).isSome ∧
        e.cost = GasMeter.logCost (asUsize len) := by
  obtain ⟨function, memory⟩ := c
  unfold effect at he
  cases function with
  | log ptr len =>
    obtain ⟨msg, hmsg, rfl⟩ := Option.map_eq_some_iff.1 he
    exact ⟨ptr, len, rfl, by simp [hmsg], rfl⟩
  | getBlockHeight => cases he
  | getBalance addrPtr =>
    dsimp only at he
    split at he
    · cases he
    · obtain ⟨b, -, rfl⟩ := Option.map_eq_some_iff.1 he
      cases hm
  | transfer fromPtr toPtr amount =>
    obtain ⟨r, -, hr⟩ := Option.bind_eq_some_iff.1 he
    split_ifs at hr
    cases hr
    cases hm

/-- All is paid for exactly if every log was charged in full. -/
theorem Covered.paidFor_iff (hx : x.Covered gasLimit) : PaidFor gasLimit (some x) ↔
    ∀ e ∈ x.effects, e.message.isSome → e.charged = e.cost := by
  constructor
  · intro h
    exact (h x rfl).2.2
  · intro h y hy
    cases hy
    have hcost : x.effects.map (·.cost) = x.effects.map (·.charged) := by
      refine List.map_congr_left fun e he => ?_
      cases hm : e.message with
      | none => exact (hx.full e he hm).symm
      | some msg => exact (h e he (by simp [hm])).symm
    refine ⟨?_, fun _ => hx.logs, h⟩
    calc (x.effects.map (·.cost)).sum = (x.effects.map (·.charged)).sum := congrArg _ hcost
      _ ≤ x.host.gasMeter.gasUsed := hx.used
      _ ≤ x.host.gasMeter.gasLimit := x.host.gasMeter.used_le
      _ = gasLimit.toNat := hx.limit

/-- **Which calls keep the effects paid for.** -/
theorem paid_step_iff (ht : Tracked gasLimit l) (hp : PaidFor gasLimit l) :
    PaidFor gasLimit (step l c) ↔ Fits l c := by
  cases l with
  | none => exact iff_of_true nofun nofun
  | some x =>
    have hx := ht x rfl
    have hpaid := hx.paidFor_iff.1 hp
    cases hcall : x.host.call c with
    | none =>
      have hstep : step (some x) c = none := by simp [step, call, hcall]
      rw [hstep]
      refine iff_of_true nofun ?_
      intro y hy ptr len hf
      obtain ⟨function, memory⟩ := c
      subst hf
      cases hcall
    | some s =>
      have hxcall : x.call c = some ⟨s, x.effects ++ (effect x.host c s.gasMeter).toList⟩ := by
        simp [call, hcall]
      have hstep : step (some x) c = x.call c := rfl
      rw [hstep, hxcall, (hx.call hxcall).paidFor_iff]
      have hfull := (Charges.call hcall).full
      obtain ⟨function, memory⟩ := c
      constructor
      · intro h y hy ptr len hf hsome
        cases hy
        subst hf
        obtain ⟨msg, hmsg⟩ := Option.isSome_iff_exists.1 hsome
        have he : effect x.host ⟨.log ptr len, memory⟩ s.gasMeter = some (.logged msg (asUsize len)
            (s.gasMeter.gasUsed - x.host.gasMeter.gasUsed)) := by simp [effect, hmsg]
        exact (hfull _ he).1 (h _ (by simp [he]) rfl) rfl
      · intro hfit e he
        rcases List.mem_append.1 he with he | he
        · exact hpaid e he
        · have he := Option.mem_toList.1 he
          refine fun hm => (hfull e he).2 fun _ => ?_
          obtain ⟨ptr, len, hf, hsome, hcost⟩ := effect_message he hm
          rw [hcost]
          exact hfit x rfl ptr len hf hsome

/-- **Metering.** In an execution, all effects are paid for, whenever it returns, exactly if every log
fits what is left of the gas. -/
theorem paid_run_iff (gasLimit : UInt64) (calls : List HostCall) :
    Runs.Always step (PaidFor gasLimit) (some (start gasLimit)) calls ↔
      Runs.Each step Fits (some (start gasLimit)) calls :=
  Runs.always_iff_each (Q := Tracked gasLimit) (D := fun _ => True) (fun _ c _ ht _ => ht.step c)
    (fun _ _ _ ht hp => paid_step_iff ht hp) (fun _ _ => trivial) (.start gasLimit)
    ((Tracked.start gasLimit _ rfl).paidFor_iff.2 nofun)

theorem foldl_step_none (calls : List HostCall) : calls.foldl step none = none := by
  induction calls with
  | nil => rfl
  | cons c cs ih => exact ih

theorem foldlM_call (calls : List HostCall) (x : HostLog) :
    calls.foldlM HostState.call x.host = (calls.foldl step (some x)).map (·.host) := by
  induction calls generalizing x with
  | nil => rfl
  | cons c cs ih =>
    simp only [List.foldlM_cons, List.foldl_cons, Option.bind_eq_bind]
    cases hc : x.host.call c with
    | none => simp [step, call, hc, foldl_step_none]
    | some s => simpa [step, call, hc] using ih ⟨s, _⟩

/-- The execution is that of `execute_contract`. -/
theorem executeContract_eq (gasLimit : UInt64) (calls : List HostCall) (fuelRemaining : Nat) :
    executeContract gasLimit calls fuelRemaining = (calls.foldl step (some (start gasLimit))).map
      fun x => x.host.result gasLimit fuelRemaining := by
  rw [executeContract, show HostState.new gasLimit = (start gasLimit).host from rfl, foldlM_call,
    Option.map_map]
  rfl

end HostLog

/-- A contract with a page of memory logs 100 bytes of it, for 200 gas, and has 150. -/
theorem log_unpaid : ¬∀ gasLimit calls,
    Runs.Always HostLog.step (HostLog.PaidFor gasLimit) (some (HostLog.start gasLimit)) calls := by
  intro h
  have hrun := h 150 [⟨.log 0 100, some (List.replicate 65536 65)⟩]
  have hlast : HostLog.PaidFor 150 (HostLog.step (some (HostLog.start 150))
      ⟨.log 0 100, some (List.replicate 65536 65)⟩) := hrun.last
  have hfit := (HostLog.paid_step_iff (.start 150) hrun.head).1 hlast
  have hmsg : logMessage (some (List.replicate 65536 65)) (asUsize 0) (asUsize 100) =
      String.fromUTF8? ⟨(List.replicate 100 65).toArray⟩ := by
    rw [show asUsize 0 = 0 from rfl, show asUsize 100 = 100 from rfl]
    have hmin : min 100 65536 = 100 := by omega
    simp only [logMessage, List.length_replicate, List.drop_zero, List.take_replicate, hmin]
    rw [if_pos (by omega)]
  have hsome : (String.fromUTF8? ⟨(List.replicate 100 65).toArray⟩).isSome := by decide +kernel
  have hle := hfit _ rfl 0 100 rfl (hmsg ▸ hsome)
  revert hle
  decide +kernel

end Zentra

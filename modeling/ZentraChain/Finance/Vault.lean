import ZentraChain.Finance.Pol
import ZentraChain.Finance.Tss
import ZentraChain.Lib.Runs

/-!
# The vault (`vault.rs`)

Deposits on other chains are submitted as requests, validated by partial signatures and minted as
zUSD. A request keeps its place in the queue and goes from one status to the next.

* `submitIngest_ok`, `validateIngest_ok`, `mintZusd_ok`, `burnZusd_cases`: what a call can do.
* `VaultLog`: a run of calls, with what its validations and mints were about.
* `Minted.step`: no request is minted twice.
-/

namespace Zentra

inductive IngestStatus
  | pending | validated | minted | rejected
  deriving DecidableEq, Repr

structure IngestRequest where
  externalChain : String
  externalTxHash : List UInt8
  depositorAddress : Address
  stablecoinAmount : U128
  status : IngestStatus
  /-- The payload of an address has 32 bytes. -/
  depositor_lt : depositorAddress.payload < 2 ^ 256
  deriving DecidableEq, Repr

structure MintResult where
  zusdMinted : U128
  feeDeducted : U128
  lpBurned : U128
  deriving DecidableEq, Repr

inductive VaultError
  /-- `ingest amount must be non-zero` -/
  | zeroAmount
  /-- `duplicate external transaction hash` -/
  | duplicateTxHash
  /-- `ingest request index {} out of range` -/
  | outOfRange (requestIndex : Nat)
  /-- `ingest request is not pending (status: {:?})` -/
  | notPending (status : IngestStatus)
  /-- `need {} validator signatures, got {}` -/
  | tooFewSignatures (need got : Nat)
  /-- `validator {} submitted an invalid partial signature` -/
  | invalidPartial (badIdx : Nat)
  /-- `ingest request must be validated before minting (status: {:?})` -/
  | notValidated (status : IngestStatus)
  /-- `burn amount must be non-zero` -/
  | zeroBurn
  /-- `burn amount {} exceeds circulating zUSD supply {}` -/
  | burnExceeds (amount circulating : U128)
  deriving DecidableEq, Repr

/-- How a mint stops: with an error, or with a panic in the pool. -/
inductive VaultStop
  | error (e : VaultError)
  | panic
  deriving DecidableEq, Repr

structure OmniVault where
  tss : TssManager
  pol : ProtocolOwnedLiquidity
  pendingIngests : List IngestRequest
  totalZusdMinted : U128
  totalZusdBurned : U128
  deriving DecidableEq, Repr

/-- `build_ingest_message`. -/
def buildIngestMessage (r : IngestRequest) : List UInt8 :=
  r.externalChain.toUTF8.data.toList ++ r.externalTxHash ++
    Borsh.bytes32 r.depositorAddress.payload ++ Borsh.le 16 r.stablecoinAmount.val

namespace OmniVault

/-- A vault without keys. -/
def new (threshold totalValidators : Nat) : OmniVault :=
  ⟨.new threshold totalValidators, .new, [], .zero, .zero⟩

/-- A request at the end of the queue. -/
def push (v : OmniVault) (r : IngestRequest) : OmniVault :=
  { v with pendingIngests := v.pendingIngests ++ [r] }

/-- A request with another status. -/
def setStatus (v : OmniVault) (i : Nat) (s : IngestStatus) : OmniVault :=
  { v with pendingIngests := v.pendingIngests.modify i fun r => { r with status := s } }

/-- `submit_ingest`. -/
def submitIngest (v : OmniVault) (r : IngestRequest) : OmniVault × Except VaultError Unit :=
  if r.stablecoinAmount.val = 0 then (v, .error .zeroAmount)
  else if v.pendingIngests.any fun q => q.externalTxHash = r.externalTxHash then
    (v, .error .duplicateTxHash)
  else (v.push r, .ok ())

/-- `validate_ingest`; the number of signatures is cut to 16 bits. -/
def validateIngest (E : TssEnv) (v : OmniVault) (requestIndex : Nat)
    (validatorSigs : List (Nat × List UInt8)) : OmniVault × Except VaultError Unit :=
  match v.pendingIngests[requestIndex]? with
  | none => (v, .error (.outOfRange requestIndex))
  | some r =>
    if r.status ≠ .pending then (v, .error (.notPending r.status))
    else if validatorSigs.length % 2 ^ 16 < v.tss.threshold then
      (v, .error (.tooFewSignatures v.tss.threshold validatorSigs.length))
    else
      match v.tss.identifyAbort E (buildIngestMessage r) validatorSigs with
      | some badIdx => (v, .error (.invalidPartial badIdx))
      | none => (v.setStatus requestIndex .validated, .ok ())

/-- `mint_zusd`. -/
def mintZusd (v : OmniVault) (requestIndex : Nat) : OmniVault × Except VaultStop MintResult :=
  match v.pendingIngests[requestIndex]? with
  | none => (v, .error (.error (.outOfRange requestIndex)))
  | some r =>
    if r.status ≠ .validated then (v, .error (.error (.notValidated r.status)))
    else
      match v.pol.processCrossChainIngest r.stablecoinAmount with
      | (pol, .error _) => ({ v with pol := pol }, .error .panic)
      | (pol, .ok res) =>
        ({ v with
            pol := pol
            totalZusdMinted := v.totalZusdMinted.saturatingAdd res.netAmount }.setStatus
          requestIndex .minted, .ok ⟨res.netAmount, res.feeDeducted, res.lpTokensBurned⟩)

/-- `burn_zusd`. -/
def burnZusd (v : OmniVault) (amount : U128) : OmniVault × Except VaultError Unit :=
  if amount.val = 0 then (v, .error .zeroBurn)
  else
    let circulating := v.totalZusdMinted.saturatingSub v.totalZusdBurned
    if amount.val > circulating.val then (v, .error (.burnExceeds amount circulating))
    else ({ v with totalZusdBurned := v.totalZusdBurned.saturatingAdd amount }, .ok ())

/-! ## What a call can do -/

variable {E : TssEnv} {v : OmniVault} {r : IngestRequest} {i j : Nat} {s : IngestStatus}
  {sigs : List (Nat × List UInt8)}

/-- The request is new and not empty. -/
def Accepts (v : OmniVault) (r : IngestRequest) : Prop :=
  r.stablecoinAmount.val ≠ 0 ∧ ∀ q ∈ v.pendingIngests, q.externalTxHash ≠ r.externalTxHash

instance : Decidable (v.Accepts r) := inferInstanceAs (Decidable (_ ∧ _))

/-- Request `i` is pending, and these are enough valid partial signatures of its message. -/
def Passes (E : TssEnv) (v : OmniVault) (i : Nat) (sigs : List (Nat × List UInt8)) : Prop :=
  ∃ r ∈ v.pendingIngests[i]?, r.status = .pending ∧ v.tss.threshold ≤ sigs.length % 2 ^ 16 ∧
    ∀ x ∈ sigs, v.tss.validPartial E (buildIngestMessage r) x.1 x.2 = true

/-- Request `i` can be minted. -/
def Mintable (v : OmniVault) (i : Nat) : Prop :=
  ∃ r ∈ v.pendingIngests[i]?, r.status = .validated

theorem submitIngest_ok (h : v.Accepts r) : v.submitIngest r = (v.push r, .ok ()) := by
  unfold submitIngest
  rw [if_neg h.1, if_neg]
  rw [List.any_eq_true]
  rintro ⟨q, hq, he⟩
  exact h.2 q hq (of_decide_eq_true he)

theorem submitIngest_error (h : ¬v.Accepts r) : ∃ e, v.submitIngest r = (v, .error e) := by
  unfold submitIngest
  split_ifs with h0 hdup
  · exact ⟨_, rfl⟩
  · exact ⟨_, rfl⟩
  · refine absurd ⟨h0, fun q hq he => hdup ?_⟩ h
    exact List.any_eq_true.2 ⟨q, hq, decide_eq_true he⟩

theorem validateIngest_ok (h : v.Passes E i sigs) :
    v.validateIngest E i sigs = (v.setStatus i .validated, .ok ()) := by
  obtain ⟨r, hr, hp, hlen, hvalid⟩ := h
  unfold validateIngest
  simp only [Option.mem_def.1 hr]
  rw [if_neg (not_not.2 hp), if_neg (Nat.not_lt.2 hlen), TssManager.identifyAbort_eq_none.2 hvalid]

theorem validateIngest_error (h : ¬v.Passes E i sigs) :
    ∃ e, v.validateIngest E i sigs = (v, .error e) := by
  unfold validateIngest
  split
  · exact ⟨_, rfl⟩
  · rename_i r hr
    split_ifs with hp hlen
    · exact ⟨_, rfl⟩
    · exact ⟨_, rfl⟩
    · split
      · exact ⟨_, rfl⟩
      · rename_i hvalid
        exact absurd ⟨r, hr, not_not.1 hp, Nat.not_lt.1 hlen,
          TssManager.identifyAbort_eq_none.1 hvalid⟩ h

/-- A validated request is minted: its amount is split into the fee and what is minted. -/
theorem mintZusd_ok (hr : v.pendingIngests[i]? = some r) (hs : r.status = .validated) :
    ∃ pol res net, v.mintZusd i =
        ({ v with
            pol := pol
            totalZusdMinted := v.totalZusdMinted.saturatingAdd net }.setStatus i .minted,
          .ok res) ∧
      res.zusdMinted = net ∧ res.feeDeducted = ingestFee r.stablecoinAmount ∧
      net.val + (ingestFee r.stablecoinAmount).val = r.stablecoinAmount.val ∧
      pol.totalIngestFeesCollected =
        v.pol.totalIngestFeesCollected.saturatingAdd (ingestFee r.stablecoinAmount) ∧
      pol.pool.reserveZusd = v.pol.pool.reserveZusd.saturatingAdd (ingestFee r.stablecoinAmount) := by
  obtain ⟨pol, res, hpol, hfee, hnet, hfees, hres⟩ :=
    v.pol.processCrossChainIngest_spec r.stablecoinAmount
  refine ⟨pol, ⟨res.netAmount, res.feeDeducted, res.lpTokensBurned⟩, res.netAmount, ?_, rfl, hfee,
    ?_, hfees, hres⟩
  · unfold mintZusd
    simp only [hr]
    rw [if_neg (not_not.2 hs), hpol]
  · rw [hnet]
    exact Nat.sub_add_cancel (ingestFee_le _)

theorem mintZusd_error (h : ¬v.Mintable i) : ∃ e, v.mintZusd i = (v, .error (.error e)) := by
  unfold mintZusd
  split
  · exact ⟨_, rfl⟩
  · rename_i r hr
    rw [if_pos fun hs => h ⟨r, hr, hs⟩]
    exact ⟨_, rfl⟩

theorem burnZusd_cases (v : OmniVault) (amount : U128) :
    (v.burnZusd amount).1 = v ∨
      v.totalZusdBurned.val + amount.val ≤ v.totalZusdMinted.val ∧
        (v.burnZusd amount).1 =
          { v with totalZusdBurned := v.totalZusdBurned.saturatingAdd amount } := by
  unfold burnZusd
  simp only
  split_ifs with h0 hle
  · exact .inl rfl
  · exact .inl rfl
  · refine .inr ⟨?_, rfl⟩
    have hsub : amount.val ≤ v.totalZusdMinted.val - v.totalZusdBurned.val := Nat.not_lt.1 hle
    omega

/-! ## The queue -/

@[simp] theorem push_pendingIngests : (v.push r).pendingIngests = v.pendingIngests ++ [r] := rfl

/-- An element of a list, and the list with it changed. -/
theorem modify_split {α : Type*} {l : List α} {i : Nat} {a : α} (f : α → α)
    (h : l[i]? = some a) :
    ∃ l₁ l₂, l = l₁ ++ a :: l₂ ∧ l.modify i f = l₁ ++ f a :: l₂ := by
  induction l generalizing i with
  | nil => cases h
  | cons b l ih =>
    cases i with
    | zero =>
      cases h
      exact ⟨[], l, rfl, rfl⟩
    | succ i =>
      obtain ⟨l₁, l₂, hl, hm⟩ := ih h
      exact ⟨b :: l₁, l₂, congrArg (b :: ·) hl, congrArg (b :: ·) hm⟩

theorem getElem?_setStatus : (v.setStatus i s).pendingIngests[j]? =
    (v.pendingIngests[j]?).map fun r => if i = j then { r with status := s } else r := by
  rw [setStatus, List.getElem?_modify]
  rfl

theorem getElem?_setStatus_self (hr : v.pendingIngests[i]? = some r) :
    (v.setStatus i s).pendingIngests[i]? = some { r with status := s } := by
  rw [getElem?_setStatus, hr, Option.map_some, if_pos rfl]

theorem getElem?_setStatus_ne (h : i ≠ j) :
    (v.setStatus i s).pendingIngests[j]? = v.pendingIngests[j]? := by
  rw [getElem?_setStatus]
  simp only [if_neg h, Option.map_id']

end OmniVault

/-! ## Runs -/

inductive VaultCall
  | submit (r : IngestRequest)
  | validate (requestIndex : Nat) (validatorSigs : List (Nat × List UInt8))
  | mint (requestIndex : Nat)
  | burn (amount : U128)
  deriving DecidableEq

/-- The vault after a call, whatever it returns. -/
def VaultCall.apply (E : TssEnv) (v : OmniVault) : VaultCall → OmniVault
  | submit r => (v.submitIngest r).1
  | validate i sigs => (v.validateIngest E i sigs).1
  | mint i => (v.mintZusd i).1
  | burn a => (v.burnZusd a).1

/-- A vault in a run, and what its calls so far were about. -/
structure VaultLog where
  vault : OmniVault
  /-- The requests that were minted, last first. -/
  mints : List Nat
  /-- The requests that were validated, with the signatures, last first. -/
  validations : List (Nat × List (Nat × List UInt8))
  /-- For each request, the validators whose valid partial signatures were supplied. -/
  suppliers : Nat → Finset Nat

namespace VaultLog

def start (v : OmniVault) : VaultLog := ⟨v, [], [], fun _ => ∅⟩

/-- The participants with a valid partial signature of a request in a list. -/
def signersOf (E : TssEnv) (v : OmniVault) (i : Nat) (sigs : List (Nat × List UInt8)) :
    Finset Nat :=
  match v.pendingIngests[i]? with
  | none => ∅
  | some r =>
    ((sigs.filter fun x => v.tss.validPartial E (buildIngestMessage r) x.1 x.2).map
      (·.1)).toFinset

def step (E : TssEnv) (l : VaultLog) : VaultCall → VaultLog
  | .submit r => { l with vault := (l.vault.submitIngest r).1 }
  | .validate i sigs =>
    { l with
      vault := (l.vault.validateIngest E i sigs).1
      validations :=
        if (l.vault.validateIngest E i sigs).2.isOk then (i, sigs) :: l.validations
        else l.validations
      suppliers :=
        Function.update l.suppliers i (l.suppliers i ∪ signersOf E l.vault i sigs) }
  | .mint i =>
    { l with
      vault := (l.vault.mintZusd i).1
      mints := if (l.vault.mintZusd i).2.isOk then i :: l.mints else l.mints }
  | .burn a => { l with vault := (l.vault.burnZusd a).1 }

/-- The log is about the vault's own run. -/
theorem vault_step (E : TssEnv) (l : VaultLog) (c : VaultCall) :
    (l.step E c).vault = c.apply E l.vault := by
  cases c <;> rfl

variable {E : TssEnv} {l : VaultLog} {r : IngestRequest} {i : Nat}
  {sigs : List (Nat × List UInt8)}

theorem step_submit_ok (h : l.vault.Accepts r) :
    l.step E (.submit r) = { l with vault := l.vault.push r } := by
  simp only [step, OmniVault.submitIngest_ok h]

theorem step_submit_error (h : ¬l.vault.Accepts r) : l.step E (.submit r) = l := by
  obtain ⟨e, he⟩ := OmniVault.submitIngest_error h
  simp only [step, he]

/-- The suppliers after a call of `validate_ingest`. -/
def supply (E : TssEnv) (l : VaultLog) (i : Nat) (sigs : List (Nat × List UInt8)) :
    Nat → Finset Nat :=
  Function.update l.suppliers i (l.suppliers i ∪ signersOf E l.vault i sigs)

theorem step_validate_ok (h : l.vault.Passes E i sigs) :
    l.step E (.validate i sigs) =
      { l with
        vault := l.vault.setStatus i .validated
        validations := (i, sigs) :: l.validations
        suppliers := l.supply E i sigs } := by
  simp only [step, OmniVault.validateIngest_ok h]
  rfl

theorem step_validate_error (h : ¬l.vault.Passes E i sigs) :
    l.step E (.validate i sigs) = { l with suppliers := l.supply E i sigs } := by
  obtain ⟨e, he⟩ := OmniVault.validateIngest_error h
  simp only [step, he]
  rfl

theorem step_mint_ok (hr : l.vault.pendingIngests[i]? = some r) (hs : r.status = .validated) :
    ∃ pol net, l.step E (.mint i) =
        { l with
          vault :=
            { l.vault with
              pol := pol
              totalZusdMinted := l.vault.totalZusdMinted.saturatingAdd net }.setStatus i .minted
          mints := i :: l.mints } ∧
      net.val + (ingestFee r.stablecoinAmount).val = r.stablecoinAmount.val ∧
      pol.totalIngestFeesCollected =
        l.vault.pol.totalIngestFeesCollected.saturatingAdd (ingestFee r.stablecoinAmount) := by
  obtain ⟨pol, res, net, hmint, -, -, hnet, hfees, -⟩ := OmniVault.mintZusd_ok hr hs
  refine ⟨pol, net, ?_, hnet, hfees⟩
  simp only [step, hmint]
  rfl

theorem step_mint_error (h : ¬l.vault.Mintable i) : l.step E (.mint i) = l := by
  obtain ⟨e, he⟩ := OmniVault.mintZusd_error h
  simp only [step, he]
  rfl

theorem step_burn_pendingIngests (a : U128) :
    (l.step E (.burn a)).vault.pendingIngests = l.vault.pendingIngests := by
  rcases l.vault.burnZusd_cases a with h | ⟨-, h⟩
  · simp only [step, h]
  · simp only [step, h]

/-- What a call can do to the queue. -/
inductive QueueStep (E : TssEnv) (v : OmniVault) : VaultCall → List IngestRequest → Prop
  | same (c : VaultCall) : QueueStep E v c v.pendingIngests
  | submitted {r : IngestRequest} : v.Accepts r →
      QueueStep E v (.submit r) (v.pendingIngests ++ [r])
  | validated {r : IngestRequest} {i : Nat} {sigs : List (Nat × List UInt8)} :
      v.pendingIngests[i]? = some r → r.status = .pending →
      QueueStep E v (.validate i sigs) (v.setStatus i .validated).pendingIngests
  | minted {r : IngestRequest} {i : Nat} :
      v.pendingIngests[i]? = some r → r.status = .validated →
      QueueStep E v (.mint i) (v.setStatus i .minted).pendingIngests

theorem queueStep (E : TssEnv) (l : VaultLog) (c : VaultCall) :
    QueueStep E l.vault c (l.step E c).vault.pendingIngests := by
  cases c with
  | submit r =>
    by_cases h : l.vault.Accepts r
    · rw [step_submit_ok h]
      exact .submitted h
    · rw [step_submit_error h]
      exact .same _
  | validate i sigs =>
    by_cases h : l.vault.Passes E i sigs
    · rw [step_validate_ok h]
      obtain ⟨r, hr, hp, -⟩ := h
      exact .validated hr hp
    · rw [step_validate_error h]
      exact .same _
  | mint i =>
    by_cases h : l.vault.Mintable i
    · obtain ⟨r, hr, hv⟩ := h
      obtain ⟨pol, net, hstep, -⟩ := step_mint_ok (E := E) hr hv
      rw [hstep]
      exact .minted hr hv
    · rw [step_mint_error h]
      exact .same _
  | burn a =>
    rw [step_burn_pendingIngests]
    exact .same _

/-- A request keeps its place, stays minted once it is, and is not pending again. -/
theorem step_request (c : VaultCall) (hr : l.vault.pendingIngests[i]? = some r) :
    ∃ s, (l.step E c).vault.pendingIngests[i]? = some { r with status := s } ∧
      (r.status = .minted → s = .minted) ∧ (r.status ≠ .pending → s ≠ .pending) := by
  have hset : ∀ {j : Nat} {q : IngestRequest} (s : IngestStatus),
      l.vault.pendingIngests[j]? = some q → q.status ≠ .minted → s ≠ .pending →
      ∃ s', (l.vault.setStatus j s).pendingIngests[i]? = some { r with status := s' } ∧
        (r.status = .minted → s' = .minted) ∧ (r.status ≠ .pending → s' ≠ .pending) := by
    intro j q s hq hqs hs
    by_cases hij : j = i
    · subst hij
      rw [hr] at hq
      cases hq
      exact ⟨s, OmniVault.getElem?_setStatus_self hr, fun h => absurd h hqs, fun _ => hs⟩
    · exact ⟨r.status, (OmniVault.getElem?_setStatus_ne hij).trans hr, id, id⟩
  have hq := queueStep E l c
  generalize (l.step E c).vault.pendingIngests = queue at hq
  cases hq with
  | same => exact ⟨r.status, hr, id, id⟩
  | submitted h =>
    obtain ⟨hlt, -⟩ := List.getElem?_eq_some_iff.1 hr
    exact ⟨r.status, (List.getElem?_append_left hlt).trans hr, id, id⟩
  | validated hj hp => exact hset _ hj (by rw [hp]; decide) (by decide)
  | minted hj hv => exact hset _ hj (by rw [hv]; decide) (by decide)

/-! ## Mints -/

/-- The minted requests have that status, and none of them was minted twice. -/
structure Minted (l : VaultLog) : Prop where
  status : ∀ i ∈ l.mints, ∃ r ∈ l.vault.pendingIngests[i]?, r.status = .minted
  once : l.mints.Nodup

theorem Minted.start (v : OmniVault) : (start v).Minted :=
  ⟨fun _ hi => absurd hi List.not_mem_nil, List.nodup_nil⟩

theorem step_mints (c : VaultCall) : (l.step E c).mints = l.mints ∨
    ∃ i r, c = .mint i ∧ l.vault.pendingIngests[i]? = some r ∧ r.status = .validated ∧
      (l.step E c).vault.pendingIngests[i]? = some { r with status := .minted } ∧
      (l.step E c).mints = i :: l.mints := by
  cases c with
  | submit r => exact .inl rfl
  | validate i sigs => exact .inl rfl
  | burn a => exact .inl rfl
  | mint i =>
    by_cases h : l.vault.Mintable i
    · obtain ⟨r, hr, hv⟩ := h
      obtain ⟨pol, net, hstep, -⟩ := step_mint_ok (E := E) hr hv
      refine .inr ⟨i, r, rfl, hr, hv, ?_, ?_⟩
      · rw [hstep]
        exact OmniVault.getElem?_setStatus_self hr
      · rw [hstep]
    · rw [step_mint_error h]
      exact .inl rfl

/-- **No call mints a request again.** -/
theorem Minted.step (hm : l.Minted) (c : VaultCall) : (l.step E c).Minted := by
  have hold : ∀ i ∈ l.mints, ∃ r ∈ (l.step E c).vault.pendingIngests[i]?, r.status = .minted := by
    intro i hi
    obtain ⟨r, hr, hs⟩ := hm.status i hi
    obtain ⟨s, hr', hs', -⟩ := step_request (E := E) c hr
    exact ⟨_, hr', hs' hs⟩
  rcases step_mints (E := E) (l := l) c with h | ⟨i, r, -, hr, hv, hr', h⟩
  · exact ⟨h ▸ hold, h ▸ hm.once⟩
  · have hnot : i ∉ l.mints := by
      intro hi
      obtain ⟨q, hq, hq'⟩ := hm.status i hi
      rw [hr] at hq
      cases hq
      rw [hv] at hq'
      cases hq'
    refine ⟨fun j hj => ?_, h ▸ List.nodup_cons.2 ⟨hnot, hm.once⟩⟩
    rw [h] at hj
    rcases List.mem_cons.1 hj with rfl | hj
    · exact ⟨_, hr', rfl⟩
    · exact hold j hj

end VaultLog

end Zentra

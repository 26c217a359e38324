import ZentraChain.Finance.Vault

/-!
# Backing of zUSD (`vault.rs`, `pol.rs`)

What the vault minted and what its fees took is what the minted requests deposited (`backed`).
-/

namespace Zentra

/-- What requests deposited. -/
def deposited (l : List IngestRequest) : Nat := (l.map (·.stablecoinAmount.val)).sum

/-- What the minted ones of some requests deposited. -/
def mintedDeposits (l : List IngestRequest) : Nat :=
  deposited (l.filter (·.status = .minted))

variable {l l₁ l₂ : List IngestRequest} {r : IngestRequest} {i : Nat} {s : IngestStatus}

theorem deposited_append : deposited (l₁ ++ l₂) = deposited l₁ + deposited l₂ := by
  rw [deposited, List.map_append, List.sum_append]
  rfl

@[simp] theorem deposited_cons : deposited (r :: l) = r.stablecoinAmount.val + deposited l := rfl

theorem mintedDeposits_append :
    mintedDeposits (l₁ ++ l₂) = mintedDeposits l₁ + mintedDeposits l₂ := by
  rw [mintedDeposits, List.filter_append, deposited_append]
  rfl

@[simp] theorem mintedDeposits_cons : mintedDeposits (r :: l) =
    (if r.status = .minted then r.stablecoinAmount.val else 0) + mintedDeposits l := by
  unfold mintedDeposits
  split_ifs with h
  · rw [List.filter_cons_of_pos (by simpa using h), deposited_cons]
  · rw [List.filter_cons_of_neg (by simpa using h), Nat.zero_add]

theorem mintedDeposits_le (l : List IngestRequest) : mintedDeposits l ≤ deposited l :=
  (List.filter_sublist.map _).sum_le_sum fun _ _ => Nat.zero_le _

/-- Changing the status of a request changes no deposit. -/
theorem deposited_modify (h : l[i]? = some r) :
    deposited (l.modify i fun r => { r with status := s }) = deposited l := by
  obtain ⟨l₁, l₂, rfl, hm⟩ := OmniVault.modify_split (fun r => { r with status := s }) h
  rw [hm, deposited_append, deposited_append]
  rfl

theorem mintedDeposits_modify (h : l[i]? = some r) (hr : r.status ≠ .minted) :
    mintedDeposits (l.modify i fun r => { r with status := s }) =
      mintedDeposits l + if s = .minted then r.stablecoinAmount.val else 0 := by
  obtain ⟨l₁, l₂, rfl, hm⟩ := OmniVault.modify_split (fun r => { r with status := s }) h
  rw [hm, mintedDeposits_append, mintedDeposits_append, mintedDeposits_cons, mintedDeposits_cons,
    if_neg hr]
  show _ + ((if s = .minted then r.stablecoinAmount.val else 0) + _) = _
  omega

/-! ## Runs -/

namespace VaultLog

/-- The minted zUSD and the fees are the minted deposits, and no more is burned than was minted. -/
structure Backed (v : OmniVault) : Prop where
  minted : v.totalZusdMinted.val + v.pol.totalIngestFeesCollected.val =
    mintedDeposits v.pendingIngests
  burned : v.totalZusdBurned.val ≤ v.totalZusdMinted.val

/-- What a call must be for the vault to stay backed: a request is submitted as pending, and the
deposits fit in 128 bits. -/
def Fits (E : TssEnv) (l : VaultLog) (c : VaultCall) : Prop :=
  (∀ r, c = .submit r → r.status = .pending) ∧
    deposited (l.step E c).vault.pendingIngests < 2 ^ 128

variable {E : TssEnv} {l : VaultLog} {c : VaultCall}

theorem saturatingAdd_val {a b : U128} (h : a.val + b.val < 2 ^ 128) :
    (a.saturatingAdd b).val = a.val + b.val := Nat.min_eq_left (Nat.le_sub_one_of_lt h)

theorem Backed.submit (hb : Backed l.vault) (hr : r.status = .pending) :
    Backed (l.step E (.submit r)).vault := by
  by_cases h : l.vault.Accepts r
  · rw [step_submit_ok h]
    refine ⟨?_, hb.burned⟩
    have hnew : mintedDeposits [r] = 0 := by
      rw [mintedDeposits_cons, hr]
      rfl
    show _ = mintedDeposits (l.vault.pendingIngests ++ [r])
    rw [mintedDeposits_append, hnew]
    exact hb.minted
  · rw [step_submit_error h]
    exact hb

theorem Backed.validate (hb : Backed l.vault) (i : Nat) (sigs : List (Nat × List UInt8)) :
    Backed (l.step E (.validate i sigs)).vault := by
  by_cases h : l.vault.Passes E i sigs
  · rw [step_validate_ok h]
    obtain ⟨r, hr, hp, -⟩ := h
    have hsum := mintedDeposits_modify (s := .validated) hr (by rw [hp]; decide)
    exact ⟨hb.minted.trans hsum.symm, hb.burned⟩
  · rw [step_validate_error h]
    exact hb

theorem Backed.mint (hb : Backed l.vault) (i : Nat)
    (hfit : deposited l.vault.pendingIngests < 2 ^ 128) :
    Backed (l.step E (.mint i)).vault := by
  by_cases h : l.vault.Mintable i
  · obtain ⟨r, hr, hv⟩ := h
    obtain ⟨pol, net, hstep, hnet, hfees⟩ := step_mint_ok (E := E) hr hv
    have hsum : mintedDeposits (l.vault.setStatus i .minted).pendingIngests =
        mintedDeposits l.vault.pendingIngests + r.stablecoinAmount.val :=
      mintedDeposits_modify hr (by rw [hv]; decide)
    -- all sums stay below the deposits, so none of them saturates
    have hle := mintedDeposits_le (l.vault.setStatus i .minted).pendingIngests
    rw [show deposited (l.vault.setStatus i .minted).pendingIngests =
      deposited l.vault.pendingIngests from deposited_modify hr, hsum] at hle
    have hold := hb.minted
    have hminted : (l.vault.totalZusdMinted.saturatingAdd net).val =
        l.vault.totalZusdMinted.val + net.val := saturatingAdd_val (by omega)
    have hfee : pol.totalIngestFeesCollected.val = l.vault.pol.totalIngestFeesCollected.val +
        (ingestFee r.stablecoinAmount).val := by
      rw [hfees]
      exact saturatingAdd_val (by omega)
    rw [hstep]
    constructor
    · show (l.vault.totalZusdMinted.saturatingAdd net).val + pol.totalIngestFeesCollected.val =
        mintedDeposits (l.vault.setStatus i .minted).pendingIngests
      rw [hminted, hfee, hsum]
      omega
    · show l.vault.totalZusdBurned.val ≤ (l.vault.totalZusdMinted.saturatingAdd net).val
      rw [hminted]
      exact hb.burned.trans (Nat.le_add_right _ _)
  · rw [step_mint_error h]
    exact hb

theorem Backed.burn (hb : Backed l.vault) (a : U128) :
    Backed (l.step E (.burn a)).vault := by
  show Backed (l.vault.burnZusd a).1
  rcases l.vault.burnZusd_cases a with h | ⟨hle, h⟩
  · rw [h]
    exact hb
  · rw [h]
    refine ⟨hb.minted, ?_⟩
    show (l.vault.totalZusdBurned.saturatingAdd a).val ≤ l.vault.totalZusdMinted.val
    exact (Nat.min_le_left _ _).trans hle

/-- **No call leaves the vault unbacked.** -/
theorem Backed.step (hb : Backed l.vault) (hfit : deposited l.vault.pendingIngests < 2 ^ 128)
    (hc : l.Fits E c) : Backed (l.step E c).vault := by
  cases c with
  | submit r => exact hb.submit (hc.1 r rfl)
  | validate i sigs => exact hb.validate i sigs
  | mint i => exact hb.mint i hfit
  | burn a => exact hb.burn a

/-- Requests are not taken back. -/
theorem deposited_step (E : TssEnv) (l : VaultLog) (c : VaultCall) :
    deposited l.vault.pendingIngests ≤ deposited (l.step E c).vault.pendingIngests := by
  have hq := queueStep E l c
  generalize (l.step E c).vault.pendingIngests = queue at hq ⊢
  cases hq with
  | same => exact Nat.le_refl _
  | submitted h =>
    rw [deposited_append]
    exact Nat.le_add_right _ _
  | validated hr hp => exact (deposited_modify (s := .validated) hr).ge
  | minted hr hv => exact (deposited_modify (s := .minted) hr).ge

theorem deposited_run (E : TssEnv) (l : VaultLog) (calls : List VaultCall) :
    deposited l.vault.pendingIngests ≤
      deposited (calls.foldl (step E) l).vault.pendingIngests := by
  induction calls generalizing l with
  | nil => exact Nat.le_refl _
  | cons c cs ih => exact (deposited_step E l c).trans (ih _)

/-- In a run whose deposits fit in the end, they do at every call. -/
theorem each_fits {calls : List VaultCall}
    (hp : ∀ r, .submit r ∈ calls → r.status = .pending)
    (hd : deposited (calls.foldl (step E) l).vault.pendingIngests < 2 ^ 128) :
    Runs.Each (step E) (Fits E) l calls := by
  induction calls generalizing l with
  | nil => trivial
  | cons c cs ih =>
    refine ⟨⟨fun r hr => hp r (hr ▸ List.mem_cons_self), ?_⟩,
      ih (fun r hr => hp r (List.mem_cons_of_mem _ hr)) hd⟩
    exact Nat.lt_of_le_of_lt (deposited_run E _ cs) hd

/-- **Backing**, in every run from a new vault, with any keys, whose requests are submitted as pending
and deposit less than 2^128 in all. -/
theorem backed_run (E : TssEnv) (threshold totalValidators : Nat) (tss : TssManager)
    (calls : List VaultCall)
    (hp : ∀ r, .submit r ∈ calls → r.status = .pending)
    (hd : deposited (calls.foldl (step E) (start
      { OmniVault.new threshold totalValidators with tss := tss })).vault.pendingIngests <
        2 ^ 128) :
    Runs.Always (step E) (fun l => Backed l.vault ∧ l.mints.Nodup) (start
      { OmniVault.new threshold totalValidators with tss := tss }) calls := by
  have hstep : ∀ (l : VaultLog) c,
      Backed l.vault ∧ l.Minted ∧ deposited l.vault.pendingIngests < 2 ^ 128 → l.Fits E c →
      Backed (l.step E c).vault ∧ (l.step E c).Minted ∧
        deposited (l.step E c).vault.pendingIngests < 2 ^ 128 := by
    rintro l c ⟨hb, hm, hfit⟩ hc
    exact ⟨hb.step hfit hc, hm.step c, hc.2⟩
  have hbacked : Backed { OmniVault.new threshold totalValidators with tss := tss } :=
    ⟨rfl, Nat.le_refl _⟩
  have hminted := Minted.start { OmniVault.new threshold totalValidators with tss := tss }
  have hrun := Runs.always_of_each hstep ⟨hbacked, hminted, Nat.two_pow_pos 128⟩ (each_fits hp hd)
  exact hrun.imp fun l h => ⟨h.1, h.2.1.once⟩

end VaultLog

namespace Sample

/-- A deposit of 10 zUSD. -/
def ingest (chain : String) (txHash : List UInt8) (status : IngestStatus) : IngestRequest where
  externalChain := chain
  externalTxHash := txHash
  depositorAddress := ⟨42, .devnet⟩
  stablecoinAmount := ⟨10000000, by decide⟩
  status := status
  depositor_lt := by decide

/-- The partial signature of participant `i`. -/
def partialOf (i : Nat) (r : IngestRequest) : Nat × List UInt8 :=
  (i, tssEnv.sign (tssSecrets i) (buildIngestMessage r))

def deposit : IngestRequest := ingest "ethereum" [0xAA] .pending

/-- A deposit is minted, and some of it burned. -/
def depositRun : List VaultCall :=
  [.submit deposit, .validate 0 [partialOf 0 deposit, partialOf 1 deposit], .mint 0, .mint 0,
    .burn ⟨5000000, by decide⟩]

end Sample

open Sample VaultLog in
theorem backed_run_deposit :
    Runs.Always (step tssEnv) (fun l => Backed l.vault ∧ l.mints.Nodup)
      (start { OmniVault.new 2 3 with tss := tss }) depositRun :=
  backed_run tssEnv 2 3 tss depositRun (fun r hr => by
    obtain rfl : r = deposit := by simpa [depositRun] using hr
    rfl) (by decide +kernel)

end Zentra

import ZentraChain.Finance.VaultBacking

/-!
# The threshold of the vault (`vault.rs`)

`validate_ingest` counts the entries of the list it gets and checks them one by one; it does not
look whether they are of different validators. `supported_run_iff`: when a validated request has
signatures of enough validators.
-/

namespace Zentra

namespace VaultLog

variable {E : TssEnv} {l : VaultLog} {r : IngestRequest} {i : Nat} {c : VaultCall}
  {sigs : List (Nat × List UInt8)}

/-- Requests that are validated or minted have valid signatures of enough validators. -/
def Supported (l : VaultLog) : Prop :=
  ∀ i, ∀ r ∈ l.vault.pendingIngests[i]?, r.status = .validated ∨ r.status = .minted →
    l.vault.tss.threshold ≤ (l.suppliers i).card

/-- A request does not come validated, and a list that passes has, with the valid signatures supplied
before, signatures of enough validators. -/
def Vouched (E : TssEnv) (l : VaultLog) : VaultCall → Prop
  | .submit r => l.vault.Accepts r → r.status ≠ .validated ∧ r.status ≠ .minted
  | .validate i sigs => l.vault.Passes E i sigs →
      l.vault.tss.threshold ≤ (l.suppliers i ∪ (sigs.map (·.1)).toFinset).card
  | _ => True

/-- Signatures were supplied for requests of the queue only. -/
structure Grounded (l : VaultLog) : Prop where
  threshold : 0 < l.vault.tss.threshold
  suppliers : ∀ i, l.vault.pendingIngests.length ≤ i → l.suppliers i = ∅

theorem step_tss (E : TssEnv) (l : VaultLog) (c : VaultCall) :
    (l.step E c).vault.tss = l.vault.tss := by
  cases c with
  | submit r =>
    by_cases h : l.vault.Accepts r
    · rw [step_submit_ok h]
      rfl
    · rw [step_submit_error h]
  | validate i sigs =>
    by_cases h : l.vault.Passes E i sigs
    · rw [step_validate_ok h]
      rfl
    · rw [step_validate_error h]
  | mint i =>
    by_cases h : l.vault.Mintable i
    · obtain ⟨r, hr, hv⟩ := h
      obtain ⟨pol, net, hstep, -⟩ := step_mint_ok (E := E) hr hv
      rw [hstep]
      rfl
    · rw [step_mint_error h]
  | burn a =>
    rcases l.vault.burnZusd_cases a with h | ⟨-, h⟩
    · simp only [step, h]
    · simp only [step, h]

theorem length_step (E : TssEnv) (l : VaultLog) (c : VaultCall) :
    l.vault.pendingIngests.length ≤ (l.step E c).vault.pendingIngests.length := by
  have hq := queueStep E l c
  generalize (l.step E c).vault.pendingIngests = queue at hq ⊢
  cases hq with
  | same => exact Nat.le_refl _
  | submitted h =>
    rw [List.length_append]
    exact Nat.le_add_right _ _
  | validated hr hp => exact (List.length_modify _ _ _).ge
  | minted hr hv => exact (List.length_modify _ _ _).ge

/-- The signers of a list that passes are all its entries. -/
theorem signersOf_passes (h : l.vault.Passes E i sigs) :
    signersOf E l.vault i sigs = (sigs.map (·.1)).toFinset := by
  obtain ⟨r, hr, -, -, hvalid⟩ := h
  unfold signersOf
  rw [Option.mem_def.1 hr]
  simp only
  rw [List.filter_eq_self.2 hvalid]

theorem Grounded.step (hg : l.Grounded) (c : VaultCall) : (l.step E c).Grounded := by
  refine ⟨by rw [step_tss]; exact hg.threshold, fun i hi => ?_⟩
  have hi' := (length_step E l c).trans hi
  have hold := hg.suppliers i hi'
  cases c with
  | submit r => exact hold
  | mint j => exact hold
  | burn a => exact hold
  | validate j sigs =>
    show Function.update l.suppliers j (l.suppliers j ∪ signersOf E l.vault j sigs) i = ∅
    by_cases hij : i = j
    · subst hij
      have hnone : l.vault.pendingIngests[i]? = none := List.getElem?_eq_none_iff.2 hi'
      rw [Function.update_self, hold, signersOf, hnone]
      rfl
    · rw [Function.update_of_ne hij]
      exact hold

theorem Grounded.start {v : OmniVault} (hg : v.tss.Generated E) : (start v).Grounded :=
  ⟨hg.threshold_pos, fun _ _ => rfl⟩

/-- A new request has no signatures yet. -/
theorem supported_submit_iff (hg : l.Grounded) (hs : l.Supported) :
    (l.step E (.submit r)).Supported ↔ l.Vouched E (.submit r) := by
  by_cases h : l.vault.Accepts r
  · rw [step_submit_ok h]
    constructor
    · intro hs' _
      refine not_or.1 fun hst => ?_
      have hle : l.vault.tss.threshold ≤ (l.suppliers l.vault.pendingIngests.length).card :=
        hs' _ r (List.getElem?_concat_length ..) hst
      rw [hg.suppliers _ (Nat.le_refl _), Finset.card_empty] at hle
      exact absurd hg.threshold (Nat.not_lt.2 hle)
    · intro hv i q hq hst
      rw [OmniVault.push_pendingIngests, Option.mem_def, List.getElem?_append] at hq
      split at hq
      · exact hs i q hq hst
      · have hqr : q ∈ [r] := List.mem_of_getElem? hq
        rw [List.mem_singleton.1 hqr] at hst
        exact absurd hst (not_or.2 (hv h))
  · rw [step_submit_error h]
    exact ⟨fun _ ha => absurd ha h, fun _ => hs⟩

theorem supply_self (h : l.vault.Passes E i sigs) :
    l.supply E i sigs i = l.suppliers i ∪ (sigs.map (·.1)).toFinset := by
  rw [supply, Function.update_self, signersOf_passes h]

theorem supply_of_ne {j : Nat} (h : i ≠ j) : l.supply E i sigs j = l.suppliers j :=
  Function.update_of_ne (Ne.symm h) ..

theorem subset_supply (j : Nat) : l.suppliers j ⊆ l.supply E i sigs j := by
  by_cases hij : i = j
  · subst hij
    rw [supply, Function.update_self]
    exact Finset.subset_union_left
  · rw [supply_of_ne hij]

/-- A request that becomes validated has the signatures of the list, and those before. -/
theorem supported_validate_iff (hs : l.Supported) :
    (l.step E (.validate i sigs)).Supported ↔ l.Vouched E (.validate i sigs) := by
  by_cases h : l.vault.Passes E i sigs
  · rw [step_validate_ok h]
    constructor
    · intro hs' _
      rw [← supply_self h]
      obtain ⟨r, hr, -⟩ := h
      exact hs' i { r with status := .validated } (OmniVault.getElem?_setStatus_self hr) (.inl rfl)
    · intro hv j q hq hst
      show l.vault.tss.threshold ≤ (l.supply E i sigs j).card
      by_cases hij : i = j
      · subst hij
        rw [supply_self h]
        exact hv h
      · rw [supply_of_ne hij]
        exact hs j q ((OmniVault.getElem?_setStatus_ne hij).symm.trans hq) hst
  · rw [step_validate_error h]
    refine ⟨fun _ hp => absurd hp h, fun _ j q hq hst => ?_⟩
    exact (hs j q hq hst).trans (Finset.card_le_card (subset_supply j))

/-- Only a validated request is minted. -/
theorem Supported.mint (hs : l.Supported) (i : Nat) : (l.step E (.mint i)).Supported := by
  by_cases h : l.vault.Mintable i
  · obtain ⟨r, hr, hv⟩ := h
    obtain ⟨pol, net, hstep, -⟩ := step_mint_ok (E := E) hr hv
    rw [hstep]
    intro j q hq hst
    by_cases hij : i = j
    · subst hij
      exact hs i r hr (.inl hv)
    · exact hs j q ((OmniVault.getElem?_setStatus_ne (v := l.vault) hij).symm.trans hq) hst
  · rw [step_mint_error h]
    exact hs

/-- **Which calls keep the requests supported.** -/
theorem supported_step_iff (hg : l.Grounded) (hs : l.Supported) :
    (l.step E c).Supported ↔ l.Vouched E c := by
  cases c with
  | submit r => exact supported_submit_iff hg hs
  | validate i sigs => exact supported_validate_iff hs
  | mint i => exact iff_of_true (hs.mint i) trivial
  | burn a =>
    refine iff_of_true (fun i q hq hst => ?_) trivial
    rw [step_burn_pendingIngests] at hq
    rw [step_tss]
    exact hs i q hq hst

/-- Lists that name no validator twice are vouched for, however long. -/
theorem vouched_of_nodup (h : (sigs.map (·.1)).Nodup) : l.Vouched E (.validate i sigs) := by
  rintro ⟨r, -, -, hlen, -⟩
  calc l.vault.tss.threshold
      ≤ sigs.length := hlen.trans (Nat.mod_le _ _)
    _ = (sigs.map (·.1)).toFinset.card := by rw [List.toFinset_card_of_nodup h, List.length_map]
    _ ≤ _ := Finset.card_le_card Finset.subset_union_right

/-- **Threshold.** In a run, the requests that are validated or minted always have signatures of enough
validators exactly if none of them is so at first and every call is vouched for. -/
theorem supported_run_iff (v : OmniVault) (hg : v.tss.Generated E) (calls : List VaultCall) :
    Runs.Always (step E) Supported (start v) calls ↔
      (∀ r ∈ v.pendingIngests, r.status ≠ .validated ∧ r.status ≠ .minted) ∧
        Runs.Each (step E) (Vouched E) (start v) calls := by
  have hstart : (start v).Supported ↔
      ∀ r ∈ v.pendingIngests, r.status ≠ .validated ∧ r.status ≠ .minted := by
    constructor
    · intro hs r hr
      obtain ⟨i, hi⟩ := List.mem_iff_getElem?.1 hr
      refine not_or.1 fun hst => ?_
      have hle : v.tss.threshold ≤ 0 := hs i r hi hst
      exact absurd hg.threshold_pos (Nat.not_lt.2 hle)
    · intro hnone i r hr hst
      exact absurd hst (not_or.2 (hnone r (List.mem_of_getElem? hr)))
  have hrun : (start v).Supported →
      (Runs.Always (step E) Supported (start v) calls ↔
        Runs.Each (step E) (Vouched E) (start v) calls) := fun hs =>
    Runs.always_iff_each (Q := Grounded) (D := fun _ => True) (fun l c _ hg _ => hg.step c)
      (fun l c _ hg hs => supported_step_iff hg hs) (fun _ _ => trivial) (.start hg) hs
  constructor
  · intro h
    exact ⟨hstart.1 h.head, (hrun h.head).1 h⟩
  · rintro ⟨hnone, h⟩
    exact (hrun (hstart.2 hnone)).2 h

end VaultLog

open Sample VaultLog in
theorem supported_run_deposit :
    Runs.Always (step tssEnv) Supported (start { OmniVault.new 2 3 with tss := tss }) depositRun ↔
      (∀ r ∈ ({ OmniVault.new 2 3 with tss := tss } : OmniVault).pendingIngests,
        r.status ≠ .validated ∧ r.status ≠ .minted) ∧
        Runs.Each (step tssEnv) (Vouched tssEnv) (start { OmniVault.new 2 3 with tss := tss })
          depositRun :=
  supported_run_iff { OmniVault.new 2 3 with tss := tss } tss_generated depositRun

open Sample VaultLog in
/-- One validator validates a request of a vault that asks for two, by signing twice. -/
theorem one_validator_validates :
    ¬∀ (E : TssEnv) (v : OmniVault), v.tss.Generated E → v.pendingIngests = [] →
      ∀ calls, Runs.Always (step E) Supported (start v) calls := by
  intro h
  have hrun := h tssEnv { OmniVault.new 2 3 with tss := tss } tss_generated rfl
    [.submit deposit, .validate 0 [partialOf 0 deposit, partialOf 0 deposit]]
  have hlast := hrun.last 0 { deposit with status := .validated } (by decide +kernel) (.inl rfl)
  revert hlast
  decide +kernel

end Zentra

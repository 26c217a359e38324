import ZentraChain.Finance.VaultThreshold

/-!
# What validator signatures are bound to (`vault.rs`)

The message of a request puts its fields behind each other, and a request is refused for a
transaction hash that is there already.

* `message_eq_iff`: when two requests have one message.
* `bound_run_iff`: when a set of signatures validates one deposit only.
-/

namespace Zentra

/-- What a request says was deposited: chain, transaction, depositor and amount. -/
def IngestRequest.deposit (r : IngestRequest) : String × List UInt8 × Nat × U128 :=
  (r.externalChain, r.externalTxHash, r.depositorAddress.payload, r.stablecoinAmount)

/-- The chain's name is continued by the first bytes of the transaction hash. -/
def Shifted (r r' : IngestRequest) : Prop :=
  r.depositorAddress.payload = r'.depositorAddress.payload ∧
    r.stablecoinAmount = r'.stablecoinAmount ∧
    ∃ w, w ≠ [] ∧ r'.externalChain.toUTF8.data.toList = r.externalChain.toUTF8.data.toList ++ w ∧
      r.externalTxHash = w ++ r'.externalTxHash

theorem utf8_inj {a b : String} (h : a.toUTF8.data.toList = b.toUTF8.data.toList) : a = b :=
  String.toByteArray_inj.1 (ByteArray.ext (Array.toList_inj.1 h))

/-- The last 48 bytes of a message are the depositor and the amount. -/
theorem message_eq_split {r r' : IngestRequest}
    (h : buildIngestMessage r = buildIngestMessage r') :
    r.externalChain.toUTF8.data.toList ++ r.externalTxHash =
        r'.externalChain.toUTF8.data.toList ++ r'.externalTxHash ∧
      r.depositorAddress.payload = r'.depositorAddress.payload ∧
      r.stablecoinAmount = r'.stablecoinAmount := by
  unfold buildIngestMessage at h
  obtain ⟨h, hamount⟩ := List.append_inj' h (by rw [Borsh.le_length, Borsh.le_length])
  obtain ⟨h, hpayload⟩ := List.append_inj' h (by rw [Borsh.bytes32_length, Borsh.bytes32_length])
  have hfit : ∀ a : U128, a.val < 256 ^ 16 := fun a =>
    Nat.lt_of_le_of_lt a.le_max (by decide)
  refine ⟨h, Borsh.bytes32_inj ?_ ?_ hpayload, U128.ext (Borsh.le_inj (hfit _) (hfit _) hamount)⟩
  · exact r.depositor_lt
  · exact r'.depositor_lt

theorem Shifted.message_eq {r r' : IngestRequest} (h : Shifted r r') :
    buildIngestMessage r = buildIngestMessage r' := by
  obtain ⟨hpayload, hamount, w, -, hchain, hhash⟩ := h
  rw [buildIngestMessage, buildIngestMessage, hpayload, hamount, hchain, hhash,
    List.append_assoc _ w]

theorem Shifted.deposit_ne {r r' : IngestRequest} (h : Shifted r r') : r.deposit ≠ r'.deposit := by
  obtain ⟨-, -, w, hw, hchain, -⟩ := h
  intro he
  have hsame : r.externalChain = r'.externalChain := congrArg Prod.fst he
  rw [hsame] at hchain
  exact hw (List.append_right_eq_self.1 hchain.symm)

theorem message_eq_of_deposit {r r' : IngestRequest} (h : r.deposit = r'.deposit) :
    buildIngestMessage r = buildIngestMessage r' := by
  simp only [IngestRequest.deposit, Prod.mk.injEq] at h
  obtain ⟨hchain, hhash, hpayload, hamount⟩ := h
  rw [buildIngestMessage, buildIngestMessage, hchain, hhash, hpayload, hamount]

/-- **Which requests have one message**: those with one deposit, and those with shifted bytes. -/
theorem message_eq_iff {r r' : IngestRequest} : buildIngestMessage r = buildIngestMessage r' ↔
    r.deposit = r'.deposit ∨ Shifted r r' ∨ Shifted r' r := by
  constructor
  · intro h
    obtain ⟨hbytes, hpayload, hamount⟩ := message_eq_split h
    have hdeposit : r.externalChain.toUTF8.data.toList = r'.externalChain.toUTF8.data.toList →
        r.externalTxHash = r'.externalTxHash → r.deposit = r'.deposit := by
      intro hchain hhash
      rw [IngestRequest.deposit, IngestRequest.deposit, utf8_inj hchain, hhash, hpayload, hamount]
    rcases List.append_eq_append_iff.1 hbytes with ⟨w, hchain, hhash⟩ | ⟨w, hchain, hhash⟩
    · by_cases hw : w = []
      · subst hw
        rw [List.append_nil] at hchain
        exact .inl (hdeposit hchain.symm hhash)
      · exact .inr (.inl ⟨hpayload, hamount, w, hw, hchain, hhash⟩)
    · by_cases hw : w = []
      · subst hw
        rw [List.append_nil] at hchain
        exact .inl (hdeposit hchain hhash.symm)
      · exact .inr (.inr ⟨hpayload.symm, hamount.symm, w, hw, hchain, hhash⟩)
  · rintro (h | h | h)
    · exact message_eq_of_deposit h
    · exact h.message_eq
    · exact h.message_eq.symm

/-- No signature verifies two of these messages under one participant's key. -/
def TssManager.Binds (E : TssEnv) (t : TssManager) (messages : Set (List UInt8)) : Prop :=
  ∀ p ∈ t.participants, ∀ sig, ∀ m ∈ messages, ∀ m' ∈ messages,
    E.verify p.publicShare m sig = true → E.verify p.publicShare m' sig = true → m = m'

/-! ## Runs -/

namespace VaultLog

variable {E : TssEnv} {l : VaultLog} {r : IngestRequest} {i : Nat} {c : VaultCall}
  {sigs : List (Nat × List UInt8)} {tss : TssManager} {messages : Set (List UInt8)}

/-- The deposit of request `i`. -/
def depositAt (v : OmniVault) (i : Nat) : Option (String × List UInt8 × Nat × U128) :=
  (v.pendingIngests[i]?).map (·.deposit)

/-- One set of signatures validates one deposit only. -/
def Bound (l : VaultLog) : Prop :=
  ∀ x ∈ l.validations, ∀ y ∈ l.validations, (∀ s, s ∈ x.2 ↔ s ∈ y.2) →
    depositAt l.vault x.1 = depositAt l.vault y.1

/-- No deposit is minted twice. -/
def MintedOnce (l : VaultLog) : Prop :=
  l.mints.Nodup ∧ ∀ i ∈ l.mints, ∀ j ∈ l.mints,
    depositAt l.vault i = depositAt l.vault j → i = j

/-- The signatures that validated a request are not given for one with shifted bytes, and no two
requests are validated without a signature. -/
def Unshifted (E : TssEnv) (l : VaultLog) : VaultCall → Prop
  | .validate i sigs => l.vault.Passes E i sigs → ∀ x ∈ l.validations,
      (∀ s, s ∈ x.2 ↔ s ∈ sigs) → sigs ≠ [] ∧
        ∀ r ∈ l.vault.pendingIngests[i]?, ∀ r' ∈ l.vault.pendingIngests[x.1]?,
          ¬(Shifted r r' ∨ Shifted r' r)
  | _ => True

/-- The queue has no transaction hash twice, and what was validated was signed. -/
structure Signed (E : TssEnv) (tss : TssManager) (messages : Set (List UInt8)) (l : VaultLog) :
    Prop where
  tss : l.vault.tss = tss
  minted : l.Minted
  hashes : (l.vault.pendingIngests.map (·.externalTxHash)).Nodup
  known : ∀ r ∈ l.vault.pendingIngests, buildIngestMessage r ∈ messages
  validations : ∀ x ∈ l.validations, ∃ r ∈ l.vault.pendingIngests[x.1]?, r.status ≠ .pending ∧
    ∀ s ∈ x.2, l.vault.tss.validPartial E (buildIngestMessage r) s.1 s.2 = true

theorem map_step {α : Type*} (f : IngestRequest → α)
    (hf : ∀ r s, f { r with status := s } = f r) (E : TssEnv) (l : VaultLog) (c : VaultCall) :
    (l.step E c).vault.pendingIngests.map f = l.vault.pendingIngests.map f ∨
      ∃ r, c = .submit r ∧ l.vault.Accepts r ∧
        (l.step E c).vault.pendingIngests.map f = l.vault.pendingIngests.map f ++ [f r] := by
  have hset : ∀ i s, (l.vault.setStatus i s).pendingIngests.map f =
      l.vault.pendingIngests.map f := by
    intro i s
    refine List.ext_getElem? fun j => ?_
    rw [List.getElem?_map, List.getElem?_map, OmniVault.getElem?_setStatus, Option.map_map]
    refine congrArg (Option.map · _) (funext fun r => ?_)
    show f (if i = j then { r with status := s } else r) = f r
    split_ifs
    · exact hf r s
    · rfl
  have hq := queueStep E l c
  generalize (l.step E c).vault.pendingIngests = queue at hq ⊢
  cases hq with
  | same => exact .inl rfl
  | submitted h => exact .inr ⟨_, rfl, h, List.map_append⟩
  | validated => exact .inl (hset _ _)
  | minted => exact .inl (hset _ _)

/-- A request keeps its deposit. -/
theorem depositAt_step (c : VaultCall) (hi : i < l.vault.pendingIngests.length) :
    depositAt (l.step E c).vault i = depositAt l.vault i := by
  obtain ⟨s, hr, -⟩ := step_request (E := E) c (List.getElem?_eq_getElem hi)
  rw [depositAt, depositAt, hr, List.getElem?_eq_getElem hi]
  rfl

/-- Requests with one deposit are one request. -/
theorem Signed.eq_of_depositAt (hs : l.Signed E tss messages) {j : Nat}
    (hi : i < l.vault.pendingIngests.length)
    (h : depositAt l.vault i = depositAt l.vault j) : i = j := by
  have hhash : ∀ k, (depositAt l.vault k).map (·.2.1) =
      (l.vault.pendingIngests.map (·.externalTxHash))[k]? := by
    intro k
    rw [depositAt, Option.map_map, List.getElem?_map]
    rfl
  refine (List.getElem?_inj (by rwa [List.length_map]) hs.hashes).1 ?_
  rw [← hhash, ← hhash, h]

theorem Signed.mintedOnce (hs : l.Signed E tss messages) : l.MintedOnce := by
  refine ⟨hs.minted.once, fun i hi j _ h => hs.eq_of_depositAt ?_ h⟩
  obtain ⟨r, hr, -⟩ := hs.minted.status i hi
  exact (List.getElem?_eq_some_iff.1 hr).1

/-- The log of the validations grows by the list that passes. -/
theorem step_validations (E : TssEnv) (l : VaultLog) (c : VaultCall) :
    (l.step E c).validations = l.validations ∨
      ∃ i sigs, c = .validate i sigs ∧ l.vault.Passes E i sigs ∧
        (l.step E c).validations = (i, sigs) :: l.validations := by
  cases c with
  | submit r => exact .inl rfl
  | mint i => exact .inl rfl
  | burn a => exact .inl rfl
  | validate i sigs =>
    by_cases h : l.vault.Passes E i sigs
    · exact .inr ⟨i, sigs, rfl, h, by rw [step_validate_ok h]⟩
    · rw [step_validate_error h]
      exact .inl rfl

theorem Signed.step (hs : l.Signed E tss messages)
    (hc : ∀ r, c = .submit r → buildIngestMessage r ∈ messages) :
    (l.step E c).Signed E tss messages := by
  have hold : ∀ (i : Nat) (r : IngestRequest), l.vault.pendingIngests[i]? = some r →
      r.status ≠ .pending → ∀ sigs : List (Nat × List UInt8),
      (∀ s ∈ sigs, l.vault.tss.validPartial E (buildIngestMessage r) s.1 s.2 = true) →
      ∃ r ∈ (l.step E c).vault.pendingIngests[i]?, r.status ≠ .pending ∧
        ∀ s ∈ sigs, (l.step E c).vault.tss.validPartial E (buildIngestMessage r) s.1 s.2 = true := by
    intro i r hr hst sigs hvalid
    obtain ⟨s, hr', -, hst'⟩ := step_request (E := E) c hr
    refine ⟨_, hr', hst' hst, ?_⟩
    rw [step_tss]
    exact hvalid
  refine ⟨(step_tss E l c).trans hs.tss, hs.minted.step c, ?_, ?_, ?_⟩
  · rcases map_step (·.externalTxHash) (fun _ _ => rfl) E l c with h | ⟨r, -, hacc, h⟩
    · rw [h]
      exact hs.hashes
    · rw [h, List.nodup_append]
      refine ⟨hs.hashes, List.nodup_singleton _, fun a ha b hb => ?_⟩
      obtain ⟨q, hq, rfl⟩ := List.mem_map.1 ha
      rw [List.mem_singleton.1 hb]
      exact hacc.2 q hq
  · have hknown := List.forall_mem_map.2 hs.known
    refine List.forall_mem_map.1 ?_
    rcases map_step buildIngestMessage (fun _ _ => rfl) E l c with h | ⟨r, hr, -, h⟩
    · rw [h]
      exact hknown
    · rw [h]
      exact List.forall_mem_append.2 ⟨hknown, List.forall_mem_singleton.2 (hc r hr)⟩
  · have hkeep : ∀ x ∈ l.validations, ∃ r ∈ (l.step E c).vault.pendingIngests[x.1]?,
        r.status ≠ .pending ∧ ∀ s ∈ x.2,
          (l.step E c).vault.tss.validPartial E (buildIngestMessage r) s.1 s.2 = true := by
      intro x hx
      obtain ⟨r, hr, hst, hvalid⟩ := hs.validations x hx
      exact hold x.1 r hr hst x.2 hvalid
    rcases step_validations E l c with h | ⟨i, sigs, rfl, hpass, h⟩
    · rw [h]
      exact hkeep
    · rw [h]
      refine List.forall_mem_cons.2 ⟨?_, hkeep⟩
      rw [step_validate_ok hpass]
      obtain ⟨r, hr, -, -, hvalid⟩ := hpass
      exact ⟨{ r with status := .validated }, OmniVault.getElem?_setStatus_self hr, nofun, hvalid⟩

/-- Requests validated by one set of signatures, not empty, have one message. -/
theorem Signed.message_eq (hE : tss.Binds E messages) (hs : l.Signed E tss messages)
    {x : Nat × List (Nat × List UInt8)} (hx : x ∈ l.validations) (hpass : l.vault.Passes E i sigs)
    (hsame : ∀ s, s ∈ x.2 ↔ s ∈ sigs) (hne : sigs ≠ []) :
    ∃ r ∈ l.vault.pendingIngests[i]?, ∃ r' ∈ l.vault.pendingIngests[x.1]?,
      buildIngestMessage r = buildIngestMessage r' := by
  obtain ⟨r, hr, -, -, hvalid⟩ := hpass
  obtain ⟨r', hr', -, hvalid'⟩ := hs.validations x hx
  obtain ⟨s, hmem⟩ := List.exists_mem_of_ne_nil sigs hne
  have h := hvalid s hmem
  have h' := hvalid' s ((hsame s).2 hmem)
  refine ⟨r, hr, r', hr', ?_⟩
  unfold TssManager.validPartial at h h'
  cases hp : l.vault.tss.participants[s.1]? with
  | none =>
    rw [hp] at h
    cases h
  | some p =>
    rw [hp] at h h'
    simp only [Bool.and_eq_true] at h h'
    exact hE p (hs.tss ▸ List.mem_of_getElem? hp) _ _ (hs.known r (List.mem_of_getElem? hr)) _
      (hs.known r' (List.mem_of_getElem? hr')) h.2 h'.2

/-- Once a list passes, another request is validated, with another deposit. -/
theorem Signed.depositAt_ne (hs : l.Signed E tss messages) (hpass : l.vault.Passes E i sigs)
    {x : Nat × List (Nat × List UInt8)} (hx : x ∈ l.validations) :
    depositAt l.vault i ≠ depositAt l.vault x.1 := by
  obtain ⟨r, hr, hp, -⟩ := hpass
  obtain ⟨r', hr', hst, -⟩ := hs.validations x hx
  intro he
  have hi := (List.getElem?_eq_some_iff.1 (Option.mem_def.1 hr)).1
  rw [hs.eq_of_depositAt hi he, hr'] at hr
  cases hr
  exact hst hp

/-- A list that passes and is not shifted has not the signatures of an earlier validation. -/
theorem Signed.differs (hE : tss.Binds E messages) (hs : l.Signed E tss messages)
    (hun : l.Unshifted E (.validate i sigs)) (hpass : l.vault.Passes E i sigs)
    {x : Nat × List (Nat × List UInt8)} (hx : x ∈ l.validations) : ¬∀ s, s ∈ x.2 ↔ s ∈ sigs := by
  intro hsame
  obtain ⟨hne, hshift⟩ := hun hpass x hx hsame
  obtain ⟨r, hr, r', hr', hmsg⟩ := hs.message_eq hE hx hpass hsame hne
  rcases message_eq_iff.1 hmsg with hd | hd
  · refine hs.depositAt_ne hpass hx ?_
    rw [depositAt, depositAt, Option.mem_def.1 hr, Option.mem_def.1 hr', Option.map_some,
      Option.map_some, hd]
  · exact hshift r hr r' hr' hd

/-- **Which calls keep sets of signatures bound to their deposits.** -/
theorem bound_step_iff (hE : tss.Binds E messages) (hs : l.Signed E tss messages) (hb : l.Bound) :
    (l.step E c).Bound ↔ l.Unshifted E c := by
  have hkeep : ∀ x ∈ l.validations,
      depositAt (l.step E c).vault x.1 = depositAt l.vault x.1 := by
    intro x hx
    obtain ⟨r, hr, -⟩ := hs.validations x hx
    exact depositAt_step c (List.getElem?_eq_some_iff.1 hr).1
  have hold : ∀ x ∈ l.validations, ∀ y ∈ l.validations, (∀ s, s ∈ x.2 ↔ s ∈ y.2) →
      depositAt (l.step E c).vault x.1 = depositAt (l.step E c).vault y.1 := by
    intro x hx y hy hxy
    rw [hkeep x hx, hkeep y hy]
    exact hb x hx y hy hxy
  rcases step_validations E l c with h | ⟨i, sigs, rfl, hpass, h⟩
  · refine iff_of_true ?_ ?_
    · unfold Bound
      rw [h]
      exact hold
    · cases c with
      | validate i sigs =>
        intro hpass
        have hlen := congrArg List.length ((step_validate_ok hpass ▸ h :))
        exact absurd hlen (Nat.succ_ne_self _)
      | submit r => trivial
      | mint i => trivial
      | burn a => trivial
  · have hi : i < l.vault.pendingIngests.length := by
      obtain ⟨r, hr, -⟩ := hpass
      exact (List.getElem?_eq_some_iff.1 hr).1
    have hkeepi := depositAt_step (E := E) (.validate i sigs) hi
    unfold Bound
    rw [h]
    constructor
    · intro hb' _ x hx hsame
      -- the two validations are of requests with different deposits
      have he := hb' x (List.mem_cons_of_mem _ hx) (i, sigs) List.mem_cons_self hsame
      rw [hkeep x hx, hkeepi] at he
      exact absurd he.symm (hs.depositAt_ne hpass hx)
    · intro hun
      have hdiff := fun x hx => hs.differs hE hun hpass (x := x) hx
      intro x hx y hy hxy
      rcases List.mem_cons.1 hx with rfl | hx
      · rcases List.mem_cons.1 hy with rfl | hy
        · rfl
        · exact absurd (fun s => (hxy s).symm) (hdiff y hy)
      · rcases List.mem_cons.1 hy with rfl | hy
        · exact absurd hxy (hdiff x hx)
        · exact hold x hx y hy hxy

/-- **Binding.** Two requests have one message exactly if they have one deposit or shifted bytes; in a
run from a new vault, with any keys, a set of signatures validates one deposit only, and no deposit
is minted twice, exactly if no signatures are given again for shifted bytes. -/
theorem bound_run_iff (threshold totalValidators : Nat) (tss : TssManager) (calls : List VaultCall)
    (hE : tss.Binds E {m | ∃ r, .submit r ∈ calls ∧ buildIngestMessage r = m}) :
    (∀ r r' : IngestRequest, (r.deposit ≠ r'.deposit → buildIngestMessage r ≠ buildIngestMessage r') ↔
        ¬(Shifted r r' ∨ Shifted r' r)) ∧
      (Runs.Always (step E) (fun l => l.Bound ∧ l.MintedOnce)
          (start { OmniVault.new threshold totalValidators with tss := tss }) calls ↔
        Runs.Each (step E) (Unshifted E)
          (start { OmniVault.new threshold totalValidators with tss := tss }) calls) := by
  constructor
  · intro r r'
    constructor
    · rintro hne (h | h)
      · exact hne h.deposit_ne h.message_eq
      · exact hne h.deposit_ne.symm h.message_eq.symm
    · intro hshift hd hm
      exact (message_eq_iff.1 hm).elim hd hshift
  · have hsigned : Signed E tss {m | ∃ r, .submit r ∈ calls ∧ buildIngestMessage r = m}
        (start { OmniVault.new threshold totalValidators with tss := tss }) :=
      ⟨rfl, .start _, List.nodup_nil, nofun, nofun⟩
    have hmsg : ∀ c ∈ calls, ∀ r, c = .submit r →
        buildIngestMessage r ∈ {m | ∃ r, .submit r ∈ calls ∧ buildIngestMessage r = m} := by
      rintro c hc r rfl
      exact ⟨r, hc, rfl⟩
    refine Runs.always_iff_each (fun l c hc hs _ => hs.step (hmsg c hc)) ?_ (fun _ h => h) hsigned
      ⟨nofun, hsigned.mintedOnce⟩
    intro l c hc hs hb
    rw [← bound_step_iff hE hs hb.1]
    exact and_iff_left (hs.step (hmsg c hc)).mintedOnce

end VaultLog

namespace Sample

/-- The bytes of one deposit, cut elsewhere between chain and transaction hash. -/
def shifted : IngestRequest := ingest "ethereu" [0x6D, 0xAA] .pending

def shiftedRun : List VaultCall :=
  [.submit deposit, .submit shifted, .validate 0 [partialOf 0 deposit, partialOf 1 deposit],
    .validate 1 [partialOf 0 deposit, partialOf 1 deposit], .mint 0, .mint 1]

end Sample

open Sample VaultLog in
theorem bound_run_deposit :
    (∀ r r' : IngestRequest, (r.deposit ≠ r'.deposit → buildIngestMessage r ≠ buildIngestMessage r') ↔
        ¬(Shifted r r' ∨ Shifted r' r)) ∧
      (Runs.Always (step tssEnv) (fun l => l.Bound ∧ l.MintedOnce)
          (start { OmniVault.new 2 3 with tss := tss }) depositRun ↔
        Runs.Each (step tssEnv) (Unshifted tssEnv)
          (start { OmniVault.new 2 3 with tss := tss }) depositRun) :=
  bound_run_iff 2 3 tss depositRun (by
    have honly : ∀ r, .submit r ∈ depositRun → r = deposit := fun r hr => by
      simpa [depositRun] using hr
    rintro p - sig m ⟨r, hr, rfl⟩ m' ⟨r', hr', rfl⟩ - -
    rw [honly r hr, honly r' hr'])

open Sample VaultLog in
/-- The signatures of one deposit are given for another, and both are minted. -/
theorem shifted_deposit_minted :
    ¬((∀ r r' : IngestRequest, r.deposit ≠ r'.deposit →
          buildIngestMessage r ≠ buildIngestMessage r') ∨
        ∀ (E : TssEnv) (v : OmniVault), v.tss.Generated E → v.pendingIngests = [] → ∀ calls,
          Runs.Always (step E) (fun l => l.Bound ∧ l.MintedOnce) (start v) calls) := by
  rintro (h | h)
  · exact h deposit shifted (by decide +kernel) (by decide +kernel)
  · have hrun := h tssEnv { OmniVault.new 2 3 with tss := tss } tss_generated rfl shiftedRun
    have hbound := hrun.last.1 (1, [partialOf 0 deposit, partialOf 1 deposit]) (by decide +kernel)
      (0, [partialOf 0 deposit, partialOf 1 deposit]) (by decide +kernel) fun _ => Iff.rfl
    revert hbound
    decide +kernel

end Zentra

import ZentraChain.Lib.Runs
import ZentraChain.Node.Payout

/-!
# Claims from the faucet (`rpc.rs`)

A claim checks the cooldown of its address, pays from the faucet's wallet, and is recorded. The locks
are taken for each of the three by itself, so claims overlap.

* `ClaimLog.faucetClaim_run`: a claim by itself goes through the three.
* `ClaimLog.spaced_run_iff`: claims for one address are a cooldown apart exactly if those are that the
  check of the later one cannot see: under another text, or recorded after it.
-/

namespace Zentra

/-- `FAUCET_CLAIM_ZENTS`. -/
def faucetClaimZents : Nat := 100000000

/-- `FAUCET_FEE_ZENTS`. -/
def faucetFeeZents : Nat := 1000

/-- `FAUCET_COOLDOWN_MS`. -/
def faucetCooldownMs : Nat := 6 * 60 * 60 * 1000

inductive ClaimError
  | address (e : AddressError)
  /-- `This address already claimed. Try again in ~{} min.` -/
  | cooldown (waitMin : Nat)
  | mnemonic
  /-- `The faucet is empty right now — please donate to refill it.` -/
  | empty
  | mempool (e : MempoolError)
  deriving DecidableEq, Repr

/-- The wallet of the faucet: the key that its mnemonic gives, and its address in text. -/
structure FaucetWallet (E : Env) where
  key : Option (Keypair E)
  address : String

structure FaucetNode where
  node : Node
  /-- When an address last claimed, by its text. -/
  faucetClaims : Finmap fun _ : String => Nat
  faucetTotalClaims : Nat

section
variable (E : Env) (B : Bech32)

/-- The check of a claim: its address, if that has no claim within the cooldown. -/
def FaucetNode.checkClaim (f : FaucetNode) (address : String) (now : Nat) :
    Except ClaimError Address :=
  match Address.fromBech32 B address with
  | .error e => .error (.address e)
  | .ok toAddress =>
    match f.faucetClaims.lookup address with
    | none => .ok toAddress
    | some last =>
      let elapsed := now - last
      if elapsed < faucetCooldownMs then
        .error (.cooldown ((faucetCooldownMs - elapsed) / 60000 + 1))
      else .ok toAddress

/-- The transaction of a claim, if the wallet covers it. -/
def buildClaim (kp : Keypair E) (faucetAddr toAddress : Address)
    (utxos : List (OutPoint × UtxoEntry)) : Option Transaction :=
  let needed : Amount := ⟨faucetClaimZents + faucetFeeZents, by decide⟩
  let (selected, acc) := takeUtxos needed utxos .zero
  if acc.zents < needed.zents then none
  else
    let change := acc.saturatingSub needed
    some (signTransfer E kp
      { version := 1
        txType := .transfer
        inputs := selected.map fun x => ⟨x.1.txHash, x.1.index, [], kp.publicKey⟩
        outputs := .standard toAddress ⟨faucetClaimZents, by decide⟩ [] ::
          if change.zents > 0 then [.standard faucetAddr change []] else []
        payload := []
        lockTime := 0 })

/-- The payment of a claim, from the mature outputs of the wallet. -/
def FaucetNode.payClaim (w : FaucetWallet E) (f : FaucetNode) (now : Nat)
    (utxos : List (OutPoint × UtxoEntry)) (toAddress : Address) :
    Except ClaimError (Hash × FaucetNode) :=
  match w.key with
  | none => .error .mnemonic
  | some kp =>
    match Address.fromBech32 B w.address with
    | .error e => .error (.address e)
    | .ok faucetAddr =>
      match buildClaim E kp faucetAddr toAddress utxos with
      | none => .error .empty
      | some tx =>
        match f.node.mempool.addTransaction E now tx ⟨faucetFeeZents, by decide⟩ with
        | .error e => .error (.mempool e)
        | .ok m => .ok (tx.txid E, { f with node := { f.node with mempool := m } })

/-- The record of a claim. -/
def FaucetNode.recordClaim (f : FaucetNode) (address : String) (now : Nat) : FaucetNode :=
  { f with
    faucetClaims := f.faucetClaims.insert address now
    faucetTotalClaims := Wrapping.add (2 ^ 64) f.faucetTotalClaims 1 }

/-- `faucet_claim`, when nothing else happens: at the times of its check, its payment and its
record. -/
def FaucetNode.faucetClaim (w : FaucetWallet E) (f : FaucetNode) (address : String)
    (utxos : List (OutPoint × UtxoEntry)) (checked paid recorded : Nat) :
    Except ClaimError (Hash × FaucetNode) :=
  match f.checkClaim B address checked with
  | .error e => .error e
  | .ok toAddress =>
    match f.payClaim E B w paid utxos toAddress with
    | .error e => .error e
    | .ok (txid, f) => .ok (txid, f.recordClaim address recorded)

end

/-! ## Overlapping claims -/

/-- A claim that has passed its check. -/
structure FaucetClaim where
  address : String
  toAddress : Address
  checkedAt : Nat
  deriving DecidableEq

/-- A claim that succeeded. -/
structure FaucetGrant where
  address : String
  toAddress : Address
  time : Nat
  deriving DecidableEq

inductive ClaimCall
  | check (address : String) (elapsed : Nat)
  /-- The `i`-th of the claims that are checked pays. -/
  | pay (i : Nat) (utxos : List (OutPoint × UtxoEntry)) (elapsed : Nat)
  /-- The `i`-th of the claims that are paid is recorded. -/
  | record (i : Nat) (elapsed : Nat)
  /-- Anything else that the node does. -/
  | node (n : Node)

/-- The claims of a run. -/
structure ClaimLog where
  faucet : FaucetNode
  checked : List FaucetClaim
  paid : List FaucetClaim
  /-- Last first. -/
  granted : List FaucetGrant
  clock : Nat

namespace ClaimLog

def start (n : Node) : ClaimLog := ⟨⟨n, ∅, 0⟩, [], [], [], 0⟩

/-- The clock goes on by `elapsed`. -/
def step (E : Env) (B : Bech32) (w : FaucetWallet E) (l : ClaimLog) : ClaimCall → ClaimLog
  | .check address elapsed =>
    let now := l.clock + elapsed
    match l.faucet.checkClaim B address now with
    | .error _ => { l with clock := now }
    | .ok toAddress =>
      { l with checked := l.checked ++ [⟨address, toAddress, now⟩], clock := now }
  | .pay i utxos elapsed =>
    let now := l.clock + elapsed
    match l.checked[i]? with
    | none => l
    | some c =>
      match l.faucet.payClaim E B w now utxos c.toAddress with
      | .error _ => { l with checked := l.checked.eraseIdx i, clock := now }
      | .ok (_, f) =>
        { l with
          faucet := f
          checked := l.checked.eraseIdx i
          paid := l.paid ++ [c]
          clock := now }
  | .record i elapsed =>
    let now := l.clock + elapsed
    match l.paid[i]? with
    | none => l
    | some c =>
      { l with
        faucet := l.faucet.recordClaim c.address now
        paid := l.paid.eraseIdx i
        granted := ⟨c.address, c.toAddress, now⟩ :: l.granted
        clock := now }
  | .node n => { l with faucet := { l.faucet with node := n } }

/-- Two claims for one address are a cooldown apart. -/
def Spaced (l : ClaimLog) : Prop :=
  l.granted.Pairwise fun g earlier =>
    earlier.toAddress = g.toAddress → earlier.time + faucetCooldownMs ≤ g.time

/-- When a claim is recorded, those for its address are a cooldown ago that are under another text,
or came after its check. -/
def Apart (l : ClaimLog) : ClaimCall → Prop
  | .record i elapsed => ∀ c, l.paid[i]? = some c → ∀ g ∈ l.granted, g.toAddress = c.toAddress →
    g.address ≠ c.address ∨ c.checkedAt ≤ g.time →
      g.time + faucetCooldownMs ≤ l.clock + elapsed
  | _ => True

/-- The claims that the check of `c` could see are a cooldown before it. -/
structure Checked (l : ClaimLog) (c : FaucetClaim) : Prop where
  past : c.checkedAt ≤ l.clock
  seen : ∀ g ∈ l.granted, g.address = c.address → g.time < c.checkedAt →
    g.time + faucetCooldownMs ≤ c.checkedAt

structure Tracked (l : ClaimLog) : Prop where
  past : ∀ g ∈ l.granted, g.time ≤ l.clock
  claims : ∀ g ∈ l.granted, ∃ t, l.faucet.faucetClaims.lookup g.address = some t ∧ g.time ≤ t
  checked : ∀ c ∈ l.checked, l.Checked c
  paid : ∀ c ∈ l.paid, l.Checked c

variable {E : Env} {B : Bech32} {w : FaucetWallet E} {l : ClaimLog} {c : ClaimCall}

theorem Tracked.start (n : Node) : (start n).Tracked := ⟨nofun, nofun, nofun, nofun⟩

/-- A check that passes. -/
theorem checkClaim_ok {f : FaucetNode} {address : String} {now : Nat} {toAddress : Address}
    (h : f.checkClaim B address now = .ok toAddress) :
    Address.fromBech32 B address = .ok toAddress ∧
      ∀ t, f.faucetClaims.lookup address = some t → t + faucetCooldownMs ≤ now := by
  have hpos : 0 < faucetCooldownMs := by decide
  unfold FaucetNode.checkClaim at h
  cases ha : Address.fromBech32 B address with
  | error e => simp [ha] at h
  | ok a =>
    cases hl : f.faucetClaims.lookup address with
    | none => simpa [ha, hl] using h
    | some last =>
      by_cases hlt : now - last < faucetCooldownMs
      · simp [ha, hl, hlt] at h
      · simp only [ha, hl, if_neg hlt, Except.ok.injEq] at h
        refine ⟨congrArg _ h, fun t ht => ?_⟩
        cases ht
        omega

theorem payClaim_ok {f f' : FaucetNode} {now : Nat} {utxos : List (OutPoint × UtxoEntry)}
    {toAddress : Address} {txid : Hash}
    (h : f.payClaim E B w now utxos toAddress = .ok (txid, f')) :
    f'.faucetClaims = f.faucetClaims := by
  unfold FaucetNode.payClaim at h
  split at h
  · cases h
  · split at h
    · cases h
    · split at h
      · cases h
      · split at h
        · cases h
        · cases h
          rfl

/-- Time goes on. -/
theorem Checked.later {l' : ClaimLog} {x : FaucetClaim} (h : l.Checked x)
    (hclock : l.clock ≤ l'.clock) (hgranted : l'.granted = l.granted) : l'.Checked x :=
  ⟨h.past.trans hclock, hgranted ▸ h.seen⟩

/-- A claim that is recorded now is not seen by the checks before. -/
theorem Checked.grant {l' : ClaimLog} {x : FaucetClaim} {g : FaucetGrant} (h : l.Checked x)
    (hclock : l.clock ≤ l'.clock) (hg : l.clock ≤ g.time) (hgranted : l'.granted = g :: l.granted) :
    l'.Checked x := by
  refine ⟨h.past.trans hclock, ?_⟩
  rw [hgranted]
  intro y hy hsame hlt
  rcases List.mem_cons.1 hy with rfl | hy
  · have := h.past
    omega
  · exact h.seen y hy hsame hlt

theorem Tracked.check (ht : l.Tracked) (address : String) (elapsed : Nat) :
    (l.step E B w (.check address elapsed)).Tracked := by
  obtain ⟨hpast, hclaims, hchecked, hpaid⟩ := ht
  simp only [ClaimLog.step]
  have hle : l.clock ≤ l.clock + elapsed := Nat.le_add_right _ _
  cases hc : l.faucet.checkClaim B address (l.clock + elapsed) with
  | error e =>
    exact ⟨fun g hg => (hpast g hg).trans hle, hclaims,
      fun x hx => (hchecked x hx).later hle rfl, fun x hx => (hpaid x hx).later hle rfl⟩
  | ok toAddress =>
    refine ⟨fun g hg => (hpast g hg).trans hle, hclaims, ?_,
      fun x hx => (hpaid x hx).later hle rfl⟩
    intro x hx
    rcases List.mem_append.1 hx with hx | hx
    · exact (hchecked x hx).later hle rfl
    · obtain rfl := List.mem_singleton.1 hx
      refine ⟨Nat.le_refl _, fun g hg hsame _ => ?_⟩
      obtain ⟨t, hlook, hgt⟩ := hclaims g hg
      rw [show g.address = address from hsame] at hlook
      exact (Nat.add_le_add_right hgt _).trans ((checkClaim_ok hc).2 t hlook)

theorem Tracked.pay (ht : l.Tracked) (i : Nat) (utxos : List (OutPoint × UtxoEntry))
    (elapsed : Nat) : (l.step E B w (.pay i utxos elapsed)).Tracked := by
  obtain ⟨hpast, hclaims, hchecked, hpaid⟩ := ht
  simp only [ClaimLog.step]
  have hle : l.clock ≤ l.clock + elapsed := Nat.le_add_right _ _
  cases hi : l.checked[i]? with
  | none => exact ⟨hpast, hclaims, hchecked, hpaid⟩
  | some x =>
    have hrest : ∀ y ∈ l.checked.eraseIdx i, l.Checked y :=
      fun y hy => hchecked y (List.mem_of_mem_eraseIdx hy)
    dsimp only
    cases hp : l.faucet.payClaim E B w (l.clock + elapsed) utxos x.toAddress with
    | error e =>
      exact ⟨fun g hg => (hpast g hg).trans hle, hclaims,
        fun y hy => (hrest y hy).later hle rfl, fun y hy => (hpaid y hy).later hle rfl⟩
    | ok r =>
      obtain ⟨txid, f⟩ := r
      refine ⟨fun g hg => (hpast g hg).trans hle, ?_, fun y hy => (hrest y hy).later hle rfl, ?_⟩
      · exact (payClaim_ok hp).symm ▸ hclaims
      · intro y hy
        rcases List.mem_append.1 hy with hy | hy
        · exact (hpaid y hy).later hle rfl
        · obtain rfl := List.mem_singleton.1 hy
          exact (hchecked y (List.mem_of_getElem? hi)).later hle rfl

theorem Tracked.record (ht : l.Tracked) (i elapsed : Nat) :
    (l.step E B w (.record i elapsed)).Tracked := by
  obtain ⟨hpast, hclaims, hchecked, hpaid⟩ := ht
  simp only [ClaimLog.step]
  have hle : l.clock ≤ l.clock + elapsed := Nat.le_add_right _ _
  cases hi : l.paid[i]? with
  | none => exact ⟨hpast, hclaims, hchecked, hpaid⟩
  | some x =>
    refine ⟨?_, ?_, fun y hy => (hchecked y hy).grant hle hle rfl,
      fun y hy => (hpaid y (List.mem_of_mem_eraseIdx hy)).grant hle hle rfl⟩
    · intro g hg
      rcases List.mem_cons.1 hg with rfl | hg
      · exact Nat.le_refl _
      · exact (hpast g hg).trans hle
    · intro g hg
      simp only [FaucetNode.recordClaim, Finmap.lookup_insert_ite]
      rcases List.mem_cons.1 hg with rfl | hg
      · exact ⟨_, if_pos rfl, Nat.le_refl _⟩
      · by_cases hsame : g.address = x.address
        · exact ⟨_, if_pos hsame, (hpast g hg).trans hle⟩
        · simpa [hsame] using hclaims g hg

/-- **No section of a claim loses track of the claims before.** -/
theorem Tracked.step (ht : l.Tracked) (c : ClaimCall) : (l.step E B w c).Tracked := by
  cases c with
  | check address elapsed => exact ht.check address elapsed
  | pay i utxos elapsed => exact ht.pay i utxos elapsed
  | record i elapsed => exact ht.record i elapsed
  | node n =>
    exact ⟨ht.past, ht.claims, fun x hx => (ht.checked x hx).later (Nat.le_refl _) rfl,
      fun x hx => (ht.paid x hx).later (Nat.le_refl _) rfl⟩

/-- **A claim by itself**: the run of its three sections does what `faucet_claim` does. -/
theorem faucetClaim_run {address : String} {utxos : List (OutPoint × UtxoEntry)}
    {elapsed elapsed' elapsed'' : Nat} {txid : Hash} {f : FaucetNode} (hc : l.checked = [])
    (hp : l.paid = [])
    (h : l.faucet.faucetClaim E B w address utxos (l.clock + elapsed)
      (l.clock + elapsed + elapsed') (l.clock + elapsed + elapsed' + elapsed'') = .ok (txid, f)) :
    ∃ g, g.address = address ∧ Address.fromBech32 B address = .ok g.toAddress ∧
      [.check address elapsed, .pay 0 utxos elapsed', .record 0 elapsed''].foldl (step E B w) l =
        ⟨f, [], [], g :: l.granted, g.time⟩ := by
  unfold FaucetNode.faucetClaim at h
  cases hcheck : l.faucet.checkClaim B address (l.clock + elapsed) with
  | error e => simp [hcheck] at h
  | ok toAddress =>
    simp only [hcheck] at h
    cases hpay : l.faucet.payClaim E B w (l.clock + elapsed + elapsed') utxos toAddress with
    | error e => simp [hpay] at h
    | ok r =>
      simp only [hpay, Except.ok.injEq, Prod.mk.injEq] at h
      refine ⟨⟨address, toAddress, l.clock + elapsed + elapsed' + elapsed''⟩, rfl,
        (checkClaim_ok hcheck).1, ?_⟩
      simp [step, hcheck, hpay, hc, hp, h.2]

/-- **Which records keep the claims apart.** -/
theorem spaced_step_iff (ht : l.Tracked) (hs : l.Spaced) :
    (l.step E B w c).Spaced ↔ l.Apart c := by
  cases c with
  | check address elapsed =>
    refine iff_of_true ?_ trivial
    simp only [step]
    split <;> exact hs
  | pay i utxos elapsed =>
    refine iff_of_true ?_ trivial
    simp only [step]
    split
    · exact hs
    · split <;> exact hs
  | node n => exact iff_of_true hs trivial
  | record i elapsed =>
    simp only [step, Apart]
    cases hi : l.paid[i]? with
    | none => exact iff_of_true hs nofun
    | some x =>
      have hx := ht.paid x (List.mem_of_getElem? hi)
      simp only [Spaced, List.pairwise_cons, Option.some.injEq, forall_eq']
      constructor
      · intro h g hg hsame _
        exact h.1 g hg hsame
      · intro h
        refine ⟨fun g hg hsame => ?_, hs⟩
        by_cases hseen : g.address = x.address ∧ g.time < x.checkedAt
        · have hgap := hx.seen g hg hseen.1 hseen.2
          have hpast := hx.past
          omega
        · refine h g hg hsame ?_
          by_cases htext : g.address = x.address
          · exact .inr (Nat.not_lt.1 fun hlt => hseen ⟨htext, hlt⟩)
          · exact .inl htext

/-- **Cooldown.** In a run of claims that overlap in any way, those for one address are a cooldown
apart exactly if, whenever one is recorded, those are that its check did not see. -/
theorem spaced_run_iff (E : Env) (B : Bech32) (w : FaucetWallet E) (n : Node)
    (calls : List ClaimCall) :
    Runs.Always (step E B w) Spaced (start n) calls ↔ Runs.Each (step E B w) Apart (start n) calls :=
  Runs.always_iff_each (Q := Tracked) (D := fun _ => True) (fun _ c _ ht _ => ht.step c)
    (fun _ _ _ ht hs => spaced_step_iff ht hs) (fun _ _ => trivial) (.start n) .nil

end ClaimLog

namespace Sample

/-- Two addresses in Bech32m, and the second one also in Bech32. -/
def bothBech32 : Bech32 where
  encode hrp data :=
    hrp ++ if data = List.replicate 32 1 then
      "1qyqszqgpqyqszqgpqyqszqgpqyqszqgpqyqszqgpqyqszqgpqyqsmkzw63"
    else "1qgpqyqszqgpqyqszqgpqyqszqgpqyqszqgpqyqszqgpqyqszqgpqkq9f0e"
  decode s :=
    if s = "zentradev1qyqszqgpqyqszqgpqyqszqgpqyqszqgpqyqszqgpqyqszqgpqyqsmkzw63" then
      some ("zentradev", List.replicate 32 1)
    else if s = "zentradev1qgpqyqszqgpqyqszqgpqyqszqgpqyqszqgpqyqszqgpqyqszqgpqkq9f0e" ∨
        s = "zentradev1qgpqyqszqgpqyqszqgpqyqszqgpqyqszqgpqyqszqgpqyqszqgpqru492m" then
      some ("zentradev", List.replicate 32 2)
    else none

def faucetWallet : FaucetWallet env where
  key := some poolKey
  address := "zentradev1qyqszqgpqyqszqgpqyqszqgpqyqszqgpqyqszqgpqyqszqgpqyqsmkzw63"

/-- The wallet when the change of the first claim is confirmed. -/
def afterClaim : Node :=
  { run [] with utxo :=
      UtxoSet.empty.insert ⟨⟨1002⟩, 1⟩ ⟨⟨899999000, by decide⟩, poolAddress, 1, false⟩ }

/-- An address claims in Bech32m, and a minute later in Bech32. -/
def claimRun : List ClaimCall :=
  [.check "zentradev1qgpqyqszqgpqyqszqgpqyqszqgpqyqszqgpqyqszqgpqyqszqgpqkq9f0e" 100000000,
    .pay 0 poolUtxos 1, .record 0 1, .node afterClaim,
    .check "zentradev1qgpqyqszqgpqyqszqgpqyqszqgpqyqszqgpqyqszqgpqyqszqgpqru492m" 60000,
    .pay 0 [(⟨⟨1002⟩, 1⟩, ⟨⟨899999000, by decide⟩, poolAddress, 1, false⟩)] 1, .record 0 1]

end Sample

open Sample in
/-- The second text has no cooldown. -/
theorem claims_in_two_texts :
    ¬∀ (E : Env) (B : Bech32) (w : FaucetWallet E) (n : Node) (calls : List ClaimCall),
      Runs.Always (ClaimLog.step E B w) ClaimLog.Spaced (ClaimLog.start n) calls := by
  intro h
  have hlast := (h env bothBech32 faucetWallet poolWallet claimRun).last
  revert hlast
  have hgranted : (claimRun.foldl (ClaimLog.step env bothBech32 faucetWallet)
      (ClaimLog.start poolWallet)).granted =
        [⟨"zentradev1qgpqyqszqgpqyqszqgpqyqszqgpqyqszqgpqyqszqgpqyqszqgpqru492m",
            ⟨Borsh.ofBe (List.replicate 32 2), .devnet⟩, 100060004⟩,
          ⟨"zentradev1qgpqyqszqgpqyqszqgpqyqszqgpqyqszqgpqyqszqgpqyqszqgpqkq9f0e",
            ⟨Borsh.ofBe (List.replicate 32 2), .devnet⟩, 100000002⟩] := by decide +kernel
  rw [ClaimLog.Spaced, hgranted]
  decide

end Zentra

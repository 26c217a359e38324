import ZentraChain.Core.Address
import ZentraChain.Finance.VaultThreshold

/-!
# The vault behind the RPC (`rpc.rs`)

`vault_deposit` takes the lock of the vault twice and that of the market once; other handlers run
between its sections. The vault of a node never gets keys, so a deposit that is submitted panics
when it is signed (`deposit_sound_iff`); one that went through would put its fee into two pools
(`deposit_ok_zusd`).
-/

namespace Zentra

/-- What the handlers use from outside the repository. -/
structure RpcEnv extends TssEnv where
  /-- `hex::decode`. -/
  hexDecode : String → Option (List UInt8)
  bech32 : Bech32
  /-- `config.network`. -/
  network : NetworkType

/-- The vault and the market of a node, each behind its lock. -/
structure NodeFinance where
  vault : OmniVault
  ammPool : LiquidityPool
  deriving DecidableEq, Repr

/-- The result of `vault_deposit`. -/
structure DepositResult where
  zusdMinted : U128
  feeDeducted : U128
  lpBurned : U128
  newReserveZusd : U128
  deriving DecidableEq, Repr

/-- `amount as u128`. -/
def U128.ofU64 (a : UInt64) : U128 :=
  ⟨a.toNat, Nat.le_of_lt_succ (a.toNat_lt.trans (by decide))⟩

/-! ## `vault_deposit` -/

section
variable (E : RpcEnv)

/-- A text that is not hexadecimal stands for 32 bytes `0xAA`. -/
def depositTxHash (txHash : String) : List UInt8 :=
  (E.hexDecode txHash).getD (List.replicate 32 0xAA)

/-- The depositor is the address of the zero key. -/
def depositor : Address := .fromPublicKey E.hash 0 E.network

def depositRequest (txHash : String) (amount : UInt64) : IngestRequest where
  externalChain := "ethereum"
  externalTxHash := depositTxHash E txHash
  depositorAddress := depositor E
  stablecoinAmount := .ofU64 amount
  status := .pending
  depositor_lt := Address.fromPublicKey_lt ..

def depositMessage (txHash : String) (amount : UInt64) : List UInt8 :=
  "ethereum".toUTF8.data.toList ++ depositTxHash E txHash ++
    Borsh.bytes32 (depositor E).payload ++ Borsh.le 16 (U128.ofU64 amount).val

/-- The first section: submit the request, and find its place. -/
def depositSubmit (v : OmniVault) (txHash : String) (amount : UInt64) :
    OmniVault × Except VaultError Nat :=
  match v.submitIngest (depositRequest E txHash amount) with
  | (v, .error e) => (v, .error e)
  | (v, .ok _) => (v, .ok (v.pendingIngests.length - 1))

/-- The signatures of some participants; a missing participant, or a secret key of another length,
is a panic. -/
def depositSigs (v : OmniVault) (message : List UInt8) :
    List Nat → Option (List (Nat × List UInt8))
  | [] => some []
  | i :: rest =>
    match v.tss.participants[i]? with
    | none => none
    | some p =>
      if p.secretShare.length ≠ 32 then none
      else
        (depositSigs v message rest).map fun sigs => (i, E.sign p.secretShare message) :: sigs

/-- The second section: sign as the first three participants, validate and mint. -/
def depositMint (v : OmniVault) (requestIdx : Nat) (message : List UInt8) :
    OmniVault × Except VaultStop MintResult :=
  match depositSigs E v message [0, 1, 2] with
  | none => (v, .error .panic)
  | some sigs =>
    match v.validateIngest E.toTssEnv requestIdx sigs with
    | (v, .error e) => (v, .error (.error e))
    | (v, .ok _) => v.mintZusd requestIdx

end

/-- The last section: inject the fee. -/
def depositInject (pool : LiquidityPool) (res : MintResult) :
    LiquidityPool × Except VaultStop DepositResult :=
  match pool.injectProtocolLiquidity .zero res.feeDeducted with
  | (pool, .error _) => (pool, .error .panic)
  | (pool, .ok _) =>
    (pool, .ok ⟨res.zusdMinted, res.feeDeducted, res.lpBurned, pool.reserveZusd⟩)

/-! ## All handlers -/

/-- What a handler does under one lock. The later sections of a deposit may come at any time and with
any arguments, so there are more runs here than the handlers make. -/
inductive FinanceCall
  | submit (txHash : String) (amount : UInt64)
  | mint (requestIdx : Nat) (message : List UInt8)
  | inject (res : MintResult)
  /-- `vault_withdraw`. -/
  | withdraw (address : String) (amount : UInt64)
  /-- `swap_tokens`; the least amount out is looked at after the swap. -/
  | swap (tokenIn : String) (amountIn minAmountOut : UInt64)

/-- The node after a section, whatever it returns. -/
def FinanceCall.apply (E : RpcEnv) (s : NodeFinance) : FinanceCall → NodeFinance
  | submit txHash amount => { s with vault := (depositSubmit E s.vault txHash amount).1 }
  | mint requestIdx message => { s with vault := (depositMint E s.vault requestIdx message).1 }
  | inject res => { s with ammPool := (depositInject s.ammPool res).1 }
  | withdraw address amount =>
    match Address.fromBech32 E.bech32 address with
    | .error _ => s
    | .ok _ => { s with vault := (s.vault.burnZusd (.ofU64 amount)).1 }
  | swap tokenIn amountIn _ =>
    { s with
      ammPool :=
        if tokenIn.toLower = "ztr" then (s.ammPool.swapZtrToZusd (.ofU64 amountIn)).1
        else (s.ammPool.swapZusdToZtr (.ofU64 amountIn)).1 }

namespace NodeFinance

/-- `ZentraNode::new`. -/
def new : NodeFinance := ⟨.new 2 3, .new⟩

/-- A new node after any sections of its handlers. -/
def Reachable (E : RpcEnv) (s : NodeFinance) : Prop :=
  ∃ calls : List FinanceCall, s = calls.foldl (FinanceCall.apply E) new

/-- The zUSD in circulation, and in the reserves of both pools. -/
def zusd (s : NodeFinance) : Int :=
  s.vault.totalZusdMinted.val - s.vault.totalZusdBurned.val + s.vault.pol.pool.reserveZusd.val +
    s.ammPool.reserveZusd.val

end NodeFinance

/-- A run of `vault_deposit`: how it ends, and the node before and after each of its sections. -/
structure DepositRun where
  result : Except VaultStop DepositResult
  sections : List (NodeFinance × NodeFinance)

/-- `vault_deposit`, with what the other handlers do between its sections. -/
def vaultDeposit (E : RpcEnv) (s : NodeFinance) (others others' : List FinanceCall)
    (txHash : String) (amount : UInt64) : DepositRun :=
  match depositSubmit E s.vault txHash amount with
  | (vault, .error e) => ⟨.error (.error e), [(s, { s with vault := vault })]⟩
  | (vault, .ok requestIdx) =>
    let s₁ : NodeFinance := { s with vault := vault }
    let s₂ := others.foldl (FinanceCall.apply E) s₁
    match depositMint E s₂.vault requestIdx (depositMessage E txHash amount) with
    | (vault, .error e) => ⟨.error e, [(s, s₁), (s₂, { s₂ with vault := vault })]⟩
    | (vault, .ok res) =>
      let s₃ : NodeFinance := { s₂ with vault := vault }
      let s₄ := others'.foldl (FinanceCall.apply E) s₃
      match depositInject s₄.ammPool res with
      | (ammPool, result) =>
        ⟨result, [(s, s₁), (s₂, s₃), (s₄, { s₄ with ammPool := ammPool })]⟩

/-- A run does not panic; if it succeeds, its sections put the amount into circulation or reserves; if
it returns an error, they change nothing. -/
def DepositRun.Sound (d : DepositRun) (amount : UInt64) : Prop :=
  match d.result with
  | .ok _ => (d.sections.map fun x => x.2.zusd - x.1.zusd).sum = amount.toNat
  | .error .panic => False
  | .error (.error _) => ∀ x ∈ d.sections, x.2 = x.1

/-! ## A vault without keys -/

variable {E : RpcEnv} {s : NodeFinance} {txHash : String} {amount : UInt64}

theorem VaultCall.apply_tss (E : TssEnv) (v : OmniVault) (c : VaultCall) :
    (c.apply E v).tss = v.tss := by
  have h := VaultLog.step_tss E (.start v) c
  rw [VaultLog.vault_step] at h
  exact h

theorem depositSubmit_ok (h : s.vault.Accepts (depositRequest E txHash amount)) :
    depositSubmit E s.vault txHash amount =
      (s.vault.push (depositRequest E txHash amount), .ok s.vault.pendingIngests.length) := by
  unfold depositSubmit
  rw [OmniVault.submitIngest_ok h]
  simp only [OmniVault.push_pendingIngests, List.length_append, List.length_singleton,
    Nat.add_sub_cancel]

theorem depositSubmit_error (h : ¬s.vault.Accepts (depositRequest E txHash amount)) :
    ∃ e, depositSubmit E s.vault txHash amount = (s.vault, .error e) := by
  obtain ⟨e, he⟩ := OmniVault.submitIngest_error h
  unfold depositSubmit
  rw [he]
  exact ⟨e, rfl⟩

/-- Without participants, the first signature is a panic. -/
theorem depositMint_panic {v : OmniVault} (hv : v.tss.participants = []) (i : Nat)
    (message : List UInt8) : depositMint E v i message = (v, .error .panic) := by
  have hsigs : depositSigs E v message [0, 1, 2] = none := by
    rw [depositSigs, hv]
    rfl
  rw [depositMint, hsigs]

/-- No section gives the vault keys. -/
theorem FinanceCall.apply_participants (c : FinanceCall)
    (hs : s.vault.tss.participants = []) : (c.apply E s).vault.tss.participants = [] := by
  cases c with
  | submit txHash amount =>
    show (depositSubmit E s.vault txHash amount).1.tss.participants = []
    by_cases h : s.vault.Accepts (depositRequest E txHash amount)
    · rw [depositSubmit_ok h]
      exact hs
    · obtain ⟨e, he⟩ := depositSubmit_error h
      rw [he]
      exact hs
  | mint requestIdx message =>
    show (depositMint E s.vault requestIdx message).1.tss.participants = []
    rw [depositMint_panic hs]
    exact hs
  | inject res => exact hs
  | swap tokenIn amountIn minAmountOut => exact hs
  | withdraw address a =>
    have htss : (s.vault.burnZusd (.ofU64 a)).1.tss = s.vault.tss :=
      VaultCall.apply_tss E.toTssEnv s.vault (.burn (.ofU64 a))
    simp only [FinanceCall.apply]
    split
    · exact hs
    · show (s.vault.burnZusd (.ofU64 a)).1.tss.participants = []
      rw [htss]
      exact hs

theorem run_participants (calls : List FinanceCall) (hs : s.vault.tss.participants = []) :
    (calls.foldl (FinanceCall.apply E) s).vault.tss.participants = [] := by
  induction calls generalizing s with
  | nil => exact hs
  | cons c cs ih => exact ih (c.apply_participants hs)

/-- **Deposits.** In every state of a node, and whatever the other handlers do meanwhile, a deposit is
sound exactly if it is refused: its amount is zero, or its hash is in the queue. -/
theorem deposit_sound_iff (hs : s.Reachable E) (others others' : List FinanceCall) (txHash : String)
    (amount : UInt64) : (vaultDeposit E s others others' txHash amount).Sound amount ↔
      amount = 0 ∨ ∃ q ∈ s.vault.pendingIngests, q.externalTxHash = depositTxHash E txHash := by
  have hkeys : s.vault.tss.participants = [] := by
    obtain ⟨calls, rfl⟩ := hs
    exact run_participants calls rfl
  have hacc : s.vault.Accepts (depositRequest E txHash amount) ↔
      ¬(amount = 0 ∨ ∃ q ∈ s.vault.pendingIngests, q.externalTxHash = depositTxHash E txHash) := by
    have hzero : (U128.ofU64 amount).val = 0 ↔ amount = 0 := UInt64.toNat_inj (b := 0)
    rw [not_or, OmniVault.Accepts]
    refine and_congr (not_congr hzero) ?_
    push Not
    rfl
  by_cases h : s.vault.Accepts (depositRequest E txHash amount)
  · refine iff_of_false ?_ (hacc.1 h)
    have hkeys' : (others.foldl (FinanceCall.apply E)
        { s with vault := s.vault.push (depositRequest E txHash amount) }).vault.tss.participants =
        [] := run_participants others hkeys
    unfold vaultDeposit
    simp only [depositSubmit_ok h, depositMint_panic hkeys']
    exact id
  · refine iff_of_true ?_ (not_not.1 (mt hacc.2 h))
    obtain ⟨e, he⟩ := depositSubmit_error h
    unfold vaultDeposit
    rw [he]
    exact List.forall_mem_singleton.2 rfl

/-! ## A vault with keys -/

/-- A mint behind the RPC is of a pending request, and splits its amount. -/
theorem depositMint_ok {v v' : OmniVault} {i : Nat} {message : List UInt8} {res : MintResult}
    {r : IngestRequest} (hr : v.pendingIngests[i]? = some r)
    (h : depositMint E v i message = (v', .ok res)) :
    ∃ pol net, v' = ({ v with
          pol := pol
          totalZusdMinted := v.totalZusdMinted.saturatingAdd net }.setStatus i .validated).setStatus
        i .minted ∧
      res.feeDeducted = ingestFee r.stablecoinAmount ∧
      net.val + (ingestFee r.stablecoinAmount).val = r.stablecoinAmount.val ∧
      pol.pool.reserveZusd = v.pol.pool.reserveZusd.saturatingAdd (ingestFee r.stablecoinAmount) := by
  unfold depositMint at h
  split at h
  · cases h
  · rename_i sigs _
    by_cases hpass : v.Passes E.toTssEnv i sigs
    · rw [OmniVault.validateIngest_ok hpass] at h
      obtain ⟨pol, res', net, hmint, -, hfee, hnet, -, hres⟩ :=
        OmniVault.mintZusd_ok (OmniVault.getElem?_setStatus_self hr) rfl
      simp only [hmint, Prod.mk.injEq, Except.ok.injEq] at h
      obtain ⟨rfl, rfl⟩ := h
      exact ⟨pol, net, rfl, hfee, hnet, hres⟩
    · obtain ⟨e, he⟩ := OmniVault.validateIngest_error hpass
      rw [he] at h
      cases h

/-- **A deposit that goes through** with nothing between puts its fee into both pools. -/
theorem deposit_ok_zusd {res : DepositResult}
    (h : (vaultDeposit E s [] [] txHash amount).result = .ok res)
    (hminted : s.vault.totalZusdMinted.val + amount.toNat < 2 ^ 128)
    (hpol : s.vault.pol.pool.reserveZusd.val + amount.toNat < 2 ^ 128)
    (hamm : s.ammPool.reserveZusd.val + amount.toNat < 2 ^ 128) :
    ((vaultDeposit E s [] [] txHash amount).sections.map fun x => x.2.zusd - x.1.zusd).sum =
      amount.toNat + (ingestFee (.ofU64 amount)).val := by
  by_cases hacc : s.vault.Accepts (depositRequest E txHash amount)
  · unfold vaultDeposit at h ⊢
    simp only [depositSubmit_ok hacc, List.foldl_nil] at h ⊢
    split at h
    · cases h
    · rename_i v' mint hmint
      obtain ⟨pol, net, rfl, hfee, hnet, hres⟩ := depositMint_ok
        (List.getElem?_concat_length (a := depositRequest E txHash amount) ..) hmint
      obtain ⟨q, lp, hq, hqres⟩ := s.ammPool.injectProtocolLiquidity_zusd mint.feeDeducted
      have hinject : depositInject s.ammPool mint =
          (q, .ok ⟨mint.zusdMinted, mint.feeDeducted, mint.lpBurned, q.reserveZusd⟩) := by
        rw [depositInject, hq]
      have hle : net.val + (ingestFee (.ofU64 amount)).val = amount.toNat := hnet
      have hfee_le : (ingestFee (.ofU64 amount)).val ≤ amount.toNat := ingestFee_le (.ofU64 amount)
      have hsat : ∀ {a b : U128}, a.val + b.val < 2 ^ 128 →
          (a.saturatingAdd b).val = a.val + b.val := VaultLog.saturatingAdd_val
      have hm : (s.vault.totalZusdMinted.saturatingAdd net).val =
          s.vault.totalZusdMinted.val + net.val := hsat (by omega)
      have hp : pol.pool.reserveZusd.val =
          s.vault.pol.pool.reserveZusd.val + (ingestFee (.ofU64 amount)).val :=
        (congrArg U128.val hres).trans
          (hsat (Nat.lt_of_le_of_lt (Nat.add_le_add_left hfee_le _) hpol))
      have ha : q.reserveZusd.val = s.ammPool.reserveZusd.val +
          (ingestFee (.ofU64 amount)).val := by
        rw [hqres, hfee]
        exact hsat (Nat.lt_of_le_of_lt (Nat.add_le_add_left hfee_le _) hamm)
      rw [hinject]
      simp only [List.map_cons, List.map_nil, List.sum_cons, List.sum_nil, NodeFinance.zusd,
        OmniVault.setStatus, OmniVault.push, hm, hp, ha]
      push_cast
      omega
  · obtain ⟨e, he⟩ := depositSubmit_error hacc
    unfold vaultDeposit at h
    rw [he] at h
    cases h

namespace Sample

def rpcEnv : RpcEnv where
  toTssEnv := tssEnv
  hexDecode _ := some [0xAA]
  bech32 := ⟨fun _ _ => "", fun _ => none⟩
  network := .devnet

end Sample

open Sample in
theorem deposit_sound_first :
    (vaultDeposit rpcEnv .new [] [] "aa" 1000000).Sound 1000000 ↔
      (1000000 : UInt64) = 0 ∨ ∃ q ∈ NodeFinance.new.vault.pendingIngests,
        q.externalTxHash = depositTxHash rpcEnv "aa" :=
  deposit_sound_iff ⟨[], rfl⟩ [] [] "aa" 1000000

open Sample in
/-- The first deposit of a new node panics. -/
theorem first_deposit_panics :
    ¬∀ (E : RpcEnv) (s : NodeFinance), s.Reachable E → ∀ others others' txHash amount,
      (vaultDeposit E s others others' txHash amount).Sound amount := by
  intro h
  exact h rpcEnv .new ⟨[], rfl⟩ [] [] "aa" 1000000

end Zentra

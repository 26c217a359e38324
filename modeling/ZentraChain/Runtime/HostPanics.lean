import ZentraChain.Runtime.Engine

/-!
# Panics of the host functions (`engine.rs`)

The host functions with every index and addition that can panic, for a build with overflow checks and
one without. `Engine` has the latter.

* `Pointer.fits_justBelow`, `Pointer.readAddress_justBelow`: the bounds check of a pointer at most an
  address below zero overflows, and if it passes nevertheless, there is nothing to read.
* `HostState.callIn_false`: without overflow checks, the functions are those of `Engine`.
* `HostState.callIn_isSome_iff`: which calls return.
-/

namespace Zentra

/-- The exported memory of a contract: at most 65,536 pages. -/
structure GuestMemory where
  data : List UInt8
  length_le : data.length ≤ 2 ^ 32

/-! ## Operations that can panic -/

/-- `a + b` of `u64` or `usize`. An overflow panics if it is checked, and wraps else. -/
def addIn (checks : Bool) (a b : Nat) : Option Nat :=
  if a + b < 2 ^ 64 then some (a + b)
  else if checks then none
  else some (Wrapping.add (2 ^ 64) a b)

theorem addIn_isSome_iff (checks : Bool) (a b : Nat) :
    (addIn checks a b).isSome ↔ ¬(checks = true ∧ 2 ^ 64 ≤ a + b) := by
  unfold addIn
  by_cases h : a + b < 2 ^ 64
  · rw [if_pos h]
    exact iff_of_true rfl fun hc => absurd hc.2 (Nat.not_le.2 h)
  · rw [if_neg h]
    cases checks with
    | true => exact iff_of_false (by simp) fun hc => hc ⟨rfl, Nat.not_lt.1 h⟩
    | false => exact iff_of_true rfl fun hc => absurd hc.1 Bool.false_ne_true

/-- `data[start..stop]`. -/
def sliceAt (data : List UInt8) (start stop : Nat) : Option (List UInt8) :=
  if start ≤ stop ∧ stop ≤ data.length then some ((data.drop start).take (stop - start)) else none

section
variable (checks : Bool) (data : List UInt8)

/-- `ptr + 32 <= data.len()`. -/
def fits (ptr : Nat) : Option Bool :=
  (addIn checks ptr 32).map fun stop => decide (stop ≤ data.length)

/-- `data[ptr..ptr + 32]`, copied. -/
def readAddress (ptr : Nat) : Option Nat :=
  (addIn checks ptr 32).bind fun stop => (sliceAt data ptr stop).map Borsh.ofBe

/-- The message of a log. -/
def logMessageIn (memory : Option GuestMemory) (ptr len : Nat) : Option (Option String) :=
  match memory with
  | none => some none
  | some mem =>
    -- `checked_add`
    if ptr + len < 2 ^ 64 ∧ ptr + len ≤ mem.data.length then
      (addIn checks ptr len).bind fun stop =>
        (sliceAt mem.data ptr stop).map fun bytes => String.fromUTF8? ⟨bytes.toArray⟩
    else some none

end

namespace HostState

variable (checks : Bool) (s : HostState) (memory : Option GuestMemory)

/-- `host_log`. -/
def hostLogIn (ptr len : Int32) : Option HostState :=
  (logMessageIn checks memory (asUsize ptr) (asUsize len)).map fun msg =>
    match msg with
    | none => s
    | some msg =>
      { s with
        gasMeter :=
          match s.gasMeter.consumeLog (asUsize len) with
          | .ok m => m
          | .error _ => s.gasMeter
        logs := s.logs ++ [msg] }

/-- The end of `host_get_balance`: the balance of the address in the memory, or 0. -/
def readBalanceIn (mem : GuestMemory) (addrPtr : Int32) : Option Int64 :=
  (fits checks mem.data (asUsize addrPtr)).bind fun fit =>
    if fit then
      (readAddress checks mem.data (asUsize addrPtr)).map fun addr => Int64.ofNat (s.balance addr)
    else some 0

/-- `host_get_balance`. -/
def hostGetBalanceIn (addrPtr : Int32) : Option (HostState × Int64) :=
  match s.gasMeter.consumeStorageRead with
  | .error _ => some (s, -1)
  | .ok m =>
    match memory with
    | none => some ({ s with gasMeter := m }, 0)
    | some mem => (s.readBalanceIn checks mem addrPtr).map fun v => ({ s with gasMeter := m }, v)

/-- The end of `host_transfer`: the balances of two addresses. -/
def moveIn (sender receiver amount : Nat) : Option (HostState × Int32) :=
  let fromBal := s.balance sender
  if fromBal < amount then some (s, -1)
  else
    let balances := s.balances.insert sender (fromBal - amount)
    let toBal := (balances.lookup receiver).getD 0
    (addIn checks toBal amount).map fun sum =>
      ({ s with balances := balances.insert receiver sum }, 0)

/-- The checks of the pointers; the second one is looked at only if the first one fits. -/
def moveBalanceIn (mem : GuestMemory) (fromPtr toPtr : Int32) (amount : Nat) :
    Option (HostState × Int32) :=
  (fits checks mem.data (asUsize fromPtr)).bind fun fromFits =>
    if fromFits then
      (fits checks mem.data (asUsize toPtr)).bind fun toFits =>
        if toFits then
          (readAddress checks mem.data (asUsize fromPtr)).bind fun sender =>
            (readAddress checks mem.data (asUsize toPtr)).bind fun receiver =>
              s.moveIn checks sender receiver amount
        else some (s, -1)
    else some (s, -1)

/-- `host_transfer`. -/
def hostTransferIn (fromPtr toPtr : Int32) (amount : Int64) : Option (HostState × Int32) :=
  match s.gasMeter.consumeStorageWrite with
  | .error _ => some (s, -1)
  | .ok m =>
    if amount ≤ 0 then some ({ s with gasMeter := m }, -1)
    else
      match memory with
      | none => some ({ s with gasMeter := m }, -1)
      | some mem =>
        { s with gasMeter := m }.moveBalanceIn checks mem fromPtr toPtr amount.toInt.toNat

/-- The state after a call that does not panic. -/
def callIn (function : HostFunction) : Option HostState :=
  match function with
  | .log ptr len => s.hostLogIn checks memory ptr len
  | .getBlockHeight => some s
  | .getBalance addrPtr => (s.hostGetBalanceIn checks memory addrPtr).map (·.1)
  | .transfer fromPtr toPtr amount =>
    (s.hostTransferIn checks memory fromPtr toPtr amount).map (·.1)

end HostState

/-! ## Pointers -/

/-- The 32 bytes of an address at a pointer are within the memory. -/
def InBounds (data : List UInt8) (ptr : Int32) : Prop :=
  0 ≤ ptr.toInt ∧ ptr.toInt + 32 ≤ data.length

instance (data : List UInt8) (ptr : Int32) : Decidable (InBounds data ptr) :=
  inferInstanceAs (Decidable (_ ∧ _))

/-- A pointer at most an address below zero: as a `usize`, 32 more overflow. -/
def JustBelow (ptr : Int32) : Prop := -32 ≤ ptr.toInt ∧ ptr.toInt < 0

instance (ptr : Int32) : Decidable (JustBelow ptr) := inferInstanceAs (Decidable (_ ∧ _))

namespace Pointer

variable {checks : Bool} {mem : GuestMemory} {ptr : Int32} {data : List UInt8}

theorem asUsize_of_nonneg (h : 0 ≤ ptr.toInt) : asUsize ptr = ptr.toInt.toNat := by
  have hlt := ptr.toInt_lt
  unfold asUsize
  omega

theorem asUsize_of_neg (h : ptr.toInt < 0) : asUsize ptr = 2 ^ 64 - (-ptr.toInt).toNat := by
  have hle := ptr.le_toInt
  unfold asUsize
  omega

/-- **The bounds check** of a pointer just below zero overflows: it wraps, or panics. -/
theorem fits_justBelow (h : JustBelow ptr) : fits checks data (asUsize ptr) =
    if checks then none else some (decide (ptr.toInt + 32 ≤ data.length)) := by
  obtain ⟨hle, hlt⟩ := h
  have hptr := asUsize_of_neg hlt
  have hover : ¬asUsize ptr + 32 < 2 ^ 64 := by omega
  rw [fits, addIn, if_neg hover]
  cases checks with
  | true => rfl
  | false =>
    have hwrap : Wrapping.add (2 ^ 64) (asUsize ptr) 32 = (ptr.toInt + 32).toNat := by
      unfold Wrapping.add
      omega
    simp only [Bool.false_eq_true, if_false, Option.map_some, hwrap, Option.some.injEq,
      decide_eq_decide]
    omega

/-- Of any other pointer, it checks the bounds. -/
theorem fits_eq (h : ¬JustBelow ptr) :
    fits checks mem.data (asUsize ptr) = some (decide (InBounds mem.data ptr)) := by
  have hlen := mem.length_le
  have hmin := ptr.le_toInt
  have hmax := ptr.toInt_lt
  unfold JustBelow at h
  rw [fits, addIn]
  by_cases hneg : ptr.toInt < 0
  · have hptr := asUsize_of_neg hneg
    rw [if_pos (by omega), Option.map_some, Option.some.injEq, decide_eq_decide]
    unfold InBounds
    omega
  · have hptr := asUsize_of_nonneg (Int.not_lt.1 hneg)
    rw [if_pos (by omega), Option.map_some, Option.some.injEq, decide_eq_decide]
    unfold InBounds
    omega

/-- An address within the memory is read. -/
theorem readAddress_inBounds (h : InBounds data ptr) : readAddress checks data (asUsize ptr) =
    some (Borsh.ofBe ((data.drop (asUsize ptr)).take 32)) := by
  obtain ⟨hnonneg, hle⟩ := h
  have hptr := asUsize_of_nonneg hnonneg
  have hmax := ptr.toInt_lt
  have hadd : addIn checks (asUsize ptr) 32 = some (asUsize ptr + 32) := if_pos (by omega)
  have hslice : asUsize ptr ≤ asUsize ptr + 32 ∧ asUsize ptr + 32 ≤ data.length :=
    ⟨Nat.le_add_right _ _, by omega⟩
  rw [readAddress, hadd, Option.bind_some, sliceAt, if_pos hslice, Nat.add_sub_cancel_left]
  rfl

/-- A range that ends before it starts is not. -/
theorem readAddress_justBelow (h : JustBelow ptr) :
    readAddress checks data (asUsize ptr) = none := by
  obtain ⟨hle, hlt⟩ := h
  have hptr := asUsize_of_neg hlt
  have hover : ¬asUsize ptr + 32 < 2 ^ 64 := by omega
  rw [readAddress, addIn, if_neg hover]
  cases checks with
  | true => rfl
  | false =>
    have hwrap : Wrapping.add (2 ^ 64) (asUsize ptr) 32 < asUsize ptr := by
      unfold Wrapping.add
      omega
    have hslice : sliceAt data (asUsize ptr) (Wrapping.add (2 ^ 64) (asUsize ptr) 32) = none :=
      if_neg fun h => absurd h.1 (Nat.not_le.2 hwrap)
    simp only [Bool.false_eq_true, if_false, Option.bind_some, hslice, Option.map_none]

end Pointer

/-! ## Logs -/

/-- **Logs never panic**: what `checked_add` lets through is a range of the memory. -/
theorem logMessageIn_eq (checks : Bool) (memory : Option GuestMemory) (ptr len : Nat) :
    logMessageIn checks memory ptr len = some (logMessage (memory.map (·.data)) ptr len) := by
  cases memory with
  | none => rfl
  | some mem =>
    simp only [logMessageIn, logMessage, Option.map_some]
    split_ifs with h
    · have hadd : addIn checks ptr len = some (ptr + len) := if_pos h.1
      have hslice : ptr ≤ ptr + len ∧ ptr + len ≤ mem.data.length :=
        ⟨Nat.le_add_right _ _, h.2⟩
      rw [hadd, Option.bind_some, sliceAt, if_pos hslice, Nat.add_sub_cancel_left]
      rfl
    · rfl

namespace HostState

variable {checks : Bool} {s : HostState} {memory : Option GuestMemory}

theorem hostLogIn_eq (checks : Bool) (s : HostState) (memory : Option GuestMemory)
    (ptr len : Int32) :
    s.hostLogIn checks memory ptr len = some (s.hostLog (memory.map (·.data)) ptr len) := by
  have hmsg := logMessageIn_eq checks memory (asUsize ptr) (asUsize len)
  unfold hostLogIn hostLog
  cases hlog : logMessage (memory.map (·.data)) (asUsize ptr) (asUsize len) with
  | none => exact congrArg (Option.map _) (hmsg.trans (congrArg some hlog))
  | some msg => exact congrArg (Option.map _) (hmsg.trans (congrArg some hlog))

/-! ## Without overflow checks -/

theorem fits_false (data : List UInt8) (ptr : Nat) :
    fits false data ptr = some (addressFits data ptr) := by
  unfold fits addIn addressFits
  by_cases h : ptr + 32 < 2 ^ 64
  · rw [if_pos h, Option.map_some, Wrapping.add, Nat.mod_eq_of_lt h]
  · rw [if_neg h, if_neg Bool.false_ne_true, Option.map_some]

theorem readAddress_false (mem : GuestMemory) (ptr : Nat) :
    readAddress false mem.data ptr = addressAt mem.data ptr := by
  have hlen := mem.length_le
  unfold readAddress addIn addressAt sliceAt
  by_cases h : ptr + 32 < 2 ^ 64
  · rw [if_pos h, Option.bind_some]
    by_cases hle : ptr + 32 ≤ mem.data.length
    · rw [if_pos ⟨Nat.le_add_right _ _, hle⟩, if_pos hle, Nat.add_sub_cancel_left]
      rfl
    · rw [if_neg fun hs => hle hs.2, if_neg hle]
      rfl
  · have hwrap : ¬ptr ≤ Wrapping.add (2 ^ 64) ptr 32 ∨
        ¬Wrapping.add (2 ^ 64) ptr 32 ≤ mem.data.length := by
      unfold Wrapping.add
      omega
    rw [if_neg h, if_neg Bool.false_ne_true, Option.bind_some, if_neg (by tauto),
      if_neg (by omega)]
    rfl

theorem hostGetBalanceIn_false (s : HostState) (memory : Option GuestMemory) (addrPtr : Int32) :
    s.hostGetBalanceIn false memory addrPtr =
      s.hostGetBalance (memory.map (·.data)) addrPtr := by
  unfold hostGetBalanceIn hostGetBalance readBalance
  cases s.gasMeter.consumeStorageRead with
  | error e => rfl
  | ok m =>
    cases memory with
    | none => rfl
    | some mem =>
      simp only [readBalanceIn, fits_false, readAddress_false, Option.bind_some, Option.map_some]
      split_ifs
      · rw [Option.map_map, Option.map_map]
        rfl
      · rfl

theorem moveIn_false (s : HostState) (sender receiver amount : Nat) :
    s.moveIn false sender receiver amount =
      if s.balance sender < amount then some (s, -1)
      else
        let balances := s.balances.insert sender (s.balance sender - amount)
        let toBal := (balances.lookup receiver).getD 0
        some ({ s with
          balances := balances.insert receiver (Wrapping.add (2 ^ 64) toBal amount) }, 0) := by
  have hadd : ∀ a b, addIn false a b = some (Wrapping.add (2 ^ 64) a b) := by
    intro a b
    unfold addIn
    by_cases h : a + b < 2 ^ 64
    · rw [if_pos h, Wrapping.add, Nat.mod_eq_of_lt h]
    · rw [if_neg h, if_neg Bool.false_ne_true]
  simp only [moveIn, hadd, Option.map_some]

theorem hostTransferIn_false (s : HostState) (memory : Option GuestMemory) (fromPtr toPtr : Int32)
    (amount : Int64) :
    s.hostTransferIn false memory fromPtr toPtr amount =
      s.hostTransfer (memory.map (·.data)) fromPtr toPtr amount := by
  unfold hostTransferIn hostTransfer moveBalance
  cases s.gasMeter.consumeStorageWrite with
  | error e => rfl
  | ok m =>
    dsimp only
    by_cases hamount : amount ≤ 0
    · simp only [if_pos hamount, Option.map_some]
    simp only [if_neg hamount]
    cases memory with
    | none => rfl
    | some mem =>
      simp only [moveBalanceIn, fits_false, readAddress_false, moveIn_false, Option.bind_some,
        Option.map_some]
      cases addressFits mem.data (asUsize fromPtr) with
      | false => rfl
      | true =>
        cases addressFits mem.data (asUsize toPtr) with
        | false => rfl
        | true =>
          simp only [if_true, Bool.and_self]
          cases addressAt mem.data (asUsize fromPtr) with
          | none => rfl
          | some sender =>
            cases addressAt mem.data (asUsize toPtr) with
            | none => rfl
            | some receiver =>
              have hbalance : balance { s with gasMeter := m } sender = s.balance sender := rfl
              simp only [Option.bind_some, hbalance]
              by_cases hfunds : s.balance sender < amount.toInt.toNat
              · simp only [if_pos hfunds, Option.map_some]
              · simp only [if_neg hfunds, Option.map_some]

/-- **Without overflow checks**, the functions are those of `Engine`. -/
theorem callIn_false (s : HostState) (memory : Option GuestMemory) (function : HostFunction) :
    s.callIn false memory function = s.call ⟨function, memory.map (·.data)⟩ := by
  cases function with
  | log ptr len => exact hostLogIn_eq ..
  | getBlockHeight => rfl
  | getBalance addrPtr => simp only [callIn, call, hostGetBalanceIn_false]
  | transfer fromPtr toPtr amount => simp only [callIn, call, hostTransferIn_false]

/-! ## Which calls panic -/

/-- The gas meter has as much left. -/
def Affords (s : HostState) (cost : Nat) : Prop := s.gasMeter.gasUsed + cost ≤ s.gasMeter.gasLimit

instance (s : HostState) (cost : Nat) : Decidable (s.Affords cost) :=
  inferInstanceAs (Decidable (_ ≤ _))

/-- The receiver's balance and the amount, once the sender has paid it. -/
def Overflows (s : HostState) (sender receiver amount : Nat) : Prop :=
  amount ≤ s.balance sender ∧
    2 ^ 64 ≤ (if receiver = sender then s.balance sender - amount else s.balance receiver) + amount

end HostState

/-- The 32 bytes at a pointer into the memory, as the key of a balance. -/
def addressOf (data : List UInt8) (ptr : Int32) : Nat :=
  Borsh.ofBe ((data.drop (asUsize ptr)).take 32)

/-- The bounds check of a pointer passes, as it should or because it wraps. -/
def Passes (data : List UInt8) (ptr : Int32) : Prop :=
  InBounds data ptr ∨ JustBelow ptr ∧ ptr.toInt + 32 ≤ data.length

/-- A read of a balance that panics, with or without overflow checks. -/
inductive ReadPanics (data : List UInt8) (ptr : Int32) : Bool → Prop
  /-- The sum in the bounds check overflows. -/
  | sum (h : JustBelow ptr) : ReadPanics data ptr true
  /-- It wraps to an end within the memory, before the start. -/
  | range (h : JustBelow ptr) (hend : ptr.toInt + 32 ≤ data.length) : ReadPanics data ptr false

/-- A transfer that panics, with or without overflow checks. -/
inductive TransferPanics (s : HostState) (data : List UInt8) (fromPtr toPtr : Int32) (amount : Nat) :
    Bool → Prop
  | fromSum (hfrom : JustBelow fromPtr) : TransferPanics s data fromPtr toPtr amount true
  | toSum (hfrom : InBounds data fromPtr) (hto : JustBelow toPtr) :
    TransferPanics s data fromPtr toPtr amount true
  | balance (hfrom : InBounds data fromPtr) (hto : InBounds data toPtr)
    (h : s.Overflows (addressOf data fromPtr) (addressOf data toPtr) amount) :
    TransferPanics s data fromPtr toPtr amount true
  | range (hfrom : Passes data fromPtr) (hto : Passes data toPtr)
    (h : JustBelow fromPtr ∨ JustBelow toPtr) : TransferPanics s data fromPtr toPtr amount false

namespace HostState

/-- A call that panics. -/
def Panics (checks : Bool) (s : HostState) (memory : Option GuestMemory) : HostFunction → Prop
  | .log .. => False
  | .getBlockHeight => False
  | .getBalance addrPtr => s.Affords gasPerStorageRead ∧
    ∃ mem ∈ memory, ReadPanics mem.data addrPtr checks
  | .transfer fromPtr toPtr amount => s.Affords gasPerStorageWrite ∧ 0 < amount ∧
    ∃ mem ∈ memory, TransferPanics s mem.data fromPtr toPtr amount.toInt.toNat checks

variable {mem : GuestMemory} {ptr fromPtr toPtr : Int32}

theorem not_justBelow_of_inBounds {data : List UInt8} (h : InBounds data ptr) : ¬JustBelow ptr :=
  fun hb => absurd hb.2 (Int.not_lt.2 h.1)

/-- A read of a balance, after the charge. -/
theorem readBalanceIn_isSome_iff (s : HostState) :
    (s.readBalanceIn checks mem ptr).isSome ↔ ¬ReadPanics mem.data ptr checks := by
  unfold readBalanceIn
  by_cases hptr : JustBelow ptr
  · rw [Pointer.fits_justBelow hptr]
    cases checks with
    | true => simp [ReadPanics.sum hptr]
    | false =>
      by_cases hend : ptr.toInt + 32 ≤ mem.data.length
      · simp [hend, Pointer.readAddress_justBelow hptr, ReadPanics.range hptr hend]
      · have hreturns : ¬ReadPanics mem.data ptr false := by
          intro h
          cases h
          exact hend ‹_›
        simp [hend, hreturns]
  · have hreturns : ¬ReadPanics mem.data ptr checks := by
      intro h
      cases h <;> exact hptr ‹_›
    rw [Pointer.fits_eq hptr]
    by_cases hbounds : InBounds mem.data ptr
    · simp [hbounds, Pointer.readAddress_inBounds hbounds, hreturns]
    · simp [hbounds, hreturns]

/-- The balances after a transfer: only the checked sum can panic. -/
theorem moveIn_isSome_iff (s : HostState) (sender receiver amount : Nat) :
    (s.moveIn checks sender receiver amount).isSome ↔
      ¬(checks = true ∧ s.Overflows sender receiver amount) := by
  unfold moveIn Overflows
  by_cases hfunds : s.balance sender < amount
  · simp [hfunds]
  · have hto : ((s.balances.insert sender (s.balance sender - amount)).lookup receiver).getD 0 =
        if receiver = sender then s.balance sender - amount else s.balance receiver := by
      rw [Finmap.lookup_insert_ite]
      split_ifs <;> rfl
    have hpaid : amount ≤ s.balance sender := Nat.not_lt.1 hfunds
    simp only [if_neg hfunds, hto, Option.isSome_map, addIn_isSome_iff, hpaid, true_and]

/-- Without overflow checks, the check of a pointer passes or fails. -/
theorem fits_passes (mem : GuestMemory) (ptr : Int32) : fits false mem.data (asUsize ptr) = some true ∧
    Passes mem.data ptr ∨ fits false mem.data (asUsize ptr) = some false ∧ ¬Passes mem.data ptr := by
  by_cases hptr : JustBelow ptr
  · have hout : ¬InBounds mem.data ptr := fun h => not_justBelow_of_inBounds h hptr
    rw [Pointer.fits_justBelow hptr]
    by_cases hend : ptr.toInt + 32 ≤ mem.data.length
    · exact .inl ⟨by simp [hend], .inr ⟨hptr, hend⟩⟩
    · exact .inr ⟨by simp [hend], by simp [Passes, hout, hend]⟩
  · rw [Pointer.fits_eq hptr]
    by_cases hbounds : InBounds mem.data ptr
    · exact .inl ⟨by simp [hbounds], .inl hbounds⟩
    · exact .inr ⟨by simp [hbounds], by simp [Passes, hbounds, hptr]⟩

/-- A transfer without overflow checks, after the charge. -/
theorem moveBalanceIn_unchecked (s : HostState) (amount : Nat) :
    (s.moveBalanceIn false mem fromPtr toPtr amount).isSome ↔
      ¬TransferPanics s mem.data fromPtr toPtr amount false := by
  have hiff : TransferPanics s mem.data fromPtr toPtr amount false ↔
      Passes mem.data fromPtr ∧ Passes mem.data toPtr ∧ (JustBelow fromPtr ∨ JustBelow toPtr) := by
    constructor
    · intro h
      cases h with
      | range hfrom hto h => exact ⟨hfrom, hto, h⟩
    · intro h
      exact .range h.1 h.2.1 h.2.2
  rw [hiff, moveBalanceIn]
  rcases fits_passes mem fromPtr with ⟨hfits, hfrom⟩ | ⟨hfits, hfrom⟩
  · rcases fits_passes mem toPtr with ⟨hfits', hto⟩ | ⟨hfits', hto⟩
    · simp only [hfits, hfits', Option.bind_some, if_true, hfrom, hto, true_and]
      by_cases hbf : JustBelow fromPtr
      · simp [hbf, Pointer.readAddress_justBelow hbf]
      · by_cases hbt : JustBelow toPtr
        · simp [hbt, Pointer.readAddress_justBelow hbt]
        · have hinf := hfrom.resolve_right fun h => hbf h.1
          have hint := hto.resolve_right fun h => hbt h.1
          simp [hbf, hbt, Pointer.readAddress_inBounds hinf, Pointer.readAddress_inBounds hint,
            moveIn_isSome_iff]
    · simp [hfits, hfits', hto]
  · simp [hfits, hfrom]

/-- A transfer with overflow checks, after the charge. -/
theorem moveBalanceIn_checked (s : HostState) (amount : Nat) :
    (s.moveBalanceIn true mem fromPtr toPtr amount).isSome ↔
      ¬TransferPanics s mem.data fromPtr toPtr amount true := by
  unfold moveBalanceIn
  by_cases hbf : JustBelow fromPtr
  · simp [Pointer.fits_justBelow hbf, TransferPanics.fromSum hbf]
  rw [Pointer.fits_eq hbf]
  by_cases hinf : InBounds mem.data fromPtr
  · by_cases hbt : JustBelow toPtr
    · simp [hinf, Pointer.fits_justBelow hbt, TransferPanics.toSum hinf hbt]
    rw [Pointer.fits_eq hbt]
    by_cases hint : InBounds mem.data toPtr
    · have hiff : TransferPanics s mem.data fromPtr toPtr amount true ↔
          s.Overflows (addressOf mem.data fromPtr) (addressOf mem.data toPtr) amount := by
        constructor
        · intro h
          cases h with
          | fromSum h => exact absurd h hbf
          | toSum _ h => exact absurd h hbt
          | balance _ _ h => exact h
        · exact .balance hinf hint
      simp [hinf, hint, Pointer.readAddress_inBounds hinf, Pointer.readAddress_inBounds hint,
        moveIn_isSome_iff, hiff, addressOf]
    · have hreturns : ¬TransferPanics s mem.data fromPtr toPtr amount true := by
        intro h
        cases h with
        | fromSum h => exact hbf h
        | toSum _ h => exact hbt h
        | balance _ h _ => exact hint h
      simp [hinf, hint, hreturns]
  · have hreturns : ¬TransferPanics s mem.data fromPtr toPtr amount true := by
      intro h
      cases h with
      | fromSum h => exact hbf h
      | toSum h _ => exact hinf h
      | balance h _ _ => exact hinf h
    simp [hinf, hreturns]

theorem moveBalanceIn_isSome_iff (s : HostState) (amount : Nat) :
    (s.moveBalanceIn checks mem fromPtr toPtr amount).isSome ↔
      ¬TransferPanics s mem.data fromPtr toPtr amount checks := by
  cases checks with
  | false => exact moveBalanceIn_unchecked s amount
  | true => exact moveBalanceIn_checked s amount

/-- The charge has nothing to do with the balances. -/
theorem TransferPanics.charged {s : HostState} {data : List UInt8} {amount : Nat}
    (h : TransferPanics s data fromPtr toPtr amount checks) (m : GasMeter) :
    TransferPanics { s with gasMeter := m } data fromPtr toPtr amount checks := by
  cases h with
  | fromSum hfrom => exact .fromSum hfrom
  | toSum hfrom hto => exact .toSum hfrom hto
  | balance hfrom hto h => exact .balance hfrom hto h
  | range hfrom hto h => exact .range hfrom hto h

theorem transferPanics_charged (s : HostState) (m : GasMeter) {data : List UInt8} {amount : Nat} :
    TransferPanics { s with gasMeter := m } data fromPtr toPtr amount checks ↔
      TransferPanics s data fromPtr toPtr amount checks :=
  ⟨fun h => TransferPanics.charged h s.gasMeter, fun h => TransferPanics.charged h m⟩

theorem hostGetBalanceIn_isSome_iff (s : HostState) :
    (s.hostGetBalanceIn checks memory ptr).isSome ↔
      ¬(s.Affords gasPerStorageRead ∧ ∃ mem ∈ memory, ReadPanics mem.data ptr checks) := by
  unfold hostGetBalanceIn GasMeter.consumeStorageRead Affords
  rcases s.gasMeter.consume_cases gasPerStorageRead with ⟨hfit, m, hm, -⟩ | ⟨hfit, e, he⟩
  · rw [hm]
    cases memory with
    | none => simp
    | some mem => simp [readBalanceIn_isSome_iff, hfit]
  · rw [he]
    exact iff_of_true rfl fun h => absurd h.1 (Nat.not_le.2 hfit)

theorem hostTransferIn_isSome_iff (s : HostState) (amount : Int64) :
    (s.hostTransferIn checks memory fromPtr toPtr amount).isSome ↔
      ¬(s.Affords gasPerStorageWrite ∧ 0 < amount ∧
        ∃ mem ∈ memory, TransferPanics s mem.data fromPtr toPtr amount.toInt.toNat checks) := by
  unfold hostTransferIn GasMeter.consumeStorageWrite Affords
  rcases s.gasMeter.consume_cases gasPerStorageWrite with ⟨hfit, m, hm, -⟩ | ⟨hfit, e, he⟩
  · rw [hm]
    by_cases hamount : amount ≤ 0
    · simp [hamount, Int64.not_lt.2 hamount]
    · have hpos := Int64.not_le.1 hamount
      cases memory with
      | none => simp [hamount]
      | some mem =>
        simp [hamount, hpos, hfit, moveBalanceIn_isSome_iff, transferPanics_charged]
  · rw [he]
    exact iff_of_true rfl fun h => absurd h.1 (Nat.not_le.2 hfit)

/-- **Which calls return.** Logs always do; reads and transfers unless a pointer is at most an address
below zero and gets that far, or a checked balance overflows. -/
theorem callIn_isSome_iff (checks : Bool) (s : HostState) (memory : Option GuestMemory)
    (function : HostFunction) :
    (s.callIn checks memory function).isSome ↔ ¬Panics checks s memory function := by
  cases function with
  | log ptr len => simp [callIn, Panics, hostLogIn_eq]
  | getBlockHeight => simp [callIn, Panics]
  | getBalance addrPtr => rw [callIn, Panics, Option.isSome_map, hostGetBalanceIn_isSome_iff]
  | transfer fromPtr toPtr amount =>
    rw [callIn, Panics, Option.isSome_map, hostTransferIn_isSome_iff]

end HostState

/-- A page of memory, and the pointer −1: the range ends at 31, before it starts. -/
theorem pointer_below_zero_panics : ¬∀ (checks : Bool) (s : HostState) (memory : Option GuestMemory)
    (function : HostFunction), (s.callIn checks memory function).isSome := by
  intro h
  have hlen : (List.replicate 65536 (0 : UInt8)).length ≤ 2 ^ 32 := by
    rw [List.length_replicate]
    decide
  have hreturns := h false (.new 1000) (some ⟨_, hlen⟩) (.getBalance (-1))
  rw [HostState.callIn_isSome_iff] at hreturns
  have hend : (-1 : Int32).toInt + 32 ≤ (List.replicate 65536 (0 : UInt8)).length := by
    rw [List.length_replicate]
    decide
  exact hreturns ⟨by decide, _, rfl, .range (by decide) hend⟩

end Zentra

import ZentraChain.Consensus.Difficulty
import ZentraChain.Lib.BigEndian

/-!
# Targets byte by byte (`difficulty.rs`, `header.rs`)

The source computes on 32-byte arrays, highest byte first; the rest of the development on their values.
Here are the loops of the source, and that each computes what its function does on values:
`addTargets_toHash`, `divTargetByU64_toHash`, `mulDivTarget_toHash`, `targetFromBits_toHash`,
`targetToBits_toHash`; hence `nextDifficulty_eq`.
-/

namespace Zentra

/-- A target as it is stored: 32 bytes, highest first. -/
structure TargetBytes where
  bytes : List Nat
  length_eq : bytes.length = 32
  digits : BigEndian.Digits 256 bytes
  deriving DecidableEq

namespace TargetBytes

def val (t : TargetBytes) : Nat := BigEndian.value 256 t.bytes

def toHash (t : TargetBytes) : Hash := ⟨t.val⟩

/-- The byte at a position; nothing is beyond the last. -/
def byte (t : TargetBytes) (pos : Nat) : Nat := t.bytes.getD pos 0

/-- The same byte everywhere, cut to 8 bits. -/
def fill (v : Nat) : TargetBytes where
  bytes := List.replicate 32 (v % 256)
  length_eq := List.length_replicate
  digits := fun d hd => (List.eq_of_mem_replicate hd).symm ▸ Nat.mod_lt _ (by decide)

/-- `Hash::ZERO`. -/
def zero : TargetBytes := fill 0

/-- Write the low 8 bits of `v` at a position, if there is one. -/
def put (t : TargetBytes) (pos v : Nat) : TargetBytes where
  bytes := t.bytes.set pos (v % 256)
  length_eq := by rw [List.length_set, t.length_eq]
  digits := fun d hd => (List.mem_or_eq_of_mem_set hd).elim (t.digits d)
    fun he => he ▸ Nat.mod_lt _ (by decide)

/-! ## Arithmetic -/

/-- The loop of `add_targets`, from the last byte to the first, and its last carry. -/
def added (a b : TargetBytes) : TargetBytes × Nat :=
  ({ bytes := (BigEndian.add 256 a.bytes b.bytes).1
     length_eq := (BigEndian.length_add (a.length_eq.trans b.length_eq.symm)).trans a.length_eq
     digits := BigEndian.digits_add (by decide) _ _ }, (BigEndian.add 256 a.bytes b.bytes).2)

/-- `add_targets`: the last carry is dropped. -/
def addTargets (a b : TargetBytes) : TargetBytes := (a.added b).1

/-- The division loop: from the first byte to the last, with a remainder. -/
def divideBy (t : TargetBytes) (den : Nat) : TargetBytes where
  bytes := (BigEndian.div 256 den 0 t.bytes).1
  length_eq := (BigEndian.length_div _ _).trans t.length_eq
  digits := BigEndian.digits_div (by decide) _ _

/-- `div_target_by_u64`. -/
def divTargetByU64 (target : TargetBytes) (divisor : Nat) : TargetBytes :=
  if divisor = 0 then target else target.divideBy divisor

/-- The multiplication loop of `mul_div_target`, and its last carry. -/
def multiplied (target : TargetBytes) (num : Nat) : TargetBytes × Nat :=
  ({ bytes := (BigEndian.mul 256 num target.bytes).1
     length_eq := (BigEndian.length_mul _).trans target.length_eq
     digits := BigEndian.digits_mul (by decide) _ }, (BigEndian.mul 256 num target.bytes).2)

/-- `mul_div_target`. -/
def mulDivTarget (target : TargetBytes) (num den : Nat) : TargetBytes :=
  let r := target.multiplied num
  if r.2 > 0 then fill 255 else r.1.divideBy den

/-! ## Compact bits -/

/-- `target_from_bits`. -/
def targetFromBits (bits : Nat) : TargetBytes :=
  let exponent := bits / 2 ^ 24
  let mantissa := bits % 2 ^ 23
  if exponent = 0 then zero
  else if exponent ≤ 3 then
    let shifted := mantissa / 2 ^ (8 * (3 - exponent))
    let target := zero.put 31 shifted
    let target := if exponent ≥ 2 then target.put 30 (shifted / 256) else target
    if exponent ≥ 3 then target.put 29 (shifted / 65536) else target
  else
    let pos := 32 - exponent
    ((zero.put pos (mantissa / 65536)).put (pos + 1) (mantissa / 256)).put (pos + 2) mantissa

/-- `target_to_bits`. -/
def targetToBits (target : TargetBytes) : Nat :=
  match target.bytes.findIdx? (· ≠ 0) with
  | none => 0
  | some pos =>
    let exponent := 32 - pos
    let mantissa :=
      if exponent ≤ 3 then
        (target.bytes.drop pos).foldl (fun value b => value * 2 ^ 8 + b) 0 * 2 ^ (8 * (3 - exponent))
      else target.byte pos * 2 ^ 16 + target.byte (pos + 1) * 2 ^ 8 + target.byte (pos + 2)
    -- the sign bit of the mantissa must stay clear
    if mantissa / 2 ^ 23 % 2 = 1 then (exponent + 1) * 2 ^ 24 + mantissa / 256 % 2 ^ 23
    else exponent * 2 ^ 24 + mantissa % 2 ^ 23

/-! ## Values -/

variable {t t' : TargetBytes} {num den pos v : Nat}

theorem val_lt (t : TargetBytes) : t.val < 2 ^ 256 := by
  have h := BigEndian.value_lt (by decide) t.digits
  rw [t.length_eq] at h
  exact h

theorem val_injective : Function.Injective val := by
  rintro ⟨l, hl, hd⟩ ⟨l', hl', hd'⟩ h
  obtain rfl : l = l' := BigEndian.value_injective (by decide) (hl.trans hl'.symm) hd hd' h
  rfl

/-- Arrays are compared as their values. -/
theorem lt_iff : t.bytes < t'.bytes ↔ t.toHash < t'.toHash :=
  BigEndian.lt_iff (by decide) (t.length_eq.trans t'.length_eq.symm) t.digits t'.digits

@[simp] theorem zero_val : zero.val = 0 := BigEndian.value_replicate_zero 256 32

theorem eq_zero_iff : t = zero ↔ t.toHash = .zero := by
  constructor
  · rintro rfl
    exact congrArg Hash.mk zero_val
  · intro h
    exact val_injective ((congrArg Hash.val h).trans zero_val.symm)

theorem fill_max : (fill 255).toHash = ⟨2 ^ 256 - 1⟩ := by decide

theorem added_val (a b : TargetBytes) :
    (a.added b).1.val + (a.added b).2 * 2 ^ 256 = a.val + b.val := by
  have h := BigEndian.value_add (b := 256) (a.length_eq.trans b.length_eq.symm)
  rw [a.length_eq] at h
  exact h

theorem addTargets_val (a b : TargetBytes) : (addTargets a b).val = (a.val + b.val) % 2 ^ 256 := by
  rw [← a.added_val b, Nat.add_mul_mod_self_right]
  exact (Nat.mod_eq_of_lt (addTargets a b).val_lt).symm

theorem addTargets_toHash (a b : TargetBytes) :
    (addTargets a b).toHash = Zentra.addTargets a.toHash b.toHash :=
  congrArg Hash.mk (addTargets_val a b)

theorem divideBy_val (hd : 0 < den) : (t.divideBy den).val = t.val / den :=
  BigEndian.value_div_zero hd t.digits

theorem divTargetByU64_toHash (t : TargetBytes) (divisor : Nat) :
    (divTargetByU64 t divisor).toHash = Zentra.divTargetByU64 t.toHash divisor := by
  unfold divTargetByU64 Zentra.divTargetByU64
  split
  · rfl
  · exact congrArg Hash.mk (divideBy_val (Nat.pos_of_ne_zero ‹_›))

theorem multiplied_val (t : TargetBytes) (num : Nat) :
    (t.multiplied num).1.val + (t.multiplied num).2 * 2 ^ 256 = t.val * num := by
  have h := BigEndian.value_mul (b := 256) (k := num) t.bytes
  rw [t.length_eq] at h
  exact h

/-- The product is carried out of the array exactly if it does not fit. -/
theorem multiplied_carry : 0 < (t.multiplied num).2 ↔ 2 ^ 256 ≤ t.val * num := by
  have h := t.multiplied_val num
  have hlt := (t.multiplied num).1.val_lt
  omega

theorem mulDivTarget_toHash (hd : 0 < den) (t : TargetBytes) (num : Nat) :
    (mulDivTarget t num den).toHash = Zentra.mulDivTarget t.toHash num den := by
  have h := t.multiplied_val num
  unfold mulDivTarget Zentra.mulDivTarget
  dsimp only
  by_cases hc : 0 < (t.multiplied num).2
  · rw [if_pos hc, if_pos (show t.toHash.val * num ≥ 2 ^ 256 from multiplied_carry.1 hc), fill_max]
  · rw [if_neg hc, if_neg (show ¬t.toHash.val * num ≥ 2 ^ 256 from mt multiplied_carry.2 hc)]
    rw [Nat.eq_zero_of_not_pos hc, Nat.zero_mul, Nat.add_zero] at h
    exact congrArg Hash.mk ((divideBy_val hd).trans (by rw [h]; rfl))

/-! ## Values of compact bits -/

theorem byte_put (i : Nat) :
    (t.put pos v).byte i = if i = pos ∧ pos < 32 then v % 256 else t.byte i := by
  unfold byte put
  rw [List.getD_eq_getElem?_getD, List.getD_eq_getElem?_getD, List.getElem?_set, t.length_eq]
  by_cases hi : i = pos
  · subst hi
    by_cases h32 : i < 32
    · simp [h32]
    · simp [h32, t.length_eq]
  · rw [if_neg fun h => hi h.symm, if_neg fun h => hi h.1]

theorem byte_zero (i : Nat) : zero.byte i = 0 := by
  unfold byte zero fill
  rw [List.getD_eq_getElem?_getD, List.getElem?_replicate]
  split <;> rfl

/-- A byte written over a zero adds its value. -/
theorem put_val (h : t.byte pos = 0) : (t.put pos v).val = t.val + Header.byteAt pos (v % 256) := by
  unfold Header.byteAt
  by_cases hp : pos < 32
  · have hlen : pos < t.bytes.length := by rw [t.length_eq]; exact hp
    have hset := BigEndian.value_set (b := 256) (d := v % 256) hlen
    have hold : t.bytes[pos] = 0 := by
      rwa [byte, List.getD_eq_getElem?_getD, List.getElem?_eq_getElem hlen] at h
    rw [hold, Nat.zero_mul, Nat.add_zero, t.length_eq] at hset
    rw [if_pos hp]
    exact hset
  · have hset : t.bytes.set pos (v % 256) = t.bytes :=
      List.set_eq_of_length_le (t.length_eq.trans_le (Nat.not_lt.1 hp))
    rw [if_neg hp, Nat.add_zero]
    exact congrArg (BigEndian.value 256) hset

theorem targetFromBits_toHash (bits : Nat) :
    (targetFromBits bits).toHash = Header.targetFromBits bits := by
  unfold targetFromBits Header.targetFromBits
  dsimp only
  by_cases h0 : bits / 2 ^ 24 = 0
  · rw [if_pos h0, if_pos h0]
    exact eq_zero_iff.1 rfl
  · rw [if_neg h0, if_neg h0]
    by_cases h3 : bits / 2 ^ 24 ≤ 3
    · rw [if_pos h3, if_pos h3]
      refine congrArg Hash.mk ?_
      by_cases hl2 : bits / 2 ^ 24 ≥ 2
      · rw [if_pos hl2, if_pos hl2]
        by_cases hl3 : bits / 2 ^ 24 ≥ 3
        · rw [if_pos hl3, if_pos hl3, put_val (by simp [byte_put, byte_zero]),
            put_val (by simp [byte_put, byte_zero]), put_val (byte_zero _), zero_val, Nat.zero_add]
        · rw [if_neg hl3, if_neg hl3, put_val (by simp [byte_put, byte_zero]),
            put_val (byte_zero _), zero_val, Nat.zero_add, Nat.add_zero]
      · have hl3 : ¬bits / 2 ^ 24 ≥ 3 := by omega
        rw [if_neg hl2, if_neg hl2, if_neg hl3, if_neg hl3, put_val (byte_zero _), zero_val,
          Nat.zero_add, Nat.add_zero]
    · rw [if_neg h3, if_neg h3]
      refine congrArg Hash.mk ?_
      rw [put_val (by simp [byte_put, byte_zero]), put_val (by simp [byte_put, byte_zero]),
        put_val (byte_zero _), zero_val, Nat.zero_add]

/-- The loop that reads up to three bytes. -/
theorem foldl_bytes (l : List Nat) (v : Nat) :
    l.foldl (fun value b => value * 2 ^ 8 + b) v = v * 256 ^ l.length + BigEndian.value 256 l := by
  induction l generalizing v with
  | nil => simp
  | cons d l ih =>
    rw [List.foldl_cons, ih, BigEndian.value_cons, List.length_cons, pow_succ]
    ring

/-- The exponent of a value is the number of its bytes. -/
theorem log2_div {d : Nat} {rest : List Nat} (hd : d ≠ 0) (h : BigEndian.Digits 256 (d :: rest)) :
    (BigEndian.value 256 (d :: rest)).log2 / 8 = rest.length := by
  have hle := BigEndian.pow_le_value (b := 256) hd rest
  have hlt := BigEndian.value_lt (by decide) h
  have hne : BigEndian.value 256 (d :: rest) ≠ 0 :=
    Nat.ne_of_gt (Nat.lt_of_lt_of_le (Nat.pow_pos (by decide)) hle)
  have h8 : ∀ n, 256 ^ n = 2 ^ (8 * n) := fun n => by rw [Nat.pow_mul]
  rw [h8] at hle hlt
  rw [List.length_cons] at hlt
  have hlo := (Nat.le_log2 hne).2 hle
  have hhi := (Nat.log2_lt hne).2 hlt
  omega

/-- The first three bytes of a value. -/
theorem value_first {d x y : Nat} {rest : List Nat} (h : BigEndian.Digits 256 (d :: x :: y :: rest)) :
    BigEndian.value 256 (d :: x :: y :: rest) / 256 ^ rest.length =
      d * 2 ^ 16 + x * 2 ^ 8 + y := by
  have hlt := BigEndian.value_lt (by decide) h.tail.tail.tail
  rw [show d :: x :: y :: rest = [d, x, y] ++ rest from rfl, BigEndian.value_append,
    Nat.mul_comm, Nat.mul_add_div (Nat.pow_pos (by decide)), Nat.div_eq_of_lt hlt, Nat.add_zero]
  simp only [BigEndian.value_cons, BigEndian.value_nil, List.length_cons, List.length_nil]
  omega

section
variable {n d : Nat} {rest : List Nat} (hbytes : t.bytes = List.replicate n 0 ++ d :: rest)
include hbytes

theorem length_rest : n + (rest.length + 1) = 32 := by
  have hlen := t.length_eq
  rwa [hbytes, List.length_append, List.length_replicate, List.length_cons] at hlen

theorem digits_rest : BigEndian.Digits 256 (d :: rest) := fun x hx =>
  t.digits x (by rw [hbytes]; exact List.mem_append_right _ hx)

theorem val_rest : t.toHash.val = BigEndian.value 256 (d :: rest) := by
  show BigEndian.value 256 t.bytes = _
  rw [hbytes, BigEndian.value_leading]

theorem val_ne_zero (hd : d ≠ 0) : t.toHash.val ≠ 0 := by
  rw [val_rest hbytes]
  exact Nat.ne_of_gt (Nat.lt_of_lt_of_le (Nat.pow_pos (by decide)) (BigEndian.pow_le_value hd rest))

/-- The exponent is the number of bytes of the value. -/
theorem exponent_toHash (hd : d ≠ 0) : 32 - n = t.toHash.val.log2 / 8 + 1 := by
  have hlen := length_rest hbytes
  rw [val_rest hbytes, log2_div hd (digits_rest hbytes)]
  omega

/-- The mantissa is the first three bytes of the value. -/
theorem mantissa_toHash : (if 32 - n ≤ 3 then
      (t.bytes.drop n).foldl (fun value b => value * 2 ^ 8 + b) 0 * 2 ^ (8 * (3 - (32 - n)))
    else t.byte n * 2 ^ 16 + t.byte (n + 1) * 2 ^ 8 + t.byte (n + 2)) =
    if 32 - n ≤ 3 then t.toHash.val * 2 ^ (8 * (3 - (32 - n)))
    else t.toHash.val / 256 ^ (32 - n - 3) := by
  have hlen := length_rest hbytes
  have hdig := digits_rest hbytes
  have hdrop : t.bytes.drop n = d :: rest := by
    rw [hbytes]
    exact List.drop_left' List.length_replicate
  rw [val_rest hbytes]
  split
  · rw [hdrop, foldl_bytes, Nat.zero_mul, Nat.zero_add]
  · have hbyte : ∀ i, t.byte (n + i) = (d :: rest).getD i 0 := fun i => by
      rw [byte, ← hdrop, List.getD_eq_getElem?_getD, List.getD_eq_getElem?_getD, List.getElem?_drop]
    obtain ⟨x, y, rest', rfl⟩ : ∃ x y rest', rest = x :: y :: rest' := by
      match rest, hlen with
      | [], hlen => simp only [List.length_nil] at hlen; omega
      | [_], hlen => simp only [List.length_singleton] at hlen; omega
      | x :: y :: rest', _ => exact ⟨x, y, rest', rfl⟩
    have hexp : 32 - n - 3 = rest'.length := by
      simp only [List.length_cons] at hlen
      omega
    have h0 : t.byte n = d := hbyte 0
    have h1 : t.byte (n + 1) = x := hbyte 1
    have h2 : t.byte (n + 2) = y := hbyte 2
    rw [hexp, value_first hdig, h0, h1, h2]

end

theorem targetToBits_toHash (t : TargetBytes) : targetToBits t = Zentra.targetToBits t.toHash := by
  unfold targetToBits Zentra.targetToBits
  rcases BigEndian.leading t.bytes with hz | ⟨n, d, rest, hd, hbytes⟩
  · -- all bytes are zero
    have hrep : t.bytes = List.replicate 32 0 := List.eq_replicate_iff.2 ⟨t.length_eq, hz⟩
    have hval : t.toHash.val = 0 := by
      show BigEndian.value 256 t.bytes = 0
      rw [hrep, BigEndian.value_replicate_zero]
    rw [if_pos hval, hrep]
    rfl
  · have hpos : t.bytes.findIdx? (· ≠ 0) = some n := by
      rw [hbytes]
      simp [List.findIdx?_append, List.findIdx?_cons, hd]
    rw [hpos, if_neg (val_ne_zero hbytes hd)]
    dsimp only
    rw [mantissa_toHash hbytes, exponent_toHash hbytes hd]

end TargetBytes

/-! ## The next difficulty -/

/-- The timespans of `next_difficulty`, clamped and scaled down: numerator and denominator. -/
def DifficultyEngine.timespans (e : DifficultyEngine) : Nat × Nat :=
  let n := e.history.length - 1
  let lastTs := (e.history.getLast?.map (·.1)).getD 0
  let firstTs := (e.history.head?.map (·.1)).getD 0
  let actualTimespan := lastTs - firstTs
  let targetTimespan := n * e.targetBlockTimeMs
  let clampedTimespan := max (targetTimespan / 3) (min actualTimespan (targetTimespan * 3))
  if clampedTimespan > 100 then
    let scale := clampedTimespan / 100
    (clampedTimespan / scale, max (targetTimespan / scale) 1)
  else (clampedTimespan, targetTimespan)

namespace TargetBytes

/-- The sum of the targets of the window, without the oldest block. -/
def targetSum (e : DifficultyEngine) : TargetBytes :=
  (e.history.drop 1).foldl (fun acc h => addTargets acc (targetFromBits h.2)) zero

def targetAvg (e : DifficultyEngine) : TargetBytes :=
  divTargetByU64 (targetSum e) (e.history.length - 1)

/-- The adjusted target, before it is clamped. -/
def adjusted (e : DifficultyEngine) : TargetBytes :=
  mulDivTarget (targetAvg e) e.timespans.1 e.timespans.2

/-- `next_difficulty`. -/
def nextDifficulty (e : DifficultyEngine) : Nat :=
  if e.history.length - 1 = 0 then DifficultyEngine.genesisDifficulty
  else
    let maxTarget := targetFromBits DifficultyEngine.genesisDifficulty
    targetToBits (if maxTarget.bytes < (adjusted e).bytes ∨ adjusted e = zero then maxTarget
      else adjusted e)

variable {e : DifficultyEngine}

theorem timespans_pos (hn : e.history.length - 1 ≠ 0) (ht : 0 < e.targetBlockTimeMs) :
    0 < e.timespans.2 := by
  unfold DifficultyEngine.timespans
  dsimp only
  split
  · exact Nat.lt_of_lt_of_le Nat.one_pos (Nat.le_max_right _ _)
  · exact Nat.mul_pos (Nat.pos_of_ne_zero hn) ht

theorem foldl_addTargets_toHash (l : List (Nat × Nat)) (t : TargetBytes) :
    (l.foldl (fun acc h => addTargets acc (targetFromBits h.2)) t).toHash =
      l.foldl (fun acc h => Zentra.addTargets acc (Header.targetFromBits h.2)) t.toHash := by
  induction l generalizing t with
  | nil => rfl
  | cons h l ih => rw [List.foldl_cons, List.foldl_cons, ih, addTargets_toHash, targetFromBits_toHash]

/-- **Byte by byte or on values**, the next difficulty is the same. -/
theorem nextDifficulty_eq (ht : 0 < e.targetBlockTimeMs) : nextDifficulty e = e.nextDifficulty := by
  unfold nextDifficulty DifficultyEngine.nextDifficulty
  by_cases hn : e.history.length - 1 = 0
  · rw [if_pos hn]
    exact (if_pos hn).symm
  · have hadj : (adjusted e).toHash = Zentra.mulDivTarget
        (Zentra.divTargetByU64 ((e.history.drop 1).foldl
          (fun acc h => Zentra.addTargets acc (Header.targetFromBits h.2)) .zero)
          (e.history.length - 1)) e.timespans.1 e.timespans.2 := by
      rw [adjusted, mulDivTarget_toHash (timespans_pos hn ht), targetAvg, divTargetByU64_toHash,
        targetSum, foldl_addTargets_toHash, eq_zero_iff.1 rfl]
    rw [if_neg hn, if_neg hn]
    dsimp only
    rw [targetToBits_toHash, apply_ite toHash]
    simp only [lt_iff, eq_zero_iff, hadj, targetFromBits_toHash]
    unfold DifficultyEngine.timespans
    dsimp only
    split <;> rfl

end TargetBytes

end Zentra

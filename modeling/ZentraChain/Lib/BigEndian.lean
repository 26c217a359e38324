import Mathlib.Data.Nat.Digits.Defs
import Mathlib.Tactic

/-!
# Numbers as lists of digits, highest first

Schoolbook arithmetic on digits in base `b`: sums and products by a digit carry to the left, quotients
by a digit bring the remainder to the right. A result has as many digits as the operand.

* `value_add`, `value_mul`, `value_div`: what the loops compute, with what is carried out.
* `value_injective`, `lt_iff`: lists of one length are ordered as their values.
* `leading`: the digits after the leading zeros and the first of them give the size of the value.
-/

namespace BigEndian

variable {b k : ℕ} {l l' : List ℕ} {d n : ℕ}

/-- The value of some digits. -/
def value (b : ℕ) (l : List ℕ) : ℕ := Nat.ofDigits b l.reverse

/-- Digits of base `b`. -/
def Digits (b : ℕ) (l : List ℕ) : Prop := ∀ d ∈ l, d < b

@[simp] theorem value_nil : value b [] = 0 := rfl

theorem value_cons (b d : ℕ) (l : List ℕ) : value b (d :: l) = d * b ^ l.length + value b l := by
  rw [value, Nat.ofDigits_reverse_cons, Nat.mul_comm, Nat.add_comm]
  rfl

theorem value_append (b : ℕ) (l l' : List ℕ) :
    value b (l ++ l') = value b l * b ^ l'.length + value b l' := by
  rw [value, List.reverse_append, Nat.ofDigits_append, List.length_reverse, Nat.mul_comm,
    Nat.add_comm]
  rfl

theorem value_replicate_zero (b n : ℕ) : value b (List.replicate n 0) = 0 := by
  rw [value, List.reverse_replicate, Nat.ofDigits_replicate_zero]

theorem value_lt (hb : 1 < b) (h : Digits b l) : value b l < b ^ l.length := by
  have hlt := Nat.ofDigits_lt_base_pow_length hb fun d hd => h d (List.mem_reverse.1 hd)
  rwa [List.length_reverse] at hlt

theorem Digits.tail (h : Digits b (d :: l)) : Digits b l := fun x hx => h x (List.mem_cons_of_mem _ hx)

theorem Digits.head (h : Digits b (d :: l)) : d < b := h d List.mem_cons_self

theorem Digits.cons (hd : d < b) (h : Digits b l) : Digits b (d :: l) := by
  intro x hx
  rcases List.mem_cons.1 hx with rfl | hx
  · exact hd
  · exact h x hx

/-- Replacing a digit. -/
theorem value_set : ∀ {l : List ℕ} {i : ℕ} (h : i < l.length),
    value b (l.set i d) + l[i] * b ^ (l.length - 1 - i) =
      value b l + d * b ^ (l.length - 1 - i)
  | x :: l, 0, _ => by
    simp only [List.set_cons_zero, List.getElem_cons_zero, value_cons, List.length_cons,
      Nat.add_sub_cancel, Nat.sub_zero]
    omega
  | x :: l, i + 1, h => by
    have ih := value_set (Nat.lt_of_succ_lt_succ h)
    have hexp : (x :: l).length - 1 - (i + 1) = l.length - 1 - i := by
      rw [List.length_cons]
      omega
    rw [hexp]
    simp only [List.set_cons_succ, List.getElem_cons_succ, value_cons, List.length_set]
    omega

/-! ## Order -/

/-- Digits are compared from the left, as values are. -/
theorem lt_iff (hb : 1 < b) : ∀ {l l' : List ℕ}, l.length = l'.length → Digits b l → Digits b l' →
    (l < l' ↔ value b l < value b l')
  | [], [], _, _, _ => by simp
  | x :: l, y :: l', hlen, hl, hl' => by
    have hlen' : l.length = l'.length := Nat.succ.inj hlen
    have ih := lt_iff hb hlen' hl.tail hl'.tail
    have hv := value_lt hb hl.tail
    have hv' := value_lt hb hl'.tail
    rw [List.cons_lt_cons_iff, ih, value_cons, value_cons, hlen']
    rw [hlen'] at hv
    constructor
    · rintro (hxy | ⟨rfl, hlt⟩)
      · calc x * b ^ l'.length + value b l
            < x * b ^ l'.length + b ^ l'.length := Nat.add_lt_add_left hv _
          _ = (x + 1) * b ^ l'.length := (Nat.succ_mul _ _).symm
          _ ≤ y * b ^ l'.length := Nat.mul_le_mul_right _ hxy
          _ ≤ y * b ^ l'.length + value b l' := Nat.le_add_right _ _
      · exact Nat.add_lt_add_left hlt _
    · intro hlt
      rcases Nat.lt_trichotomy x y with hxy | rfl | hxy
      · exact .inl hxy
      · exact .inr ⟨rfl, Nat.lt_of_add_lt_add_left hlt⟩
      · have hle : (y + 1) * b ^ l'.length ≤ x * b ^ l'.length := Nat.mul_le_mul_right _ hxy
        rw [Nat.succ_mul] at hle
        omega

theorem value_injective (hb : 1 < b) (hlen : l.length = l'.length) (hl : Digits b l)
    (hl' : Digits b l') (h : value b l = value b l') : l = l' := by
  have hnot : ¬l < l' := mt (lt_iff hb hlen hl hl').1 (Nat.not_lt.2 h.ge)
  have hnot' : ¬l' < l := mt (lt_iff hb hlen.symm hl' hl).1 (Nat.not_lt.2 h.le)
  exact le_antisymm (not_lt.1 hnot') (not_lt.1 hnot)

/-! ## Leading zeros -/

/-- The digits from the first that is not zero on give the value. -/
theorem leading (l : List ℕ) :
    (∀ d ∈ l, d = 0) ∨ ∃ n d rest, d ≠ 0 ∧ l = List.replicate n 0 ++ d :: rest := by
  induction l with
  | nil => exact .inl nofun
  | cons x l ih =>
    by_cases hx : x = 0
    · rcases ih with hall | ⟨n, d, rest, hd, rfl⟩
      · exact .inl fun d hd => (List.mem_cons.1 hd).elim (·.trans hx) (hall d)
      · exact .inr ⟨n + 1, d, rest, hd, by rw [hx, List.replicate_succ, List.cons_append]⟩
    · exact .inr ⟨0, x, l, hx, rfl⟩

theorem value_leading (b n : ℕ) (l : List ℕ) : value b (List.replicate n 0 ++ l) = value b l := by
  rw [value_append, value_replicate_zero, Nat.zero_mul, Nat.zero_add]

/-- A value with a first digit other than zero has as many digits. -/
theorem pow_le_value (hd : d ≠ 0) (l : List ℕ) : b ^ l.length ≤ value b (d :: l) := by
  rw [value_cons]
  exact (Nat.le_mul_of_pos_left _ (Nat.pos_of_ne_zero hd)).trans (Nat.le_add_right _ _)

/-! ## Loops -/

/-- The sum of two numbers of one length, and the carry. -/
def add (b : ℕ) : List ℕ → List ℕ → List ℕ × ℕ
  | x :: l, y :: l' =>
    let r := add b l l'
    ((x + y + r.2) % b :: r.1, (x + y + r.2) / b)
  | _, _ => ([], 0)

/-- The product with `k`, and the carry. -/
def mul (b k : ℕ) : List ℕ → List ℕ × ℕ
  | x :: l =>
    let r := mul b k l
    ((x * k + r.2) % b :: r.1, (x * k + r.2) / b)
  | [] => ([], 0)

/-- The quotient by `k` with a remainder `r` brought in, and the remainder. -/
def div (b k : ℕ) : ℕ → List ℕ → List ℕ × ℕ
  | r, x :: l =>
    let q := div b k ((r * b + x) % k) l
    ((r * b + x) / k % b :: q.1, q.2)
  | r, [] => ([], r)

theorem length_add : ∀ {l l' : List ℕ}, l.length = l'.length → (add b l l').1.length = l.length
  | [], [], _ => rfl
  | _ :: _, _ :: _, h => congrArg Nat.succ (length_add (Nat.succ.inj h))

theorem length_mul : ∀ l : List ℕ, (mul b k l).1.length = l.length
  | [] => rfl
  | _ :: l => congrArg Nat.succ (length_mul l)

theorem length_div : ∀ (r : ℕ) (l : List ℕ), (div b k r l).1.length = l.length
  | _, [] => rfl
  | _, _ :: l => congrArg Nat.succ (length_div _ l)

theorem digits_add (hb : 0 < b) : ∀ l l' : List ℕ, Digits b (add b l l').1
  | _ :: l, _ :: l' => (digits_add hb l l').cons (Nat.mod_lt _ hb)
  | [], _ => nofun
  | _ :: _, [] => nofun

theorem digits_mul (hb : 0 < b) : ∀ l : List ℕ, Digits b (mul b k l).1
  | _ :: l => (digits_mul hb l).cons (Nat.mod_lt _ hb)
  | [] => nofun

theorem digits_div (hb : 0 < b) : ∀ (r : ℕ) (l : List ℕ), Digits b (div b k r l).1
  | _, _ :: l => (digits_div hb _ l).cons (Nat.mod_lt _ hb)
  | _, [] => nofun

/-- A digit and its carry are the number they come from. -/
theorem carry (b x p v r c : ℕ) (h : v + c * p = r) :
    (x + c) % b * p + v + (x + c) / b * (p * b) = x * p + r := by
  have hx := Nat.mod_add_div (x + c) b
  calc (x + c) % b * p + v + (x + c) / b * (p * b)
      = ((x + c) % b + b * ((x + c) / b)) * p + v := by ring
    _ = (x + c) * p + v := by rw [hx]
    _ = x * p + r := by rw [← h]; ring

theorem value_add : ∀ {l l' : List ℕ}, l.length = l'.length →
    value b (add b l l').1 + (add b l l').2 * b ^ l.length = value b l + value b l'
  | [], [], _ => by simp [add]
  | x :: l, y :: l', h => by
    have hlen : l.length = l'.length := Nat.succ.inj h
    have hstep := carry b (x + y) (b ^ l.length) _ _ _ (value_add hlen)
    simp only [add, value_cons, length_add hlen, List.length_cons, ← hlen, pow_succ]
    rw [hstep]
    ring

theorem value_mul : ∀ l : List ℕ,
    value b (mul b k l).1 + (mul b k l).2 * b ^ l.length = value b l * k
  | [] => by simp [mul]
  | x :: l => by
    have hstep := carry b (x * k) (b ^ l.length) _ _ _ (value_mul l)
    simp only [mul, value_cons, length_mul, List.length_cons, pow_succ]
    rw [hstep]
    ring

theorem value_div : ∀ {r : ℕ} (l : List ℕ), Digits b l → r < k →
    value b (div b k r l).1 * k + (div b k r l).2 = r * b ^ l.length + value b l ∧
      (div b k r l).2 < k
  | r, [], _, hr => by simpa [div] using hr
  | r, x :: l, hl, hr => by
    have hk : 0 < k := Nat.zero_lt_of_lt hr
    obtain ⟨ih, hlt⟩ := value_div l hl.tail (Nat.mod_lt (r * b + x) hk)
    -- the remainder is below the divisor, so the quotient is a digit
    have hq : (r * b + x) / k < b := by
      rw [Nat.div_lt_iff_lt_mul hk]
      calc r * b + x < r * b + b := Nat.add_lt_add_left hl.head _
        _ = (r + 1) * b := (Nat.succ_mul _ _).symm
        _ ≤ k * b := Nat.mul_le_mul_right _ hr
        _ = b * k := Nat.mul_comm _ _
    refine ⟨?_, hlt⟩
    have hx := Nat.mod_add_div (r * b + x) k
    simp only [div, value_cons, length_div, List.length_cons, Nat.mod_eq_of_lt hq, pow_succ]
    calc ((r * b + x) / k * b ^ l.length + value b (div b k ((r * b + x) % k) l).1) * k +
          (div b k ((r * b + x) % k) l).2
        = (r * b + x) / k * b ^ l.length * k +
          (value b (div b k ((r * b + x) % k) l).1 * k + (div b k ((r * b + x) % k) l).2) := by ring
      _ = ((r * b + x) % k + k * ((r * b + x) / k)) * b ^ l.length + value b l := by rw [ih]; ring
      _ = r * (b ^ l.length * b) + (x * b ^ l.length + value b l) := by rw [hx]; ring

/-- A quotient without remainder brought in. -/
theorem value_div_zero (hk : 0 < k) (h : Digits b l) : value b (div b k 0 l).1 = value b l / k := by
  obtain ⟨hval, hlt⟩ := value_div l h hk
  rw [Nat.zero_mul, Nat.zero_add] at hval
  rw [← hval, Nat.mul_comm, Nat.mul_add_div hk, Nat.div_eq_of_lt hlt, Nat.add_zero]

end BigEndian

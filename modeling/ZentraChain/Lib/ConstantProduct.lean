import Mathlib.Algebra.Order.Ring.Canonical
import Mathlib.Tactic

/-!
# Constant-product pools

A pool has reserves `x` and `y`, and `l` shares. `Grows p q`: from `p` to `q` the value of a share
does not fall, where the value of all shares is the geometric mean of the reserves. Squared and
without division it is an inequality of products, over amounts that are never negative.

* `Grows.refl`, `Grows.trans`: a preorder on pools with shares.
* `Grows.of_product`, `Grows.of_shares`: what a trade and a deposit have to keep.
* `Grows.pos`: shares keep the reserves from running out.
* `le_swap`, `mint_le`: they keep it when the output and the shares are rounded down.
-/

namespace ConstantProduct

/-- Reserves and shares. -/
structure Pool (α : Type*) where
  x : α
  y : α
  l : α

section
variable {α : Type*} [CommSemiring α] [LinearOrder α] [IsStrictOrderedRing α]
  [CanonicallyOrderedAdd α] {p q r : Pool α}

/-- The value of a share does not fall. -/
def Grows (p q : Pool α) : Prop := p.x * p.y * q.l ^ 2 ≤ q.x * q.y * p.l ^ 2

omit [IsStrictOrderedRing α] [CanonicallyOrderedAdd α] in
theorem Grows.refl (p : Pool α) : Grows p p := le_refl _

theorem Grows.trans (hq : 0 < q.l) (h : Grows p q) (h' : Grows q r) : Grows p r := by
  unfold Grows at *
  have h1 : p.x * p.y * q.l ^ 2 * r.l ^ 2 ≤ q.x * q.y * p.l ^ 2 * r.l ^ 2 :=
    mul_le_mul_left h _
  have h2 : q.x * q.y * r.l ^ 2 * p.l ^ 2 ≤ r.x * r.y * q.l ^ 2 * p.l ^ 2 :=
    mul_le_mul_left h' _
  refine le_of_mul_le_mul_right ?_ (pow_pos hq 2)
  calc p.x * p.y * r.l ^ 2 * q.l ^ 2 = p.x * p.y * q.l ^ 2 * r.l ^ 2 := by ring
    _ ≤ q.x * q.y * p.l ^ 2 * r.l ^ 2 := h1
    _ = q.x * q.y * r.l ^ 2 * p.l ^ 2 := by ring
    _ ≤ r.x * r.y * q.l ^ 2 * p.l ^ 2 := h2
    _ = r.x * r.y * p.l ^ 2 * q.l ^ 2 := by ring

omit [IsStrictOrderedRing α] in
/-- A trade has to keep the product of the reserves. -/
theorem Grows.of_product (hl : q.l = p.l) (h : p.x * p.y ≤ q.x * q.y) : Grows p q := by
  unfold Grows
  rw [hl]
  exact mul_le_mul_left h _

omit [IsStrictOrderedRing α] in
/-- A deposit has to keep what a share has of each reserve. -/
theorem Grows.of_shares (hx : p.x * q.l ≤ q.x * p.l) (hy : p.y * q.l ≤ q.y * p.l) : Grows p q := by
  unfold Grows
  calc p.x * p.y * q.l ^ 2 = p.x * q.l * (p.y * q.l) := by ring
    _ ≤ q.x * p.l * (q.y * p.l) := mul_le_mul' hx hy
    _ = q.x * q.y * p.l ^ 2 := by ring

/-- Without new shares, a trade that takes from one reserve gives to the other. -/
theorem Grows.lt_of_lt (h : Grows p q) (hl : q.l = p.l) (hp : 0 < p.l) (hy : 0 < p.y)
    (hlt : q.x < p.x) : p.y < q.y := by
  unfold Grows at h
  rw [hl] at h
  have hprod : p.x * p.y ≤ q.x * q.y := le_of_mul_le_mul_right h (pow_pos hp 2)
  by_contra hle
  have hstrict : q.x * q.y < p.x * p.y :=
    (mul_le_mul_right (not_lt.1 hle) q.x).trans_lt (mul_lt_mul_of_pos_right hlt hy)
  exact absurd hprod (not_le.2 hstrict)

/-- Shares are worth something as long as there are some. -/
theorem Grows.pos (h : Grows p q) (hl : 0 < q.l) (hx : 0 < p.x) (hy : 0 < p.y) :
    0 < q.x ∧ 0 < q.y := by
  have hprod : 0 < q.x * q.y * p.l ^ 2 :=
    (mul_pos (mul_pos hx hy) (pow_pos hl 2)).trans_le h
  refine ⟨pos_iff_ne_zero.2 fun h0 => ?_, pos_iff_ne_zero.2 fun h0 => ?_⟩
  · simp [h0] at hprod
  · simp [h0] at hprod

end

/-! ## Rounding down -/

variable {x y a b l : ℕ}

/-- An output of `y * b / (x + b)` for an input of `a ≥ b` keeps the product. -/
theorem le_swap (hba : b ≤ a) : x * y ≤ (x + a) * (y - y * b / (x + b)) := by
  have hfloor : y * b / (x + b) * (x + b) ≤ y * b := Nat.div_mul_le_self _ _
  have hout : y * b / (x + b) ≤ y :=
    Nat.div_le_of_le_mul (by rw [Nat.mul_comm y b]; exact Nat.mul_le_mul_right y (Nat.le_add_left b x))
  obtain ⟨z, hz⟩ := Nat.exists_eq_add_of_le hout
  rw [show y - y * b / (x + b) = z by omega]
  generalize y * b / (x + b) = out at hfloor hz
  subst hz
  have hexact : x * (out + z) ≤ (x + b) * z := by nlinarith
  exact hexact.trans (Nat.mul_le_mul_right z (Nat.add_le_add_left hba x))

/-- Shares of `a * l / x` for a deposit of `a` keep what a share has of the reserve. -/
theorem mint_le {m : ℕ} (hm : m ≤ a * l / x) : x * (l + m) ≤ (x + a) * l := by
  have hfloor : a * l / x * x ≤ a * l := Nat.div_mul_le_self _ _
  have hmx : m * x ≤ a * l / x * x := Nat.mul_le_mul_right x hm
  nlinarith

end ConstantProduct

import Mathlib.Algebra.BigOperators.Group.List.Basic
import Mathlib.Tactic

/-!
# Borsh encodings

Integers of a fixed width in little-endian order, and vectors as a four-byte count before their
elements. The results are the lengths, and that integers are read off their bytes.

A `Reader` takes a value off the front of some bytes. `Reads read bs x` says that it takes `x` off
`bs`, whatever follows (`reads_le`, `reads_bytes32`, `reads_vec`).
-/

namespace Borsh

variable {α : Type*}

/-- The lowest `w` bytes of `n`, lowest first. -/
def le : (w : ℕ) → ℕ → List UInt8
  | 0, _ => []
  | w + 1, n => UInt8.ofNat n :: le w (n / 256)

/-- A 32-byte array from its big-endian value. -/
def bytes32 (n : ℕ) : List UInt8 := (le 32 n).reverse

/-- A vector: the number of elements, then each of them. -/
def vec (enc : α → List UInt8) (l : List α) : List UInt8 := le 4 l.length ++ l.flatMap enc

/-- A vector of bytes. -/
def bytes (l : List UInt8) : List UInt8 := le 4 l.length ++ l

@[simp] theorem le_length : ∀ w n : ℕ, (le w n).length = w
  | 0, _ => rfl
  | w + 1, n => by rw [le, List.length_cons, le_length]

@[simp] theorem bytes32_length (n : ℕ) : (bytes32 n).length = 32 := by simp [bytes32]

@[simp] theorem bytes_length (l : List UInt8) : (bytes l).length = 4 + l.length := by simp [bytes]

theorem vec_length (enc : α → List UInt8) (l : List α) :
    (vec enc l).length = 4 + (l.map fun x => (enc x).length).sum := by
  simp [vec, List.length_flatMap]

/-- Elements of one length. -/
theorem vec_length_const (enc : α → List UInt8) {l : List α} {c : ℕ}
    (h : ∀ x ∈ l, (enc x).length = c) : (vec enc l).length = 4 + c * l.length := by
  rw [vec_length, List.map_congr_left h, List.map_const', List.sum_replicate, smul_eq_mul,
    Nat.mul_comm]

/-! ## Big-endian values -/

/-- The value of bytes, highest first. -/
def ofBe (l : List UInt8) : ℕ := l.foldl (fun n b => n * 256 + b.toNat) 0

theorem ofBe_le_reverse (w n : ℕ) : ofBe (le w n).reverse = n % 256 ^ w := by
  unfold ofBe
  rw [List.foldl_reverse]
  induction w generalizing n with
  | zero => rw [le, List.foldr_nil, pow_zero, Nat.mod_one]
  | succ w ih =>
    have hmod : n % (256 * 256 ^ w) = n % 256 + 256 * (n / 256 % 256 ^ w) := Nat.mod_mul
    have hbyte : (UInt8.ofNat n).toNat = n % 256 := UInt8.toNat_ofNat'
    rw [le, List.foldr_cons, ih, hbyte, pow_succ', hmod]
    ring

/-- Integers that fit are read off their bytes. -/
theorem le_inj {w n m : ℕ} (hn : n < 256 ^ w) (hm : m < 256 ^ w) (h : le w n = le w m) : n = m := by
  have hval : n % 256 ^ w = m % 256 ^ w := by rw [← ofBe_le_reverse, h, ofBe_le_reverse]
  rwa [Nat.mod_eq_of_lt hn, Nat.mod_eq_of_lt hm] at hval

theorem bytes32_inj {n m : ℕ} (hn : n < 256 ^ 32) (hm : m < 256 ^ 32)
    (h : bytes32 n = bytes32 m) : n = m := le_inj hn hm (List.reverse_injective h)

/-! ## Reading -/

/-- Takes a value off the front, and leaves the rest. -/
abbrev Reader (α : Type*) := List UInt8 → Option (α × List UInt8)

variable {β : Type*}

def readLe (w : ℕ) : Reader ℕ := fun bs =>
  if w ≤ bs.length then some (ofBe (bs.take w).reverse, bs.drop w) else none

/-- A 32-byte array, as its big-endian value. -/
def readBytes32 : Reader ℕ := fun bs =>
  if 32 ≤ bs.length then some (ofBe (bs.take 32), bs.drop 32) else none

/-- One value, then another that may depend on it. -/
def Reader.andThen (read : Reader α) (next : α → Reader β) : Reader β := fun bs =>
  (read bs).bind fun x => next x.1 x.2

/-- A value from the one read. -/
def Reader.map (read : Reader α) (f : α → β) : Reader β := fun bs =>
  (read bs).map fun x => (f x.1, x.2)

def readMany (read : Reader α) : ℕ → Reader (List α)
  | 0 => fun bs => some ([], bs)
  | n + 1 => read.andThen fun x => (readMany read n).map (x :: ·)

def readVec (read : Reader α) : Reader (List α) := (readLe 4).andThen (readMany read)

/-- `try_from_slice`: nothing may be left. -/
def tryFromSlice (read : Reader α) (bs : List UInt8) : Option α :=
  (read bs).bind fun x => if x.2 = [] then some x.1 else none

/-- Whatever follows, `x` is taken off `bs`. -/
def Reads (read : Reader α) (bs : List UInt8) (x : α) : Prop :=
  ∀ rest, read (bs ++ rest) = some (x, rest)

variable {read : Reader α} {next : α → Reader β} {x : α} {y : β} {bs bs' : List UInt8}

theorem reads_le {w n : ℕ} (hn : n < 256 ^ w) : Reads (readLe w) (le w n) n := by
  intro rest
  have htake : (le w n ++ rest).take w = le w n := List.take_left' (le_length w n)
  have hdrop : (le w n ++ rest).drop w = rest := List.drop_left' (le_length w n)
  rw [readLe, if_pos (by simp), htake, hdrop, ofBe_le_reverse, Nat.mod_eq_of_lt hn]

theorem reads_bytes32 {n : ℕ} (hn : n < 256 ^ 32) : Reads readBytes32 (bytes32 n) n := by
  intro rest
  have htake : (bytes32 n ++ rest).take 32 = bytes32 n := List.take_left' (bytes32_length n)
  have hdrop : (bytes32 n ++ rest).drop 32 = rest := List.drop_left' (bytes32_length n)
  rw [readBytes32, if_pos (by simp), htake, hdrop, bytes32, ofBe_le_reverse, Nat.mod_eq_of_lt hn]

theorem Reads.andThen (hx : Reads read bs x) (hy : Reads (next x) bs' y) :
    Reads (read.andThen next) (bs ++ bs') y := by
  intro rest
  rw [Reader.andThen, List.append_assoc, hx, Option.bind_some]
  exact hy rest

theorem Reads.map {f : α → β} (hx : Reads read bs x) : Reads (read.map f) bs (f x) := by
  intro rest
  rw [Reader.map, hx, Option.map_some]

theorem reads_many {enc : α → List UInt8} {l : List α} (h : ∀ x ∈ l, Reads read (enc x) x) :
    Reads (readMany read l.length) (l.flatMap enc) l := by
  induction l with
  | nil => exact fun _ => rfl
  | cons x xs ih =>
    obtain ⟨hx, hxs⟩ := List.forall_mem_cons.1 h
    rw [List.flatMap_cons]
    exact hx.andThen (ih hxs).map

/-- A vector of up to `2 ^ 32` elements is read off its bytes, if each of them is. -/
theorem reads_vec {enc : α → List UInt8} {l : List α} (hl : l.length < 256 ^ 4)
    (h : ∀ x ∈ l, Reads read (enc x) x) : Reads (readVec read) (vec enc l) l :=
  (reads_le hl).andThen (reads_many h)

theorem Reads.tryFromSlice (hx : Reads read bs x) : tryFromSlice read bs = some x := by
  have h := hx []
  rw [List.append_nil] at h
  rw [Borsh.tryFromSlice, h, Option.bind_some, if_pos rfl]

end Borsh

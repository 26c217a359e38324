import Mathlib.Data.Finmap
import ZentraChain.Lib.Codec

/-!
# Tables of a byte store

A byte store has families of byte strings under byte strings. A `Table` keeps values of one type in
a family, under the encodings of their keys. `Holds` says that a family has the entries of a typed
map: a table's `get` then reads that map (`Holds.get`), its `put` and `delete` keep up with the map's
(`Holds.put`, `Holds.delete`), and so do writes under keys of other tables in the same family
(`Holds.insert_other`).
-/

open Borsh

/-- The byte strings of a store, by their keys. -/
abbrev Family := Finmap fun _ : List UInt8 => List UInt8

/-- What the values of a table are in bytes, and under which keys. -/
structure Table (κ ν : Type*) where
  okKey : κ → Prop
  key : κ → List UInt8
  ok : ν → Prop
  enc : ν → List UInt8
  read : Reader ν
  key_inj : ∀ k k', okKey k → okKey k' → key k = key k' → k = k'
  codec : Codec ok enc read

namespace Table

variable {κ ν κ' ν' : Type*}

/-- A value that does not decode. -/
inductive Error
  | malformed
  deriving DecidableEq, Repr

/-- The value under a key, decoded. -/
def get (t : Table κ ν) (raw : Family) (k : κ) : Except Error (Option ν) :=
  match raw.lookup (t.key k) with
  | none => .ok none
  | some bs =>
    match tryFromSlice t.read bs with
    | some v => .ok (some v)
    | none => .error .malformed

def put (t : Table κ ν) (raw : Family) (k : κ) (v : ν) : Family := raw.insert (t.key k) (t.enc v)

def delete (t : Table κ ν) (raw : Family) (k : κ) : Family := raw.erase (t.key k)

/-- The family has the entries of `m`, and its values fit. -/
structure Holds (t : Table κ ν) (raw : Family) (m : κ → Option ν) : Prop where
  lookup : ∀ k, t.okKey k → raw.lookup (t.key k) = (m k).map t.enc
  ok : ∀ k, t.okKey k → ∀ v ∈ m k, t.ok v

/-- No key of one table is a key of the other. -/
def Apart (t : Table κ ν) (t' : Table κ' ν') : Prop := ∀ k k', t.key k ≠ t'.key k'

variable {t : Table κ ν} {t' : Table κ' ν'} {raw : Family} {m : κ → Option ν} {k : κ} {v : ν}

theorem Holds.congr (h : t.Holds raw m) {m' : κ → Option ν} (hm : ∀ k, m' k = m k) :
    t.Holds raw m' := by
  rwa [show m' = m from funext hm]

theorem Holds.empty (t : Table κ ν) : t.Holds ∅ fun _ => none where
  lookup _ _ := Finmap.lookup_empty _
  ok _ _ _ hv := by cases hv

/-- **What is read is what the map has.** -/
theorem Holds.get (h : t.Holds raw m) (hk : t.okKey k) : t.get raw k = .ok (m k) := by
  unfold Table.get
  rw [h.lookup k hk]
  cases hm : m k with
  | none => rfl
  | some v =>
    have hdec : tryFromSlice t.read (t.enc v) = some v :=
      t.codec.tryFromSlice_iff.2 ⟨h.ok k hk v hm, rfl⟩
    simp only [Option.map_some, hdec]

theorem Holds.put [DecidableEq κ] (h : t.Holds raw m) (hk : t.okKey k) (hv : t.ok v) :
    t.Holds (t.put raw k v) fun k' => if k' = k then some v else m k' where
  lookup k' hk' := by
    unfold Table.put
    by_cases he : k' = k
    · rw [he, if_pos rfl, Finmap.lookup_insert, Option.map_some]
    · have hne : t.key k' ≠ t.key k := fun hkey => he (t.key_inj k' k hk' hk hkey)
      rw [if_neg he, Finmap.lookup_insert_of_ne _ hne]
      exact h.lookup k' hk'
  ok k' hk' v' hv' := by
    split at hv'
    · cases hv'
      exact hv
    · exact h.ok k' hk' v' hv'

theorem Holds.delete [DecidableEq κ] (h : t.Holds raw m) (hk : t.okKey k) :
    t.Holds (t.delete raw k) fun k' => if k' = k then none else m k' where
  lookup k' hk' := by
    unfold Table.delete
    by_cases he : k' = k
    · rw [he, if_pos rfl, Finmap.lookup_erase, Option.map_none]
    · have hne : t.key k' ≠ t.key k := fun hkey => he (t.key_inj k' k hk' hk hkey)
      rw [if_neg he, Finmap.lookup_erase_ne hne]
      exact h.lookup k' hk'
  ok k' hk' v' hv' := by
    split at hv'
    · cases hv'
    · exact h.ok k' hk' v' hv'

/-- A write of another table of the family. -/
theorem Holds.put_other (h : t.Holds raw m) (hap : t.Apart t') (k' : κ') (v' : ν') :
    t.Holds (t'.put raw k' v') m where
  lookup k hk := by
    rw [Table.put, Finmap.lookup_insert_of_ne _ (hap k k')]
    exact h.lookup k hk
  ok := h.ok

end Table

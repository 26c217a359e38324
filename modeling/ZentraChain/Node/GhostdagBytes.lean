import ZentraChain.Lib.Borsh
import ZentraChain.Node.DagWf

/-!
# The bytes of the GhostDAG column (`ghostdag.rs`, `dag.rs`, `node.rs`)

`connect_block` stores the Borsh bytes of a block's GhostDAG data; `insert_block` then writes 64 zero
bytes over those of a block without parents. `Db` has a column of decoded data instead.

* `tryFromSlice_encode`: data that fits its integers is read back.
* `Column.connect`: both writes keep the column of bytes in step with the decoded one.
-/

namespace Zentra

open Borsh

namespace GhostdagData

def encode (g : GhostdagData) : List UInt8 :=
  le 8 g.blueScore ++ (le 16 g.blueWork ++ (bytes32 g.selectedParent.val ++
    (vec (fun h => bytes32 h.val) g.mergesetBlues ++ vec (fun h => bytes32 h.val) g.mergesetReds)))

def readHash : Reader Hash := readBytes32.map Hash.mk

/-- The fields, in the order of the struct. -/
def read : Reader GhostdagData :=
  (readLe 8).andThen fun blueScore => (readLe 16).andThen fun blueWork =>
    readHash.andThen fun selectedParent => (readVec readHash).andThen fun mergesetBlues =>
      (readVec readHash).map fun mergesetReds =>
        ⟨blueScore, blueWork, selectedParent, mergesetBlues, mergesetReds⟩

/-- The fields fit their types. -/
structure Fits (g : GhostdagData) : Prop where
  blueScore : g.blueScore < 256 ^ 8
  blueWork : g.blueWork < 256 ^ 16
  selectedParent : g.selectedParent.val < 256 ^ 32
  mergesetBlues : g.mergesetBlues.length < 256 ^ 4 ∧ ∀ h ∈ g.mergesetBlues, h.val < 256 ^ 32
  mergesetReds : g.mergesetReds.length < 256 ^ 4 ∧ ∀ h ∈ g.mergesetReds, h.val < 256 ^ 32

variable {g : GhostdagData}

theorem reads_hash {h : Hash} (hh : h.val < 256 ^ 32) : Reads readHash (bytes32 h.val) h :=
  (reads_bytes32 hh).map

theorem reads_hashes {l : List Hash} (hl : l.length < 256 ^ 4 ∧ ∀ h ∈ l, h.val < 256 ^ 32) :
    Reads (readVec readHash) (vec (fun h => bytes32 h.val) l) l :=
  reads_vec hl.1 fun h hh => reads_hash (hl.2 h hh)

/-- **Data that fits is read back** from its bytes. -/
theorem tryFromSlice_encode (hg : g.Fits) : tryFromSlice read g.encode = some g :=
  ((reads_le hg.blueScore).andThen <| (reads_le hg.blueWork).andThen <|
    (reads_hash hg.selectedParent).andThen <| (reads_hashes hg.mergesetBlues).andThen
      (reads_hashes hg.mergesetReds).map).tryFromSlice

/-- The 64 zero bytes are those of the genesis data. -/
theorem encode_genesis : genesis.encode = List.replicate 64 0 := by decide +kernel

theorem tryFromSlice_zeros : tryFromSlice read (List.replicate 64 0) = some genesis := by
  rw [← encode_genesis]
  exact tryFromSlice_encode ⟨by decide, by decide, by decide, by decide, by decide⟩

end GhostdagData

namespace Dag

/-- A column of bytes, as `get_ghostdag` decodes it. -/
def decoded (raw : Finmap fun _ : Hash => List UInt8) (h : Hash) : Option GhostdagData :=
  (raw.lookup h).bind (tryFromSlice GhostdagData.read)

/-- What `connect_block` writes to the column. -/
def connectRaw (E : Env) (raw : Finmap fun _ : Hash => List UInt8) (b : Block)
    (expected : GhostdagData) : Finmap fun _ : Hash => List UInt8 :=
  let raw := raw.insert (b.hash E) expected.encode
  if b.header.parents.isEmpty then raw.insert (b.hash E) (List.replicate 64 0) else raw

/-- The column of bytes decodes to the column of the graph. -/
def Column (raw : Finmap fun _ : Hash => List UInt8) (d : Dag) : Prop :=
  ∀ h, decoded raw h = d.getGhostdag h

variable {E : Env} {d : Dag} {b : Block} {raw : Finmap fun _ : Hash => List UInt8}

/-- **Both writes keep the columns in step.** -/
theorem Column.connect (hc : Column raw d) (hfit : (d.ghostdagFor b.header.parents).Fits) :
    Column (connectRaw E raw b (d.ghostdagFor b.header.parents)) (d.extend E b) := by
  intro h
  rw [getGhostdag_extend, decoded, connectRaw]
  by_cases hp : b.header.parents = []
  · -- the zero bytes are what was there before
    have hgen : d.ghostdagFor b.header.parents = .genesis := by
      rw [hp]
      rfl
    rw [hgen, if_pos (List.isEmpty_iff.2 hp), Finmap.lookup_insert_ite, Finmap.lookup_insert_ite]
    by_cases hh : h = b.hash E
    · rw [if_pos hh, if_pos hh, Option.bind_some]
      exact GhostdagData.tryFromSlice_zeros
    · rw [if_neg hh, if_neg hh, if_neg hh]
      exact hc h
  · rw [if_neg fun he => hp (List.isEmpty_iff.1 he), Finmap.lookup_insert_ite]
    by_cases hh : h = b.hash E
    · rw [if_pos hh, if_pos hh, Option.bind_some]
      exact GhostdagData.tryFromSlice_encode hfit
    · rw [if_neg hh, if_neg hh]
      exact hc h

end Dag

end Zentra

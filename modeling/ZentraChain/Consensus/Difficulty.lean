import Mathlib.Data.List.DropRight
import ZentraChain.Core.Block

/-!
# Difficulty adjustment (`difficulty.rs`)

Dark Gravity Wave over each lane's last blocks. Targets are 32-byte arrays in the source and their
big-endian values here, so the byte loops of `add_targets`, `div_target_by_u64`, `mul_div_target`
are the arithmetic they carry out: an addition that drops its last carry, a floor division, and a
product that becomes all ones when it does not fit.

* `DifficultyEngine.foldl_recordBlock`: an engine has the last blocks recorded.
* `DifficultyManager.foldl_recordBlock`: the engine of a lane has those of the lane.
-/

namespace Zentra

/-- `add_targets`. -/
def addTargets (a b : Hash) : Hash := ⟨(a.val + b.val) % 2 ^ 256⟩

/-- `div_target_by_u64`. -/
def divTargetByU64 (target : Hash) (divisor : Nat) : Hash :=
  if divisor = 0 then target else ⟨target.val / divisor⟩

/-- `mul_div_target`. -/
def mulDivTarget (target : Hash) (num den : Nat) : Hash :=
  if target.val * num ≥ 2 ^ 256 then ⟨2 ^ 256 - 1⟩ else ⟨target.val * num / den⟩

/-- `target_to_bits`: the length in bytes and the first three significant bytes. -/
def targetToBits (target : Hash) : Nat :=
  if target.val = 0 then 0
  else
    let exponent := target.val.log2 / 8 + 1
    let mantissa :=
      if exponent ≤ 3 then target.val * 2 ^ (8 * (3 - exponent))
      else target.val / 256 ^ (exponent - 3)
    -- the sign bit of the mantissa must stay clear
    if mantissa / 2 ^ 23 % 2 = 1 then (exponent + 1) * 2 ^ 24 + mantissa / 256 % 2 ^ 23
    else exponent * 2 ^ 24 + mantissa % 2 ^ 23

structure DifficultyEngine where
  laneId : LaneId
  /-- `(timestamp_ms, bits)` of the last recorded blocks, oldest first. -/
  history : List (Nat × Nat)
  targetBlockTimeMs : Nat
  windowSize : Nat
  deriving DecidableEq, Repr

namespace DifficultyEngine

/-- `new_with_network`. -/
def newWithNetwork (laneId : LaneId) (network : NetworkType) : DifficultyEngine where
  laneId := laneId
  history := []
  targetBlockTimeMs := Zentra.targetBlockTimeMs
  windowSize := match network with
    | .devnet => 10
    | _ => 12

/-- Record a block; at most `windowSize + 1` are kept. -/
def recordBlock (e : DifficultyEngine) (timestampMs bits : Nat) : DifficultyEngine :=
  let h := e.history ++ [(timestampMs, bits)]
  { e with history := h.drop (h.length - (e.windowSize + 1)) }

/-- `genesis_difficulty`: the easiest bits a block may have. -/
def genesisDifficulty : Nat := 0x1F0FFFFF

/-- The next difficulty target bits. -/
def nextDifficulty (e : DifficultyEngine) : Nat :=
  let n := e.history.length - 1
  if n = 0 then genesisDifficulty
  else
    let targetSum := (e.history.drop 1).foldl
      (fun acc h => addTargets acc (Header.targetFromBits h.2)) .zero
    let targetAvg := divTargetByU64 targetSum n
    let lastTs := (e.history.getLast?.map (·.1)).getD 0
    let firstTs := (e.history.head?.map (·.1)).getD 0
    let actualTimespan := lastTs - firstTs
    let targetTimespan := n * e.targetBlockTimeMs
    let clampedTimespan := max (targetTimespan / 3) (min actualTimespan (targetTimespan * 3))
    -- scale down before the product
    let scale := clampedTimespan / 100
    let num := if clampedTimespan > 100 then clampedTimespan / scale else clampedTimespan
    let den := if clampedTimespan > 100 then max (targetTimespan / scale) 1 else targetTimespan
    let adjusted := mulDivTarget targetAvg num den
    let maxTarget := Header.targetFromBits genesisDifficulty
    targetToBits (if adjusted > maxTarget ∨ adjusted = .zero then maxTarget else adjusted)

variable {e : DifficultyEngine}

theorem recordBlock_eq (timestampMs bits : Nat) : e.recordBlock timestampMs bits =
    { e with history := (e.history ++ [(timestampMs, bits)]).rtake (e.windowSize + 1) } := rfl

/-- **An engine has the last blocks recorded.** -/
theorem foldl_recordBlock (he : e.history = []) (l : List (Nat × Nat)) :
    l.foldl (fun e h => e.recordBlock h.1 h.2) e =
      { e with history := l.rtake (e.windowSize + 1) } := by
  induction l using List.reverseRecOn with
  | nil => rw [List.foldl_nil, List.rtake_nil, ← he]
  | append_singleton l x ih =>
    rw [List.foldl_concat, ih, recordBlock_eq, List.rtake_concat_succ]
    congr 1
    -- what the window drops before it drops no more of
    rw [List.rtake_concat_succ, List.rtake_eq_reverse_take_reverse,
      List.rtake_eq_reverse_take_reverse, List.rtake_eq_reverse_take_reverse, List.reverse_reverse,
      List.take_take, Nat.min_eq_left (Nat.le_succ _)]

/-- Blocks further back than the window are not missed. -/
theorem foldl_recordBlock_take (he : e.history = []) {room : Nat} (hr : e.windowSize < room)
    (l : List (Nat × Nat)) : (l.take room).reverse.foldl (fun e h => e.recordBlock h.1 h.2) e =
      l.reverse.foldl (fun e h => e.recordBlock h.1 h.2) e := by
  rw [foldl_recordBlock he, foldl_recordBlock he]
  simp only [List.rtake_eq_reverse_take_reverse, List.reverse_reverse, List.take_take]
  rw [Nat.min_eq_left hr]

theorem windowSize_newWithNetwork (lane : LaneId) (network : NetworkType) :
    (newWithNetwork lane network).windowSize < 20 := by
  cases network <;> exact of_decide_eq_true rfl

end DifficultyEngine

/-- One engine for each lane. -/
structure DifficultyManager where
  engines : LaneId → DifficultyEngine

namespace DifficultyManager

/-- `new_with_network`. -/
def newWithNetwork (network : NetworkType) : DifficultyManager :=
  ⟨fun lane => .newWithNetwork lane network⟩

def getNextDifficulty (m : DifficultyManager) (lane : LaneId) : Nat := (m.engines lane).nextDifficulty

def recordBlock (m : DifficultyManager) (lane : LaneId) (timestampMs bits : Nat) :
    DifficultyManager :=
  ⟨fun l => if l = lane then (m.engines l).recordBlock timestampMs bits else m.engines l⟩

/-- Clear the history of all engines. -/
def clear (m : DifficultyManager) : DifficultyManager :=
  ⟨fun l => { m.engines l with history := [] }⟩

/-! ## What a manager has -/

variable {m : DifficultyManager} {lane : LaneId}

theorem engines_recordBlock (l : LaneId) (timestampMs bits : Nat) :
    (m.recordBlock l timestampMs bits).engines lane =
      if lane = l then (m.engines lane).recordBlock timestampMs bits else m.engines lane := rfl

theorem clear_newWithNetwork (network : NetworkType) :
    (newWithNetwork network).clear = newWithNetwork network := rfl

@[simp] theorem clear_recordBlock (timestampMs bits : Nat) :
    (m.recordBlock lane timestampMs bits).clear = m.clear := by
  simp only [clear, recordBlock]
  congr 1
  funext l
  split <;> rfl

theorem clear_foldl_recordBlock (l : List Header) :
    (l.foldl (fun m hd => m.recordBlock hd.laneId hd.timestamp hd.bits) m).clear = m.clear := by
  induction l generalizing m with
  | nil => rfl
  | cons hd l ih => rw [List.foldl_cons, ih, clear_recordBlock]

/-- **The engine of a lane** has the blocks of the lane. -/
theorem foldl_recordBlock (l : List Header) :
    (l.foldl (fun m hd => m.recordBlock hd.laneId hd.timestamp hd.bits) m).engines lane =
      ((l.filter (·.laneId = lane)).map fun hd => (hd.timestamp, hd.bits)).foldl
        (fun e h => e.recordBlock h.1 h.2) (m.engines lane) := by
  induction l generalizing m with
  | nil => rfl
  | cons hd l ih =>
    rw [List.foldl_cons, ih]
    by_cases hl : hd.laneId = lane
    · rw [List.filter_cons_of_pos (by simpa using hl), List.map_cons, List.foldl_cons,
        engines_recordBlock, if_pos hl.symm]
    · rw [List.filter_cons_of_neg (by simpa using hl), engines_recordBlock,
        if_neg fun h => hl h.symm]

end DifficultyManager

end Zentra

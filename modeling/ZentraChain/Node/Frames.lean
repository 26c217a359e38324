import ZentraChain.Core.Encoding
import ZentraChain.Core.Mempool
import ZentraChain.Node.BlocksAbove

/-!
# Frames (`p2p_sync.rs`)

A message is the text of a JSON object behind its length in four bytes; blocks and transactions are
in it as the hexadecimal digits of their encodings. A receiver refuses a frame of more than
`maxFrame` bytes.

* `readFrame_writeFrame_iff`: a payload is read back exactly if it is no longer than that.
* `Message.payload_length`: the length of what a node sends.
* `frames_readable_iff`: everything it can send is read exactly if the encodings are short enough,
  single ones and summed over a batch or a snapshot of the mempool.
-/

namespace Zentra

/-- 4 MB. -/
def maxFrame : Nat := 4 * 1024 * 1024

/-! ## Framing -/

/-- Why a frame is not read. -/
inductive FrameError
  | tooLarge
  /-- the stream ends before the frame does -/
  | eof
  deriving DecidableEq, Repr

def writeFrame (payload : List UInt8) : List UInt8 := (Borsh.le 4 payload.length).reverse ++ payload

/-- A frame off the front of a stream, and what follows. -/
def readFrame (stream : List UInt8) : Except FrameError (List UInt8 × List UInt8) :=
  if stream.length < 4 then .error .eof
  else
    let n := Borsh.ofBe (stream.take 4)
    if n > maxFrame then .error .tooLarge
    else if (stream.drop 4).length < n then .error .eof
    else .ok ((stream.drop 4).take n, (stream.drop 4).drop n)

/-- **A payload is read back exactly if it is not too long.** -/
theorem readFrame_writeFrame_iff (payload rest : List UInt8) :
    readFrame (writeFrame payload ++ rest) = .ok (payload, rest) ↔ payload.length ≤ maxFrame := by
  have hlen : ((Borsh.le 4 payload.length).reverse).length = 4 := by simp
  have htake : (writeFrame payload ++ rest).take 4 = (Borsh.le 4 payload.length).reverse := by
    rw [writeFrame, List.append_assoc, List.take_left' hlen]
  have hdrop : (writeFrame payload ++ rest).drop 4 = payload ++ rest := by
    rw [writeFrame, List.append_assoc, List.drop_left' hlen]
  have hshort : ¬(writeFrame payload ++ rest).length < 4 := by
    rw [writeFrame, List.length_append, List.length_append, hlen]
    omega
  unfold readFrame
  simp only [htake, hdrop]
  rw [if_neg hshort, Borsh.ofBe_le_reverse]
  constructor
  · intro h
    split at h
    · cases h
    · rename_i hle
      split at h
      · cases h
      · -- the four bytes hold the length, or what is read is shorter
        injection h with h
        have hp := congrArg List.length (Prod.mk.inj h).1
        rw [List.length_take] at hp
        omega
  · intro h
    have hmod : payload.length % 256 ^ 4 = payload.length := by
      refine Nat.mod_eq_of_lt (Nat.lt_of_le_of_lt h ?_)
      decide
    have hfit : ¬(payload ++ rest).length < payload.length := by
      rw [List.length_append]
      omega
    rw [hmod, if_neg (Nat.not_lt.2 h), if_neg hfit, List.take_left, List.drop_left]

/-! ## Texts -/

def hexDigit (n : Nat) : Char := if n < 10 then Char.ofNat (48 + n) else Char.ofNat (87 + n)

/-- `hex::encode`. -/
def hexEncode (l : List UInt8) : List Char :=
  l.flatMap fun b => [hexDigit (b.toNat / 16), hexDigit (b.toNat % 16)]

def encodeBlock (b : Block) : List Char := hexEncode b.encode

def encodeTx (tx : Transaction) : List Char := hexEncode tx.encode

/-- The JSON values in the modelled messages. Their characters need no escapes. -/
inductive Json
  | null
  | str (s : List Char)
  | strs (l : List (List Char))

namespace Json

def quote (s : List Char) : List Char := '"' :: s ++ ['"']

/-- Texts with commas between them. -/
def commas : List (List Char) → List Char
  | [] => []
  | [s] => s
  | s :: t :: l => s ++ ',' :: commas (t :: l)

def text : Json → List Char
  | null => ['n', 'u', 'l', 'l']
  | str s => quote s
  | strs l => '[' :: commas (l.map quote) ++ [']']

/-- An object, its keys in their order. -/
def object (fields : List (List Char × Json)) : List Char :=
  '\x7b' :: commas (fields.map fun f => quote f.1 ++ ':' :: f.2.text) ++ ['\x7d']

end Json

/-- The messages that carry blocks or transactions. -/
inductive Message
  | blocks (blocks : List Block)
  | block (block : Option Block)
  | newblock (block : Block)
  | mempool (txs : List Transaction)
  | addtxs (txs : List Transaction)

namespace Message

/-- The fields, sorted by key as a `serde_json` map has them. -/
def fields : Message → List (List Char × Json)
  | blocks bs => [("blocks".toList, .strs (bs.map encodeBlock)), ("t".toList, .str "blocks".toList)]
  | block b =>
    [("block".toList, match b with | some b => .str (encodeBlock b) | none => .null),
      ("t".toList, .str "block".toList)]
  | newblock b =>
    [("block".toList, .str (encodeBlock b)), ("t".toList, .str "newblock".toList)]
  | mempool txs =>
    [("t".toList, .str "mempool".toList), ("txs".toList, .strs (txs.map encodeTx))]
  | addtxs txs => [("t".toList, .str "addtxs".toList), ("txs".toList, .strs (txs.map encodeTx))]

def payload (m : Message) : List UInt8 := (Json.object m.fields).map fun c => UInt8.ofNat c.toNat

end Message

/-! ## Lengths -/

theorem hexEncode_length (l : List UInt8) : (hexEncode l).length = 2 * l.length := by
  unfold hexEncode
  induction l with
  | nil => rfl
  | cons b l ih =>
    rw [List.flatMap_cons, List.length_append, ih, List.length_cons]
    simp only [List.length_cons, List.length_nil]
    omega

theorem Json.quote_length (s : List Char) : (quote s).length = s.length + 2 := by simp [quote]

theorem Json.commas_length : ∀ l : List (List Char),
    (commas l).length = (l.map List.length).sum + (l.length - 1)
  | [] => rfl
  | [s] => by simp [commas]
  | s :: t :: l => by
    rw [commas, List.length_append, List.length_cons, commas_length (t :: l)]
    simp only [List.map_cons, List.sum_cons, List.length_cons]
    omega

theorem Json.strs_length (l : List (List Char)) :
    (strs l).text.length = 2 + (l.map fun s => s.length + 2).sum + (l.length - 1) := by
  simp only [text, List.length_append, List.length_cons, List.length_nil, commas_length,
    List.map_map, List.length_map]
  have hq : (List.length ∘ quote) = fun s => s.length + 2 := funext quote_length
  rw [hq]
  omega

/-- The text of a list of encodings of these lengths. -/
def listLength (sizes : List Nat) : Nat :=
  2 + (sizes.map fun s => 2 * s + 2).sum + (sizes.length - 1)

theorem strs_encode_length {α : Type} (enc : α → List UInt8) (l : List α) :
    (Json.strs (l.map fun x => hexEncode (enc x))).text.length =
      listLength (l.map fun x => (enc x).length) := by
  rw [Json.strs_length, listLength, List.map_map, List.map_map, List.length_map, List.length_map]
  congr 4
  funext x
  exact congrArg (· + 2) (hexEncode_length (enc x))

namespace Message

/-- The length of a message, by the lengths of the encodings in it. -/
def length : Message → Nat
  | blocks bs => 24 + listLength (bs.map (·.sizeBytes))
  | block (some b) => 24 + 2 * b.sizeBytes
  | block none => 26
  | newblock b => 27 + 2 * b.sizeBytes
  | mempool txs => 22 + listLength (txs.map fun tx => tx.encode.length)
  | addtxs txs => 21 + listLength (txs.map fun tx => tx.encode.length)

theorem payload_length (m : Message) : m.payload.length = m.length := by
  have hobj : ∀ k k' : List Char, ∀ v v' : Json, (Json.object [(k, v), (k', v')]).length =
      9 + k.length + k'.length + v.text.length + v'.text.length := by
    intro k k' v v'
    simp [Json.object, Json.commas, Json.quote]
    omega
  unfold payload
  rw [List.length_map]
  cases m with
  | blocks bs =>
    have hs : (Json.strs (bs.map encodeBlock)).text.length = listLength (bs.map (·.sizeBytes)) :=
      strs_encode_length Block.encode bs
    rw [fields, hobj, hs]
    simp [length, Json.text, Json.quote_length]
    omega
  | block b =>
    cases b with
    | none =>
      rw [fields, hobj]
      simp [length, Json.text, Json.quote_length]
    | some b =>
      have hb : (encodeBlock b).length = 2 * b.sizeBytes := hexEncode_length b.encode
      rw [fields, hobj]
      simp [length, Json.text, Json.quote_length, hb]
      omega
  | newblock b =>
    have hb : (encodeBlock b).length = 2 * b.sizeBytes := hexEncode_length b.encode
    rw [fields, hobj]
    simp [length, Json.text, Json.quote_length, hb]
    omega
  | mempool txs =>
    have hs : (Json.strs (txs.map encodeTx)).text.length =
        listLength (txs.map fun tx => tx.encode.length) := strs_encode_length Transaction.encode txs
    rw [fields, hobj, hs]
    simp [length, Json.text, Json.quote_length]
  | addtxs txs =>
    have hs : (Json.strs (txs.map encodeTx)).text.length =
        listLength (txs.map fun tx => tx.encode.length) := strs_encode_length Transaction.encode txs
    rw [fields, hobj, hs]
    simp [length, Json.text, Json.quote_length]

end Message

/-! ## What a node sends -/

namespace Dag

/-- The score of the first block of a locator that is stored, `0` if none is; without a locator the
height asked for. -/
def commonHeight (d : Dag) (locator : Option (List Hash)) (fromHeight : Nat) : Nat :=
  match locator with
  | some hashes => ((hashes.findSome? d.getBlock).map (·.header.blueScore)).getD 0
  | none => fromHeight

end Dag

namespace Node

def mempoolSnapshot (n : Node) : List Transaction := n.mempool.getTransactionsForBlock 1000

/-- The messages a node sends in a state. -/
inductive Sends (n : Node) : Message → Prop
  /-- the reply to `getblocks` -/
  | blocks (locator : Option (List Hash)) (fromHeight : Nat) :
    Sends n (.blocks (n.dag.blocksAbove (n.dag.commonHeight locator fromHeight) syncBatch))
  /-- the reply to `getblock` -/
  | block (h : Hash) : Sends n (.block (n.dag.getBlock h))
  /-- a stored block, pushed or broadcast -/
  | newblock (h : Hash) (b : Block) (hb : n.dag.getBlock h = some b) : Sends n (.newblock b)
  /-- the reply to `getmempool` -/
  | mempool : Sends n (.mempool n.mempoolSnapshot)
  | addtxs (hne : n.mempoolSnapshot ≠ []) : Sends n (.addtxs n.mempoolSnapshot)

/-- The bytes of a list of encodings as digits, quoted and with commas. -/
def digits (sizes : List Nat) : Nat := 2 * sizes.sum + 3 * sizes.length

/-- The encodings are short enough: each block, the blocks of a batch together, and the pooled
transactions of a snapshot together. -/
structure Short (n : Node) : Prop where
  block : ∀ h b, n.dag.getBlock h = some b → 2 * b.sizeBytes + 27 ≤ maxFrame
  batch : ∀ height,
    digits ((n.dag.blocksAbove height syncBatch).map (·.sizeBytes)) + 25 ≤ maxFrame
  mempool : digits (n.mempoolSnapshot.map fun tx => tx.encode.length) + 23 ≤ maxFrame

theorem listLength_le_iff (sizes : List Nat) {k : Nat} (hk : k + 2 ≤ maxFrame) :
    k + listLength sizes ≤ maxFrame ↔ digits sizes + (k + 1) ≤ maxFrame := by
  have hsum : ∀ l : List Nat, (l.map fun s => 2 * s + 2).sum = 2 * l.sum + 2 * l.length := by
    intro l
    induction l with
    | nil => rfl
    | cons s l ih =>
      rw [List.map_cons, List.sum_cons, ih, List.sum_cons, List.length_cons]
      omega
  unfold listLength digits
  rw [hsum]
  cases sizes with
  | nil =>
    simp only [List.sum_nil, List.length_nil]
    omega
  | cons s l =>
    rw [List.length_cons]
    omega

/-- **Every frame is read by its receiver** exactly if the encodings are short enough. -/
theorem frames_readable_iff (n : Node) :
    (∀ m, n.Sends m → m.payload.length ≤ maxFrame ∧
      ∀ rest, readFrame (writeFrame m.payload ++ rest) = .ok (m.payload, rest)) ↔ n.Short := by
  have hlist := fun sizes (k : Nat) (hk : k + 2 ≤ maxFrame) => listLength_le_iff sizes hk
  have hbatch := fun l => hlist l 24 (by decide)
  have hpool := fun l => hlist l 22 (by decide)
  have hadd := fun l => hlist l 21 (by decide)
  constructor
  · intro h
    have hlen : ∀ m, n.Sends m → m.length ≤ maxFrame := fun m hm => m.payload_length ▸ (h m hm).1
    refine ⟨fun x b hb => ?_, fun height => ?_, ?_⟩
    · have hb := hlen _ (.newblock x b hb)
      rw [Message.length] at hb
      omega
    · exact (hbatch _).1 (hlen _ (.blocks none height))
    · exact (hpool _).1 (hlen _ .mempool)
  · intro h m hm
    have hlen : m.payload.length ≤ maxFrame := by
      rw [m.payload_length]
      cases hm with
      | blocks locator fromHeight => exact (hbatch _).2 (h.batch _)
      | block x =>
        cases hb : n.dag.getBlock x with
        | none =>
          show 26 ≤ maxFrame
          decide
        | some b =>
          have hle := h.block x b hb
          show 24 + 2 * b.sizeBytes ≤ maxFrame
          omega
      | newblock x b hb =>
        have hle := h.block x b hb
        show 27 + 2 * b.sizeBytes ≤ maxFrame
        omega
      | mempool => exact (hpool _).2 h.mempool
      | addtxs hne =>
        refine (hadd _).2 ?_
        have hle := h.mempool
        omega
    exact ⟨hlen, fun rest => (readFrame_writeFrame_iff _ rest).2 hlen⟩

/-- Blocks of up to 4192 bytes and transactions of up to 2095 are short enough in any number. -/
theorem Short.of_small {E : Env} {n : Node} (hn : n.Reachable E)
    (hb : ∀ h b, n.dag.getBlock h = some b → b.sizeBytes ≤ 4192)
    (ht : ∀ tx ∈ n.mempoolSnapshot, tx.encode.length ≤ 2095) : n.Short := by
  have hsum : ∀ (l : List Nat) (c : Nat), (∀ s ∈ l, s ≤ c) → l.sum ≤ l.length * c := fun l c h =>
    List.sum_le_card_nsmul l c h
  refine ⟨fun h b hb' => ?_, fun height => ?_, ?_⟩
  · have := hb h b hb'
    unfold maxFrame
    omega
  · have hle := hsum ((n.dag.blocksAbove height syncBatch).map (·.sizeBytes)) 4192 fun s hs => by
      obtain ⟨b, hm, rfl⟩ := List.mem_map.1 hs
      exact hb _ b (((hn.tips.blocksAbove_sorted hn.sound.wf).mem height b).1 (List.mem_of_mem_take hm)).1
    have hlen : (n.dag.blocksAbove height syncBatch).length ≤ 500 := by
      rw [Dag.blocksAbove, List.length_take]
      exact Nat.min_le_left _ _
    unfold digits maxFrame
    rw [List.length_map] at hle ⊢
    omega
  · have hle := hsum (n.mempoolSnapshot.map fun tx => tx.encode.length) 2095 fun s hs => by
      obtain ⟨tx, hm, rfl⟩ := List.mem_map.1 hs
      exact ht tx hm
    have hlen : n.mempoolSnapshot.length ≤ 1000 := by
      refine (List.length_filterMap_le _ _).trans ?_
      rw [List.length_take]
      exact Nat.min_le_left _ _
    unfold digits maxFrame
    rw [List.length_map] at hle ⊢
    omega

end Node

namespace Sample

theorem sibling_sizeBytes (payload : List UInt8) (k : Nat) :
    payload.length ≤ (sibling payload k).sizeBytes := by
  have htx := Transaction.payload_le_encode_length { coinbase 1 [subsidy] with payload := payload }
  rw [Block.sizeBytes_eq]
  show _ ≤ _ + [({ coinbase 1 [subsidy] with payload := payload } : Transaction).encode.length].sum
  rw [List.sum_singleton]
  exact htx.trans (Nat.le_add_left _ _)

end Sample

open Sample in
/-- Three blocks of 700 kB on the genesis block are accepted, and are too long for one frame. -/
theorem batch_too_long :
    ¬∀ n : Node, n.Reachable env → ∀ m, n.Sends m → m.payload.length ≤ maxFrame := by
  intro h
  obtain ⟨payload, hp⟩ : ∃ l : List UInt8, l.length = 700000 := ⟨List.replicate 700000 0, List.length_replicate⟩
  obtain ⟨n, hd⟩ := siblings_delivered payload 3
  have hn := hd.reachable .refl
  have hlen := h n hn _ (.blocks none 0)
  rw [Message.payload_length] at hlen
  have hle : Node.digits ((n.dag.blocksAbove 0 syncBatch).map (·.sizeBytes)) + 25 ≤ maxFrame :=
    (Node.listLength_le_iff _ (by decide)).1 hlen
  have hcount : 3 ≤ (n.dag.blocksAbove 0 syncBatch).length := by
    rw [Dag.blocksAbove, List.length_take, hn.tips.length_allAbove hn.sound.wf, syncBatch]
    have := siblings_above hd
    omega
  have hsize : ∀ s ∈ (n.dag.blocksAbove 0 syncBatch).map (·.sizeBytes), 700000 ≤ s := by
    intro s hs
    obtain ⟨b, hb, rfl⟩ := List.mem_map.1 hs
    obtain ⟨hb, hpos⟩ :=
      ((hn.tips.blocksAbove_sorted hn.sound.wf).mem 0 b).1 (List.mem_of_mem_take hb)
    have hin := siblings_stored hd hb (by rw [hn.sound.wf.score_eq hb]; exact hpos)
    obtain ⟨k, -, rfl⟩ := List.mem_map.1 hin
    exact hp ▸ sibling_sizeBytes payload k
  have hsum := List.card_nsmul_le_sum _ _ hsize
  rw [List.length_map, smul_eq_mul] at hsum
  unfold Node.digits maxFrame at hle
  omega

end Zentra

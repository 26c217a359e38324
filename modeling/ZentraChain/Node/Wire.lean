import ZentraChain.Core.Decoding
import ZentraChain.Node.Frames

/-!
# Blocks and transactions on the wire (`p2p_sync.rs`)

A peer decodes the hexadecimal digits of a block or a transaction, which may be in either case, and
then its encoding, of which nothing may be left.

* `hexDecode_eq_some_iff`: the texts of some bytes.
* `decode_iff`: a text is decoded exactly if it is that of a record that fits its types.
* `readFrames_take`: a stream that is cut off anywhere is read as its complete frames.
-/

namespace Zentra

/-! ## Digits -/

/-- The value of a digit, of either case. -/
def hexValue (c : Char) : Option Nat :=
  if '0' ≤ c ∧ c ≤ '9' then some (c.toNat - 48)
  else if 'a' ≤ c ∧ c ≤ 'f' then some (c.toNat - 87)
  else if 'A' ≤ c ∧ c ≤ 'F' then some (c.toNat - 55)
  else none

/-- `hex::decode`: an even number of digits. -/
def hexDecode : List Char → Option (List UInt8)
  | [] => some []
  | [_] => none
  | c :: d :: cs =>
    (hexValue c).bind fun x => (hexValue d).bind fun y =>
      (hexDecode cs).map (UInt8.ofNat (16 * x + y) :: ·)

theorem hexValue_lt {c : Char} {n : Nat} (h : hexValue c = some n) : n < 16 := by
  unfold hexValue at h
  have hle : ∀ a b : Char, a ≤ b ↔ a.toNat ≤ b.toNat := fun _ _ => Iff.rfl
  simp only [hle] at h
  have h0 : 'a'.toNat = 97 ∧ 'f'.toNat = 102 ∧ 'A'.toNat = 65 ∧ 'F'.toNat = 70 ∧
    '0'.toNat = 48 ∧ '9'.toNat = 57 := by decide
  split at h
  · cases h
    omega
  · split at h
    · cases h
      omega
    · split at h
      · cases h
        omega
      · cases h

/-- The digits are among the first 128 characters. -/
theorem hexValue_ascii : ∀ k < 128, ∀ n < 16,
    hexValue (Char.ofNat k) = some n ↔ (Char.ofNat k).toLower = hexDigit n := by decide +kernel

theorem hexDigit_lt : ∀ n < 16, (hexDigit n).toNat < 128 := by decide

theorem hexValue_eq_some_iff (c : Char) (n : Nat) :
    hexValue c = some n ↔ n < 16 ∧ c.toLower = hexDigit n := by
  by_cases hc : c.toNat < 128
  · have h := hexValue_ascii c.toNat hc
    rw [Char.ofNat_toNat] at h
    exact ⟨fun hv => ⟨hexValue_lt hv, (h n (hexValue_lt hv)).1 hv⟩, fun hn => (h n hn.1).2 hn.2⟩
  · -- no digit, and no capital letter
    have hle : ∀ a b : Char, a ≤ b ↔ a.toNat ≤ b.toNat := fun _ _ => Iff.rfl
    have hnone : hexValue c = none := by
      have h9 : '9'.toNat = 57 ∧ 'f'.toNat = 102 ∧ 'F'.toNat = 70 := by decide
      simp only [hexValue, hle]
      rw [if_neg (by omega), if_neg (by omega), if_neg (by omega)]
    have hlower : c.toLower = c := by
      refine dif_neg fun h => ?_
      have hZ : c.toNat ≤ 90 := h.2
      omega
    rw [hnone, hlower]
    constructor
    · intro h
      cases h
    · intro h
      have hlt := hexDigit_lt n h.1
      rw [← h.2] at hlt
      exact absurd hlt hc

theorem hexDecode_eq_some_iff : ∀ (cs : List Char) (bs : List UInt8),
    hexDecode cs = some bs ↔ cs.map Char.toLower = hexEncode bs
  | [], [] => by simp [hexDecode, hexEncode]
  | [], b :: bs => by simp [hexDecode, hexEncode]
  | [c], [] => by simp [hexDecode, hexEncode]
  | [c], b :: bs => by simp [hexDecode, hexEncode]
  | c :: d :: cs, bs => by
    rw [hexDecode, Option.bind_eq_some_iff]
    constructor
    · intro h
      obtain ⟨x, hx, h⟩ := h
      rw [Option.bind_eq_some_iff] at h
      obtain ⟨y, hy, h⟩ := h
      rw [Option.map_eq_some_iff] at h
      obtain ⟨rest, hrest, rfl⟩ := h
      obtain ⟨hx16, hx⟩ := (hexValue_eq_some_iff c x).1 hx
      obtain ⟨hy16, hy⟩ := (hexValue_eq_some_iff d y).1 hy
      have hbyte : (UInt8.ofNat (16 * x + y)).toNat = 16 * x + y := by
        rw [UInt8.toNat_ofNat']
        omega
      have hhigh : (16 * x + y) / 16 = x := by omega
      have hlow : (16 * x + y) % 16 = y := by omega
      rw [hexEncode, List.flatMap_cons, hbyte, hhigh, hlow, List.map_cons, List.map_cons, hx, hy,
        (hexDecode_eq_some_iff cs rest).1 hrest]
      rfl
    · intro h
      cases bs with
      | nil => cases h
      | cons b bs =>
        have hlt : b.toNat < 256 := b.toNat_lt
        obtain ⟨hc, h⟩ := List.cons.inj h
        obtain ⟨hd, h⟩ := List.cons.inj h
        refine ⟨b.toNat / 16, (hexValue_eq_some_iff c _).2 ⟨by omega, hc⟩, ?_⟩
        rw [(hexValue_eq_some_iff d _).2 ⟨Nat.mod_lt _ (by decide), hd⟩, Option.bind_some,
          (hexDecode_eq_some_iff cs bs).2 h, Option.map_some, Nat.div_add_mod, UInt8.ofNat_toNat]

/-! ## Records -/

def decodeBlock (hexs : List Char) : Option Block :=
  (hexDecode hexs).bind (Borsh.tryFromSlice Block.read)

def decodeTx (hexs : List Char) : Option Transaction :=
  (hexDecode hexs).bind (Borsh.tryFromSlice Transaction.read)

/-- The texts that some codec's decoder accepts. -/
theorem decode_iff {α : Type} {ok : α → Prop} {enc : α → List UInt8} {read : Borsh.Reader α}
    (c : Borsh.Codec ok enc read) (hexs : List Char) (x : α) :
    (hexDecode hexs).bind (Borsh.tryFromSlice read) = some x ↔
      ok x ∧ hexs.map Char.toLower = hexEncode (enc x) := by
  rw [Option.bind_eq_some_iff]
  constructor
  · intro h
    obtain ⟨bs, hbs, hx⟩ := h
    obtain ⟨hok, rfl⟩ := c.tryFromSlice_iff.1 hx
    exact ⟨hok, (hexDecode_eq_some_iff hexs _).1 hbs⟩
  · intro h
    exact ⟨enc x, (hexDecode_eq_some_iff hexs _).2 h.2, c.tryFromSlice_iff.2 ⟨h.1, rfl⟩⟩

/-- **A text is decoded exactly if it is that of a record that fits its types**, in either case of
its digits: nothing else is taken for a block or a transaction. -/
theorem decode_exact :
    (∀ hexs b, decodeBlock hexs = some b ↔ b.Fits ∧ hexs.map Char.toLower = encodeBlock b) ∧
    ∀ hexs tx, decodeTx hexs = some tx ↔ tx.Fits ∧ hexs.map Char.toLower = encodeTx tx :=
  ⟨decode_iff Block.codec, decode_iff Transaction.codec⟩

/-! ## Streams of frames -/

/-- What is read is a frame. -/
theorem readFrame_exact {stream p rest : List UInt8} (h : readFrame stream = .ok (p, rest)) :
    stream = writeFrame p ++ rest ∧ p.length ≤ maxFrame := by
  unfold readFrame at h
  split at h
  · cases h
  · rename_i hlen
    dsimp only at h
    split at h
    · cases h
    · rename_i hmax
      split at h
      · cases h
      · rename_i hshort
        obtain ⟨rfl, rfl⟩ := Prod.mk.inj (Except.ok.inj h)
        have htake : (stream.take 4).reverse.length = 4 := by
          rw [List.length_reverse, List.length_take_of_le (Nat.not_lt.1 hlen)]
        have hle := Borsh.Codec.le_ofBe_reverse (stream.take 4).reverse
        rw [htake, List.reverse_reverse] at hle
        have hp := List.length_take_of_le (Nat.not_lt.1 hshort)
        refine ⟨?_, ?_⟩
        · rw [writeFrame, hp, hle, List.reverse_reverse, List.append_assoc, List.take_append_drop,
            List.take_append_drop]
        · rw [hp]
          exact Nat.not_lt.1 hmax

theorem writeFrame_length (p : List UInt8) : (writeFrame p).length = 4 + p.length := by
  rw [writeFrame, List.length_append, List.length_reverse, Borsh.le_length]

/-- The frames of a stream, up to the error that ends the session. -/
def readFrames (stream : List UInt8) : List (List UInt8) × FrameError :=
  match _h : readFrame stream with
  | .error e => ([], e)
  | .ok (p, rest) =>
    let (ps, e) := readFrames rest
    (p :: ps, e)
  termination_by stream.length
  decreasing_by
    rw [(readFrame_exact _h).1, List.length_append, writeFrame_length]
    omega

/-- What is left of a stream after its frames. -/
theorem readFrames_sound (stream : List UInt8) : ∃ rest,
    stream = (readFrames stream).1.flatMap writeFrame ++ rest ∧
    (∀ p ∈ (readFrames stream).1, p.length ≤ maxFrame) ∧
    readFrame rest = .error (readFrames stream).2 := by
  fun_induction readFrames stream with
  | case1 stream e h => exact ⟨stream, rfl, fun p hp => absurd hp List.not_mem_nil, h⟩
  | case2 stream p rest h ps e hrest ih =>
    obtain ⟨left, hleft, hall, herr⟩ := ih
    obtain ⟨hstream, hp⟩ := readFrame_exact h
    rw [hrest] at hleft hall herr
    refine ⟨left, ?_, List.forall_mem_cons.2 ⟨hp, hall⟩, herr⟩
    rw [List.flatMap_cons, List.append_assoc, ← hleft]
    exact hstream

end Zentra

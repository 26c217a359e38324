import ZentraChain.Lib.Borsh

/-!
# Readers that accept exactly the encodings

`Codec ok enc read`: the reader takes off the front of some bytes the encodings of the values that
are `ok` (those that fit their types), and nothing else. Products, tagged sums, vectors and images
of codecs are codecs. `Codec.tryFromSlice_iff` is what a codec is for: some bytes decode to a value
if and only if they are its encoding.
-/

namespace Borsh

variable {α β : Type*}

/-! ## Readers -/

/-- One value, then another. -/
def Reader.pair (read : Reader α) (read' : Reader β) : Reader (α × β) :=
  read.andThen fun x => read'.map (Prod.mk x)

/-- A value that only some of those read stand for. -/
def Reader.filterMap (read : Reader α) (f : α → Option β) : Reader β := fun bs =>
  (read bs).bind fun x => (f x.1).map fun y => (y, x.2)

/-- A variant, by its one-byte tag. -/
def Reader.sum (read : Reader α) (read' : Reader β) : Reader (α ⊕ β) :=
  (readLe 1).andThen fun tag =>
    if tag = 0 then read.map .inl else if tag = 1 then read'.map .inr else fun _ => none

/-- A vector of bytes. -/
def readBytes : Reader (List UInt8) :=
  (readLe 4).andThen fun n bs => if n ≤ bs.length then some (bs.take n, bs.drop n) else none

variable {γ : Type*}

theorem Reader.map_andThen (read : Reader α) (next : α → Reader β) (f : β → γ) :
    (read.andThen next).map f = read.andThen fun x => (next x).map f :=
  funext fun _ => Option.map_bind

theorem Reader.map_map (read : Reader α) (f : α → β) (g : β → γ) :
    (read.map f).map g = read.map fun x => g (f x) :=
  funext fun _ => Option.map_map _ _ _

/-- An integer of `w` bytes. -/
def FitsIn (w n : ℕ) : Prop := n < 256 ^ w

instance (w n : ℕ) : Decidable (FitsIn w n) := inferInstanceAs (Decidable (n < 256 ^ w))

/-- `read` takes the encodings of the `ok` values off the front of some bytes, and only these. -/
structure Codec (ok : α → Prop) (enc : α → List UInt8) (read : Reader α) : Prop where
  reads : ∀ x, ok x → Reads read (enc x) x
  exact : ∀ bs x rest, read bs = some (x, rest) → ok x ∧ bs = enc x ++ rest

namespace Codec

variable {ok : α → Prop} {enc : α → List UInt8} {read : Reader α}
variable {ok' : β → Prop} {enc' : β → List UInt8} {read' : Reader β}

/-! ## Decoding whole slices -/

/-- **Bytes decode to a value if and only if they are its encoding.** -/
theorem tryFromSlice_iff (c : Codec ok enc read) {bs : List UInt8} {x : α} :
    tryFromSlice read bs = some x ↔ ok x ∧ bs = enc x := by
  constructor
  · intro h
    rw [tryFromSlice, Option.bind_eq_some_iff] at h
    obtain ⟨⟨y, rest⟩, hread, hrest⟩ := h
    split at hrest
    · rename_i hnil
      cases hrest
      obtain ⟨hok, hbs⟩ := c.exact bs y rest hread
      have hnil' : rest = [] := hnil
      exact ⟨hok, by rw [hbs, hnil', List.append_nil]⟩
    · cases hrest
  · intro h
    rw [h.2]
    exact (c.reads x h.1).tryFromSlice

/-- Values that fit have different encodings. -/
theorem enc_inj (c : Codec ok enc read) {x y : α} (hx : ok x) (hy : ok y) (h : enc x = enc y) :
    x = y := by
  have hdec : tryFromSlice read (enc x) = some y := c.tryFromSlice_iff.2 ⟨hy, h⟩
  rw [(c.reads x hx).tryFromSlice] at hdec
  exact Option.some.inj hdec

/-- The same codec under another name of its values and bytes. -/
theorem congr_ok (c : Codec ok enc read) {ok₂ : α → Prop} {enc₂ : α → List UInt8}
    (hok : ∀ x, ok₂ x ↔ ok x) (henc : ∀ x, enc₂ x = enc x) : Codec ok₂ enc₂ read where
  reads x hx := by
    rw [henc]
    exact c.reads x ((hok x).1 hx)
  exact bs x rest h := by
    rw [henc, hok]
    exact c.exact bs x rest h

/-! ## Integers -/

theorem le_ofBe_reverse : ∀ bs : List UInt8, le bs.length (ofBe bs.reverse) = bs
  | [] => rfl
  | b :: bs => by
    have hval : ofBe (b :: bs).reverse = ofBe bs.reverse * 256 + b.toNat := by
      simp [ofBe, List.foldl_append]
    have hlt : b.toNat < 256 := b.toNat_lt
    have hlow : UInt8.ofNat (ofBe bs.reverse * 256 + b.toNat) = b := by
      apply UInt8.toNat_inj.1
      rw [UInt8.toNat_ofNat']
      omega
    have hhigh : (ofBe bs.reverse * 256 + b.toNat) / 256 = ofBe bs.reverse := by omega
    rw [hval, List.length_cons, le, hlow, hhigh, le_ofBe_reverse bs]

theorem ofBe_reverse_lt (bs : List UInt8) : ofBe bs.reverse < 256 ^ bs.length := by
  have h := ofBe_le_reverse bs.length (ofBe bs.reverse)
  rw [le_ofBe_reverse] at h
  rw [h]
  exact Nat.mod_lt _ (by positivity)

protected theorem le (w : ℕ) : Codec (FitsIn w) (Borsh.le w) (readLe w) where
  reads _ hn := reads_le hn
  exact bs n rest h := by
    rw [readLe] at h
    split at h
    · rename_i hw
      obtain ⟨rfl, rfl⟩ := Prod.mk.inj (Option.some.inj h)
      have hlen : (bs.take w).length = w := List.length_take_of_le hw
      have hlt := ofBe_reverse_lt (bs.take w)
      have hle := le_ofBe_reverse (bs.take w)
      rw [hlen] at hlt hle
      exact ⟨hlt, by rw [hle, List.take_append_drop]⟩
    · cases h

protected theorem bytes32 : Codec (FitsIn 32) Borsh.bytes32 readBytes32 where
  reads _ hn := reads_bytes32 hn
  exact bs n rest h := by
    rw [readBytes32] at h
    split at h
    · rename_i hw
      obtain ⟨rfl, rfl⟩ := Prod.mk.inj (Option.some.inj h)
      have hlen : (bs.take 32).reverse.length = 32 := by
        rw [List.length_reverse, List.length_take_of_le hw]
      have hlt := ofBe_reverse_lt (bs.take 32).reverse
      have hle := le_ofBe_reverse (bs.take 32).reverse
      rw [hlen, List.reverse_reverse] at hlt hle
      refine ⟨hlt, ?_⟩
      rw [Borsh.bytes32, hle, List.reverse_reverse, List.take_append_drop]
    · cases h

/-! ## Products and images -/

theorem andThen_exact {next : α → Reader β} {bs rest : List UInt8} {y : β}
    (h : read.andThen next bs = some (y, rest)) :
    ∃ x mid, read bs = some (x, mid) ∧ next x mid = some (y, rest) := by
  rw [Reader.andThen, Option.bind_eq_some_iff] at h
  obtain ⟨⟨x, mid⟩, hx, hy⟩ := h
  exact ⟨x, mid, hx, hy⟩

theorem map_exact {f : α → β} {bs rest : List UInt8} {y : β}
    (h : read.map f bs = some (y, rest)) : ∃ x, read bs = some (x, rest) ∧ f x = y := by
  rw [Reader.map, Option.map_eq_some_iff] at h
  obtain ⟨⟨x, mid⟩, hx, hy⟩ := h
  obtain ⟨hy, hmid⟩ := Prod.mk.inj hy
  have hmid' : mid = rest := hmid
  rw [hmid'] at hx
  exact ⟨x, hx, hy⟩

theorem pair (c : Codec ok enc read) (c' : Codec ok' enc' read') :
    Codec (fun p : α × β => ok p.1 ∧ ok' p.2) (fun p => enc p.1 ++ enc' p.2)
      (read.pair read') where
  reads p hp := (c.reads p.1 hp.1).andThen (c'.reads p.2 hp.2).map
  exact bs p rest h := by
    obtain ⟨x, mid, hx, hmap⟩ := andThen_exact h
    obtain ⟨y, hy, rfl⟩ := map_exact hmap
    obtain ⟨hokx, hbs⟩ := c.exact bs x mid hx
    obtain ⟨hoky, hmid⟩ := c'.exact mid y rest hy
    exact ⟨⟨hokx, hoky⟩, by rw [hbs, hmid, List.append_assoc]⟩

/-- A structure is read as the tuple of its fields. -/
theorem image (c : Codec ok enc read) (f : α → β) (g : β → α) (hfg : ∀ y, f (g y) = y)
    (hgf : ∀ x, g (f x) = x) : Codec (fun y => ok (g y)) (fun y => enc (g y)) (read.map f) where
  reads y hy := by
    have h : Reads (read.map f) (enc (g y)) (f (g y)) := (c.reads (g y) hy).map
    rwa [hfg] at h
  exact bs y rest h := by
    obtain ⟨x, hx, rfl⟩ := map_exact h
    rw [hgf]
    exact c.exact bs x rest hx

/-- An enumeration is read as the number that stands for the variant. -/
theorem filterMap (c : Codec ok enc read) {f : α → Option β} {g : β → α} (hok : ∀ y, ok (g y))
    (hfg : ∀ y, f (g y) = some y) (hgf : ∀ x y, f x = some y → x = g y) :
    Codec (fun _ => True) (fun y => enc (g y)) (read.filterMap f) where
  reads y _ := by
    intro rest
    rw [Reader.filterMap, c.reads (g y) (hok y), Option.bind_some, hfg, Option.map_some]
  exact bs y rest h := by
    rw [Reader.filterMap, Option.bind_eq_some_iff] at h
    obtain ⟨⟨x, mid⟩, hx, hy⟩ := h
    rw [Option.map_eq_some_iff] at hy
    obtain ⟨z, hz, hy⟩ := hy
    obtain ⟨rfl, rfl⟩ := Prod.mk.inj hy
    obtain rfl := hgf x z hz
    exact ⟨trivial, (c.exact bs _ mid hx).2⟩

theorem sum (c : Codec ok enc read) (c' : Codec ok' enc' read') :
    Codec (fun s : α ⊕ β => s.elim ok ok')
      (fun s => s.elim (fun x => Borsh.le 1 0 ++ enc x) fun y => Borsh.le 1 1 ++ enc' y)
      (read.sum read') where
  reads s hs := by
    cases s with
    | inl x =>
      exact (reads_le (by decide)).andThen (by
        simp only [if_true]
        exact (c.reads x hs).map)
    | inr y =>
      exact (reads_le (by decide)).andThen (by
        simp only [Nat.one_ne_zero, if_false, if_true]
        exact (c'.reads y hs).map)
  exact bs s rest h := by
    obtain ⟨tag, mid, htag, hs⟩ := andThen_exact h
    obtain ⟨-, hbs⟩ := (Codec.le 1).exact bs tag mid htag
    split at hs
    · rename_i h0
      obtain ⟨x, hx, rfl⟩ := map_exact hs
      obtain ⟨hok, hmid⟩ := c.exact mid x rest hx
      exact ⟨hok, by rw [hbs, hmid, h0, Sum.elim_inl, List.append_assoc]⟩
    · split at hs
      · rename_i h1
        obtain ⟨y, hy, rfl⟩ := map_exact hs
        obtain ⟨hok, hmid⟩ := c'.exact mid y rest hy
        exact ⟨hok, by rw [hbs, hmid, h1, Sum.elim_inr, List.append_assoc]⟩
      · cases hs

/-! ## Vectors -/

theorem readMany_exact (c : Codec ok enc read) : ∀ (n : ℕ) (bs : List UInt8) (l : List α)
    (rest : List UInt8), readMany read n bs = some (l, rest) →
      l.length = n ∧ (∀ x ∈ l, ok x) ∧ bs = l.flatMap enc ++ rest
  | 0, bs, l, rest, h => by
    obtain ⟨rfl, rfl⟩ := Prod.mk.inj (Option.some.inj h)
    exact ⟨rfl, fun x hx => absurd hx List.not_mem_nil, rfl⟩
  | n + 1, bs, l, rest, h => by
    obtain ⟨x, mid, hx, hmap⟩ := andThen_exact h
    obtain ⟨xs, hxs, rfl⟩ := map_exact hmap
    obtain ⟨hok, hbs⟩ := c.exact bs x mid hx
    obtain ⟨hlen, hall, hmid⟩ := readMany_exact c n mid xs rest hxs
    refine ⟨by rw [List.length_cons, hlen], List.forall_mem_cons.2 ⟨hok, hall⟩, ?_⟩
    rw [hbs, hmid, List.flatMap_cons, List.append_assoc]

theorem vec (c : Codec ok enc read) :
    Codec (fun l : List α => FitsIn 4 l.length ∧ ∀ x ∈ l, ok x) (Borsh.vec enc)
      (readVec read) where
  reads _ hl := reads_vec hl.1 fun x hx => c.reads x (hl.2 x hx)
  exact bs l rest h := by
    obtain ⟨n, mid, hn, hmany⟩ := andThen_exact h
    obtain ⟨hlt, hbs⟩ := (Codec.le 4).exact bs n mid hn
    obtain ⟨rfl, hall, hmid⟩ := c.readMany_exact n mid l rest hmany
    exact ⟨⟨hlt, hall⟩, by rw [hbs, hmid, Borsh.vec, List.append_assoc]⟩

protected theorem bytes :
    Codec (fun l : List UInt8 => FitsIn 4 l.length) Borsh.bytes readBytes where
  reads l hl := by
    refine (reads_le hl).andThen fun rest => ?_
    rw [if_pos (by simp), List.take_left, List.drop_left]
  exact bs l rest h := by
    obtain ⟨n, mid, hn, hl⟩ := andThen_exact h
    obtain ⟨hlt, hbs⟩ := (Codec.le 4).exact bs n mid hn
    split at hl
    · rename_i hle
      obtain ⟨rfl, rfl⟩ := Prod.mk.inj (Option.some.inj hl)
      have hlen : (mid.take n).length = n := List.length_take_of_le hle
      refine ⟨by rwa [hlen], ?_⟩
      rw [Borsh.bytes, hlen, List.append_assoc, List.take_append_drop]
      exact hbs
    · cases hl

end Codec

end Borsh

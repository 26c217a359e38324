import ZentraChain.Core.Writes
import ZentraChain.Lib.Table
import ZentraChain.Node.GhostdagBytes
import ZentraChain.Node.Wire

/-!
# The database in bytes (`database.rs`)

Each column family has byte strings under byte strings. Records are kept as their encodings, under
the 32 bytes of a hash or the encoding of an outpoint; the metadata family has the tips under
`dag_tips` and undo data under `undo:` and the digits of a hash. The families `transactions` and
`block_index` are never used.

* `Store.run_reads`: after any sequence of writes, whatever its order, every read returns what the
  typed maps have, and none fails.
-/

namespace Zentra

open Borsh

/-! ## Keys -/

/-- The bytes of an ASCII text. -/
def ascii (cs : List Char) : List UInt8 := cs.map fun c => UInt8.ofNat c.toNat

/-- `format!("undo:{}", hash.to_hex())`. -/
def undoKey (h : Hash) : List UInt8 := ascii ("undo:".toList ++ hexEncode h.encode)

def tipsKey : List UInt8 := ascii "dag_tips".toList

theorem hexEncode_toLower (bs : List UInt8) : (hexEncode bs).map Char.toLower = hexEncode bs := by
  have hdigit : ∀ n < 16, (hexDigit n).toLower = hexDigit n := by decide
  unfold hexEncode
  rw [List.map_flatMap]
  refine List.flatMap_congr fun b _ => ?_
  have hb : b.toNat < 256 := b.toNat_lt
  simp only [List.map_cons, List.map_nil]
  rw [hdigit _ (by omega), hdigit _ (Nat.mod_lt _ (by decide))]

theorem hexDecode_hexEncode (bs : List UInt8) : hexDecode (hexEncode bs) = some bs :=
  (hexDecode_eq_some_iff _ bs).2 (hexEncode_toLower bs)

theorem hexEncode_injective : Function.Injective hexEncode := fun bs bs' h => by
  have hdec := hexDecode_hexEncode bs
  rw [h, hexDecode_hexEncode] at hdec
  exact (Option.some.inj hdec).symm

theorem hexEncode_lt {bs : List UInt8} {c : Char} (hc : c ∈ hexEncode bs) : c.toNat < 256 := by
  obtain ⟨b, -, hc⟩ := List.mem_flatMap.1 hc
  have hb : b.toNat < 256 := b.toNat_lt
  have hhigh := hexDigit_lt (b.toNat / 16) (by omega)
  have hlow := hexDigit_lt (b.toNat % 16) (Nat.mod_lt _ (by decide))
  simp only [List.mem_cons, List.not_mem_nil, or_false] at hc
  rcases hc with rfl | rfl
  · omega
  · omega

theorem ascii_inj {cs cs' : List Char} (hcs : ∀ c ∈ cs, c.toNat < 256)
    (hcs' : ∀ c ∈ cs', c.toNat < 256) (h : ascii cs = ascii cs') : cs = cs' := by
  have hback : ∀ l : List Char, (∀ c ∈ l, c.toNat < 256) →
      (ascii l).map (fun b => Char.ofNat b.toNat) = l := by
    intro l hl
    unfold ascii
    rw [List.map_map]
    refine (List.map_congr_left fun c hc => ?_).trans (List.map_id l)
    rw [Function.comp_apply, UInt8.toNat_ofNat', Nat.mod_eq_of_lt (hl c hc), Char.ofNat_toNat]
    rfl
  rw [← hback cs hcs, h, hback cs' hcs']

theorem undoKey_inj {h h' : Hash} (hh : h.Fits) (hh' : h'.Fits) (heq : undoKey h = undoKey h') :
    h = h' := by
  unfold undoKey at heq
  rw [ascii, ascii, List.map_append, List.map_append, List.append_cancel_left_eq] at heq
  have hdig := ascii_inj (fun _ => hexEncode_lt) (fun _ => hexEncode_lt) heq
  exact Hash.codec.enc_inj hh hh' (hexEncode_injective hdig)

theorem undoKey_ne_tipsKey (h : Hash) : undoKey h ≠ tipsKey := by
  intro heq
  have hundo : (undoKey h).head? = some 117 := rfl
  have htips : tipsKey.head? = some 100 := by decide
  rw [heq, htips] at hundo
  cases hundo

/-! ## Tables -/

namespace GhostdagData

def fields (g : GhostdagData) : Nat × Nat × Hash × List Hash × List Hash :=
  (g.blueScore, g.blueWork, g.selectedParent, g.mergesetBlues, g.mergesetReds)

def ofFields : Nat × Nat × Hash × List Hash × List Hash → GhostdagData :=
  fun (blueScore, blueWork, selectedParent, mergesetBlues, mergesetReds) =>
    ⟨blueScore, blueWork, selectedParent, mergesetBlues, mergesetReds⟩

theorem read_eq : read = ((readLe 8).pair <| (readLe 16).pair <| Hash.read.pair <|
    (readVec Hash.read).pair (readVec Hash.read)).map ofFields := by
  simp only [read, Reader.pair, Reader.map_andThen, Reader.map_map]
  rfl

theorem codec : Codec Fits encode read := by
  rw [read_eq]
  exact (((Codec.le 8).pair <| (Codec.le 16).pair <| Hash.codec.pair <|
    Hash.codec.vec.pair Hash.codec.vec).image ofFields fields (fun _ => rfl) fun _ => rfl).congr_ok
      (fun _ => ⟨fun h => ⟨h.1, h.2, h.3, h.4, h.5⟩,
        fun h => ⟨h.1, h.2.1, h.2.2.1, h.2.2.2.1, h.2.2.2.2⟩⟩) fun _ => rfl

end GhostdagData

/-- A table under the bytes of a hash. -/
def hashTable {ν : Type} {ok : ν → Prop} {enc : ν → List UInt8} {read : Reader ν}
    (codec : Codec ok enc read) : Table Hash ν where
  okKey := Hash.Fits
  key := Hash.encode
  ok := ok
  enc := enc
  read := read
  key_inj _ _ hk hk' h := Hash.codec.enc_inj hk hk' h
  codec := codec

def blockTable : Table Hash Block := hashTable Block.codec

def headerTable : Table Hash Header := hashTable Header.codec

def ghostdagTable : Table Hash GhostdagData := hashTable GhostdagData.codec

def childrenTable : Table Hash (List Hash) := hashTable Hash.codec.vec

def undoTable : Table Hash BlockUndoData where
  okKey := Hash.Fits
  key := undoKey
  ok := BlockUndoData.Fits
  enc := BlockUndoData.encode
  read := BlockUndoData.read
  key_inj _ _ hk hk' h := undoKey_inj hk hk' h
  codec := BlockUndoData.codec

/-- The one entry `dag_tips`. -/
def tipsTable : Table Unit (List Hash) where
  okKey _ := True
  key _ := tipsKey
  ok l := FitsIn 4 l.length ∧ ∀ h ∈ l, h.Fits
  enc := vec Hash.encode
  read := readVec Hash.read
  key_inj _ _ _ _ _ := rfl
  codec := Hash.codec.vec

def utxoTable : Table OutPoint UtxoEntry where
  okKey := OutPoint.Fits
  key := OutPoint.encode
  ok := UtxoEntry.Fits
  enc := UtxoEntry.encode
  read := UtxoEntry.read
  key_inj _ _ hk hk' h := OutPoint.codec.enc_inj hk hk' h
  codec := UtxoEntry.codec

theorem undoTable_apart : undoTable.Apart tipsTable := fun h _ => undoKey_ne_tipsKey h

theorem tipsTable_apart : tipsTable.Apart undoTable := fun _ h => (undoKey_ne_tipsKey h).symm

/-! ## The column families -/

structure RawDb where
  headers : Family
  blocks : Family
  ghostdag : Family
  children : Family
  utxo : Family
  metadata : Family

namespace RawDb

def empty : RawDb := ⟨∅, ∅, ∅, ∅, ∅, ∅⟩

def putHeader (db : RawDb) (h : Hash) (hd : Header) : RawDb :=
  { db with headers := headerTable.put db.headers h hd }

def getHeader (db : RawDb) (h : Hash) : Except Table.Error (Option Header) :=
  headerTable.get db.headers h

/-- The block, and its header for quick access. -/
def putBlock (db : RawDb) (h : Hash) (b : Block) : RawDb :=
  { db with blocks := blockTable.put db.blocks h b }.putHeader h b.header

def getBlock (db : RawDb) (h : Hash) : Except Table.Error (Option Block) := blockTable.get db.blocks h

def putUtxo (db : RawDb) (op : OutPoint) (e : UtxoEntry) : RawDb :=
  { db with utxo := utxoTable.put db.utxo op e }

def deleteUtxo (db : RawDb) (op : OutPoint) : RawDb :=
  { db with utxo := utxoTable.delete db.utxo op }

def getUtxo (db : RawDb) (op : OutPoint) : Except Table.Error (Option UtxoEntry) :=
  utxoTable.get db.utxo op

def putChildren (db : RawDb) (parent : Hash) (children : List Hash) : RawDb :=
  { db with children := childrenTable.put db.children parent children }

/-- No entry is no children. -/
def getChildren (db : RawDb) (parent : Hash) : Except Table.Error (List Hash) :=
  (childrenTable.get db.children parent).map (·.getD [])

def putGhostdagRaw (db : RawDb) (h : Hash) (value : List UInt8) : RawDb :=
  { db with ghostdag := db.ghostdag.insert h.encode value }

def getGhostdagRaw (db : RawDb) (h : Hash) : Option (List UInt8) := db.ghostdag.lookup h.encode

def putUndo (db : RawDb) (h : Hash) (u : BlockUndoData) : RawDb :=
  { db with metadata := undoTable.put db.metadata h u }

def getUndo (db : RawDb) (h : Hash) : Except Table.Error (Option BlockUndoData) :=
  undoTable.get db.metadata h

def putMetadata (db : RawDb) (key value : List UInt8) : RawDb :=
  { db with metadata := db.metadata.insert key value }

def getMetadata (db : RawDb) (key : List UInt8) : Option (List UInt8) := db.metadata.lookup key

def getTips (db : RawDb) : Except Table.Error (Option (List Hash)) := tipsTable.get db.metadata ()

/-- The families have the entries of the typed maps. -/
structure Stores (raw : RawDb) (db : Db) : Prop where
  blocks : blockTable.Holds raw.blocks fun h => db.blocks.lookup h
  headers : headerTable.Holds raw.headers fun h => db.headers.lookup h
  ghostdag : ghostdagTable.Holds raw.ghostdag fun h => db.ghostdag.lookup h
  children : childrenTable.Holds raw.children fun h => db.children.lookup h
  undo : undoTable.Holds raw.metadata fun h => db.undo.lookup h
  dagTips : tipsTable.Holds raw.metadata fun _ => db.dagTips

variable {raw : RawDb} {db : Db} {h : Hash}

theorem stores_empty : empty.Stores Db.empty where
  blocks := .empty _
  headers := .empty _
  ghostdag := .empty _
  children := .empty _
  undo := .empty _
  dagTips := .empty _

/-! ## Writes -/

theorem Stores.putHeader (hs : raw.Stores db) {hd : Header} (hh : h.Fits) (hhd : hd.Fits) :
    (raw.putHeader h hd).Stores (db.write (.header h hd)) :=
  { hs with headers := (hs.headers.put hh hhd).congr fun _ => Finmap.lookup_insert_ite _ _ _ _ }

theorem Stores.putBlock (hs : raw.Stores db) {b : Block} (hh : h.Fits) (hb : b.Fits) :
    (raw.putBlock h b).Stores (db.putBlock h b) :=
  { hs with
    blocks := (hs.blocks.put hh hb).congr fun _ => Finmap.lookup_insert_ite _ _ _ _
    headers := (hs.headers.put hh hb.header).congr fun _ => Finmap.lookup_insert_ite _ _ _ _ }

theorem Stores.putChildren (hs : raw.Stores db) {cs : List Hash} (hh : h.Fits)
    (hcs : FitsIn 4 cs.length ∧ ∀ c ∈ cs, c.Fits) :
    (raw.putChildren h cs).Stores (db.putChildren h cs) :=
  { hs with children := (hs.children.put hh hcs).congr fun _ => Finmap.lookup_insert_ite _ _ _ _ }

theorem Stores.putGhostdagRaw (hs : raw.Stores db) {g : GhostdagData} (hh : h.Fits) (hg : g.Fits) :
    (raw.putGhostdagRaw h g.encode).Stores (db.putGhostdag h g) :=
  { hs with ghostdag := (hs.ghostdag.put hh hg).congr fun _ => Finmap.lookup_insert_ite _ _ _ _ }

theorem Stores.putUndo (hs : raw.Stores db) {u : BlockUndoData} (hh : h.Fits) (hu : u.Fits) :
    (raw.putUndo h u).Stores (db.putUndo h u) :=
  { hs with
    undo := (hs.undo.put hh hu).congr fun _ => Finmap.lookup_insert_ite _ _ _ _
    dagTips := hs.dagTips.put_other tipsTable_apart h u }

theorem Stores.putTips (hs : raw.Stores db) {l : List Hash}
    (hl : FitsIn 4 l.length ∧ ∀ h ∈ l, h.Fits) :
    (raw.putMetadata tipsKey (vec Hash.encode l)).Stores { db with dagTips := some l } :=
  { hs with
    undo := hs.undo.put_other undoTable_apart () l
    dagTips := (hs.dagTips.put (k := ()) trivial hl).congr fun _ => rfl }

/-! ## Reads -/

theorem Stores.getBlock (hs : raw.Stores db) (hh : h.Fits) :
    raw.getBlock h = .ok (db.blocks.lookup h) := hs.blocks.get hh

theorem Stores.getHeader (hs : raw.Stores db) (hh : h.Fits) :
    raw.getHeader h = .ok (db.headers.lookup h) := hs.headers.get hh

theorem Stores.getChildren (hs : raw.Stores db) (hh : h.Fits) :
    raw.getChildren h = .ok ((db.children.lookup h).getD []) := by
  rw [RawDb.getChildren, hs.children.get hh]
  rfl

theorem Stores.getUndo (hs : raw.Stores db) (hh : h.Fits) :
    raw.getUndo h = .ok (db.undo.lookup h) := hs.undo.get hh

theorem Stores.getTips (hs : raw.Stores db) : raw.getTips = .ok db.dagTips :=
  hs.dagTips.get (k := ()) trivial

/-- A reader of the GhostDAG family decodes what it gets. -/
theorem Stores.getGhostdagRaw (hs : raw.Stores db) (hh : h.Fits) :
    (raw.getGhostdagRaw h).bind (tryFromSlice GhostdagData.read) = db.ghostdag.lookup h := by
  have hget := hs.ghostdag.lookup h hh
  rw [RawDb.getGhostdagRaw, show raw.ghostdag.lookup h.encode = _ from hget]
  cases hg : db.ghostdag.lookup h with
  | none => rfl
  | some g => exact GhostdagData.codec.tryFromSlice_iff.2 ⟨hs.ghostdag.ok h hh g hg, rfl⟩

end RawDb

/-! ## Runs of writes -/

/-- A write of a caller, with decoded values. -/
inductive DbCall
  | putHeader (h : Hash) (hd : Header)
  | putBlock (h : Hash) (b : Block)
  | putUtxo (op : OutPoint) (e : UtxoEntry)
  | deleteUtxo (op : OutPoint)
  | putChildren (parent : Hash) (children : List Hash)
  | putGhostdag (h : Hash) (g : GhostdagData)
  | putUndo (h : Hash) (u : BlockUndoData)
  | putTips (tips : List Hash)

/-- Keys and values fit their types. -/
def DbCall.Fits : DbCall → Prop
  | putHeader h hd => h.Fits ∧ hd.Fits
  | putBlock h b => h.Fits ∧ b.Fits
  | putUtxo op e => op.Fits ∧ e.Fits
  | deleteUtxo op => op.Fits
  | putChildren h cs => h.Fits ∧ FitsIn 4 cs.length ∧ ∀ c ∈ cs, c.Fits
  | putGhostdag h g => h.Fits ∧ g.Fits
  | putUndo h u => h.Fits ∧ u.Fits
  | putTips l => FitsIn 4 l.length ∧ ∀ h ∈ l, h.Fits

def RawDb.call (raw : RawDb) : DbCall → RawDb
  | .putHeader h hd => raw.putHeader h hd
  | .putBlock h b => raw.putBlock h b
  | .putUtxo op e => raw.putUtxo op e
  | .deleteUtxo op => raw.deleteUtxo op
  | .putChildren h cs => raw.putChildren h cs
  | .putGhostdag h g => raw.putGhostdagRaw h g.encode
  | .putUndo h u => raw.putUndo h u
  | .putTips l => raw.putMetadata tipsKey (vec Hash.encode l)

/-- The typed maps, the family of outputs among them. -/
structure Store where
  db : Db
  utxo : Finmap fun _ : OutPoint => UtxoEntry

def Store.call (s : Store) : DbCall → Store
  | .putHeader h hd => { s with db := s.db.write (.header h hd) }
  | .putBlock h b => { s with db := s.db.putBlock h b }
  | .putUtxo op e => { s with utxo := s.utxo.insert op e }
  | .deleteUtxo op => { s with utxo := s.utxo.erase op }
  | .putChildren h cs => { s with db := s.db.putChildren h cs }
  | .putGhostdag h g => { s with db := s.db.putGhostdag h g }
  | .putUndo h u => { s with db := s.db.putUndo h u }
  | .putTips l => { s with db := { s.db with dagTips := some l } }

/-- The bytes of a store. -/
structure RawDb.Keeps (raw : RawDb) (s : Store) : Prop where
  db : raw.Stores s.db
  utxo : utxoTable.Holds raw.utxo fun op => s.utxo.lookup op

theorem RawDb.Keeps.call {raw : RawDb} {s : Store} (hk : raw.Keeps s) {c : DbCall} (hc : c.Fits) :
    (raw.call c).Keeps (s.call c) := by
  cases c with
  | putHeader h hd => exact ⟨hk.db.putHeader hc.1 hc.2, hk.utxo⟩
  | putBlock h b => exact ⟨hk.db.putBlock hc.1 hc.2, hk.utxo⟩
  | putUtxo op e =>
    exact ⟨{ hk.db with }, (hk.utxo.put hc.1 hc.2).congr fun _ => Finmap.lookup_insert_ite _ _ _ _⟩
  | deleteUtxo op =>
    refine ⟨{ hk.db with }, (hk.utxo.delete hc).congr fun op' => ?_⟩
    show (s.utxo.erase op).lookup op' = _
    split
    · rename_i he
      rw [he, Finmap.lookup_erase]
    · rename_i hne
      rw [Finmap.lookup_erase_ne hne]
  | putChildren h cs => exact ⟨hk.db.putChildren hc.1 hc.2, hk.utxo⟩
  | putGhostdag h g => exact ⟨hk.db.putGhostdagRaw hc.1 hc.2, hk.utxo⟩
  | putUndo h u => exact ⟨hk.db.putUndo hc.1 hc.2, hk.utxo⟩
  | putTips l => exact ⟨hk.db.putTips hc, hk.utxo⟩

theorem RawDb.Keeps.run : ∀ {calls : List DbCall} {raw : RawDb} {s : Store}, raw.Keeps s →
    (∀ c ∈ calls, c.Fits) → (calls.foldl RawDb.call raw).Keeps (calls.foldl Store.call s)
  | [], _, _, hk, _ => hk
  | _ :: _, _, _, hk, hc =>
    (hk.call (hc _ List.mem_cons_self)).run fun c hc' => hc c (List.mem_cons_of_mem _ hc')

/-- **The bytes are the typed maps.** After any writes, in any order, of records that fit their
types, each read returns what was last written under its key, and none fails to decode. -/
theorem Store.run_reads (calls : List DbCall) (hc : ∀ c ∈ calls, c.Fits) :
    let raw := calls.foldl RawDb.call .empty
    let s := calls.foldl Store.call ⟨.empty, ∅⟩
    (∀ h : Hash, h.Fits →
      raw.getBlock h = .ok (s.db.blocks.lookup h) ∧
      raw.getHeader h = .ok (s.db.headers.lookup h) ∧
      raw.getChildren h = .ok ((s.db.children.lookup h).getD []) ∧
      (raw.getGhostdagRaw h).bind (tryFromSlice GhostdagData.read) = s.db.ghostdag.lookup h ∧
      raw.getUndo h = .ok (s.db.undo.lookup h)) ∧
    raw.getTips = .ok s.db.dagTips ∧
    ∀ op : OutPoint, op.Fits → raw.getUtxo op = .ok (s.utxo.lookup op) := by
  have hinit : RawDb.empty.Keeps ⟨.empty, ∅⟩ := ⟨RawDb.stores_empty, .empty _⟩
  have hk := hinit.run hc
  exact ⟨fun h hh => ⟨hk.db.getBlock hh, hk.db.getHeader hh, hk.db.getChildren hh,
    hk.db.getGhostdagRaw hh, hk.db.getUndo hh⟩, hk.db.getTips, fun op hop => hk.utxo.get hop⟩

/-- The tips are read back after undo data was written into the same family. -/
theorem Store.run_reads_tips :
    ([.putTips [⟨5⟩], .putUndo ⟨5⟩ ⟨[], []⟩].foldl RawDb.call .empty).getTips = .ok (some [⟨5⟩]) := by
  have hundo : (⟨[], []⟩ : BlockUndoData).Fits :=
    ⟨⟨by decide, fun t ht => absurd ht List.not_mem_nil⟩,
      ⟨by decide, fun op hop => absurd hop List.not_mem_nil⟩⟩
  have hcalls : ∀ c ∈ [DbCall.putTips [⟨5⟩], .putUndo ⟨5⟩ ⟨[], []⟩], c.Fits := by
    simp only [List.forall_mem_cons]
    refine ⟨⟨by decide, fun h hh => ?_⟩, ⟨by decide, hundo⟩, fun c hc => absurd hc List.not_mem_nil⟩
    rw [List.mem_singleton.1 hh]
    decide
  exact (Store.run_reads _ hcalls).2.1

end Zentra

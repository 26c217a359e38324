import ZentraChain.Node.Restart

/-!
# Coinbase maturity

A `Trace` follows a chain that the node accepts: besides the set it keeps for each outpoint the
chain block that added it and the block whose output it is, and every spend it has met.

* `Trace.Sound`: an entry's height is the score of the block whose output it is.
* `Trace.Checked`: a coinbase output is spent in the block that added it, or past the maturity of
  its own block.
* `traceChain_spec`: both hold along every accepted chain.
* `coinbase_mature_iff`: when coinbase outputs mature before they are spent.
-/

namespace Zentra

open UndoStack

/-- Where an output of the set comes from. -/
structure Origin where
  /-- The chain block that added it. -/
  adder : Block
  /-- The block it is an output of: the adder, or a block that the adder merged. -/
  source : Block
  deriving DecidableEq

abbrev Origins := OutPoint → Origin

def Origins.add (o : Origins) (ps : List OutPoint) (x : Origin) : Origins :=
  fun p => if p ∈ ps then x else o p

/-- A transaction of the chain block `spender` spends an output. -/
structure Spend where
  spender : Block
  origin : Origin
  isCoinbase : Bool
  deriving DecidableEq

namespace Spend

/-- A coinbase output is spent no earlier than the maturity of the block that added it. -/
def Mature (s : Spend) : Prop :=
  s.isCoinbase = true →
    s.origin.adder.header.blueScore + coinbaseMaturity ≤ s.spender.header.blueScore

instance : DecidablePred Mature := fun s =>
  inferInstanceAs (Decidable (s.isCoinbase = true → _ ≤ _))

/-- The spend comes after the maturity of the block it is an output of, but before that of the
block that added it. -/
def Early (s : Spend) : Prop :=
  satAdd s.origin.source.header.blueScore coinbaseMaturity ≤ s.spender.header.blueScore ∧
    s.spender.header.blueScore < s.origin.adder.header.blueScore + coinbaseMaturity

/-- Only a merged output is spent early, short of saturation. -/
theorem Early.merged {s : Spend} (h : s.Early)
    (hs : s.origin.adder.header.blueScore + coinbaseMaturity ≤ u64Max) :
    s.origin.source ≠ s.origin.adder := by
  intro heq
  obtain ⟨h1, h2⟩ := h
  rw [heq, satAdd, Saturating.add_of_le hs] at h1
  omega

end Spend

/-- The spends of a transaction of `b` in the set `u`. -/
def Transaction.spends (b : Block) (u : UtxoSet) (o : Origins) (tx : Transaction) : List Spend :=
  tx.spent.filterMap fun p => (u.getUtxo p).map fun e => ⟨b, o p, e.isCoinbase⟩

structure Trace where
  utxo : UtxoSet
  origins : Origins
  spends : List Spend

namespace Trace

variable (E : Env)

/-- The genesis block's outputs. -/
def start : Trace := ⟨Node.genesisSet E, fun _ => ⟨.genesis E, .genesis E⟩, []⟩

/-- Apply a transaction of `b`. -/
def transaction (b : Block) (t : Trace) (tx : Transaction) : Trace where
  utxo := (t.utxo.applyTransaction E tx b.header.blueScore).1
  origins := t.origins.add (tx.created E) ⟨b, b⟩
  spends := t.spends ++ tx.spends b t.utxo t.origins

/-- Credit a merge block of `b`. -/
def merge (b : Block) (t : Trace) (m : Block) : Trace :=
  let r := t.utxo.applyMergeCoinbase E m m.header.blueScore
  { t with utxo := r.1, origins := t.origins.add r.2 ⟨b, m⟩ }

/-- Apply a block with its merge blocks. -/
def block (t : Trace) (b : Block) (ms : List Block) : Trace :=
  ms.foldl (merge E b) (b.transactions.foldl (transaction E b) t)

end Trace

/-- Follow a chain (newest first, above the genesis block): each block is validated against the
set its predecessors left, then applied. -/
def Dag.traceChain (E : Env) (d : Dag) : List Hash → Option Trace
  | [] => some (.start E)
  | h :: hs =>
    match traceChain E d hs, d.getBlock h with
    | some t, some b =>
      match validateBlockTransactions E b t.utxo with
      | .ok _ => some (t.block E b (d.mergeBlocks (b.hash E)))
      | .error _ => none
    | _, _ => none

namespace Trace

variable {E : Env} {t w : Trace} {b m : Block} {ms : List Block} {tx : Transaction}
  {d : TxUndoData} {u' : UtxoSet} {undo : BlockUndoData}

/-- An entry's height is the score of the block it is an output of. -/
def Sound (t : Trace) : Prop :=
  ∀ p e, t.utxo.getUtxo p = some e → e.blockHeight = (t.origins p).source.header.blueScore

/-- A coinbase output is spent in the block that added it, or after the maturity of the block it
is an output of. -/
def Checked (t : Trace) : Prop :=
  ∀ s ∈ t.spends, s.isCoinbase = true → s.spender = s.origin.adder ∨
    satAdd s.origin.source.header.blueScore coinbaseMaturity ≤ s.spender.header.blueScore

/-- Within the block `b`, what `b` has not added itself is as in the trace `t` before it. -/
def Since (b : Block) (t w : Trace) : Prop :=
  ∀ p e, w.utxo.getUtxo p = some e →
    (w.origins p).adder = b ∨ (w.origins p = t.origins p ∧ t.utxo.getUtxo p = some e)

/-! ## One transaction -/

theorem Sound.transaction (h : t.Sound)
    (ha : t.utxo.applyTransaction E tx b.header.blueScore = (u', .ok d)) :
    (t.transaction E b tx).Sound := by
  have happ := UtxoSet.applyTransaction_ok ha
  intro p e he
  simp only [Trace.transaction, ha, Origins.add] at he ⊢
  by_cases hp : p ∈ tx.created E
  · obtain ⟨e', he', hh, -⟩ := happ.new p hp
    rw [he] at he'
    cases he'
    rw [if_pos hp, hh]
  · rw [happ.keep p hp] at he
    rw [if_neg hp]
    split at he
    · cases he
    · exact h p e he

theorem Since.transaction (h : Since b t w)
    (ha : w.utxo.applyTransaction E tx b.header.blueScore = (u', .ok d)) :
    Since b t (w.transaction E b tx) := by
  have happ := UtxoSet.applyTransaction_ok ha
  intro p e he
  simp only [Trace.transaction, ha, Origins.add] at he ⊢
  by_cases hp : p ∈ tx.created E
  · exact .inl (by rw [if_pos hp])
  · rw [happ.keep p hp] at he
    rw [if_neg hp]
    split at he
    · cases he
    · exact h p e he

/-- The check of the inputs looks at the set before the block. -/
theorem Checked.transaction {c c' : TxCheck} (h : w.Checked) (ht : t.Sound) (hw : Since b t w)
    (hok : TxOk E t.utxo b.header.blueScore tx c c') : (w.transaction E b tx).Checked := by
  intro s hs hc
  rcases List.mem_append.1 hs with hs | hs
  · exact h s hs hc
  · obtain ⟨p, hp, hpe⟩ := List.mem_filterMap.1 hs
    obtain ⟨e, he, rfl⟩ := Option.map_eq_some_iff.1 hpe
    rcases hw p e he with hadd | ⟨hsame, het⟩
    · exact .inl hadd.symm
    · rcases hok.inputs.found p hp with ⟨e', he', hm⟩ | ⟨hnone, -⟩
      · rw [het] at he'
        cases he'
        refine .inr ?_
        simp only [hsame]
        rw [← ht p e het]
        exact hm hc
      · rw [het] at hnone
        cases hnone

/-! ## One block -/

theorem transactions_spec (ht : t.Sound) : ∀ {txs : List Transaction} {i : Nat} {c c' : TxCheck}
    {w : Trace} {ds : List TxUndoData},
      UtxoSet.applyTransactions E b.header.blueScore txs w.utxo = (u', .ok ds) →
      checkTransactions E t.utxo b.header.blueScore i txs c = .ok c' →
      Since b t w → w.Sound → w.Checked →
        (txs.foldl (Trace.transaction E b) w).utxo = u' ∧
        (txs.foldl (Trace.transaction E b) w).Sound ∧
        (txs.foldl (Trace.transaction E b) w).Checked
  | [], _, _, _, w, _, ha, _, _, hs, hc => by
    cases ha
    exact ⟨rfl, hs, hc⟩
  | tx :: txs, i, c, c', w, ds, ha, hchk, hw, hs, hc => by
    obtain ⟨v, d, ds', h1, h2, -⟩ := UtxoSet.applyTransactions_cons_ok ha
    obtain ⟨c₁, hok, hrest, -⟩ := checkTransactions_cons_ok hchk
    have hv : (w.transaction E b tx).utxo = v := by simp only [Trace.transaction, h1]
    rw [← hv] at h2
    have hspec := transactions_spec ht h2 hrest (hw.transaction h1) (hs.transaction h1)
      (hc.transaction ht hw hok)
    exact hspec

theorem Sound.merge (h : t.Sound) : (t.merge E b m).Sound := by
  intro p e he
  simp only [Trace.merge, Origins.add] at he ⊢
  by_cases hp : p ∈ (t.utxo.applyMergeCoinbase E m m.header.blueScore).2
  · obtain ⟨e', he', hh, -⟩ := UtxoSet.applyMergeCoinbase_new hp
    rw [he] at he'
    cases he'
    rw [if_pos hp, hh]
  · rw [UtxoSet.applyMergeCoinbase_keep hp] at he
    rw [if_neg hp]
    exact h p e he

theorem merges_spec : ∀ {ms : List Block} {t : Trace}, t.Sound → t.Checked →
    (ms.foldl (Trace.merge E b) t).utxo = (UtxoSet.creditMerges E ms t.utxo).1 ∧
      (ms.foldl (Trace.merge E b) t).Sound ∧ (ms.foldl (Trace.merge E b) t).Checked
  | [], _, hs, hc => ⟨rfl, hs, hc⟩
  | m :: ms, t, hs, hc => by
    have hspec : _ ∧ _ ∧ ((ms.foldl (Trace.merge E b) (t.merge E b m)).Checked) :=
      merges_spec hs.merge hc
    exact hspec

/-- **A validated block** keeps the trace sound and checked. -/
theorem block_spec (hs : t.Sound) (hc : t.Checked)
    (hv : validateBlockTransactions E b t.utxo = .ok ())
    (ha : t.utxo.applyBlockWithMerges E b ms = (u', .ok undo)) :
    (t.block E b ms).utxo = u' ∧ (t.block E b ms).Sound ∧ (t.block E b ms).Checked := by
  obtain ⟨c, hchk, -⟩ := validateBlockTransactions_ok hv
  obtain ⟨w, ds, hw, rfl, -⟩ := UtxoSet.applyBlockWithMerges_ok ha
  obtain ⟨h1, h2, h3⟩ := transactions_spec hs hw hchk (fun p e he => .inr ⟨rfl, he⟩) hs hc
  rw [← h1]
  exact merges_spec h2 h3

end Trace

/-! ## Chains -/

namespace Dag

variable {E : Env} {d : Dag} {hs : List Hash} {t : Trace}

theorem start_sound (E : Env) : (Trace.start E).Sound := by
  intro p e he
  have hset : (Trace.start E).utxo = UtxoSet.empty.insert ⟨(Block.genesisCoinbase E).txid E, 0⟩
      ⟨⟨initialRewardZents, initialRewardZents_le⟩, Block.addressOf E 0, 0, true⟩ := rfl
  rw [hset, UtxoSet.getUtxo_insert] at he
  split at he
  · cases he
    rfl
  · cases he

/-- **Along an accepted chain** the trace is sound and checked. -/
theorem traceChain_spec : ∀ {hs : List Hash} {t : Trace}, d.traceChain E hs = some t →
    t.Sound ∧ t.Checked
  | [], t, h => by
    cases h
    exact ⟨start_sound E, fun s hs => by cases hs⟩
  | h :: hs, t', ht => by
    simp only [traceChain] at ht
    split at ht
    · rename_i t b htr hb
      split at ht
      · rename_i hv
        cases ht
        obtain ⟨hsound, hchk⟩ := traceChain_spec htr
        obtain ⟨u', undo, ha⟩ := validate_applyBlock hv (d.mergeBlocks (b.hash E))
        exact (Trace.block_spec hsound hchk hv ha).2
      · cases ht
    · cases ht

/-- The blocks of a stack are accepted. -/
theorem traceChain_stack {Q : Hash → UtxoSet → Prop} {u : UtxoSet}
    (hst : d.Stack E Q (Node.genesisSet E) hs u)
    (hv : ∀ h t b, Q h t → d.getBlock h = some b → validateBlockTransactions E b t = .ok ()) :
    ∃ t, d.traceChain E hs = some t ∧ t.utxo = u := by
  induction hst with
  | nil => exact ⟨_, rfl, rfl⟩
  | @cons i is s s' undo _ ha _ hq ih =>
    obtain ⟨t, ht, rfl⟩ := ih
    obtain ⟨b, hb, happ⟩ := machine_apply_iff.1 ha
    have hvb := hv i _ b hq hb
    obtain ⟨hsound, hchk⟩ := traceChain_spec ht
    exact ⟨_, by simp only [traceChain, ht, hb, hvb], (Trace.block_spec hsound hchk hvb happ).1⟩

/-- **Coinbase outputs mature** along an accepted chain exactly when none is spent in the block
that added it, and none after the maturity of a merged block but before that of the block that
merged it. -/
theorem coinbase_mature_iff (E : Env) (d : Dag) (hs : List Hash) (t : Trace)
    (h : d.traceChain E hs = some t) :
    (∀ s ∈ t.spends, s.Mature) ↔
      ∀ s ∈ t.spends, s.isCoinbase = true → s.spender ≠ s.origin.adder ∧ ¬s.Early := by
  refine forall₂_congr fun s hs => ?_
  refine ⟨fun hm hc => ⟨fun heq => ?_, fun he => ?_⟩, fun hcond hc => ?_⟩
  · have hle := hm hc
    rw [heq] at hle
    unfold coinbaseMaturity at hle
    omega
  · exact absurd (hm hc) (Nat.not_le.2 he.2)
  · obtain ⟨hne, hearly⟩ := hcond hc
    have hown := ((traceChain_spec h).2 s hs hc).resolve_left hne
    exact Nat.not_lt.1 fun hlt => hearly ⟨hown, hlt⟩

end Dag

/-- **The selected chain of a running node** is an accepted chain, in every undoable run in which
no reorganization fails. -/
theorem Node.Reachable.traceChain {E : Env} {n : Node} (hn : n.Reachable E)
    (hg : (Block.genesis E).hash E ≠ .zero) (hu : Undoable E n.log) (hf : NoFail E n.log) :
    ∃ tip ps t, n.dag.getSelectedTip = some tip ∧
      n.dag.Chain tip (ps ++ [(Block.genesis E).hash E]) ∧ n.dag.traceChain E ps = some t ∧
      t.utxo = n.utxo := by
  obtain ⟨-, -, tip, ps, rest, u₀, hl, rfl, rfl⟩ :=
    Chained.moves_fromGenesis hn.moves (chained_new_fromGenesis hg) hu hf
  obtain ⟨t, ht, htu⟩ := Dag.traceChain_stack hl.stack fun h u b ha hb => by
    obtain ⟨b', hb', hv, -⟩ := ha
    rw [hb] at hb'
    cases hb'
    exact hv
  exact ⟨tip, ps, t, hl.selected, hl.chain, ht, htu⟩

namespace Sample

/-- A block that merges `side` eight more times, spends its coinbase one block too early, and
spends its own coinbase. -/
def hasty : Block :=
  block 4 .ltcAsic (⟨4⟩ :: List.replicate 8 ⟨3⟩) 12 3
    [coinbase 4 [subsidy], transfer 5 [⟨⟨1002⟩, 0⟩] [subsidy],
      transfer 6 [⟨⟨1004⟩, 0⟩] [subsidy]]

end Sample

open Sample in
/-- Two coinbase outputs are spent before they mature. -/
theorem coinbase_spent_immature :
    ¬∀ (n : Node) (tip : Hash) (ps : List Hash) (t : Trace), n.Reachable env →
      n.dag.getSelectedChain tip = ps ++ [genesisHash] → n.dag.traceChain env ps = some t →
      ∀ s ∈ t.spends, s.Mature := by
  intro h
  have hacc : ((run [first, side, merging, hasty]).dag.traceChain env [⟨5⟩, ⟨4⟩, ⟨2⟩]).map
      (fun t => (t.spends.filter fun s => ¬s.Mature).length) = some 2 := by decide +kernel
  obtain ⟨t, ht, hlen⟩ := Option.map_eq_some_iff.1 hacc
  have hall := h _ ⟨5⟩ _ t (reachable_run _) (by decide +kernel) ht
  rw [List.filter_eq_nil_iff.2 fun s hs => by simpa using hall s hs] at hlen
  cases hlen

namespace Sample

/-- The trace of a chain on which a merged coinbase matures. -/
def patient : Trace :=
  (((run [first, side, merging, again]).dag.traceChain env [⟨5⟩, ⟨4⟩, ⟨2⟩])).getD (.start env)

end Sample

open Sample in
theorem coinbase_mature_merged :
    (∀ s ∈ patient.spends, s.Mature) ↔
      ∀ s ∈ patient.spends, s.isCoinbase = true → s.spender ≠ s.origin.adder ∧ ¬s.Early := by
  have hacc : ((run [first, side, merging, again]).dag.traceChain env [⟨5⟩, ⟨4⟩, ⟨2⟩]).isSome =
      true := by decide +kernel
  obtain ⟨t, ht⟩ := Option.isSome_iff_exists.1 hacc
  have hpat : patient = t := by rw [patient, ht, Option.getD_some]
  exact hpat ▸ Dag.coinbase_mature_iff env _ _ t ht

end Zentra

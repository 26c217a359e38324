import ZentraChain.Lib.Paging
import ZentraChain.Lib.Worklist
import ZentraChain.Node.Converge

/-!
# The blocks a peer misses (`node.rs`, `p2p_sync.rs`)

`blocks_above` searches back from the tips over all parents, down to a height, and takes the lowest
scores. `sync_from_peer` pushes what it returns, batch by batch.

* `TipsExact.blocksAbove_sorted`: the search finds every block above the height, once.
* `push_complete_iff`: all of them are pushed exactly if no batch ends within a group of blocks of one
  score.
-/

namespace Zentra

def syncBatch : Nat := 500

namespace Dag

/-- What the search does with a hash: a stored block above the height is collected, and its parents
are queued. -/
def expandAbove (d : Dag) (fromHeight : Nat) (h : Hash) : Option (Block × List Hash) :=
  match d.getBlock h with
  | some b => if b.header.blueScore ≤ fromHeight then none else some (b, b.header.parents)
  | none => none

def parentCount (d : Dag) (h : Hash) : Nat := ((d.getBlock h).map (·.header.parents.length)).getD 0

/-- Steps enough for a search: all that can be queued. -/
def searchFuel (d : Dag) : Nat := d.tips.length + ∑ h ∈ d.db.blocks.keys, d.parentCount h

/-- The blocks above a height, in ascending order of their scores. -/
def allAbove (d : Dag) (fromHeight : Nat) : List Block :=
  (Worklist.search (d.expandAbove fromHeight) d.searchFuel d.tips ∅).insertionSort
    fun a b => a.header.blueScore ≤ b.header.blueScore

/-- `blocks_above`. -/
def blocksAbove (d : Dag) (fromHeight limit : Nat) : List Block :=
  (d.allAbove fromHeight).take limit

variable {E : Env} {d : Dag} {b c : Block} {h : Hash} {f : Nat}

theorem expandAbove_eq_some {xs : List Hash} : d.expandAbove f h = some (b, xs) ↔
    d.getBlock h = some b ∧ f < b.header.blueScore ∧ xs = b.header.parents := by
  unfold expandAbove
  cases d.getBlock h with
  | none => simp
  | some c =>
    simp only [Option.some.injEq]
    split
    · rename_i hle
      refine ⟨nofun, ?_⟩
      rintro ⟨rfl, hlt, -⟩
      exact absurd hle (Nat.not_le.2 hlt)
    · rename_i hle
      rw [Option.some.injEq, Prod.mk.injEq]
      constructor
      · rintro ⟨rfl, rfl⟩
        exact ⟨rfl, Nat.not_le.1 hle, rfl⟩
      · rintro ⟨rfl, -, rfl⟩
        exact ⟨rfl, rfl⟩

theorem search_above (d : Dag) (f : Nat) : ∃ nodes all,
    Worklist.Found (d.expandAbove f) d.tips ∅ nodes all
      (Worklist.search (d.expandAbove f) d.searchFuel d.tips ∅) := by
  refine Worklist.search_found d.parentCount d.db.blocks.keys
    (fun h b xs he => ?_) _ _ _ (by intro x hx; simp at hx) ?_
  · obtain ⟨hb, -, rfl⟩ := expandAbove_eq_some.1 he
    refine ⟨Finmap.mem_keys.2 (Finmap.mem_iff.2 ⟨b, hb⟩), ?_⟩
    rw [parentCount, hb]
    exact Nat.le_refl _
  · unfold Worklist.cost searchFuel
    rw [Finset.sdiff_empty]

/-- **The search visits every block above the height**: it is a tip, or has a child, which scores
higher. -/
theorem TipsExact.visited (ht : d.TipsExact) (hw : d.Wf E) {nodes : List Hash} {all : Finset Hash}
    {out : List Block} (hf : Worklist.Found (d.expandAbove f) d.tips ∅ nodes all out) :
    ∀ (room : Nat) (h : Hash) (b : Block), d.getBlock h = some b → f < b.header.blueScore →
      (∀ x ∈ d.tips, d.score x ≤ b.header.blueScore + room) → h ∈ all
  | room, h, b, hb, hlt, hroom => by
    by_cases hchild : ∀ h' c, d.getBlock h' = some c → h ∉ c.header.parents
    · exact hf.start h (ht.mem h (by rw [hb]; rfl) hchild)
    · push Not at hchild
      obtain ⟨h', c, hc, hm⟩ := hchild
      have hsc := hw.score_parent_lt hc hm
      rw [hw.score_eq hb, hw.score_eq hc] at hsc
      cases room with
      | zero =>
        -- no block scores higher than all tips
        obtain ⟨t, htt, hle⟩ := ht.above h' (by rw [hc]; rfl)
        have htop := hroom t htt
        have hct : d.score h' ≤ d.score t := hle.elim (fun he => (congrArg d.score he).le) Nat.le_of_lt
        rw [hw.score_eq hc] at hct
        omega
      | succ room =>
        have hin : h' ∈ all := ht.visited hw hf room h' c hc (hlt.trans hsc) fun x hx => by
          have := hroom x hx
          omega
        have he : d.expandAbove f h' = some (c, c.header.parents) :=
          expandAbove_eq_some.2 ⟨hc, hlt.trans hsc, rfl⟩
        exact (hf.closed h' hin c c.header.parents he h hm).resolve_right List.not_mem_nil

/-- **What the search finds.** -/
theorem TipsExact.blocksAbove_sorted (ht : d.TipsExact) (hw : d.Wf E) :
    Paging.Sorted (fun b : Block => b.header.blueScore)
      (fun b => d.getBlock (b.hash E) = some b) d.allAbove where
  sorted := fun f => (List.pairwise_insertionSort _ _).imp id
  nodup := fun f => by
    obtain ⟨nodes, all, hf⟩ := search_above d f
    refine (List.perm_insertionSort _ _).nodup_iff.2 ?_
    rw [hf.out]
    refine hf.nodup.filterMap fun x x' b hb hb' => ?_
    obtain ⟨p, hp, rfl⟩ := Option.map_eq_some_iff.1 hb
    obtain ⟨p', hp', he⟩ := Option.map_eq_some_iff.1 hb'
    rw [← hw.hash x p.1 (expandAbove_eq_some.1 hp).1, ← he,
      hw.hash x' p'.1 (expandAbove_eq_some.1 hp').1]
  mem := fun f b => by
    obtain ⟨nodes, all, hf⟩ := search_above d f
    rw [allAbove, (List.perm_insertionSort _ _).mem_iff]
    constructor
    · intro hb
      obtain ⟨x, hx, xs, he⟩ := hf.mem_out.1 hb
      obtain ⟨hxb, hlt, -⟩ := expandAbove_eq_some.1 he
      rw [hw.hash x b hxb]
      exact ⟨hxb, hlt⟩
    · rintro ⟨hb, hlt⟩
      obtain ⟨t, htip⟩ := hw.exists_selectedTip
      have hall : b.hash E ∈ all := ht.visited hw hf (d.score t) _ b hb hlt fun x hx =>
        (hw.score_le_selectedTip htip x hx).trans (Nat.le_add_left _ _)
      have he : d.expandAbove f (b.hash E) = some (b, b.header.parents) :=
        expandAbove_eq_some.2 ⟨hb, hlt, rfl⟩
      have hnode := hf.found _ hall (by simp) (by rw [he]; rfl)
      exact hf.mem_out.2 ⟨b.hash E, hnode, _, he⟩

/-! ## The push loop -/

/-- The batches that `sync_from_peer` pushes, from a height on: a batch starts above the score of the
last block sent, and the loop ends with a batch that is not full. -/
def pushLoop (d : Dag) (fuel fromHeight : Nat) : List (List Block) :=
  Paging.pages (fun b : Block => b.header.blueScore) (fun f => d.blocksAbove f syncBatch) syncBatch
    fuel fromHeight

/-- The blocks pushed. A round sends a block at least, so there are no more rounds than blocks
(`pushLoop_fuel`). -/
def pushed (d : Dag) (fromHeight : Nat) : List Block :=
  (d.pushLoop (d.db.blocks.keys.card + 1) fromHeight).flatten

/-- The stored blocks above a score. -/
def above (d : Dag) (f : Nat) : Finset Hash := d.db.blocks.keys.filter fun h => f < d.score h

/-- The stored blocks above a score, up to another. -/
def scoring (d : Dag) (f s : Nat) : Finset Hash :=
  d.db.blocks.keys.filter fun h => f < d.score h ∧ d.score h ≤ s

theorem mem_keys : h ∈ d.db.blocks.keys ↔ ∃ b, d.getBlock h = some b := by
  rw [Finmap.mem_keys, Finmap.mem_iff]
  rfl

section
variable (ht : d.TipsExact) (hw : d.Wf E)
include ht hw

/-- Blocks found are counted by their hashes. -/
theorem TipsExact.card_filter (f : Nat) (P : Nat → Bool) :
    ((d.allAbove f).filter fun b => P b.header.blueScore).length =
      (d.db.blocks.keys.filter fun h => f < d.score h ∧ P (d.score h)).card := by
  have hs := ht.blocksAbove_sorted hw
  have hnd : (((d.allAbove f).filter fun b => P b.header.blueScore).map (·.hash E)).Nodup := by
    refine ((hs.nodup f).filter _).map_on fun b hb c hc he => ?_
    have hb' := ((hs.mem f b).1 (List.mem_filter.1 hb).1).1
    have hc' := ((hs.mem f c).1 (List.mem_filter.1 hc).1).1
    rw [he] at hb'
    exact Option.some.inj (hb'.symm.trans hc')
  rw [← List.length_map (·.hash E), ← List.toFinset_card_of_nodup hnd]
  congr 1
  ext h
  rw [List.mem_toFinset, List.mem_map, Finset.mem_filter, mem_keys]
  constructor
  · rintro ⟨b, hb, rfl⟩
    obtain ⟨hb, hP⟩ := List.mem_filter.1 hb
    obtain ⟨hb, hlt⟩ := (hs.mem f b).1 hb
    rw [hw.score_eq hb]
    exact ⟨⟨b, hb⟩, hlt, hP⟩
  · rintro ⟨⟨b, hb⟩, hlt, hP⟩
    rw [hw.score_eq hb] at hlt hP
    have hh := hw.hash h b hb
    exact ⟨b, List.mem_filter.2 ⟨(hs.mem f b).2 ⟨hh ▸ hb, hlt⟩, hP⟩, hh⟩

theorem TipsExact.length_allAbove (f : Nat) : (d.allAbove f).length = (d.above f).card := by
  have hcard := ht.card_filter hw f fun _ => true
  rw [List.filter_eq_self.2 fun _ _ => rfl] at hcard
  rw [hcard]
  unfold Dag.above
  congr 1
  refine Finset.filter_congr fun h _ => ?_
  exact and_iff_left rfl

theorem TipsExact.upto_allAbove (f s : Nat) :
    Paging.upto (fun b : Block => b.header.blueScore) s (d.allAbove f) = (d.scoring f s).card := by
  have hcard := ht.card_filter hw f fun x => decide (x ≤ s)
  rw [Paging.upto, List.countP_eq_length_filter, hcard, scoring]
  congr 1
  refine Finset.filter_congr fun h _ => and_congr_right fun _ => decide_eq_true_iff

theorem TipsExact.length_allAbove_lt (f : Nat) :
    (d.allAbove f).length < d.db.blocks.keys.card + 1 := by
  rw [ht.length_allAbove hw]
  exact Nat.lt_succ_of_le (Finset.card_filter_le _ _)

/-- **The push loop ends by itself.** -/
theorem TipsExact.pushLoop_fuel (f fuel : Nat) (hfuel : d.db.blocks.keys.card < fuel) :
    d.pushLoop fuel f = d.pushLoop (d.db.blocks.keys.card + 1) f := by
  have hlt := ht.length_allAbove_lt hw f
  exact (ht.blocksAbove_sorted hw).pages_fuel (by decide) _ _ f (by omega) hlt

/-- What is pushed is above the height, each block once, in ascending order of the scores. -/
theorem TipsExact.pushed_sound (f : Nat) :
    (∀ b ∈ d.pushed f, d.getBlock (b.hash E) = some b ∧ f < b.header.blueScore) ∧
      (d.pushed f).Nodup ∧
      (d.pushed f).Pairwise fun a b => a.header.blueScore ≤ b.header.blueScore :=
  (ht.blocksAbove_sorted hw).pages_sound (by decide) _ f

/-- **Everything is pushed exactly if no batch ends within a group of one score.** -/
theorem TipsExact.pushed_all_iff (f : Nat) :
    (∀ h b, d.getBlock h = some b → f < b.header.blueScore → b ∈ d.pushed f) ↔
      ∀ k, 0 < k → k * syncBatch < (d.above f).card → ∃ s, (d.scoring f s).card = k * syncBatch := by
  have hiff := (ht.blocksAbove_sorted hw).complete_iff (show 0 < syncBatch by decide)
    (d.db.blocks.keys.card + 1) f (ht.length_allAbove_lt hw f)
  unfold Paging.Aligned at hiff
  rw [ht.length_allAbove hw] at hiff
  simp only [ht.upto_allAbove hw] at hiff
  rw [← hiff]
  constructor
  · intro h b hb hlt
    exact h _ b hb hlt
  · intro h x b hb hlt
    exact h b ((hw.hash x b hb).symm ▸ hb) hlt

/-- A parent that is pushed is pushed before its children. -/
theorem TipsExact.pushed_parent (f : Nat) {pre post : List Block} (he : d.pushed f = pre ++ b :: post)
    {p : Hash} (hp : p ∈ b.header.parents) (hc : d.getBlock p = some c) (hin : c ∈ d.pushed f) :
    c ∈ pre := by
  obtain ⟨hmem, -, hsort⟩ := ht.pushed_sound hw f
  have hb := (hmem b (by rw [he]; simp)).1
  have hlt := hw.score_parent_lt hb hp
  rw [hw.score_eq hb, hw.score_eq hc] at hlt
  rw [he] at hin hsort
  exact Paging.mem_before (·.header.blueScore) hsort hin hlt

end

end Dag

/-- **`blocks_above` returns the oldest blocks above a height**: each once and as many as there are, up
to the limit; in ascending order of the scores, each after its parents; and what it leaves out scores
no lower. -/
theorem Node.blocksAbove_oldest {E : Env} {n : Node} (hn : n.Reachable E) (fromHeight limit : Nat) :
    (n.dag.blocksAbove fromHeight limit).Nodup ∧
    (n.dag.blocksAbove fromHeight limit).Pairwise
      (fun a b => a.header.blueScore ≤ b.header.blueScore) ∧
    (n.dag.blocksAbove fromHeight limit).length = min limit (n.dag.above fromHeight).card ∧
    (∀ b ∈ n.dag.blocksAbove fromHeight limit,
      n.dag.getBlock (b.hash E) = some b ∧ fromHeight < b.header.blueScore) ∧
    (∀ pre b post, n.dag.blocksAbove fromHeight limit = pre ++ b :: post →
      ∀ p ∈ b.header.parents, ∀ c, n.dag.getBlock p = some c →
        fromHeight < c.header.blueScore → c ∈ pre) ∧
    ∀ h c, n.dag.getBlock h = some c → fromHeight < c.header.blueScore →
      c ∉ n.dag.blocksAbove fromHeight limit →
        ∀ b ∈ n.dag.blocksAbove fromHeight limit, b.header.blueScore ≤ c.header.blueScore := by
  have hw := hn.sound.wf
  have hs := hn.tips.blocksAbove_sorted hw
  have hsub := List.take_sublist limit (n.dag.allAbove fromHeight)
  have hmem : ∀ b ∈ n.dag.blocksAbove fromHeight limit,
      n.dag.getBlock (b.hash E) = some b ∧ fromHeight < b.header.blueScore :=
    fun b hb => (hs.mem fromHeight b).1 (hsub.subset hb)
  -- every stored block above the height is found
  have hall : ∀ h c, n.dag.getBlock h = some c → fromHeight < c.header.blueScore →
      c ∈ n.dag.allAbove fromHeight :=
    fun h c hc hlt => (hs.mem fromHeight c).2 ⟨(hw.hash h c hc).symm ▸ hc, hlt⟩
  refine ⟨(hs.nodup fromHeight).sublist hsub, (hs.sorted fromHeight).sublist hsub, ?_, hmem, ?_, ?_⟩
  · rw [Dag.blocksAbove, List.length_take, hn.tips.length_allAbove hw]
  · intro pre b post he p hp c hc hlt
    have hb := (hmem b (by rw [he]; simp)).1
    have hscore := hw.score_parent_lt hb hp
    rw [hw.score_eq hb, hw.score_eq hc] at hscore
    exact Paging.mem_before_take (·.header.blueScore) (hs.sorted fromHeight) he (hall p c hc hlt) hscore
  · intro h c hc hlt hout b hb
    exact Paging.le_of_cut (·.header.blueScore) (hs.sorted fromHeight) hb (hall h c hc hlt) hout

/-- **The push loop sends every block above a height, each parent before its children**, exactly if
as many whole batches as there are end with a whole group of blocks of one score. -/
theorem Node.push_complete_iff {E : Env} {n : Node} (hn : n.Reachable E) (fromHeight : Nat) :
    ((∀ h b, n.dag.getBlock h = some b → fromHeight < b.header.blueScore →
        b ∈ n.dag.pushed fromHeight) ∧
      ∀ pre b post, n.dag.pushed fromHeight = pre ++ b :: post → ∀ p ∈ b.header.parents,
        ∀ c, n.dag.getBlock p = some c → fromHeight < c.header.blueScore → c ∈ pre) ↔
      ∀ k, 0 < k → k * syncBatch < (n.dag.above fromHeight).card →
        ∃ s, (n.dag.scoring fromHeight s).card = k * syncBatch := by
  have hw := hn.sound.wf
  rw [← hn.tips.pushed_all_iff hw]
  refine ⟨fun h => h.1, fun h => ⟨h, fun pre b post he p hp c hc hlt => ?_⟩⟩
  exact hn.tips.pushed_parent hw fromHeight he hp hc (h p c hc hlt)

namespace Sample

/-- The block `first` with a payload in its coinbase and another nonce: its hash is `2 + k`. -/
def sibling (payload : List UInt8) (k : Nat) : Block where
  header := { (first).header with nonce := k + 1 }
  transactions := [{ coinbase 1 [subsidy] with payload := payload }]

/-- Blocks on the genesis block with these numbers. -/
def kin (payload : List UInt8) (ks : List Nat) : List Block := ks.map (sibling payload)

/-- So many blocks on the genesis block. -/
def siblings (payload : List UInt8) (count : Nat) : List Block :=
  (List.range count).map (sibling payload)

variable {payload : List UInt8} {ks : List Nat}

theorem sibling_hash (payload : List UInt8) (k : Nat) :
    (sibling payload k).hash env = ⟨1 + (k + 1)⟩ := rfl

theorem sibling_injective : Function.Injective fun k => (sibling payload k).hash env := by
  intro j k h
  have hv := congrArg Hash.val h
  simp only [sibling_hash] at hv
  omega

theorem sibling_preCheck (payload : List UInt8) (k : Nat) :
    Node.preCheck env (Node.new env .empty).dag 1717372800000 (sibling payload k) =
      .ok ((Node.new env .empty).dag.ghostdagFor [genesisHash]) := by
  have hheader : validateBlockHeader env (Node.new env .empty).dag 1717372800000
      (sibling payload k).header = .ok () := by
    show validateBlockHeader env (Node.new env .empty).dag 1717372800000 (first).header = .ok ()
    decide +kernel
  have hself : validateBlockSelfContained env (sibling payload k) = .ok () := rfl
  unfold Node.preCheck
  rw [hheader, hself]
  show (if 1 ≠ ((Node.new env .empty).dag.ghostdagFor [genesisHash]).blueScore then _
    else if 1 ≠ ((Node.new env .empty).dag.ghostdagFor [genesisHash]).blueWork then _
    else Except.ok ((Node.new env .empty).dag.ghostdagFor [genesisHash])) = _
  have hscore : ((Node.new env .empty).dag.ghostdagFor [genesisHash]).blueScore = 1 := by
    decide +kernel
  have hwork : ((Node.new env .empty).dag.ghostdagFor [genesisHash]).blueWork = 1 := by
    decide +kernel
  rw [hscore, hwork, if_neg (not_not.2 rfl), if_neg (not_not.2 rfl)]

/-- The siblings pass the checks of the genesis node: nonce and payload have no part in them. -/
theorem sibling_enters (payload : List UInt8) (k : Nat) :
    (Node.new env .empty).parentsStored (sibling payload k) = true ∧
      Node.Enters env 1717372800000 (.new env .empty) (sibling payload k) := by
  refine ⟨?_, ?_, sibling_preCheck payload k⟩
  · show (Node.new env .empty).parentsStored first = true
    decide +kernel
  · have hne : (sibling payload k).hash env ≠ (Block.genesis env).hash env := by
      intro h
      have hv := congrArg Hash.val h
      rw [sibling_hash, show (Block.genesis env).hash env = ⟨1⟩ from rfl] at hv
      simp only at hv
      omega
    rw [(Node.new_empty env).1, Dag.getBlock_first, if_neg hne]

/-- Blocks on the genesis block can be delivered. -/
theorem kin_delivered (payload : List UInt8) (hnd : ks.Nodup) :
    ∃ n, Node.Delivers env (fun _ => 1717372800000) (.new env .empty) (kin payload ks) n := by
  refine Node.Delivers.of_siblings .refl ?_ fun b hb => ?_
  · rw [kin, List.map_map]
    exact hnd.map sibling_injective
  · obtain ⟨k, -, rfl⟩ := List.mem_map.1 hb
    exact sibling_enters payload k

theorem siblings_delivered (payload : List UInt8) (count : Nat) :
    ∃ n, Node.Delivers env (fun _ => 1717372800000) (.new env .empty) (siblings payload count) n :=
  kin_delivered payload List.nodup_range

theorem delivered_getBlock {clock : Hash → Nat} {l : List Block} {n : Node} {h : Hash} {b : Block}
    (hd : Node.Delivers env clock (.new env .empty) l n) :
    n.dag.getBlock h = some b ↔
      (h = genesisHash ∧ b = .genesis env) ∨ b ∈ l ∧ b.hash env = h := by
  rw [hd.getBlock_iff, (Node.new_empty env).1, Dag.getBlock_first]
  refine or_congr_left ?_
  show (if h = genesisHash then _ else _) = _ ↔ _
  split
  · rename_i hh
    simp [hh, eq_comm]
  · rename_i hh
    simp [hh]

theorem kin_getBlock {n : Node} {h : Hash} {b : Block}
    (hd : Node.Delivers env (fun _ => 1717372800000) (.new env .empty) (kin payload ks) n) :
    n.dag.getBlock h = some b ↔ (h = genesisHash ∧ b = .genesis env) ∨
      ∃ k ∈ ks, b = sibling payload k ∧ h = ⟨1 + (k + 1)⟩ := by
  rw [delivered_getBlock hd, kin, List.mem_map]
  refine or_congr_right ?_
  constructor
  · rintro ⟨⟨k, hk, rfl⟩, rfl⟩
    exact ⟨k, hk, rfl, rfl⟩
  · rintro ⟨k, hk, rfl, rfl⟩
    exact ⟨⟨k, hk, rfl⟩, rfl⟩

section
variable {count : Nat} {n : Node}
  (hd : Node.Delivers env (fun _ => 1717372800000) (.new env .empty) (siblings payload count) n)
include hd

/-- What is above the genesis block is a sibling. -/
theorem siblings_stored {h : Hash} {b : Block} (hb : n.dag.getBlock h = some b)
    (hpos : 0 < n.dag.score h) : b ∈ siblings payload count := by
  rw [((hd.reachable .refl).sound.wf).score_eq hb] at hpos
  rcases (kin_getBlock hd).1 hb with ⟨-, rfl⟩ | ⟨k, hk, rfl, -⟩
  · exact absurd hpos (Nat.lt_irrefl _)
  · exact List.mem_map_of_mem hk

/-- Above the genesis block are as many blocks as siblings, all of one score. -/
theorem siblings_scoring (s : Nat) :
    (n.dag.scoring 0 s).card = if 1 ≤ s then count else 0 := by
  have hw := (hd.reachable .refl).sound.wf
  have hscore : ∀ h b, n.dag.getBlock h = some b → 0 < n.dag.score h →
      n.dag.score h = 1 ∧ b ∈ siblings payload count := by
    intro h b hb hpos
    have hin := siblings_stored hd hb hpos
    obtain ⟨k, -, rfl⟩ := List.mem_map.1 hin
    exact ⟨hw.score_eq hb, hin⟩
  split
  · rename_i hs
    have himage : n.dag.scoring 0 s =
        (Finset.range count).image fun k => (sibling payload k).hash env := by
      ext h
      rw [Dag.scoring, Finset.mem_filter, Dag.mem_keys, Finset.mem_image]
      constructor
      · rintro ⟨⟨b, hb⟩, hpos, -⟩
        obtain ⟨-, hin⟩ := hscore h b hb hpos
        obtain ⟨k, hk, rfl⟩ := List.mem_map.1 hin
        exact ⟨k, Finset.mem_range.2 (List.mem_range.1 hk), hw.hash h _ hb⟩
      · rintro ⟨k, hk, rfl⟩
        have hin : sibling payload k ∈ siblings payload count :=
          List.mem_map_of_mem (List.mem_range.2 (Finset.mem_range.1 hk))
        have hb := hd.getBlock_iff.2 (.inr ⟨hin, rfl⟩)
        have h1 : n.dag.score ((sibling payload k).hash env) = 1 := hw.score_eq hb
        rw [h1]
        exact ⟨⟨_, hb⟩, Nat.one_pos, hs⟩
    rw [himage, Finset.card_image_of_injective _ sibling_injective, Finset.card_range]
  · rename_i hs
    rw [Finset.card_eq_zero, Dag.scoring, Finset.filter_eq_empty_iff]
    rintro h - ⟨h0, hle⟩
    omega

theorem siblings_above : count ≤ (n.dag.above 0).card := by
  rw [← (siblings_scoring hd 1).trans (if_pos (Nat.le_refl 1))]
  exact Finset.card_le_card (Finset.monotone_filter_right _ fun _ _ hx => hx.1)

end

end Sample

open Sample in
/-- The genesis block and a block on it are the oldest two above no height. -/
theorem blocksAbove_merging : (run [first, side, merging]).dag.blocksAbove 0 2 = [side, first] ∧
    ((run [first, side, merging]).dag.blocksAbove 0 2).length =
      min 2 ((run [first, side, merging]).dag.above 0).card :=
  ⟨by decide +kernel, (Node.blocksAbove_oldest (reachable_run _) 0 2).2.2.1⟩

open Sample in
theorem push_complete_merging :
    (∀ h b, (run [first, side, merging]).dag.getBlock h = some b → 0 < b.header.blueScore →
        b ∈ (run [first, side, merging]).dag.pushed 0) ∧
      ∀ pre b post, (run [first, side, merging]).dag.pushed 0 = pre ++ b :: post →
        ∀ p ∈ b.header.parents, ∀ c, (run [first, side, merging]).dag.getBlock p = some c →
          0 < c.header.blueScore → c ∈ pre := by
  refine (Node.push_complete_iff (reachable_run _) 0).2 fun k hk hlt => ?_
  have hcard : ((run [first, side, merging]).dag.above 0).card = 3 := by decide +kernel
  rw [hcard, syncBatch] at hlt
  omega

open Sample in
/-- Of 501 blocks of one score, the last is not pushed. -/
theorem push_cuts_siblings :
    ¬∀ n : Node, n.Reachable env → ∀ fromHeight h b, n.dag.getBlock h = some b →
      fromHeight < b.header.blueScore → b ∈ n.dag.pushed fromHeight := by
  intro h
  obtain ⟨n, hd⟩ := siblings_delivered [] 501
  have hn := hd.reachable .refl
  have hall := (hn.tips.pushed_all_iff hn.sound.wf 0).1 (h n hn 0)
  have habove := siblings_above hd
  obtain ⟨s, hs⟩ := hall 1 Nat.one_pos (by rw [syncBatch]; omega)
  rw [siblings_scoring hd, syncBatch] at hs
  split at hs
  · omega
  · omega

end Zentra

import ZentraChain.Node.Rewards
import ZentraChain.Node.Window

/-!
# Delivery in any order

* `TipsExact`: the tips of a graph are its blocks without children, each once, and every block is a
  tip or scores lower than one.
* `Reachable.best_of_all`: the selected tip is the best of all blocks.
* `Delivers`: blocks delivered to a node, each on stored parents and past the checks.
* `delivery_converges`: any order with parents first passes the checks too, and gives the same
  GhostDAG data, tips and selected tip.
-/

namespace Zentra

namespace Dag

variable {E : Env} {d d' : Dag} {b : Block} {h t t' : Hash}

/-- What the tips of a graph are, beyond `Wf`. -/
structure TipsExact (d : Dag) : Prop where
  nodup : d.tips.Nodup
  mem : ∀ h, (d.getBlock h).isSome →
    (∀ h' b, d.getBlock h' = some b → h ∉ b.header.parents) → h ∈ d.tips
  above : ∀ h, (d.getBlock h).isSome → ∃ t ∈ d.tips, h = t ∨ d.score h < d.score t

theorem score_extend_of_isSome (hnew : d.getBlock (b.hash E) = none) (hs : (d.getBlock h).isSome) :
    (d.extend E b).score h = d.score h := by
  rw [score, score, GhostdagManager.scoreOf, GhostdagManager.scoreOf,
    getGhostdag_extend_of_isSome hnew hs]

theorem getBlock_extend_self : (d.extend E b).getBlock (b.hash E) = some b := by
  rw [getBlock_extend, if_pos rfl]

/-- **An insertion keeps the tips exact.** -/
theorem TipsExact.extend (ht : d.TipsExact) (hw : d.Wf E) (hw' : (d.extend E b).Wf E)
    (hnew : d.getBlock (b.hash E) = none) : (d.extend E b).TipsExact := by
  have hself : b.hash E ∈ (d.extend E b).tips := by
    rw [tips_extend]
    simp
  have hkeep : ∀ {x}, x ∈ d.tips → x ∉ b.header.parents → x ∈ (d.extend E b).tips := by
    intro x hx hxp
    rw [tips_extend, List.mem_append, List.mem_filter]
    exact .inl ⟨hx, by simpa using hxp⟩
  have hold : ∀ {h}, h ≠ b.hash E → ((d.extend E b).getBlock h).isSome → (d.getBlock h).isSome := by
    intro h hne hs
    rw [getBlock_extend, if_neg hne] at hs
    exact hs
  refine ⟨?_, fun h hs hchild => ?_, fun h hs => ?_⟩
  · rw [tips_extend, List.nodup_append]
    refine ⟨ht.nodup.filter _, List.nodup_singleton _, fun x hx y hy hxy => ?_⟩
    obtain rfl := List.mem_singleton.1 hy
    have := hw.tips x (List.mem_filter.1 hx).1
    rw [hxy, hnew] at this
    cases this
  · by_cases hne : h = b.hash E
    · exact hne ▸ hself
    · refine hkeep (ht.mem h (hold hne hs) fun h' b' hb' => hchild h' b' ?_)
        (hchild _ b getBlock_extend_self)
      rw [getBlock_extend_of_isSome hnew (by rw [hb']; rfl)]
      exact hb'
  · by_cases hne : h = b.hash E
    · exact ⟨b.hash E, hself, .inl hne⟩
    · have hs' := hold hne hs
      obtain ⟨t, htt, hle⟩ := ht.above h hs'
      have hst := hw.tips t htt
      rw [← score_extend_of_isSome hnew hs', ← score_extend_of_isSome hnew hst] at hle
      by_cases htp : t ∈ b.header.parents
      · -- the new block takes the place of its parent
        refine ⟨b.hash E, hself, .inr ?_⟩
        have hlt := hw'.score_parent_lt getBlock_extend_self htp
        rcases hle with rfl | hle
        · exact hlt
        · exact Nat.lt_trans hle hlt
      · exact ⟨t, hkeep htt htp, hle⟩

theorem tips_firstDag (E : Env) : (first E).TipsExact := by
  refine ⟨by rw [tips_first]; exact List.nodup_singleton _, fun h hs _ => ?_, fun h hs => ?_⟩
  all_goals
    have hh : h = (Block.genesis E).hash E := by
      by_contra hne
      rw [getBlock_first, if_neg hne] at hs
      cases hs
  · rw [tips_first, List.mem_singleton]
    exact hh
  · exact ⟨_, by rw [tips_first]; exact List.mem_singleton_self _, .inl hh⟩

/-- **The best tip is the best block.** -/
theorem TipsExact.best (ht : d.TipsExact) (hw : d.Wf E) (hsel : d.getSelectedTip = some t)
    (hs : (d.getBlock h).isSome) : better (d.key h) (d.key t) = false := by
  obtain ⟨t', ht', hle⟩ := ht.above h hs
  have hbest := getSelectedTip_max hsel t' ht' (hw.getHeader_isSome ▸ hw.tips t' ht')
  rcases hle with rfl | hlt
  · exact hbest
  · obtain ⟨b, hb⟩ := Option.isSome_iff_exists.1 hs
    obtain ⟨b', hb'⟩ := Option.isSome_iff_exists.1 (hw.tips t' ht')
    rw [Bool.eq_false_iff, ne_eq, better_iff] at hbest ⊢
    rw [hw.key_eq hb'] at hbest
    rw [hw.key_eq hb]
    simp only at hbest ⊢
    omega

/-! ## Graphs with the same blocks -/

theorem TipsExact.mem_iff (ht : d.TipsExact) (hw : d.Wf E) : t ∈ d.tips ↔ (d.getBlock t).isSome ∧
    ∀ h b, d.getBlock h = some b → t ∉ b.header.parents :=
  ⟨fun hm => ⟨hw.tips t hm, fun h b hb => hw.childless h b hb t hm⟩, fun h => ht.mem t h.1 h.2⟩

/-- Graphs with the same blocks have the same tips. -/
theorem TipsExact.perm (ht : d.TipsExact) (ht' : d'.TipsExact) (hw : d.Wf E) (hw' : d'.Wf E)
    (hsame : ∀ h, d'.getBlock h = d.getBlock h) : d'.tips.Perm d.tips := by
  refine (List.perm_ext_iff_of_nodup ht'.nodup ht.nodup).2 fun t => ?_
  rw [ht'.mem_iff hw', ht.mem_iff hw]
  simp only [hsame]

/-- Graphs with the same blocks have the same selected tip. -/
theorem TipsExact.selectedTip_eq (ht : d.TipsExact) (ht' : d'.TipsExact) (hw : d.Wf E) (hw' : d'.Wf E)
    (hsame : ∀ h, d'.getBlock h = d.getBlock h) : d'.getSelectedTip = d.getSelectedTip := by
  obtain ⟨t, hsel⟩ := hw.exists_selectedTip
  obtain ⟨t', hsel'⟩ := hw'.exists_selectedTip
  have hkey : ∀ h, d'.key h = d.key h := fun h => by
    rw [key, key, hw'.header, hw.header, hsame]
  have h1 := ht.best hw hsel (hsame t' ▸ hw'.selectedTip_stored hsel')
  have h2 := ht'.best hw' hsel' (hsame t ▸ hw.selectedTip_stored hsel)
  rw [hkey, hkey] at h2
  have heq : t' = t := better_antisymm h1 h2
  rw [hsel, hsel', heq]

end Dag

namespace Node

variable {E : Env} {n n' m : Node} {b : Block} {h t : Hash} {clock clock' : Hash → Nat}
  {now now' : Nat} {l l' pre post : List Block}

/-! ## The graph of a running node -/

/-- A block that is refused changes nothing. -/
theorem connectBlock_refused (h : ¬Enters E now n b) : connectBlock E now n b = (false, n) := by
  have ho := connectBlock_outcome E now n b
  rw [← Prod.mk.eta (p := connectBlock E now n b)]
  generalize (connectBlock E now n b).1 = r at ho
  generalize (connectBlock E now n b).2 = n' at ho
  cases ho with
  | refused _ => rfl
  | aside he _ => exact absurd he h
  | moved he _ _ => exact absurd he h
  | failed he _ _ => exact absurd he h

/-- Past the checks, `connect_block` extends the graph, whatever comes of the chain. -/
theorem Enters.dag (he : Enters E now n b) :
    ∃ u, (connectBlock E now n b).2.dag = (n.dag.extend E b).withUndo u := by
  have ho := connectBlock_outcome E now n b
  generalize (connectBlock E now n b).1 = r at ho
  generalize (connectBlock E now n b).2 = n' at ho ⊢
  cases ho with
  | refused hne => exact absurd he hne
  | aside _ _ => exact ⟨(n.dag.extend E b).db.undo, rfl⟩
  | moved _ _ hr =>
    obtain ⟨u, v, evs, rfl, -⟩ := reorganize_eq_ledger hr
    exact ⟨u, rfl⟩
  | failed _ _ hr =>
    obtain ⟨u, v, evs, rfl, -⟩ := reorganize_eq_ledger hr
    exact ⟨u, rfl⟩

/-- **What the graph of a running node is made of**: the genesis block, blocks that entered on
stored parents, and undo records. -/
theorem Reachable.dag_rec {P : Dag → Prop} (hn : n.Reachable E) (hfirst : P (Dag.first E))
    (henter : ∀ (m : Node) (b : Block) (now : Nat), m.dag.Wf E → Joins E m.dag b →
      Enters E now m b → P m.dag → P (m.dag.extend E b))
    (hundo : ∀ d u, P d → P (d.withUndo u)) : P n.dag := by
  have ha := hn.actions
  clear hn
  induction ha with
  | refl =>
    rw [(new_empty E).1]
    exact hfirst
  | @tail m n hm ha ih =>
    have hs : Sound E m := (sound_new E).moves (Actions.moves hm)
    cases ha with
    | park _ _ _ => exact ih
    | @connect now _ b hp =>
      by_cases he : Enters E now m b
      · obtain ⟨u, hu⟩ := he.dag
        rw [hu]
        exact hundo _ u (henter m b now hs.wf (he.joins hp) he ih)
      · rw [connectBlock_refused he]
        exact ih

theorem Reachable.tips (hn : n.Reachable E) : n.dag.TipsExact :=
  hn.dag_rec (Dag.tips_firstDag E) (fun _ _ _ hw hj _ ht => ht.extend hw (hj.wf hw) hj.new)
    fun _ _ ht => ⟨ht.nodup, ht.mem, ht.above⟩

/-- **The selected tip is the best of all blocks** of a node. -/
theorem Reachable.best_of_all (hn : n.Reachable E) (ht : n.dag.getSelectedTip = some t)
    (hs : (n.dag.getBlock h).isSome) : Dag.better (n.dag.key h) (n.dag.key t) = false :=
  hn.tips.best hn.sound.wf ht hs

/-! ## Deliveries -/

/-- Blocks delivered to a node one after the other, each on stored parents and past the checks of
`connect_block` at its time. -/
inductive Delivers (E : Env) (clock : Hash → Nat) : Node → List Block → Node → Prop
  | nil (n : Node) : Delivers E clock n [] n
  | cons {n n' : Node} {b : Block} {bs : List Block} : n.parentsStored b = true →
      Enters E (clock (b.hash E)) n b →
      Delivers E clock (connectBlock E (clock (b.hash E)) n b).2 bs n' →
      Delivers E clock n (b :: bs) n'

/-- Every block comes after its parents, the genesis block aside. -/
def ParentsFirst (E : Env) (l : List Block) : Prop :=
  ∀ pre b post, l = pre ++ b :: post → ∀ p ∈ b.header.parents,
    p = (Block.genesis E).hash E ∨ p ∈ pre.map (·.hash E)

theorem Enters.getBlock (he : Enters E now n b) : (connectBlock E now n b).2.dag.getBlock h =
    if h = b.hash E then some b else n.dag.getBlock h := by
  obtain ⟨u, hu⟩ := he.dag
  rw [hu, Dag.getBlock_withUndo, Dag.getBlock_extend]

theorem Enters.within (he : Enters E now n b) : n.dag.Within (connectBlock E now n b).2.dag := by
  obtain ⟨u, hu⟩ := he.dag
  rw [hu]
  exact ⟨(Dag.Within.extend he.1).block, (Dag.Within.extend he.1).ghostdag⟩

/-- The larger graph of a node that has the block already. -/
theorem Enters.within_of {d : Dag} (he : Enters E now n b) (hwi : n.dag.Within d) (hw : d.Wf E)
    (hb : d.getBlock (b.hash E) = some b)
    (hps : ∀ p ∈ b.header.parents, (n.dag.getBlock p).isSome) :
    (connectBlock E now n b).2.dag.Within d := by
  refine ⟨fun h c hc => ?_, fun h hs => ?_⟩
  · rw [he.getBlock] at hc
    split at hc
    · cases hc
      rw [‹h = _›]
      exact hb
    · exact hwi.block h c hc
  · rw [he.getBlock] at hs
    obtain ⟨u, hu⟩ := he.dag
    rw [hu]
    show d.getGhostdag h = (n.dag.extend E b).getGhostdag h
    rw [Dag.getGhostdag_extend]
    split at hs
    · rename_i hh
      rw [if_pos hh, hh, hw.ghostdag _ b hb, hwi.ghostdagFor hps]
    · rename_i hh
      rw [if_neg hh]
      exact hwi.ghostdag h hs

/-- A clock that does not find the header in the future changes nothing. -/
theorem validateBlockHeader_time {d : Dag} {hd : Header}
    (h : validateBlockHeader E d now hd = .ok ())
    (ht : hd.timestamp ≤ satAdd now' maxFutureMs) : validateBlockHeader E d now' hd = .ok () :=
  validateBlockHeader_iff.2 { validateBlockHeader_iff.1 h with time := ht }

theorem preCheck_time {d : Dag} {gd : GhostdagData} (h : preCheck E d now b = .ok gd)
    (ht : b.header.timestamp ≤ satAdd now' maxFutureMs) : preCheck E d now' b = .ok gd := by
  unfold preCheck at h ⊢
  cases hh : validateBlockHeader E d now b.header with
  | error x =>
    rw [hh] at h
    cases h
  | ok _ =>
    rw [hh] at h
    rw [validateBlockHeader_time hh ht]
    exact h

/-- A block that passes the checks passes them at a later time. -/
theorem Enters.later (he : Enters E now n b) (hle : now ≤ now') : Enters E now' n b := by
  refine ⟨he.1, preCheck_time he.2 ?_⟩
  have htime := he.checks.1.time
  simp only [satAdd, Saturating.add] at htime ⊢
  omega

/-- A block that passes the checks on stored parents passes them later, too. -/
theorem Enters.mono (he : Enters E now n b) (hwi : n.dag.Within m.dag) (hw : n.dag.Wf E)
    (hw' : m.dag.Wf E) (hp : n.parentsStored b = true) (hnew : m.dag.getBlock (b.hash E) = none) :
    Enters E now m b := by
  have hok := he.2
  rw [← preCheck_within hwi hw hw' now fun p hm => List.all_eq_true.1 hp p hm] at hok
  exact ⟨hnew, (preCheck_ok hok).1 ▸ hok⟩

namespace Delivers

/-- Blocks that all pass the checks on the graph there is can be delivered one after the other. -/
theorem of_siblings : ∀ {l : List Block} {n : Node}, n.Reachable E → (l.map (·.hash E)).Nodup →
    (∀ b ∈ l, n.parentsStored b = true ∧ Enters E (clock (b.hash E)) n b) →
    ∃ n', Delivers E clock n l n'
  | [], n, _, _, _ => ⟨n, .nil n⟩
  | b :: l, n, hn, hnd, hall => by
    obtain ⟨hp, he⟩ := hall b List.mem_cons_self
    have hstep : Step E n (connectBlock E (clock (b.hash E)) n b).2 := .connect _ n b hp
    have hn' : Reachable E _ := hn.tail hstep
    obtain ⟨hb, hnd⟩ := List.nodup_cons.1 hnd
    obtain ⟨n', hd⟩ := of_siblings (l := l) hn' hnd fun c hc => by
      obtain ⟨hpc, hec⟩ := hall c (List.mem_cons_of_mem _ hc)
      refine ⟨hstep.moves.parentsStored hpc, hec.mono he.within hn.sound.wf hn'.sound.wf hpc ?_⟩
      rw [he.getBlock, if_neg]
      · exact hec.1
      · intro heq
        exact hb (List.mem_map.2 ⟨c, hc, heq⟩)
    exact ⟨n', .cons hp he hd⟩

theorem reachable (hd : Delivers E clock n l n') (hn : n.Reachable E) : n'.Reachable E := by
  induction hd with
  | nil _ => exact hn
  | cons hp _ _ ih => exact ih (hn.tail (.connect _ _ _ hp))

theorem within (hd : Delivers E clock n l n') : n.dag.Within n'.dag := by
  induction hd with
  | nil _ => exact .refl _
  | cons _ he _ ih => exact he.within.trans ih

/-- The stored blocks are the ones there were and the ones delivered. -/
theorem getBlock_iff (hd : Delivers E clock n l n') : n'.dag.getBlock h = some b ↔
    n.dag.getBlock h = some b ∨ (b ∈ l ∧ b.hash E = h) := by
  induction hd with
  | nil _ => simp
  | @cons n n' c bs _ he _ ih =>
    rw [ih, he.getBlock]
    by_cases hh : h = c.hash E
    · subst hh
      rw [if_pos rfl, he.1, List.mem_cons, Option.some.injEq]
      refine ⟨?_, ?_⟩
      · rintro (rfl | ⟨hm, hbh⟩)
        · exact .inr ⟨.inl rfl, rfl⟩
        · exact .inr ⟨.inr hm, hbh⟩
      · rintro (hb | ⟨rfl | hm, hbh⟩)
        · cases hb
        · exact .inl rfl
        · exact .inr ⟨hm, hbh⟩
    · rw [if_neg hh, List.mem_cons]
      refine or_congr_right ⟨fun hb => ⟨.inr hb.1, hb.2⟩, ?_⟩
      rintro ⟨rfl | hm, hbh⟩
      · exact absurd hbh.symm hh
      · exact ⟨hm, hbh⟩

/-- Delivered blocks are new, and of different hashes. -/
theorem hashes_nodup (hd : Delivers E clock n l n') : (l.map (·.hash E)).Nodup ∧
    ∀ b ∈ l, n.dag.getBlock (b.hash E) = none := by
  induction hd with
  | nil _ => exact ⟨List.nodup_nil, by simp⟩
  | @cons n n' c bs _ he _ ih =>
    have hne : ∀ b ∈ bs, b.hash E ≠ c.hash E ∧ n.dag.getBlock (b.hash E) = none := fun b hb => by
      have hnone := ih.2 b hb
      rw [he.getBlock] at hnone
      split at hnone
      · cases hnone
      · exact ⟨‹_›, hnone⟩
    refine ⟨?_, fun b hb => ?_⟩
    · rw [List.map_cons, List.nodup_cons]
      refine ⟨fun hm => ?_, ih.1⟩
      obtain ⟨b, hb, hbc⟩ := List.mem_map.1 hm
      exact (hne b hb).1 hbc
    · rcases List.mem_cons.1 hb with rfl | hb
      · exact he.1
      · exact (hne b hb).2

/-- Each block passed the checks on a part of the final graph. -/
theorem passed (hd : Delivers E clock n l n') (hn : n.Reachable E) : ∀ b ∈ l, ∃ d gd,
    d.Wf E ∧ d.Within n'.dag ∧ (∀ p ∈ b.header.parents, (d.getBlock p).isSome) ∧
      preCheck E d (clock (b.hash E)) b = .ok gd := by
  induction hd with
  | nil _ => simp
  | @cons n n' c bs hp he hd ih =>
    intro b hb
    rcases List.mem_cons.1 hb with rfl | hb
    · exact ⟨n.dag, _, hn.sound.wf, he.within.trans hd.within,
        fun p hm => List.all_eq_true.1 hp p hm, he.2⟩
    · exact ih (hn.tail (.connect _ _ _ hp)) b hb

/-- A delivery has one outcome. -/
theorem unique (hd : Delivers E clock n l n') (hd' : Delivers E clock n l m) : m = n' := by
  induction hd with
  | nil _ =>
    cases hd' with
    | nil _ => rfl
  | cons _ _ _ ih =>
    cases hd' with
    | cons _ _ hd' => exact ih hd'

theorem append (hd : Delivers E clock n l m) (hd' : Delivers E clock m l' n') :
    Delivers E clock n (l ++ l') n' := by
  induction hd with
  | nil _ => exact hd'
  | cons hp he _ ih => exact .cons hp he (ih hd')

/-- **The next block passes the checks** if its parents came before and it passed them in the other
order. -/
theorem next (hd : Delivers E clock (new E .empty) l n) (hperm : l.Perm (pre ++ b :: post))
    (horder : ParentsFirst E (pre ++ b :: post))
    (htime : b.header.timestamp ≤ satAdd (clock' (b.hash E)) maxFutureMs)
    (hm : Delivers E clock' (new E .empty) pre m) (hwi : m.dag.Within n.dag) :
    m.parentsStored b = true ∧ Enters E (clock' (b.hash E)) m b := by
  have hb : b ∈ l := hperm.mem_iff.2 (by simp)
  have hnr := hd.reachable .refl
  have hmr := hm.reachable .refl
  have hps : ∀ p ∈ b.header.parents, (m.dag.getBlock p).isSome := by
    intro p hp
    rcases horder pre b post rfl p hp with rfl | hin
    · rw [hmr.sound.wf.genesis]
      rfl
    · obtain ⟨c, hc, rfl⟩ := List.mem_map.1 hin
      rw [hm.getBlock_iff.2 (.inr ⟨hc, rfl⟩)]
      rfl
  have hnew : m.dag.getBlock (b.hash E) = none := by
    by_contra hne
    obtain ⟨c, hc⟩ := Option.ne_none_iff_exists'.1 hne
    rcases hm.getBlock_iff.1 hc with hstart | ⟨hpre, hcb⟩
    · rw [hd.hashes_nodup.2 b hb] at hstart
      cases hstart
    · have hnd := (hperm.map (·.hash E)).nodup_iff.1 hd.hashes_nodup.1
      rw [List.map_append, List.nodup_append] at hnd
      exact hnd.2.2 _ (List.mem_map_of_mem hpre) _ (List.mem_map_of_mem List.mem_cons_self) hcb
  -- both graphs are parts of the final one
  obtain ⟨d, gd, hdw, hdn, hdp, hok⟩ := hd.passed .refl b hb
  rw [← preCheck_within hdn hdw hnr.sound.wf _ hdp,
    preCheck_within hwi hmr.sound.wf hnr.sound.wf _ hps] at hok
  have hok' := preCheck_time hok htime
  exact ⟨List.all_eq_true.2 hps, hnew, (preCheck_ok hok').1 ▸ hok'⟩

/-- **Blocks that passed the checks pass them in any order with parents first.** -/
theorem reorder (hd : Delivers E clock (new E .empty) l n) : ∀ (post pre : List Block) (m : Node),
    l.Perm (pre ++ post) → ParentsFirst E (pre ++ post) →
    (∀ b ∈ post, b.header.timestamp ≤ satAdd (clock' (b.hash E)) maxFutureMs) →
    Delivers E clock' (new E .empty) pre m → m.dag.Within n.dag →
      ∃ n', Delivers E clock' m post n' ∧ n'.dag.Within n.dag
  | [], _, m, _, _, _, _, hwi => ⟨m, .nil m, hwi⟩
  | b :: post, pre, m, hperm, horder, htime, hm, hwi => by
    obtain ⟨hp, he⟩ := hd.next hperm horder (htime b List.mem_cons_self) hm hwi
    have hb : b ∈ l := hperm.mem_iff.2 (by simp)
    have hstored := hd.getBlock_iff.2 (.inr ⟨hb, rfl⟩)
    have hwi' := he.within_of hwi (hd.reachable .refl).sound.wf hstored
      fun p hpm => List.all_eq_true.1 hp p hpm
    have happ : pre ++ b :: post = (pre ++ [b]) ++ post := (List.append_cons ..)
    rw [happ] at hperm horder
    obtain ⟨n', hn', hwin⟩ := reorder hd post (pre ++ [b]) _ hperm horder
      (fun c hc => htime c (List.mem_cons_of_mem _ hc)) (hm.append (.cons hp he (.nil _))) hwi'
    exact ⟨n', .cons hp he hn', hwin⟩

end Delivers

/-- **Delivery in any order**: blocks that pass the checks in one order pass them in every other
with parents first, and the node ends with the same GhostDAG data, tips and selected tip, the best
of all blocks. -/
theorem delivery_converges (E : Env) (clock clock' : Hash → Nat) (l l' : List Block) (n : Node)
    (hd : Delivers E clock (new E .empty) l n) (hperm : l.Perm l') (horder : ParentsFirst E l')
    (htime : ∀ b ∈ l', b.header.timestamp ≤ satAdd (clock' (b.hash E)) maxFutureMs) :
    ∃ n', (∀ m, Delivers E clock' (new E .empty) l' m ↔ m = n') ∧
      (∀ h, n'.dag.getBlock h = n.dag.getBlock h) ∧
      (∀ h, (n.dag.getBlock h).isSome → n'.dag.getGhostdag h = n.dag.getGhostdag h) ∧
      n'.dag.tips.Perm n.dag.tips ∧ n'.dag.getSelectedTip = n.dag.getSelectedTip ∧
      ∃ t, n.dag.getSelectedTip = some t ∧
        ∀ h, (n.dag.getBlock h).isSome → Dag.better (n.dag.key h) (n.dag.key t) = false := by
  obtain ⟨n', hd', hwi⟩ := hd.reorder l' [] _ hperm horder htime (.nil _) hd.within
  have hn := hd.reachable .refl
  have hn' := hd'.reachable .refl
  have hsame : ∀ h, n'.dag.getBlock h = n.dag.getBlock h := fun h => Option.ext fun b => by
    rw [hd'.getBlock_iff, hd.getBlock_iff, hperm.mem_iff]
  obtain ⟨t, ht⟩ := hn.sound.wf.exists_selectedTip
  have hdet : ∀ m, Delivers E clock' (new E .empty) l' m ↔ m = n' := fun m =>
    ⟨hd'.unique, fun h => h ▸ hd'⟩
  refine ⟨n', hdet, hsame, fun h hs => (hwi.ghostdag h (hsame h ▸ hs)).symm,
    hn.tips.perm hn'.tips hn.sound.wf hn'.sound.wf hsame,
    hn.tips.selectedTip_eq hn'.tips hn.sound.wf hn'.sound.wf hsame, t, ht,
    fun h hs => hn.best_of_all ht hs⟩

end Node

open Sample Node in
/-- `first` and `side` come in either order. -/
theorem delivery_converges_siblings :
    ∃ n, Delivers env (fun _ => 1717372800000) (new env .empty) [side, first, merging] n ∧
      n.dag.getSelectedTip = some ⟨4⟩ := by
  have hd : Delivers env (fun _ => 1717372800000) (new env .empty) [first, side, merging] _ :=
    .cons (by decide +kernel) ⟨by decide +kernel, by decide +kernel⟩
      (.cons (by decide +kernel) ⟨by decide +kernel, by decide +kernel⟩
        (.cons (by decide +kernel) ⟨by decide +kernel, by decide +kernel⟩ (.nil _)))
  have horder : ParentsFirst env [side, first, merging] := by
    intro pre b post he
    rcases pre with _ | ⟨x, _ | ⟨y, _ | ⟨z, pre⟩⟩⟩
    · cases he
      decide
    · cases he
      decide
    · cases he
      decide
    · simp at he
  obtain ⟨n, hdet, -, -, -, hsel, -⟩ := delivery_converges env (fun _ => 1717372800000)
    (fun _ => 1717372800000) [first, side, merging] [side, first, merging] _ hd (by decide) horder
    (by decide)
  exact ⟨n, (hdet n).2 rfl, hsel.trans (by decide +kernel)⟩

end Zentra

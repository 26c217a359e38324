import ZentraChain.Node.Reorg
import ZentraChain.Node.Run

/-!
# The live UTXO set

`Live` ties the UTXO set of a running node to its selected chain: the blocks above some bottom are
applied one on the other, each after it was validated against the set it met, with their undo data
stored; the chain cannot be disconnected below.

* `Undoable`: whatever a run disconnected is undone exactly.
* `Live.reorganize`: a reorganization keeps the bottom, or fails, restores the set and leaves
  nothing of the new tip's chain to disconnect.
* `Chained.moves`: hence what holds of the bottom through a run.
-/

namespace Zentra

open UndoStack

namespace Dag

variable {E : Env} {d d' : Dag} {h : Hash} {b : Block} {u : UtxoSet}

/-! ## Chains in a larger graph -/

theorem Within.machine_apply (hwi : d.Within d') (hw : d.Wf E) (hs : (d.getBlock h).isSome) :
    (d'.machine E).apply h u = (d.machine E).apply h u := by
  obtain ⟨b, hb⟩ := Option.isSome_iff_exists.1 hs
  have hm := hwi.mergeBlocks hw hs
  rw [← hw.hash h b hb] at hm
  simp only [machine, hb, hwi.block h b hb, hm]

end Dag

namespace Node

variable {E : Env} {n n' : Node} {b : Block} {h tip : Hash} {ps rest chain : List Hash}
  {u₀ u : UtxoSet} {log evs : List Event}

theorem Accepted.within {d d' : Dag} (ha : Accepted E d log h u) (hwi : d.Within d')
    (hw : d.Wf E) : Accepted E d' log h u := by
  obtain ⟨b, h1, h2, h3, h4⟩ := ha
  have hs : (d.getBlock (b.hash E)).isSome := by rw [hw.hash h b h1, h1]; rfl
  exact ⟨b, hwi.block h b h1, h2, h3, by rw [hwi.mergeBlocks hw hs]; exact h4⟩

/-- A chain that has its tip starts with it. -/
theorem head_mem_of_chain {d : Dag} {xs ys : List Hash} (hc : d.Chain tip chain)
    (hm : tip ∈ chain) (hx : xs ≠ []) (he : chain = xs.reverse ++ ys) : tip ∈ xs := by
  rcases hc with ⟨-, rfl⟩ | ⟨-, hp⟩
  · cases hm
  · obtain ⟨t, rfl⟩ := hp.head
    obtain ⟨y, zs, hy⟩ := List.exists_cons_of_ne_nil (mt List.reverse_eq_nil_iff.1 hx)
    rw [hy, List.cons_append] at he
    rw [← List.mem_reverse, hy, (List.cons.inj he).1]
    exact List.mem_cons_self

/-! ## Undoable runs -/

/-- Every block that was disconnected had been applied to sets where it is undone exactly. -/
def Undoable (E : Env) (log : List Event) : Prop :=
  ∀ l₁ b ms u l₂, log = l₁ ++ .applied b ms u :: l₂ → .disconnected (b.hash E) ∈ l₁ →
    b.SafeAt E ms u

/-- A run that disconnects nothing. -/
theorem undoable_of_connects (h : log.filterMap Event.disconnected? = []) : Undoable E log := by
  rintro l₁ b ms u l₂ rfl hd
  have hin : b.hash E ∈ (l₁ ++ .applied b ms u :: l₂).filterMap Event.disconnected? :=
    List.mem_filterMap.2 ⟨_, List.mem_append_left _ hd, rfl⟩
  rw [h] at hin
  cases hin

theorem Undoable.suffix {log' : List Event} (hu : Undoable E log') (hl : log <:+ log') :
    Undoable E log := by
  obtain ⟨l₀, rfl⟩ := hl
  rintro l₁ b ms u l₂ rfl hd
  exact hu (l₀ ++ l₁) b ms u l₂ (List.append_assoc ..).symm (List.mem_append_right _ hd)

theorem Undoable.safeAt {d : Dag} (hu : Undoable E (evs ++ log)) (hw : d.Wf E)
    (hd : .disconnected h ∈ evs) (ha : Accepted E d log h u) : d.SafeAt E h u := by
  obtain ⟨b, h1, -, -, h4⟩ := ha
  intro b' hb'
  rw [h1] at hb'
  cases hb'
  obtain ⟨l₁, l₂, rfl⟩ := List.append_of_mem h4
  refine hu (evs ++ l₁) b _ u l₂ (List.append_assoc ..).symm (List.mem_append_left _ ?_)
  rw [hw.hash h b h1]
  exact hd

/-! ## The selected chain and the set -/

/-- The blocks `ps` of the selected chain are applied to `u₀`; the `rest` below has no undo
record at its top. -/
structure Live (E : Env) (n : Node) (tip : Hash) (ps rest : List Hash) (u₀ : UtxoSet) : Prop where
  selected : n.dag.getSelectedTip = some tip
  chain : n.dag.Chain tip (ps ++ rest)
  stack : n.dag.Stack E (Accepted E n.dag n.log) u₀ ps n.utxo
  bottom : ∀ x ∈ rest.head?, n.dag.getUndo x = none
  root : n.dag.getBlock .zero = none → rest ≠ []

theorem Live.blind (hl : Live E n tip ps rest u₀) (hb : Blind n n') :
    Live E n' tip ps rest u₀ := by
  obtain ⟨h1, h2, h3, h4, h5⟩ := hl
  obtain ⟨hd, hu, hlog⟩ := hb
  exact ⟨hd ▸ h1, hd ▸ h2, by rw [hd, hu, hlog]; exact h3, by rw [hd]; exact h4, hd ▸ h5⟩

/-- Another block in the graph leaves the chain of the old tip as it is, and the set on it. -/
theorem Live.enter_old (hs : Sound E n) (hl : Live E n tip ps rest u₀) (hj : Joins E n.dag b) :
    (n.enter E b).dag.Chain tip (ps ++ rest) ∧
      (n.enter E b).dag.Stack E (Accepted E (n.enter E b).dag (n.enter E b).log) u₀ ps n.utxo ∧
      (∀ x ∈ rest.head?, (n.enter E b).dag.getUndo x = none) ∧
      ((n.enter E b).dag.getBlock .zero = none → rest ≠ []) := by
  have hts := hs.wf.selectedTip_stored hl.selected
  have hst := hs.wf.chain_stored hts hl.chain
  have hwi := Dag.Within.extend (E := E) hj.new
  refine ⟨hl.chain.within (.extend hj.new) hs.wf hts, ?_, fun x hx => ?_,
    fun hz => hl.root (hwi.getBlock_none hz)⟩
  · refine hl.stack.congr (fun i hi t => hwi.machine_apply hs.wf ?_)
      (fun i _ => Dag.getUndo_extend) fun i hi t ha => ?_
    · exact hst i (List.mem_append_left _ hi)
    · exact (ha.within hwi hs.wf).append [_]
  · rw [enter_dag, Dag.getUndo_extend]
    exact hl.bottom x hx

theorem Live.aside (hs : Sound E n) (hl : Live E n tip ps rest u₀) (hj : Joins E n.dag b)
    (ht : some (n.newTip E b) = n.dag.getSelectedTip) :
    Live E (n.enter E b) tip ps rest u₀ := by
  obtain ⟨h1, h2, h3, h4⟩ := hl.enter_old hs hj
  refine ⟨?_, h1, h2, h3, h4⟩
  obtain ⟨t, ht'⟩ := (hj.wf hs.wf).exists_selectedTip
  rw [newTip, enter_dag, ht', Option.getD_some, hl.selected] at ht
  rw [enter_dag, ht', ht]

/-- What `reorganize` makes of a live node `n`, whose graph has the new tip `b` already. -/
structure Reorganized (E : Env) (n n' : Node) (r : Except ReorgError Unit) (b : Block)
    (rest : List Hash) (u₀ : UtxoSet) : Prop where
  log : LogOk E n.log → LogOk E n'.log
  live : (r = .ok () ∧ ∃ ps, Live E n' (b.hash E) ps rest u₀) ∨
    (r ≠ .ok () ∧ n'.utxo = n.utxo ∧ ∃ chain, Live E n' (b.hash E) [] chain n.utxo)

section
variable {new pre post td ps₂ : List Hash} {n₂ : Node}
  {m : Finmap fun _ : Hash => BlockUndoData}

/-- A failed reorganization: the set and, at the new tip, the undo records are as before. -/
theorem Live.failed (hb : n.dag.getBlock (b.hash E) = some b)
    (ht : n.dag.getSelectedTip = some (b.hash E))
    (hnew : n.dag.Chain (b.hash E) new) (hm : b.hash E ∈ new → m.lookup (b.hash E) = none) :
    Live E { n with dag := n.dag.withUndo m, log := evs ++ n.log } (b.hash E) [] new n.utxo where
  selected := ht
  chain := hnew
  stack := .nil
  bottom := by
    intro x hx
    rcases hnew with ⟨-, rfl⟩ | ⟨hz, hp⟩
    · cases hx
    · obtain ⟨t, rfl⟩ := hp.head
      obtain rfl : b.hash E = x := by simpa using hx
      exact hm List.mem_cons_self
  root := fun hz => by
    have hz' : n.dag.getBlock .zero = none := hz
    obtain ⟨t, rfl⟩ := hnew.head_eq (Dag.ne_zero hz' (by rw [hb]; rfl))
    exact List.cons_ne_nil _ _

/-- Blocks that the log has as accepted are applied again. -/
theorem eventOk_redo {d : Dag} {evs' : List Event} (hl : ∀ e ∈ evs, ∃ h ∈ ps, ∃ b t,
    d.getBlock h = some b ∧ e = .applied b (d.mergeBlocks (b.hash E)) t ∧
      Accepted E d log h t) : ∀ e ∈ evs, EventOk E (evs' ++ log) e := by
  intro e he
  obtain ⟨h, -, b, t, hb, rfl, b', hb', -, hv, -⟩ := hl e he
  rw [hb] at hb'
  cases hb'
  exact .inr (List.mem_append_right _ hv)

theorem eventOk_disconnected (hs : List Hash) :
    ∀ e ∈ (hs.map Event.disconnected).reverse, EventOk E log e := by
  intro e he
  obtain ⟨h, -, rfl⟩ := List.mem_map.1 (List.mem_reverse.1 he)
  trivial

/-- The old chain cannot be disconnected down to the fork. -/
theorem Live.reorganize_blocked {x : Hash} {stop : List Hash} (hw : n.dag.Wf E)
    (hb : n.dag.getBlock (b.hash E) = some b) (ht : n.dag.getSelectedTip = some (b.hash E))
    (hundo : n.dag.getUndo (b.hash E) = none) (hnew : n.dag.Chain (b.hash E) new)
    (hst : n.dag.Stack E (Accepted E n.dag n.log) u₀ ps n.utxo) (hx : n.dag.getUndo x = none)
    (htd : toDisconnect (ps ++ rest) new = ps ++ x :: stop)
    (hu : Undoable E (switchChains E n (ps ++ rest) new).1.log) :
    Reorganized E n (switchChains E n (ps ++ rest) new).1 (switchChains E n (ps ++ rest) new).2 b
      rest u₀ := by
  rw [switchChains_blocked hst hx htd] at hu ⊢
  simp only at hu ⊢
  have hsafe : ∀ h ∈ ps, ∀ t, Accepted E n.dag n.log h t → n.dag.SafeAt E h t := by
    intro h hh t ha
    obtain ⟨evs, hevs⟩ : (afterUndo E n ps).log <:+ _ :=
      (redoDisconnected_ledger ps.reverse (afterUndo E n ps)).log
    rw [← hevs, afterUndo, ← List.append_assoc] at hu
    refine hu.safeAt hw (List.mem_append_right _ ?_) ha
    exact List.mem_reverse.2 (List.mem_map_of_mem hh)
  obtain ⟨evs, hevs, hmem⟩ := redo_afterUndo hst hsafe
  rw [hevs]
  refine ⟨fun hl => ?_, .inr ⟨fun h => (by cases h), rfl, new, ?_⟩⟩
  · rw [List.append_assoc]
    exact (hl.append (eventOk_disconnected ps)).append (eventOk_redo hmem)
  · exact Live.failed hb ht hnew fun _ => hundo

/-- The log after the blocks `td` were disconnected and others connected. -/
theorem log_eq_of_connects (hc : Connects E (afterUndo E n td) n₂ pre m evs) :
    n₂.log = evs ++ (td.map Event.disconnected).reverse ++ n.log := by
  rw [hc.log_eq, afterUndo, List.append_assoc]

theorem mem_disconnected (hh : h ∈ td) :
    .disconnected h ∈ (td.map Event.disconnected).reverse :=
  List.mem_reverse.2 (List.mem_map_of_mem hh)

/-- The old chain is disconnected down to the fork and all of the new one is connected. -/
theorem Live.reorganize_connected {u₁ : UtxoSet} (hw : n.dag.Wf E)
    (ht : n.dag.getSelectedTip = some (b.hash E)) (hnew : n.dag.Chain (b.hash E) new)
    (hst₂ : n.dag.Stack E (Accepted E n.dag n.log) u₀ ps₂ u₁)
    (hst₁ : n.dag.Stack E (Accepted E n.dag n.log) u₁ td n.utxo)
    (hbot : ∀ x ∈ rest.head?, n.dag.getUndo x = none)
    (hroot : n.dag.getBlock .zero = none → rest ≠ [])
    (hc : Connects E (afterUndo E n td) n₂ pre m evs)
    (hsplit : new = pre.reverse ++ (ps₂ ++ rest)) (hnotin : ∀ y ∈ ps₂ ++ rest, y ∉ pre)
    (hu : Undoable E n₂.log) : Reorganized E n n₂ (.ok ()) b rest u₀ := by
  have hlog₂ := log_eq_of_connects hc
  have hbase : (afterUndo E n td).utxo = u₁ := hst₁.undoAll fun h hh t ha => by
    rw [hlog₂] at hu
    exact (hu.safeAt hw (List.mem_append_right _ (mem_disconnected hh)) ha).reversible
  have hkeep : ∀ y ∈ ps₂ ++ rest, n₂.dag.getUndo y = n.dag.getUndo y := by
    intro y hy
    rw [hc.dag_eq]
    exact hc.undo y (hnotin y hy)
  refine ⟨fun hl => ?_, .inl ⟨rfl, pre.reverse ++ ps₂, ?_⟩⟩
  · rw [hc.log_eq]
    exact hc.log (hl.append (eventOk_disconnected td))
  · refine ⟨?_, ?_, ?_, fun y hy => ?_, fun hz => hroot ?_⟩
    · rw [hc.dag_eq]; exact ht
    · rw [hc.dag_eq, List.append_assoc, ← hsplit]; exact hnew
    · have hnewst := hc.stack_new
      rw [hbase] at hnewst
      refine .append ?_ (hnewst.mono (fun _ _ => rfl) fun i _ t ha => ?_)
      · refine hst₂.congr (fun i _ t => by rw [hc.dag_eq]; rfl)
          (fun i hi => hkeep i (List.mem_append_left _ hi)) fun i _ t ha => ?_
        rw [hc.dag_eq, hlog₂]
        exact ha.append _
      · rw [hc.dag_eq]; exact ha
    · rw [hkeep y (List.mem_append_right _ (List.mem_of_mem_head? hy))]
      exact hbot y hy
    · rw [hc.dag_eq] at hz; exact hz

/-- The connect loop stopped after the blocks `pre`, and the old chain is applied again. -/
theorem Live.reorganize_rolledBack {x : ReorgError} {u₁ : UtxoSet} (hw : n.dag.Wf E)
    (hb : n.dag.getBlock (b.hash E) = some b) (ht : n.dag.getSelectedTip = some (b.hash E))
    (hundo : n.dag.getUndo (b.hash E) = none) (hnew : n.dag.Chain (b.hash E) new)
    (hst : n.dag.Stack E (Accepted E n.dag n.log) u₁ td n.utxo)
    (hc : Connects E (afterUndo E n td) n₂ pre m evs) (hpre : ∀ h ∈ pre, h ∉ td)
    (htip : b.hash E ∈ new → b.hash E ∉ pre)
    (hu : Undoable E (redoDisconnected E td.reverse (afterUndo E n₂ pre.reverse)).log) :
    Reorganized E n (redoDisconnected E td.reverse (afterUndo E n₂ pre.reverse)) (.error x) b
      rest u₀ := by
  have hlog₂ := log_eq_of_connects hc
  obtain ⟨evs', hevs'⟩ : (afterUndo E n₂ pre.reverse).log <:+ _ :=
    (redoDisconnected_ledger td.reverse (afterUndo E n₂ pre.reverse)).log
  rw [← hevs', afterUndo, ← List.append_assoc] at hu
  have hsafe : ∀ h ∈ td, ∀ t, Accepted E n.dag n.log h t → n.dag.SafeAt E h t := by
    intro h hh t ha
    have hu₂ := hu.suffix (List.suffix_append _ _)
    rw [hlog₂] at hu₂
    exact hu₂.safeAt hw (List.mem_append_right _ (mem_disconnected hh)) ha
  have hsafe₂ : ∀ h ∈ pre, ∀ t, Accepted E n.dag n₂.log h t → n.dag.SafeAt E h t := by
    intro h hh t ha
    refine hu.safeAt hw (List.mem_append_right _ (mem_disconnected ?_)) ha
    exact List.mem_reverse.2 hh
  obtain ⟨evs'', hback, hmem⟩ := rollback_connected hst hsafe hc hpre hc.stack_new hsafe₂
  rw [hback]
  refine ⟨fun hl => ?_, .inr ⟨fun h => (by cases h), rfl, new, ?_⟩⟩
  · have hl₂ : LogOk E n₂.log := by
      rw [hc.log_eq]
      exact hc.log (hl.append (eventOk_disconnected td))
    rw [List.append_assoc]
    refine (hl₂.append (eventOk_disconnected _)).append ?_
    rw [hlog₂, ← List.append_assoc]
    exact eventOk_redo hmem
  · rw [hlog₂, ← List.append_assoc]
    refine Live.failed hb ht hnew fun hin => ?_
    rw [hc.undo _ (htip hin)]
    exact hundo

/-- The old chain can be disconnected down to the fork. -/
theorem Live.reorganize_open (td ps₂ : List Hash) (hw : n.dag.Wf E)
    (hb : n.dag.getBlock (b.hash E) = some b)
    (ht : n.dag.getSelectedTip = some (b.hash E)) (hundo : n.dag.getUndo (b.hash E) = none)
    (hold : n.dag.Chain tip (td ++ ps₂ ++ rest)) (hnew : n.dag.Chain (b.hash E) new)
    (hst : n.dag.Stack E (Accepted E n.dag n.log) u₀ (td ++ ps₂) n.utxo)
    (hbot : ∀ x ∈ rest.head?, n.dag.getUndo x = none)
    (hroot : n.dag.getBlock .zero = none → rest ≠ [])
    (htd : toDisconnect (td ++ ps₂ ++ rest) new = td)
    (hu : Undoable E (switchChains E n (td ++ ps₂ ++ rest) new).1.log) :
    Reorganized E n (switchChains E n (td ++ ps₂ ++ rest) new).1
      (switchChains E n (td ++ ps₂ ++ rest) new).2 b rest u₀ := by
  obtain ⟨hfork, hnewc, hnd, hnotin⟩ := chains_fork hold hnew
  rw [htd] at hfork
  have hcommon : ps₂ ++ rest = commonPart (td ++ ps₂ ++ rest) new :=
    List.append_cancel_left ((List.append_assoc ..).symm.trans hfork)
  obtain ⟨u₁, hst₂, hst₁⟩ := hst.split
  obtain ⟨pre, post, m, evs, n₂, hsplit, hc, hres⟩ := switchChains_open hst₁ htd hnd
  have hpre : ∀ h ∈ pre, h ∉ td ++ (ps₂ ++ rest) := by
    intro h hh
    rw [← List.append_assoc]
    exact hnotin h (hsplit ▸ List.mem_append_left _ hh)
  rcases hres with ⟨rfl, hok⟩ | ⟨hpost, x, herr⟩
  · rw [hok] at hu ⊢
    rw [hsplit, List.append_nil, ← hcommon] at hnewc
    exact Live.reorganize_connected hw ht hnew hst₂ hst₁ hbot hroot hc hnewc
      (fun y hy hm => hpre y hm (List.mem_append_right _ hy)) hu
  · rw [herr] at hu ⊢
    refine Live.reorganize_rolledBack hw hb ht hundo hnew hst₁ hc
      (fun y hm hy => hpre y hm (List.mem_append_left _ hy)) (fun htip hin => ?_) hu
    -- the new tip comes last, and the loop stopped before
    rw [hsplit] at hnewc hnd
    rw [List.reverse_append, List.append_assoc] at hnewc
    exact (List.nodup_append.1 hnd).2.2 _ hin _ (head_mem_of_chain hnew htip hpost hnewc) rfl

end

/-- **Moving the chain to a new tip.** -/
theorem Live.reorganize {r : Except ReorgError Unit} (hs : Sound E n)
    (hl : Live E n tip ps rest u₀) (hj : Joins E n.dag b)
    (hne : some (n.newTip E b) ≠ n.dag.getSelectedTip)
    (hr : (n.enter E b).reorganize E n.dag.getSelectedTip (n.newTip E b) = (n', r))
    (hu : Undoable E n'.log) : Reorganized E (n.enter E b) n' r b rest u₀ := by
  have hw : (n.enter E b).dag.Wf E := hj.wf hs.wf
  have hb : (n.enter E b).dag.getBlock (b.hash E) = some b := by
    rw [enter_dag, Dag.getBlock_extend, if_pos rfl]
  -- the new tip is the block
  obtain ⟨t, ht⟩ := hw.exists_selectedTip
  have hnt : n.newTip E b = t := by rw [newTip, ht, Option.getD_some]
  rw [hnt, hl.selected] at hne hr
  have htne : t ≠ tip := fun he => hne (by rw [he])
  obtain rfl : t = b.hash E :=
    (hs.wf.selectedTip_extend hw hj.new hl.selected ht).resolve_right htne
  have hundo : (n.enter E b).dag.getUndo (b.hash E) = none := by
    rw [enter_dag, Dag.getUndo_extend]
    by_contra hne'
    have := hs.wf.undo (b.hash E) (Option.isSome_iff_ne_none.2 hne')
    rw [hj.new] at this
    cases this
  obtain ⟨hold, hst, hbot, hroot⟩ := hl.enter_old hs hj
  obtain ⟨new, hnew⟩ := hw.exists_chain (by rw [hb]; rfl)
  rw [Node.reorganize, if_neg (Ne.symm htne), Dag.getSelectedChain_eq hold,
    Dag.getSelectedChain_eq hnew] at hr
  rw [show n' = (switchChains E (n.enter E b) (ps ++ rest) new).1 by rw [hr]] at hu ⊢
  rw [show r = (switchChains E (n.enter E b) (ps ++ rest) new).2 by rw [hr]]
  -- the fork lies within the applied blocks or below them
  obtain ⟨hfork, -⟩ := chains_fork hold hnew
  rcases List.append_eq_append_iff.1 hfork with ⟨xs, htd, hrest⟩ | ⟨ps₂, hps, -⟩
  · cases xs with
    | nil =>
      rw [List.append_nil] at htd
      have := Live.reorganize_open ps [] hw hb ht hundo
        (by simpa using hold) hnew (by simpa using hst) hbot hroot (by simpa using htd)
      simpa using this (by simpa using hu)
    | cons x stop =>
      refine Live.reorganize_blocked hw hb ht hundo hnew hst (hbot x ?_) htd hu
      rw [hrest]
      rfl
  · generalize hgen : toDisconnect (ps ++ rest) new = td at hps
    subst hps
    exact Live.reorganize_open td ps₂ hw hb ht hundo hold hnew hst hbot hroot hgen hu

/-! ## Runs -/

/-- A sound node whose set is live, over a bottom of which `K` holds. -/
structure Chained (E : Env) (K : Dag → List Hash → UtxoSet → Prop) (n : Node) : Prop where
  sound : Sound E n
  log : LogOk E n.log
  live : ∃ tip ps rest u₀, Live E n tip ps rest u₀ ∧ K n.dag rest u₀

/-- **What holds of the bottom through a run** whose log ends as `L`: it is kept in larger graphs,
and a failed reorganization establishes it for the new chain. -/
theorem Chained.moves {K : Dag → List Hash → UtxoSet → Prop} {L : List Event}
    (hL : Undoable E L)
    (keep : ∀ {d d' : Dag} {rest : List Hash} {u₀ : UtxoSet}, d.Within d' → K d rest u₀ →
      K d' rest u₀)
    (fail : ∀ {n n₁ : Node} {b : Block} {chain : List Hash}, Chained E K n → Joins E n.dag b →
      ReorgFails E n.toNodeState b → .inserting n.toNodeState b :: n.log <:+ L → Sound E n₁ →
      Ledger E (n.enter E b) n₁ → Live E n₁ (b.hash E) [] chain n.utxo → K n₁.dag chain n.utxo)
    (hm : Moves E n n') (hc : Chained E K n) (hn : n'.log <:+ L) : Chained E K n' := by
  induction hm with
  | refl => exact hc
  | @tail n₁ n₂ _ hm ih =>
    have hc₁ := ih (hm.log.trans hn)
    have hs₂ := hc₁.sound.move hm
    obtain ⟨tip, ps, rest, u₀, hl, hk⟩ := hc₁.live
    cases hm with
    | blind hb =>
      exact ⟨hs₂, hb.log ▸ hc₁.log, tip, ps, rest, u₀, hl.blind hb, hb.dag ▸ hk⟩
    | aside hj ht =>
      exact ⟨hs₂, ⟨trivial, hc₁.log⟩, tip, ps, rest, u₀, hl.aside hc₁.sound hj ht,
        keep (.extend hj.new) hk⟩
    | reorganized hj hne hr =>
      have hre := hl.reorganize hc₁.sound hj hne hr (hL.suffix hn)
      have hwi : n₁.dag.Within n₂.dag :=
        (Dag.Within.extend hj.new).trans (reorganize_eq_ledger hr).within
      refine ⟨hs₂, hre.log ⟨trivial, hc₁.log⟩, ?_⟩
      rcases hre.live with ⟨-, ps', hl'⟩ | ⟨herr, -, chain, hl'⟩
      · exact ⟨_, ps', rest, u₀, hl', keep hwi hk⟩
      · refine ⟨_, [], chain, _, hl', fail (n := n₁) hc₁ hj ?_ ?_ hs₂ (reorganize_eq_ledger hr) hl'⟩
        · exact reorgFails_iff.2 ⟨hne, by rw [hr]; exact herr⟩
        · exact (reorganize_eq_ledger hr).log.trans hn

theorem live_new (E : Env) : ∃ rest, ((Block.genesis E).hash E ≠ .zero →
      rest = [(Block.genesis E).hash E]) ∧
    Live E (new E .empty) ((Block.genesis E).hash E) [] rest (genesisSet E) := by
  obtain ⟨hd, hu, hl⟩ := new_empty E
  have hw := Dag.wf_first E
  have hg : (Dag.first E).chainNext ((Block.genesis E).hash E) = none := by
    rw [Dag.chainNext, if_pos]
    rw [hw.prev_eq hw.genesis]
    rfl
  refine ⟨if (Block.genesis E).hash E = .zero then [] else [(Block.genesis E).hash E],
    fun hz => if_neg hz, ?_, ?_, ?_, fun x _ => ?_, fun hz => ?_⟩
  · rw [hd]; exact Dag.getSelectedTip_first
  · rw [hd]
    split
    · exact .inl ⟨‹_›, rfl⟩
    · exact .inr ⟨‹_›, .last hg⟩
  · rw [hu]; exact .nil
  · rw [hd, Dag.getUndo_first]
  · rw [hd] at hz
    rw [if_neg (Dag.ne_zero hz (by rw [hw.genesis]; rfl))]
    exact List.cons_ne_nil _ _

theorem chained_new {K : Dag → List Hash → UtxoSet → Prop}
    (start : ∀ rest, ((Block.genesis E).hash E ≠ .zero → rest = [(Block.genesis E).hash E]) →
      K (.first E) rest (genesisSet E)) : Chained E K (new E .empty) := by
  obtain ⟨rest, hz, hl⟩ := live_new E
  obtain ⟨hd, -, hlog⟩ := new_empty E
  exact ⟨sound_new E, by rw [hlog]; exact ⟨.inl rfl, trivial⟩, _, [], rest, _, hl,
    hd ▸ start rest hz⟩

/-- **In an undoable run** every block was applied to a set it was validated against. -/
theorem Reachable.logOk (hn : n.Reachable E) (hu : Undoable E n.log) : LogOk E n.log :=
  (Chained.moves (K := fun _ _ _ => True) hu (fun _ h => h) (fun _ _ _ _ _ _ _ => trivial)
    hn.moves (chained_new fun _ _ => trivial) (List.suffix_refl _)).log

end Node

end Zentra

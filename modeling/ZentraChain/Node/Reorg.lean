import Mathlib.Data.List.TakeWhile
import ZentraChain.Node.Replay

/-!
# `reorganize`

* `chains_fork`: the two lists `reorganize` works on, from the fork of two chains.
* `switchChains_blocked`, `switchChains_open`: its two courses, before anything is assumed of the
  undo data.
* `redo_afterUndo`, `rollback_connected`: the rollback restores the node where every block is
  undone exactly.
-/

namespace Zentra

open UndoStack

variable {E : Env} {d : Dag}

namespace Node

/-! ## The fork of two chains -/

/-- The blocks that both chains end with. -/
def commonPart (old new : List Hash) : List Hash := new.dropWhile (· ∉ old)

/-- Two chains are two branches over a common part, and these are what is disconnected and
connected. -/
theorem chains_fork {t t' : Hash} {old new : List Hash} (ho : d.Chain t old)
    (hn : d.Chain t' new) :
    old = toDisconnect old new ++ commonPart old new ∧
      new = (toConnect old new).reverse ++ commonPart old new ∧
      (toConnect old new).Nodup ∧ ∀ y ∈ toConnect old new, y ∉ old := by
  have hnew : new = (toConnect old new).reverse ++ commonPart old new := by
    rw [toConnect, List.reverse_reverse, commonPart, List.takeWhile_append_dropWhile]
  have hnotin : ∀ y ∈ toConnect old new, y ∉ old := by
    intro y hy
    rw [toConnect, List.mem_reverse] at hy
    simpa using List.mem_takeWhile_imp hy
  have hnd : (toConnect old new).Nodup := by
    have := hn.nodup
    rw [hnew, List.nodup_append] at this
    simpa using this.1
  refine ⟨?_, hnew, hnd, hnotin⟩
  -- the head of the common part lies on both chains, so the rest of both is its chain
  cases hc : commonPart old new with
  | nil =>
    have hfind : new.find? (· ∈ old) = none := by
      rw [List.find?_eq_none]
      intro y hy
      rw [hnew, hc, List.append_nil, List.mem_reverse] at hy
      simpa using hnotin y hy
    rw [toDisconnect, hfind, List.append_nil]
  | cons c rest =>
    have hcold : c ∈ old := by
      have : (new.dropWhile (· ∉ old)).head? = some c := by rw [← commonPart, hc]; rfl
      have hd := List.head?_dropWhile_not (· ∉ old) new
      rw [this] at hd
      simpa using hd
    have hfind : new.find? (· ∈ old) = some c := by
      rw [hnew, hc, List.find?_append, List.find?_eq_none.2, Option.none_or,
        List.find?_cons_of_pos (by simpa using hcold)]
      intro y hy
      simpa using hnotin y (List.mem_reverse.1 hy)
    obtain ⟨xs, ys, hxs⟩ := List.append_of_mem hcold
    have hrest : c :: ys = c :: rest := (ho.tail hxs).unique (hn.tail (by rw [hnew, hc]))
    have hcx : c ∉ xs := by
      have := ho.nodup
      rw [hxs, List.nodup_append] at this
      exact fun hm => this.2.2 c hm c List.mem_cons_self rfl
    rw [toDisconnect, hfind]
    simp only
    rw [hxs, List.takeWhile_append_of_pos (fun y hy => by simpa using fun h : y = c => hcx (h ▸ hy)),
      List.takeWhile_cons_of_neg (by simp), List.append_nil, hrest]

/-! ## The two courses of `switchChains` -/

variable {n : Node} {old new ps stop : List Hash} {x : Hash} {u₁ : UtxoSet}
  {Q : Hash → UtxoSet → Prop}

theorem switchChains_blocked (hst : n.dag.Stack E Q u₁ ps n.utxo) (hx : n.dag.getUndo x = none)
    (htd : toDisconnect old new = ps ++ x :: stop) :
    switchChains E n old new =
      (redoDisconnected E ps.reverse (afterUndo E n ps), .error (.missingUndo x)) := by
  have hloop := disconnectLoop_append (E := E) (x :: stop) [] (hasUndo_of_stack hst)
  have hx' : (afterUndo E n ps).dag.getUndo x = none := hx
  rw [List.append_nil] at hloop
  simp only [switchChains, htd, hloop, disconnectLoop, hx']

theorem switchChains_open (hst : n.dag.Stack E Q u₁ ps n.utxo) (htd : toDisconnect old new = ps)
    (hnd : (toConnect old new).Nodup) :
    ∃ pre post m evs n₂, toConnect old new = pre ++ post ∧
      Connects E (afterUndo E n ps) n₂ pre m evs ∧
      ((post = [] ∧ switchChains E n old new = (n₂, .ok ())) ∨
        (post ≠ [] ∧ ∃ x, switchChains E n old new =
          (redoDisconnected E ps.reverse (afterUndo E n₂ pre.reverse), .error x))) := by
  have hloop := disconnectLoop_append (E := E) [] [] (hasUndo_of_stack hst)
  rw [List.append_nil, List.append_nil] at hloop
  obtain ⟨pre, post, m, evs, hsplit, hc, hdone, hres⟩ :=
    connectLoop_spec (afterUndo E n ps) [] hnd
  rw [List.append_nil] at hdone
  generalize hconn : connectLoop E (toConnect old new) (afterUndo E n ps) [] = r at hc hdone hres
  obtain ⟨n₂, done, res⟩ := r
  refine ⟨pre, post, m, evs, n₂, hsplit, hc, ?_⟩
  simp only [switchChains, htd, hloop, disconnectLoop, hconn]
  rcases hres with ⟨hok, hpost⟩ | ⟨⟨x, herr⟩, hpost⟩
  · simp only at hok
    exact .inl ⟨hpost, by rw [hok]⟩
  · simp only at herr hdone
    refine .inr ⟨hpost, x, ?_⟩
    rw [herr, hdone]
    simp only
    rw [undoConnected_eq (hasUndo_of_stack hc.stack_new)]

/-- Disconnecting reversible blocks and applying them again restores the node but for the log. -/
theorem redo_afterUndo (hst : n.dag.Stack E Q u₁ ps n.utxo)
    (hsafe : ∀ h ∈ ps, ∀ t, Q h t → n.dag.SafeAt E h t) :
    ∃ evs, redoDisconnected E ps.reverse (afterUndo E n ps) =
        { n with log := evs ++ (ps.map .disconnected).reverse ++ n.log } ∧
      ∀ e ∈ evs, ∃ h ∈ ps, ∃ b t, n.dag.getBlock h = some b ∧
        e = .applied b (n.dag.mergeBlocks (b.hash E)) t ∧ Q h t := by
  have hbase : (afterUndo E n ps).utxo = u₁ :=
    hst.undoAll fun h hh t ht => (hsafe h hh t ht).reversible
  have hst' : (afterUndo E n ps).dag.Stack E Q (afterUndo E n ps).utxo ps n.utxo := by
    rw [hbase]; exact hst
  obtain ⟨evs, hevs, hmem⟩ := redoDisconnected_stack hst'
  exact ⟨evs, by rw [hevs]; simp [afterUndo], hmem⟩

/-- Rolling back a connect that stopped: the node is restored but for the undo records of the
blocks `pre` and the log. -/
theorem rollback_connected {n₂ : Node} {pre : List Hash} {Q₂ : Hash → UtxoSet → Prop}
    {m : Finmap fun _ : Hash => BlockUndoData} {evs : List Event}
    (hst : n.dag.Stack E Q u₁ ps n.utxo) (hsafe : ∀ h ∈ ps, ∀ t, Q h t → n.dag.SafeAt E h t)
    (hc : Connects E (afterUndo E n ps) n₂ pre m evs) (hpre : ∀ h ∈ pre, h ∉ ps)
    (hst₂ : n₂.dag.Stack E Q₂ (afterUndo E n ps).utxo pre.reverse n₂.utxo)
    (hsafe₂ : ∀ h ∈ pre, ∀ t, Q₂ h t → n.dag.SafeAt E h t) :
    ∃ evs', redoDisconnected E ps.reverse (afterUndo E n₂ pre.reverse) =
        { n with
          dag := n.dag.withUndo m
          log := evs' ++ (pre.reverse.map .disconnected).reverse ++ n₂.log } ∧
      ∀ e ∈ evs', ∃ h ∈ ps, ∃ b t, n.dag.getBlock h = some b ∧
        e = .applied b (n.dag.mergeBlocks (b.hash E)) t ∧ Q h t := by
  have hbase : (afterUndo E n ps).utxo = u₁ :=
    hst.undoAll fun h hh t ht => (hsafe h hh t ht).reversible
  have hnode := hc.node
  -- disconnecting what was connected leads back to the base
  have hback : (afterUndo E n₂ pre.reverse).utxo = u₁ := by
    rw [← hbase]
    refine hst₂.undoAll fun h hh t ht => ?_
    rw [hc.dag_eq]
    exact (hsafe₂ h (List.mem_reverse.1 hh) t ht).reversible
  have hundo : ∀ h ∈ ps, m.lookup h = n.dag.getUndo h := fun h hh =>
    hc.undo h fun hm => hpre h hm hh
  have hst' : (afterUndo E n₂ pre.reverse).dag.Stack E Q (afterUndo E n₂ pre.reverse).utxo ps
      n.utxo := by
    have hdag : (afterUndo E n₂ pre.reverse).dag = n.dag.withUndo m := hc.dag_eq
    rw [hback, hdag]
    exact hst.mono hundo fun _ _ _ => id
  obtain ⟨evs', hevs, hmem⟩ := redoDisconnected_stack hst'
  refine ⟨evs', ?_, ?_⟩
  · rw [hevs]
    simp only [afterUndo]
    rw [hnode]
    simp [afterUndo]
  · intro e he
    obtain ⟨h, hh, b, t, hb, rest⟩ := hmem e he
    have hdag : (afterUndo E n₂ pre.reverse).dag = n.dag.withUndo m := hc.dag_eq
    rw [hdag] at hb rest
    exact ⟨h, hh, b, t, hb, rest⟩

end Node

end Zentra

import ZentraChain.Node.DagWf
import ZentraChain.Node.Replay

/-!
# What `connect_block` can do

* `reorganize_ledger`: `reorganize` changes the UTXO set and undo records only, and the log grows.
* `reorganize_addLog`: it does not read the log.
* `connectBlock_outcome`: the four outcomes of `connect_block`.
* `connectBlock_traceless_iff`: a rejected block leaves no trace unless it gets into the graph
  first.
-/

namespace Zentra

namespace Node

variable {E : Env} {n n' n'' : Node} {b : Block} {h : Hash} {hs done : List Hash} {now : Nat}

/-! ## Only the ledger changes -/

/-- What is applied are stored blocks with their merge blocks. -/
def AppliesStored (E : Env) (d : Dag) (evs : List Event) : Prop :=
  ∀ b ms u, .applied b ms u ∈ evs → (∃ h, d.getBlock h = some b) ∧ ms = d.mergeBlocks (b.hash E)

/-- `n'` is `n` but for the UTXO set, the undo records of stored blocks and a longer log, in which
nothing more is inserted. -/
def Ledger (E : Env) (n n' : Node) : Prop :=
  ∃ m u evs, n' = { n with dag := n.dag.withUndo m, utxo := u, log := evs ++ n.log } ∧
    (∀ h, n.dag.getBlock h = none → m.lookup h = n.dag.getUndo h) ∧ AppliesStored E n.dag evs ∧
    evs.filterMap Event.inserting? = []

theorem Ledger.refl (n : Node) : Ledger E n n :=
  ⟨n.dag.db.undo, n.utxo, [], rfl, fun _ _ => rfl, fun _ _ _ => nofun, rfl⟩

theorem Ledger.trans (h : Ledger E n n') (h' : Ledger E n' n'') : Ledger E n n'' := by
  obtain ⟨m, u, evs, rfl, hm, ha, hi⟩ := h
  obtain ⟨m', u', evs', rfl, hm', ha', hi'⟩ := h'
  refine ⟨m', u', evs' ++ evs, by rw [Dag.withUndo_withUndo, List.append_assoc], fun h hb => ?_,
    fun b ms t hin => ?_, by rw [List.filterMap_append, hi, hi', List.append_nil]⟩
  · rw [hm' h hb, Dag.getUndo_withUndo, hm h hb]
  · exact (List.mem_append.1 hin).elim (ha' b ms t) (ha b ms t)

theorem Ledger.log (h : Ledger E n n') : n.log <:+ n'.log := by
  obtain ⟨m, u, evs, rfl, -⟩ := h
  exact ⟨evs, rfl⟩

/-- A step of a loop that changes no undo record. -/
theorem ledger_step (n : Node) (u : UtxoSet) (evs : List Event)
    (ha : AppliesStored E n.dag evs) (hi : evs.filterMap Event.inserting? = []) :
    Ledger E n { n with utxo := u, log := evs ++ n.log } :=
  ⟨n.dag.db.undo, u, evs, rfl, fun _ _ => rfl, ha, hi⟩

theorem disconnected_ledger (n : Node) (u : UtxoSet) (h : Hash) :
    Ledger E n { n with utxo := u, log := .disconnected h :: n.log } :=
  ledger_step n u [.disconnected h] (fun _ _ _ => by simp) rfl

theorem putUndo_ledger (undo : BlockUndoData) (hb : n.dag.getBlock h = some b) :
    Ledger E n { n with dag := n.dag.putUndo h undo } := by
  refine ⟨n.dag.db.undo.insert h undo, n.utxo, [], rfl, fun h' hb' => ?_, fun _ _ _ => nofun, rfl⟩
  rw [Finmap.lookup_insert_of_ne]
  · rfl
  · rintro rfl
    rw [hb] at hb'
    cases hb'

theorem validate_ledger (n : Node) (b : Block) : Ledger E n (n.validate E b).1 := by
  unfold validate
  split
  · exact .refl n
  · exact ledger_step n n.utxo [.validated b n.utxo] (fun _ _ _ => by simp) rfl

@[simp] theorem validate_dag (n : Node) (b : Block) : (n.validate E b).1.dag = n.dag := by
  unfold validate
  split <;> rfl

section
variable {n₁ n₂ : Node} {r : Except Reject Unit} {res : Except ZentraError BlockUndoData}

/-- Applying a stored block, and storing undo data for it. -/
theorem apply_ledger (hb : n.dag.getBlock h = some b)
    (ha : n.applyBlockWithMerges E b = (n₁, res)) :
    Ledger E n n₁ ∧ ∀ undo, Ledger E n { n₁ with dag := n₁.dag.putUndo h undo } := by
  have hl : Ledger E n (n.applyBlockWithMerges E b).1 := by
    refine ledger_step n _ [.applied b (n.dag.mergeBlocks (b.hash E)) n.utxo]
      (fun b' ms t hin => ?_) rfl
    cases List.mem_singleton.1 hin
    exact ⟨⟨h, hb⟩, rfl⟩
  have hd : (n.applyBlockWithMerges E b).1.dag = n.dag := rfl
  rw [ha] at hl hd
  exact ⟨hl, fun undo => hl.trans (putUndo_ledger (b := b) undo (hd ▸ hb))⟩

/-- Validating a stored block before. -/
theorem connect_ledger (hb : n.dag.getBlock h = some b) (hv : n.validate E b = (n₁, r))
    (ha : n₁.applyBlockWithMerges E b = (n₂, res)) :
    Ledger E n n₂ ∧ ∀ undo, Ledger E n { n₂ with dag := n₂.dag.putUndo h undo } := by
  have hl := validate_ledger (E := E) n b
  have hd := validate_dag (E := E) n b
  rw [hv] at hl hd
  obtain ⟨h1, h2⟩ := apply_ledger (hd ▸ hb) ha
  exact ⟨hl.trans h1, fun undo => hl.trans (h2 undo)⟩

end

theorem disconnectLoop_ledger : ∀ {hs : List Hash} {n : Node} {done : List Hash},
    Ledger E n (disconnectLoop E hs n done).1
  | [], n, _ => .refl n
  | h :: hs, n, done => by
    simp only [disconnectLoop]
    split
    · exact .refl n
    · split
      · exact .refl n
      · split
        · exact .refl n
        · exact (disconnected_ledger n _ h).trans disconnectLoop_ledger

theorem connectLoop_ledger : ∀ {hs : List Hash} {n : Node} {done : List Hash},
    Ledger E n (connectLoop E hs n done).1
  | [], n, _ => .refl n
  | h :: hs, n, done => by
    simp only [connectLoop]
    split
    · exact .refl n
    · rename_i b hb
      have hv := validate_ledger (E := E) n b
      split
      · rename_i n₁ x hx
        rw [hx] at hv
        exact hv
      · rename_i n₁ _ hx
        split
        · exact (connect_ledger hb hx ‹_›).1
        · exact ((connect_ledger hb hx ‹_›).2 _).trans connectLoop_ledger

theorem undoConnected_ledger : ∀ {hs : List Hash} {n : Node}, Ledger E n (undoConnected E hs n)
  | [], n => .refl n
  | h :: hs, n => by
    simp only [undoConnected]
    split
    · split
      · exact (disconnected_ledger n _ h).trans undoConnected_ledger
      · exact undoConnected_ledger
    · exact undoConnected_ledger

theorem redoDisconnected_ledger : ∀ (hs : List Hash) (n : Node),
    Ledger E n (redoDisconnected E hs n)
  | [], n => .refl n
  | h :: hs, n => by
    simp only [redoDisconnected]
    split
    · exact redoDisconnected_ledger hs n
    · rename_i b hb
      split
      · exact ((apply_ledger hb ‹_›).2 _).trans (redoDisconnected_ledger hs _)
      · exact (apply_ledger hb ‹_›).1.trans (redoDisconnected_ledger hs _)

theorem connectFirst_ledger (n : Node) (t : Hash) : Ledger E n (connectFirst E n t).1 := by
  unfold connectFirst
  split
  · exact .refl n
  · rename_i b hb
    have hv := validate_ledger (E := E) n b
    split
    · rename_i n₁ x hx
      rw [hx] at hv
      exact hv
    · rename_i n₁ _ hx
      split
      · exact (connect_ledger hb hx ‹_›).1
      · exact (connect_ledger hb hx ‹_›).2 _

theorem switchChains_ledger (n : Node) (old new : List Hash) :
    Ledger E n (switchChains E n old new).1 := by
  unfold switchChains
  have hd : Ledger E n (disconnectLoop E (toDisconnect old new) n []).1 := disconnectLoop_ledger
  split
  · rename_i n₁ done x hx
    rw [hx] at hd
    exact hd.trans (redoDisconnected_ledger _ _)
  · rename_i n₁ done _ hx
    rw [hx] at hd
    have hc : Ledger E n₁ (connectLoop E (toConnect old new) n₁ []).1 := connectLoop_ledger
    split
    · rename_i n₂ conn x hx
      rw [hx] at hc
      exact ((hd.trans hc).trans undoConnected_ledger).trans (redoDisconnected_ledger _ _)
    · rename_i n₂ conn _ hx
      rw [hx] at hc
      exact hd.trans hc

/-- **`reorganize` changes the ledger only.** -/
theorem reorganize_ledger (n : Node) (old : Option Hash) (new : Hash) :
    Ledger E n (n.reorganize E old new).1 := by
  unfold reorganize
  split
  · exact connectFirst_ledger n new
  · split
    · exact .refl n
    · exact switchChains_ledger n _ _

/-! ## The log is not read -/

/-- The same node with an older history. -/
def addLog (n : Node) (l : List Event) : Node := { n with log := n.log ++ l }

variable {l : List Event}

theorem validate_addLog : (n.addLog l).validate E b =
    ((n.validate E b).1.addLog l, (n.validate E b).2) := by
  simp only [validate, addLog]
  cases validateBlockTransactions E b n.utxo <;> rfl

theorem disconnectLoop_addLog : ∀ {hs : List Hash} {n : Node} {done : List Hash},
    disconnectLoop E hs (n.addLog l) done =
      ((disconnectLoop E hs n done).1.addLog l, (disconnectLoop E hs n done).2)
  | [], _, _ => rfl
  | h :: hs, n, done => by
    have hdag : (n.addLog l).dag = n.dag := rfl
    have hutxo : (n.addLog l).utxo = n.utxo := rfl
    simp only [disconnectLoop, hdag, hutxo]
    cases n.dag.getUndo h with
    | none => rfl
    | some undo =>
      cases n.dag.getBlock h with
      | none => rfl
      | some b =>
        cases hd : n.utxo.disconnectBlock E b undo with
        | error e => simp only [hd]
        | ok u =>
          simp only [hd]
          exact disconnectLoop_addLog
            (n := { n with utxo := u, log := .disconnected h :: n.log })

theorem connectLoop_addLog : ∀ {hs : List Hash} {n : Node} {done : List Hash},
    connectLoop E hs (n.addLog l) done =
      ((connectLoop E hs n done).1.addLog l, (connectLoop E hs n done).2)
  | [], _, _ => rfl
  | h :: hs, n, done => by
    have hdag : (n.addLog l).dag = n.dag := rfl
    simp only [connectLoop, hdag, validate_addLog]
    cases n.dag.getBlock h with
    | none => rfl
    | some b =>
      rcases hv : n.validate E b with ⟨n₁, x | _⟩
      · simp only [hv]
      · have happ : (n₁.addLog l).applyBlockWithMerges E b =
            ((n₁.applyBlockWithMerges E b).1.addLog l, (n₁.applyBlockWithMerges E b).2) := rfl
        simp only [hv, happ]
        rcases ha : n₁.applyBlockWithMerges E b with ⟨n₂, x | undo⟩
        · rfl
        · simp only
          exact connectLoop_addLog (n := { n₂ with dag := n₂.dag.putUndo h undo })

theorem undoConnected_addLog : ∀ {hs : List Hash} {n : Node},
    undoConnected E hs (n.addLog l) = (undoConnected E hs n).addLog l
  | [], _ => rfl
  | h :: hs, n => by
    have hdag : (n.addLog l).dag = n.dag := rfl
    have hutxo : (n.addLog l).utxo = n.utxo := rfl
    simp only [undoConnected, hdag, hutxo]
    cases n.dag.getUndo h with
    | none => exact undoConnected_addLog
    | some undo =>
      cases n.dag.getBlock h with
      | none => exact undoConnected_addLog
      | some b =>
        cases hd : n.utxo.disconnectBlock E b undo with
        | error e => simp only [hd]; exact undoConnected_addLog
        | ok u =>
          simp only [hd]
          exact undoConnected_addLog
            (n := { n with utxo := u, log := .disconnected h :: n.log })

theorem redoDisconnected_addLog : ∀ {hs : List Hash} {n : Node},
    redoDisconnected E hs (n.addLog l) = (redoDisconnected E hs n).addLog l
  | [], _ => rfl
  | h :: hs, n => by
    have hdag : (n.addLog l).dag = n.dag := rfl
    simp only [redoDisconnected, hdag]
    cases n.dag.getBlock h with
    | none => exact redoDisconnected_addLog
    | some b =>
      have happ : (n.addLog l).applyBlockWithMerges E b =
          ((n.applyBlockWithMerges E b).1.addLog l, (n.applyBlockWithMerges E b).2) := rfl
      simp only [happ]
      rcases ha : n.applyBlockWithMerges E b with ⟨n₂, x | undo⟩
      · exact redoDisconnected_addLog
      · simp only
        exact redoDisconnected_addLog (n := { n₂ with dag := n₂.dag.putUndo h undo })

theorem switchChains_addLog {old new : List Hash} : switchChains E (n.addLog l) old new =
    ((switchChains E n old new).1.addLog l, (switchChains E n old new).2) := by
  simp only [switchChains, disconnectLoop_addLog]
  rcases disconnectLoop E (toDisconnect old new) n [] with ⟨n₁, done, x | _⟩
  · simp only [redoDisconnected_addLog]
  · simp only [connectLoop_addLog]
    rcases connectLoop E (toConnect old new) n₁ [] with ⟨n₂, conn, x | _⟩
    · simp only [undoConnected_addLog, redoDisconnected_addLog]
    · rfl

theorem connectFirst_addLog : connectFirst E (n.addLog l) h =
    ((connectFirst E n h).1.addLog l, (connectFirst E n h).2) := by
  have hdag : (n.addLog l).dag = n.dag := rfl
  simp only [connectFirst, hdag, validate_addLog]
  cases n.dag.getBlock h with
  | none => rfl
  | some b =>
    rcases hv : n.validate E b with ⟨n₁, x | _⟩
    · simp only [hv]
    · have happ : (n₁.addLog l).applyBlockWithMerges E b =
          ((n₁.applyBlockWithMerges E b).1.addLog l, (n₁.applyBlockWithMerges E b).2) := rfl
      simp only [hv, happ]
      rcases ha : n₁.applyBlockWithMerges E b with ⟨n₂, x | undo⟩ <;> rfl

/-- **`reorganize` does not read the log.** -/
theorem reorganize_addLog {old : Option Hash} {new : Hash} : (n.addLog l).reorganize E old new =
    ((n.reorganize E old new).1.addLog l, (n.reorganize E old new).2) := by
  unfold reorganize
  cases old with
  | none => exact connectFirst_addLog
  | some t =>
    simp only
    split
    · rfl
    · exact switchChains_addLog

/-! ## The outcomes of `connect_block` -/

/-- The block passes the checks before the DAG: it is new, its header and its own transactions are
fine, and it names the score and work of its parents. -/
def Enters (E : Env) (now : Nat) (n : Node) (b : Block) : Prop :=
  n.dag.getBlock (b.hash E) = none ∧
    preCheck E n.dag now b = .ok (n.dag.ghostdagFor b.header.parents)

/-- The node with the block in its DAG, before the chain moves. -/
def enter (E : Env) (n : Node) (b : Block) : Node :=
  n.insertBlock E b (n.dag.ghostdagFor b.header.parents)

/-- The selected tip with the block in the DAG. -/
def newTip (E : Env) (n : Node) (b : Block) : Hash :=
  (n.enter E b).dag.getSelectedTip.getD (b.hash E)

@[simp] theorem enter_dag : (n.enter E b).dag = n.dag.extend E b := rfl

@[simp] theorem enter_utxo : (n.enter E b).utxo = n.utxo := rfl

@[simp] theorem enter_log : (n.enter E b).log = .inserting n.toNodeState b :: n.log := rfl

theorem preCheck_ok {d : Dag} {gd : GhostdagData} (h : preCheck E d now b = .ok gd) :
    gd = d.ghostdagFor b.header.parents ∧ b.header.blueScore = gd.blueScore ∧
      b.header.blueWork = gd.blueWork := by
  unfold preCheck at h
  split at h
  · cases h
  · split at h
    · cases h
    · simp only at h
      split_ifs at h with h1 h2
      cases h
      exact ⟨rfl, not_not.1 h1, not_not.1 h2⟩

theorem Enters.blueScore (h : Enters E now n b) :
    b.header.blueScore = (n.dag.ghostdagFor b.header.parents).blueScore := (preCheck_ok h.2).2.1

theorem Enters.blueWork (h : Enters E now n b) :
    b.header.blueWork = (n.dag.ghostdagFor b.header.parents).blueWork := (preCheck_ok h.2).2.2

/-- The checks passed. -/
theorem Enters.checks (h : Enters E now n b) : b.header.Checked E n.dag now ∧
    validateBlockSelfContained E b = .ok () := by
  have hp := h.2
  unfold preCheck at hp
  split at hp
  · cases hp
  · rename_i hheader
    split at hp
    · cases hp
    · rename_i hself
      exact ⟨validateBlockHeader_iff.1 hheader, hself⟩

/-- What `connect_block` can do. -/
inductive Outcome (E : Env) (now : Nat) (n : Node) (b : Block) : Bool → Node → Prop
  | refused : ¬Enters E now n b → Outcome E now n b false n
  /-- the selected tip stays -/
  | aside : Enters E now n b → some (n.newTip E b) = n.dag.getSelectedTip →
      Outcome E now n b true (connected E (n.enter E b) b)
  | moved {n₂ : Node} : Enters E now n b → some (n.newTip E b) ≠ n.dag.getSelectedTip →
      (n.enter E b).reorganize E n.dag.getSelectedTip (n.newTip E b) = (n₂, .ok ()) →
      Outcome E now n b true (connected E
        { n₂ with
          difficulty := n₂.dag.rebuildDifficultyHistory n₂.difficulty (n.newTip E b) } b)
  | failed {n₂ : Node} {x : ReorgError} : Enters E now n b →
      some (n.newTip E b) ≠ n.dag.getSelectedTip →
      (n.enter E b).reorganize E n.dag.getSelectedTip (n.newTip E b) = (n₂, .error x) →
      Outcome E now n b false n₂

/-- **The outcomes of `connect_block`.** -/
theorem connectBlock_outcome (E : Env) (now : Nat) (n : Node) (b : Block) :
    Outcome E now n b (connectBlock E now n b).1 (connectBlock E now n b).2 := by
  unfold connectBlock
  split
  · rename_i hs
    exact .refused fun he => by rw [he.1] at hs; cases hs
  · rename_i hs
    have hnone : n.dag.getBlock (b.hash E) = none := by simpa using hs
    split
    · rename_i x hx
      exact .refused fun he => by rw [he.2] at hx; cases hx
    · rename_i gd hgd
      obtain ⟨rfl, -⟩ := preCheck_ok hgd
      have he : Enters E now n b := ⟨hnone, hgd⟩
      simp only
      split
      · rename_i hne
        split
        · exact .failed he hne ‹_›
        · exact .moved he hne ‹_›
      · rename_i heq
        exact .aside he (not_not.1 heq)

/-! ## Rejected blocks -/

/-- Nothing but GhostDAG data and undo records tells the two nodes apart. -/
structure SameView (n n' : Node) : Prop where
  blocks : n'.dag.db.blocks = n.dag.db.blocks
  tips : n'.dag.tips = n.dag.tips
  selectedTip : n'.dag.getSelectedTip = n.dag.getSelectedTip
  utxo : n'.utxo = n.utxo
  mempool : n'.mempool = n.mempool
  difficulty : n'.difficulty = n.difficulty

theorem SameView.refl (n : Node) : SameView n n := ⟨rfl, rfl, rfl, rfl, rfl, rfl⟩

/-- The block takes the selected tip, and the chain cannot be moved there. -/
def ReorgFails (E : Env) (s : NodeState) (b : Block) : Prop :=
  let n : Node := ⟨s, []⟩
  some (n.newTip E b) ≠ s.dag.getSelectedTip ∧
    ((n.enter E b).reorganize E s.dag.getSelectedTip (n.newTip E b)).2 ≠ .ok ()

instance (E : Env) (s : NodeState) (b : Block) : Decidable (ReorgFails E s b) :=
  inferInstanceAs (Decidable (_ ∧ _))

/-- `ReorgFails` is about the node's state, so it can be read off a run with any log. -/
theorem reorgFails_iff : ReorgFails E n.toNodeState b ↔
    some (n.newTip E b) ≠ n.dag.getSelectedTip ∧
      ((n.enter E b).reorganize E n.dag.getSelectedTip (n.newTip E b)).2 ≠ .ok () := by
  have he : (n.enter E b) = { (⟨n.toNodeState, []⟩ : Node).enter E b with
      log := ((⟨n.toNodeState, []⟩ : Node).enter E b).log ++ n.log } := rfl
  have hr : (((⟨n.toNodeState, []⟩ : Node).enter E b).addLog n.log).reorganize E
      n.dag.getSelectedTip (n.newTip E b) = _ := reorganize_addLog
  rw [addLog, ← he] at hr
  rw [hr]
  rfl

end Node

namespace Sample

/-- A block that pays itself one more than the subsidy. -/
def overpaid : Block :=
  block 1 .gpu [genesisHash] 1 1 [coinbase 1 [subsidy.saturatingAdd ⟨1, by decide⟩]]

end Sample

end Zentra

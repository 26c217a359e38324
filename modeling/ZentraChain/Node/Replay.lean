import ZentraChain.Lib.UndoStack
import ZentraChain.Node.Connect
import ZentraChain.Node.ValidateSpec

/-!
# The loops of `reorganize` as operations with undo data

The blocks of a chain are the operations of `Dag.machine`, the UTXO set its state, and the undo
records of the database its store.

* `disconnectLoop_append`, `undoConnected_eq`: both disconnect loops are `undoAll`.
* `redoDisconnected_stack`: applying a stack's blocks again rebuilds it and changes no undo record.
* `connectLoop_spec`: what the connect loop leaves, wherever it stops.
* `LogOk`: in the log every applied block has been validated against its set before; each loop
  keeps this.
-/

namespace Zentra

open UndoStack

namespace Dag

/-- The same graph with other undo records. -/
def withUndo (d : Dag) (m : Finmap fun _ : Hash => BlockUndoData) : Dag :=
  { d with db := { d.db with undo := m } }

/-- The blocks of a graph as operations on UTXO sets: apply with the recorded merge blocks,
disconnect. -/
def machine (E : Env) (d : Dag) : Machine Hash UtxoSet BlockUndoData where
  apply h u :=
    match d.getBlock h with
    | none => none
    | some b =>
      match u.applyBlockWithMerges E b (d.mergeBlocks (b.hash E)) with
      | (u', .ok undo) => some (u', undo)
      | (_, .error _) => none
  undo h undo u :=
    match d.getBlock h with
    | none => u
    | some b =>
      match u.disconnectBlock E b undo with
      | .ok v => v
      | .error _ => u

/-- The blocks of `u` applied to `u₀` (last first), with their undo data in the database. -/
abbrev Stack (E : Env) (d : Dag) (Q : Hash → UtxoSet → Prop) (u₀ : UtxoSet) (hs : List Hash)
    (u : UtxoSet) : Prop := Machine.Stack (d.machine E) d.getUndo Q u₀ hs u

/-- The UTXO set after applying the blocks of a chain, tip first, to `u₀`, if all apply. -/
def replay (E : Env) (d : Dag) (u₀ : UtxoSet) (chain : List Hash) : Option UtxoSet :=
  (d.machine E).replay u₀ chain

variable {E : Env} {d : Dag} {h : Hash} {b : Block} {u u' : UtxoSet} {undo : BlockUndoData}
  {m : Finmap fun _ : Hash => BlockUndoData}

@[simp] theorem machine_withUndo : (d.withUndo m).machine E = d.machine E := rfl

@[simp] theorem getBlock_withUndo : (d.withUndo m).getBlock h = d.getBlock h := rfl

@[simp] theorem getUndo_withUndo : (d.withUndo m).getUndo h = m.lookup h := rfl

@[simp] theorem withUndo_withUndo {m' : Finmap fun _ : Hash => BlockUndoData} :
    (d.withUndo m).withUndo m' = d.withUndo m' := rfl

theorem putUndo_eq : d.putUndo h undo = d.withUndo (d.db.undo.insert h undo) := rfl

/-- Storing what is stored changes nothing. -/
theorem putUndo_self (hu : d.getUndo h = some undo) : d.putUndo h undo = d := by
  rw [putUndo_eq, Finmap.insert_lookup_self hu]
  rfl

theorem machine_apply_iff : (d.machine E).apply h u = some (u', undo) ↔
    ∃ b, d.getBlock h = some b ∧
      u.applyBlockWithMerges E b (d.mergeBlocks (b.hash E)) = (u', .ok undo) := by
  simp only [machine]
  cases hb : d.getBlock h with
  | none => simp
  | some b =>
    simp only [Option.some.injEq, exists_eq_left']
    rcases u.applyBlockWithMerges E b (d.mergeBlocks (b.hash E)) with ⟨v, _ | undo'⟩ <;> simp

end Dag

/-- A block applied to `u` with `merges` is undone exactly: `UndoSafe`, and the burns fit. -/
def Block.SafeAt (E : Env) (b : Block) (merges : List Block) (u : UtxoSet) : Prop :=
  UtxoSet.UndoSafe E u b merges ∧ u.totalBurned.zents + b.burnTotal ≤ u64Max

/-- The block stored under `h` is undone exactly when it was applied to `u`. -/
def Dag.SafeAt (E : Env) (d : Dag) (h : Hash) (u : UtxoSet) : Prop :=
  ∀ b, d.getBlock h = some b → b.SafeAt E (d.mergeBlocks (b.hash E)) u

theorem Dag.SafeAt.reversible {E : Env} {d : Dag} {h : Hash} {u : UtxoSet} (hs : d.SafeAt E h u) :
    (d.machine E).Reversible h u := by
  intro u' undo ha
  obtain ⟨b, hb, happ⟩ := Dag.machine_apply_iff.1 ha
  obtain ⟨v, hv⟩ := UtxoSet.disconnectBlock_ok happ
  have hvu := (UtxoSet.disconnectBlock_eq_iff happ hv (hs b hb).2).2 (hs b hb).1
  simp only [Dag.machine, hb, hv, hvu]

/-! ## The log -/

/-- A logged validation was one, and a block other than genesis is applied to a set it was
validated against before. -/
def EventOk (E : Env) (earlier : List Event) : Event → Prop
  | .validated b u => validateBlockTransactions E b u = .ok ()
  | .applied b _ u => b = Block.genesis E ∨ .validated b u ∈ earlier
  | _ => True

/-- Every event of the log is as it should be, given the earlier ones. -/
def LogOk (E : Env) : List Event → Prop
  | [] => True
  | e :: l => EventOk E l e ∧ LogOk E l

variable {E : Env}

theorem LogOk.append {l : List Event} (h : LogOk E l) : ∀ {evs : List Event},
    (∀ e ∈ evs, EventOk E l e) → LogOk E (evs ++ l)
  | [], _ => h
  | e :: evs, he => by
    refine ⟨?_, h.append fun e' h' => he e' (List.mem_cons_of_mem _ h')⟩
    have := he e List.mem_cons_self
    cases e with
    | applied b ms u => exact this.imp id (List.mem_append_right _)
    | validated b u => exact this
    | inserting s b => trivial
    | disconnected h => trivial
    | restarted => trivial

theorem LogOk.of_append {l : List Event} : ∀ {evs : List Event}, LogOk E (evs ++ l) → LogOk E l
  | [], h => h
  | _ :: _, h => of_append h.2

theorem LogOk.mem {b : Block} {u : UtxoSet} : ∀ {l : List Event}, LogOk E l →
    .validated b u ∈ l → validateBlockTransactions E b u = .ok ()
  | e :: l, h, hm => by
    rcases List.mem_cons.1 hm with rfl | hm
    · exact h.1
    · exact h.2.mem hm

theorem LogOk.applied {b : Block} {ms : List Block} {u : UtxoSet} : ∀ {l : List Event},
    LogOk E l → .applied b ms u ∈ l → b = Block.genesis E ∨ .validated b u ∈ l
  | e :: l, h, hm => by
    rcases List.mem_cons.1 hm with rfl | hm
    · exact h.1.imp id (List.mem_cons_of_mem _)
    · exact (h.2.applied hm).imp id (List.mem_cons_of_mem _)

namespace Node

variable {n : Node} {hs tail done : List Hash} {h : Hash} {Q : Hash → UtxoSet → Prop}
  {u₀ u : UtxoSet}

/-! ## Disconnecting -/

/-- The block and its undo data are stored and fit each other. -/
def HasUndo (d : Dag) (h : Hash) : Prop :=
  ∃ undo b, d.getUndo h = some undo ∧ d.getBlock h = some b ∧
    b.transactions.length = undo.txsUndo.length

theorem hasUndo_of_stack {d : Dag} (hst : d.Stack E Q u₀ hs u) : ∀ h ∈ hs, HasUndo d h := by
  induction hst with
  | nil => simp
  | cons _ ha hd _ ih =>
    intro h hh
    rcases List.mem_cons.1 hh with rfl | hh
    · obtain ⟨b, hb, happ⟩ := Dag.machine_apply_iff.1 ha
      obtain ⟨w, ds, hw, -, rfl⟩ := UtxoSet.applyBlockWithMerges_ok happ
      exact ⟨_, b, hd, hb, UtxoSet.applyTransactions_length hw⟩
    · exact ih h hh

/-- One step of a disconnect loop. -/
theorem HasUndo.step {d : Dag} (hu : HasUndo d h) (u : UtxoSet) :
    ∃ undo b v, d.getUndo h = some undo ∧ d.getBlock h = some b ∧
      u.disconnectBlock E b undo = .ok v ∧ (d.machine E).undo h undo u = v := by
  obtain ⟨undo, b, h1, h2, h3⟩ := hu
  have hd := UtxoSet.disconnectBlock_of_length (E := E) (u := u) h3
  exact ⟨undo, b, _, h1, h2, hd, by simp only [Dag.machine, h2, hd]⟩

/-- The node after disconnecting `hs`. -/
def afterUndo (E : Env) (n : Node) (hs : List Hash) : Node :=
  { n with
    utxo := (n.dag.machine E).undoAll n.dag.getUndo hs n.utxo
    log := (hs.map .disconnected).reverse ++ n.log }

theorem afterUndo_cons {undo : BlockUndoData} {v : UtxoSet} (h1 : n.dag.getUndo h = some undo)
    (h2 : (n.dag.machine E).undo h undo n.utxo = v) :
    afterUndo E { n with utxo := v, log := .disconnected h :: n.log } hs =
      afterUndo E n (h :: hs) := by
  simp [afterUndo, Machine.undoAll, h1, h2]

/-- The disconnect loop goes through the blocks that have undo data. -/
theorem disconnectLoop_append (tail : List Hash) : ∀ {hs : List Hash} {n : Node}
    (done : List Hash), (∀ h ∈ hs, HasUndo n.dag h) →
      disconnectLoop E (hs ++ tail) n done =
        disconnectLoop E tail (afterUndo E n hs) (hs.reverse ++ done)
  | [], n, done, _ => rfl
  | h :: hs, n, done, hh => by
    obtain ⟨undo, b, v, h1, h2, h3, h4⟩ := (hh h List.mem_cons_self).step (E := E) n.utxo
    simp only [List.cons_append, disconnectLoop, h1, h2, h3]
    rw [disconnectLoop_append tail (n := { n with utxo := v, log := .disconnected h :: n.log })
      (h :: done) fun h' hm => hh h' (List.mem_cons_of_mem _ hm), afterUndo_cons h1 h4,
      List.reverse_cons, List.append_assoc]
    rfl

theorem undoConnected_eq : ∀ {hs : List Hash} {n : Node}, (∀ h ∈ hs, HasUndo n.dag h) →
    undoConnected E hs n = afterUndo E n hs
  | [], n, _ => rfl
  | h :: hs, n, hh => by
    obtain ⟨undo, b, v, h1, h2, h3, h4⟩ := (hh h List.mem_cons_self).step (E := E) n.utxo
    simp only [undoConnected, h1, h2, h3]
    rw [undoConnected_eq (n := { n with utxo := v, log := .disconnected h :: n.log })
      fun h' hm => hh h' (List.mem_cons_of_mem _ hm), afterUndo_cons h1 h4]

/-! ## Applying again -/

theorem redoDisconnected_append : ∀ {hs hs' : List Hash} {n : Node},
    redoDisconnected E (hs ++ hs') n = redoDisconnected E hs' (redoDisconnected E hs n)
  | [], _, _ => rfl
  | h :: hs, hs', n => by
    simp only [List.cons_append, redoDisconnected]
    split
    · exact redoDisconnected_append
    · split <;> exact redoDisconnected_append

/-- Applying the blocks of a stack again rebuilds it; the stored undo data stays as it is. -/
theorem redoDisconnected_stack (hst : n.dag.Stack E Q n.utxo hs u) :
    ∃ evs, redoDisconnected E hs.reverse n = { n with utxo := u, log := evs ++ n.log } ∧
      ∀ e ∈ evs, ∃ h ∈ hs, ∃ b t, n.dag.getBlock h = some b ∧
        e = .applied b (n.dag.mergeBlocks (b.hash E)) t ∧ Q h t := by
  generalize hu₀ : n.utxo = u₀ at hst
  induction hst with
  | nil => exact ⟨[], by rw [← hu₀]; rfl, by simp⟩
  | @cons h hs t u' undo _ ha hd hq ih =>
    obtain ⟨evs, hevs, hmem⟩ := ih
    obtain ⟨b, hb, happ⟩ := Dag.machine_apply_iff.1 ha
    refine ⟨.applied b (n.dag.mergeBlocks (b.hash E)) t :: evs, ?_, ?_⟩
    · rw [List.reverse_cons, redoDisconnected_append, hevs]
      simp only [redoDisconnected, hb, applyBlockWithMerges, happ]
      rw [Dag.putUndo_self hd]
      rfl
    · intro e he
      rcases List.mem_cons.1 he with rfl | he
      · exact ⟨h, List.mem_cons_self, b, t, hb, rfl, hq⟩
      · obtain ⟨h', hh', hrest⟩ := hmem e he
        exact ⟨h', List.mem_cons_of_mem _ hh', hrest⟩

/-! ## Connecting -/

/-- The block under `h` was validated against `u` and applied to it, and the log says so. -/
def Accepted (E : Env) (d : Dag) (log : List Event) (h : Hash) (u : UtxoSet) : Prop :=
  ∃ b, d.getBlock h = some b ∧ validateBlockTransactions E b u = .ok () ∧
    .validated b u ∈ log ∧ .applied b (d.mergeBlocks (b.hash E)) u ∈ log

theorem Accepted.append {d : Dag} {log : List Event} (ha : Accepted E d log h u)
    (evs : List Event) : Accepted E d (evs ++ log) h u := by
  obtain ⟨b, h1, h2, h3, h4⟩ := ha
  exact ⟨b, h1, h2, List.mem_append_right _ h3, List.mem_append_right _ h4⟩

/-- What the connect loop leaves of `n`: the blocks `pre` are connected on its set. -/
structure Connects (E : Env) (n n' : Node) (pre : List Hash)
    (m : Finmap fun _ : Hash => BlockUndoData) (evs : List Event) : Prop where
  node : n' = { n with dag := n.dag.withUndo m, utxo := n'.utxo, log := evs ++ n.log }
  stack : (n.dag.withUndo m).Stack E (Accepted E n.dag (evs ++ n.log)) n.utxo pre.reverse n'.utxo
  undo : ∀ h ∉ pre, m.lookup h = n.dag.getUndo h
  log : LogOk E n.log → LogOk E (evs ++ n.log)

theorem Connects.nil (n : Node) : Connects E n n [] n.dag.db.undo [] where
  node := rfl
  stack := .nil
  undo := fun _ _ => rfl
  log := id

/-- Connecting one more block, below the others. -/
theorem Connects.cons {b : Block} {undo : BlockUndoData} {n' : Node} {pre : List Hash}
    {m : Finmap fun _ : Hash => BlockUndoData} {evs : List Event} {v : UtxoSet}
    (hb : n.dag.getBlock h = some b) (hv : validateBlockTransactions E b n.utxo = .ok ())
    (happ : n.utxo.applyBlockWithMerges E b (n.dag.mergeBlocks (b.hash E)) = (v, .ok undo))
    (hh : h ∉ pre)
    (hc : Connects E
      { n with
        dag := n.dag.putUndo h undo
        utxo := v
        log := .applied b (n.dag.mergeBlocks (b.hash E)) n.utxo :: .validated b n.utxo :: n.log }
      n' pre m evs) :
    Connects E n n' (h :: pre) m
      (evs ++ [.applied b (n.dag.mergeBlocks (b.hash E)) n.utxo, .validated b n.utxo]) where
  node := by
    rw [hc.node]
    simp [Dag.putUndo_eq]
  stack := by
    rw [List.reverse_cons]
    refine Machine.Stack.append (.cons .nil (Dag.machine_apply_iff.2 ⟨b, hb, happ⟩) ?_
      ⟨b, hb, hv, by simp, by simp⟩) ?_
    · have hlook := hc.undo h hh
      rw [Dag.getUndo_putUndo, if_pos rfl] at hlook
      exact hlook
    · have hst := hc.stack
      rw [Dag.putUndo_eq, Dag.withUndo_withUndo] at hst
      refine hst.mono (fun _ _ => rfl) fun i _ t hi => ?_
      rw [List.append_assoc]
      exact hi
  undo := fun h' hh' => by
    obtain ⟨h1, h2⟩ := not_or.1 (mt List.mem_cons.2 hh')
    have hlook := hc.undo h' h2
    rwa [Dag.getUndo_putUndo, if_neg h1] at hlook
  log := fun hl => by
    rw [List.append_assoc]
    exact hc.log ⟨.inr List.mem_cons_self, hv, hl⟩

section
variable {n' : Node} {pre : List Hash} {m : Finmap fun _ : Hash => BlockUndoData}
  {evs : List Event}

theorem Connects.dag_eq (hc : Connects E n n' pre m evs) : n'.dag = n.dag.withUndo m := by
  rw [hc.node]

theorem Connects.log_eq (hc : Connects E n n' pre m evs) : n'.log = evs ++ n.log := by
  rw [hc.node]

/-- The connected blocks lie on the set in the new node too. -/
theorem Connects.stack_new (hc : Connects E n n' pre m evs) :
    n'.dag.Stack E (Accepted E n.dag n'.log) n.utxo pre.reverse n'.utxo := by
  rw [hc.dag_eq, hc.log_eq]
  exact hc.stack

end

/-- **The connect loop**: it goes through all blocks, or stops before a block with an error and has
connected the earlier ones. -/
theorem connectLoop_spec : ∀ {hs : List Hash} (n : Node) (done : List Hash), hs.Nodup →
    ∃ pre post m evs, hs = pre ++ post ∧
      Connects E n (connectLoop E hs n done).1 pre m evs ∧
      (connectLoop E hs n done).2.1 = pre.reverse ++ done ∧
      (((connectLoop E hs n done).2.2 = .ok () ∧ post = []) ∨
        ((∃ x, (connectLoop E hs n done).2.2 = .error x) ∧ post ≠ []))
  | [], n, done, _ => ⟨[], [], _, _, rfl, .nil n, rfl, .inl ⟨rfl, rfl⟩⟩
  | h :: hs, n, done, hnd => by
    -- stopping here leaves the node as it is
    have hstop : ∀ x, connectLoop E (h :: hs) n done = (n, done, .error x) →
        ∃ pre post m evs, h :: hs = pre ++ post ∧
          Connects E n (connectLoop E (h :: hs) n done).1 pre m evs ∧
          (connectLoop E (h :: hs) n done).2.1 = pre.reverse ++ done ∧
          (((connectLoop E (h :: hs) n done).2.2 = .ok () ∧ post = []) ∨
            ((∃ x, (connectLoop E (h :: hs) n done).2.2 = .error x) ∧ post ≠ [])) := by
      intro x hx
      rw [hx]
      exact ⟨[], h :: hs, _, _, rfl, .nil n, rfl, .inr ⟨⟨x, rfl⟩, by simp⟩⟩
    cases hb : n.dag.getBlock h with
    | none => exact hstop (.missingConnect h) (by simp only [connectLoop, hb])
    | some b =>
      cases hv : validateBlockTransactions E b n.utxo with
      | error x => exact hstop (.validation h x) (by simp only [connectLoop, hb, validate, hv])
      | ok _ =>
        obtain ⟨v, undo, happ⟩ := validate_applyBlock hv (n.dag.mergeBlocks (b.hash E))
        obtain ⟨hh, hnd⟩ := List.nodup_cons.1 hnd
        obtain ⟨pre, post, m, evs, rfl, hc, hdone, hres⟩ := connectLoop_spec
          { n with
            dag := n.dag.putUndo h undo
            utxo := v
            log := .applied b (n.dag.mergeBlocks (b.hash E)) n.utxo ::
              .validated b n.utxo :: n.log } (h :: done) hnd
        have hloop : connectLoop E (h :: (pre ++ post)) n done =
            connectLoop E (pre ++ post)
              { n with
                dag := n.dag.putUndo h undo
                utxo := v
                log := .applied b (n.dag.mergeBlocks (b.hash E)) n.utxo ::
                  .validated b n.utxo :: n.log } (h :: done) := by
          simp only [connectLoop, hb, validate, hv, applyBlockWithMerges, happ]
        rw [hloop]
        refine ⟨h :: pre, post, m, _, rfl, .cons hb hv happ (fun hm => hh ?_) hc, ?_, hres⟩
        · exact List.mem_append_left _ hm
        · rw [hdone, List.reverse_cons, List.append_assoc]; rfl

end Node

end Zentra

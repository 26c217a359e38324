import ZentraChain.Node.Converge

/-!
# Orphans left behind (`node.rs`)

`accept_external_block` goes through the orphans after a block that connects. A block can get into
the graph without that: as a block of the node's own, or when the chain cannot be moved to it.

* `connectBlock_noReady_iff`: the orphans that a block makes ready are those that wait for it only.
* `Call.noReady_iff`: when a call leaves no ready orphan.
* `noReady_run_iff`: no run leaves a ready orphan exactly if none of its calls does.
-/

namespace Zentra

namespace Node

variable {E : Env} {n : Node} {b : Block} {now : Nat}

/-- No orphan has all its parents stored. -/
def NoReady (n : Node) : Prop := ∀ o ∈ n.orphans, n.parentsStored o = false

/-- Each orphan waits for a block that is not stored, other than `b`. -/
def NotAwaited (E : Env) (n : Node) (b : Block) : Prop :=
  ∀ o ∈ n.orphans, ∃ p ∈ o.header.parents, n.dag.getBlock p = none ∧ p ≠ b.hash E

theorem parentsStored_eq_false {o : Block} :
    n.parentsStored o = false ↔ ∃ p ∈ o.header.parents, n.dag.getBlock p = none := by
  unfold parentsStored
  rw [List.all_eq_false]
  simp

/-- A block that gets into the graph. -/
theorem Enters.noReady_iff (he : Enters E now n b) :
    NoReady (connectBlock E now n b).2 ↔ NotAwaited E n b := by
  unfold NoReady NotAwaited
  rw [connectBlock_orphans]
  refine forall₂_congr fun o _ => ?_
  rw [parentsStored_eq_false]
  refine exists_congr fun p => and_congr_right fun _ => ?_
  rw [he.getBlock]
  split
  · rename_i hp
    exact ⟨nofun, fun h => absurd hp h.2⟩
  · rename_i hp
    exact ⟨fun h => ⟨h, hp⟩, fun h => h.1⟩

theorem connectBlock_noReady_iff (hn : n.NoReady) :
    NoReady (connectBlock E now n b).2 ↔ (Enters E now n b → NotAwaited E n b) := by
  by_cases he : Enters E now n b
  · rw [he.noReady_iff]
    exact ⟨fun h _ => h, fun h => h he⟩
  · rw [connectBlock_refused he]
    exact ⟨fun _ he' => absurd he' he, fun _ => hn⟩

/-- Past the checks, a block connects unless the chain cannot be moved to it. -/
theorem Enters.connects_iff (he : Enters E now n b) :
    (connectBlock E now n b).1 = false ↔ ReorgFails E n.toNodeState b := by
  rw [reorgFails_iff]
  have ho := connectBlock_outcome E now n b
  generalize (connectBlock E now n b).1 = r at ho ⊢
  generalize (connectBlock E now n b).2 = n' at ho
  cases ho with
  | refused hne => exact absurd he hne
  | aside _ heq => exact ⟨nofun, fun h => absurd heq h.1⟩
  | moved _ _ hr => exact ⟨nofun, fun h => absurd (by rw [hr]) h.2⟩
  | failed _ hne hr => exact ⟨fun _ => ⟨hne, by rw [hr]; nofun⟩, fun _ => rfl⟩

theorem parkOrphan_noReady (hn : n.NoReady) {missing : List Hash}
    (hp : n.parentsStored b = false) : (n.parkOrphan E b missing).NoReady := by
  intro o ho
  show n.parentsStored o = false
  unfold parkOrphan at ho
  simp only at ho
  split at ho
  · rcases List.mem_append.1 ho with ho | ho
    · exact hn o (List.mem_filter.1 ho).1
    · rw [List.mem_singleton.1 ho]
      exact hp
  · exact hn o ho

/-! ## Calls -/

/-- A call on a node, as `Step` has them. -/
inductive Call
  | accept (clock : Hash → Nat) (order : List Block → List Block) (b : Block)
  | connect (now : Nat) (b : Block)

namespace Call

def apply (E : Env) (n : Node) : Call → Node
  | accept clock order b => (acceptExternalBlock E clock order n b).2
  | connect now b => (connectBlock E now n b).2

/-- The map of orphans is gone through in some order, and own blocks are built on stored ones. -/
def Legal (n : Node) : Call → Prop
  | accept _ order _ => ∀ l, (order l).Perm l
  | connect _ b => n.parentsStored b = true

/-- An own block that gets into the graph, and a peer's block that gets there without moving the
chain that should move, is awaited by no orphan alone. -/
def Settles (E : Env) (n : Node) : Call → Prop
  | accept clock _ b => n.parentsStored b = true → Enters E (clock (b.hash E)) n b →
      ReorgFails E n.toNodeState b → NotAwaited E n b
  | connect now b => Enters E now n b → NotAwaited E n b

theorem step {c : Call} (h : c.Legal n) : Step E n (c.apply E n) := by
  cases c with
  | accept clock order b => exact .accept clock order n b h
  | connect now b => exact .connect now n b h

/-- **When a call leaves no ready orphan.** -/
theorem noReady_iff {c : Call} (hn : n.NoReady) (hc : c.Legal n) :
    (c.apply E n).NoReady ↔ c.Settles E n := by
  cases c with
  | connect now b => exact connectBlock_noReady_iff hn
  | accept clock order b =>
    simp only [apply, Settles, acceptExternalBlock]
    split
    · rename_i hs
      refine ⟨fun _ _ he => ?_, fun _ => hn⟩
      rw [he.1] at hs
      cases hs
    · split
      · rename_i x hx
        refine ⟨fun _ _ he => ?_, fun _ => hn⟩
        rw [he.checks.1.pow] at hx
        cases hx
      · split
        · rename_i hmissing
          have hp : n.parentsStored b = false := by
            obtain ⟨p, hp⟩ := List.exists_mem_of_ne_nil _ (mt List.isEmpty_iff.2 hmissing)
            obtain ⟨hm, hnone⟩ := List.mem_filter.1 hp
            exact parentsStored_eq_false.2 ⟨p, hm, by simpa using hnone⟩
          refine ⟨fun _ hs => ?_, fun _ => parkOrphan_noReady hn hp⟩
          rw [hp] at hs
          cases hs
        · rename_i hmissing
          have hp : n.parentsStored b = true := by
            by_contra hp
            obtain ⟨p, hm, hnone⟩ := parentsStored_eq_false.1 (Bool.eq_false_iff.2 hp)
            refine hmissing fun he => ?_
            have hin : p ∈ b.header.parents.filter fun p => ¬(n.dag.getBlock p).isSome :=
              List.mem_filter.2 ⟨hm, by simp [hnone]⟩
            rw [List.isEmpty_iff.1 he] at hin
            cases hin
          have hiff : NoReady (connectBlock E (clock (b.hash E)) n b).2 ↔
              (Enters E (clock (b.hash E)) n b → NotAwaited E n b) := connectBlock_noReady_iff hn
          split
          · rename_i n' hcon
            refine ⟨fun _ _ he hf => ?_, fun _ => tryConnectOrphans_done clock hc n'⟩
            rw [← he.connects_iff, hcon] at hf
            cases hf
          · rename_i n' hcon
            rw [hcon] at hiff
            rw [hiff]
            refine ⟨fun h _ he _ => h he, fun h he => h hp he ?_⟩
            rw [← he.connects_iff, hcon]

end Call

/-! ## Runs -/

/-- `P` holds in every state of a run. -/
def EveryState (E : Env) (P : Node → Prop) : Node → List Call → Prop
  | n, [] => P n
  | n, c :: cs => P n ∧ EveryState E P (c.apply E n) cs

/-- `P` holds of every call of a run, in the state it finds. -/
def EveryCall (E : Env) (P : Node → Call → Prop) : Node → List Call → Prop
  | _, [] => True
  | n, c :: cs => P n c ∧ EveryCall E P (c.apply E n) cs

theorem EveryState.head {P : Node → Prop} {cs : List Call} (h : EveryState E P n cs) : P n := by
  cases cs with
  | nil => exact h
  | cons c cs => exact h.1

theorem noReady_calls_iff : ∀ {cs : List Call} {n : Node}, n.NoReady →
    EveryCall E Call.Legal n cs →
      (EveryState E NoReady n cs ↔ EveryCall E (Call.Settles E) n cs)
  | [], _, hn, _ => ⟨fun _ => trivial, fun _ => hn⟩
  | c :: cs, n, hn, ⟨hc, hcs⟩ => by
    have hstep : (c.apply E n).NoReady ↔ c.Settles E n := c.noReady_iff hn hc
    constructor
    · rintro ⟨-, hs⟩
      have hn' := hs.head
      exact ⟨hstep.1 hn', (noReady_calls_iff hn' hcs).1 hs⟩
    · rintro ⟨hc', hs⟩
      exact ⟨hn, (noReady_calls_iff (hstep.2 hc') hcs).2 hs⟩

theorem foldl_replayBlock_orphans (bs : List Block) (n : Node) :
    (bs.foldl (replayBlock E) n).orphans = n.orphans := by
  induction bs generalizing n with
  | nil => rfl
  | cons b bs ih => rw [List.foldl_cons, ih, replayBlock]

/-- A node starts without orphans. -/
theorem new_orphans (E : Env) (db : Db) : (new E db).orphans = [] := by
  unfold new
  simp only
  split
  · rfl
  · exact foldl_replayBlock_orphans _ _

theorem noReady_new (E : Env) : (new E .empty).NoReady := by
  intro o ho
  rw [new_orphans] at ho
  cases ho

/-- **No ready orphan is left behind in a run exactly if none of its calls leaves one.** -/
theorem noReady_run_iff (cs : List Call) (hcs : EveryCall E Call.Legal (new E .empty) cs) :
    EveryState E NoReady (new E .empty) cs ↔ EveryCall E (Call.Settles E) (new E .empty) cs :=
  noReady_calls_iff (noReady_new E) hcs

end Node

namespace Sample

/-- A block that waits for the overpaid block. -/
def waiting : Block := block 2 .gpu [⟨2⟩] 2 2 [coinbase 2 [subsidy]]

end Sample

open Node Sample in
theorem noReady_run_first :
    EveryState env NoReady (new env .empty) [.accept (fun _ => 1717372800000) id first] ↔
      EveryCall env (Call.Settles env) (new env .empty)
        [.accept (fun _ => 1717372800000) id first] :=
  noReady_run_iff _ ⟨fun _ => .refl _, trivial⟩

open Node Sample in
/-- The overpaid block gets into the graph and is rejected; the block that waits for it stays an
orphan. -/
theorem ready_orphan_left :
    ¬∀ n : Node, n.Reachable env → ∀ n', Step env n n' →
      ∀ o ∈ n'.orphans, n'.parentsStored o = false := by
  intro h
  have hs := h (run [waiting]) (reachable_run [waiting]) _
    (.accept (fun _ => 1717372800000) id _ overpaid fun _ => .refl _) waiting (by decide +kernel)
  exact absurd hs (by decide +kernel)

end Zentra

import ZentraChain.Lib.Runs
import ZentraChain.Node.Share

/-!
# Shares credited twice (`node.rs`)

A call looks for the hash among those seen, credits the share, and adds the hash to those seen, each
under a lock of its own; other calls come between. What was seen is forgotten every 200,001 shares.

* `once_run_iff`: when no share is credited twice.
* `credited_again`: after 200,001 shares, each of them can be credited again.
-/

namespace Zentra

/-- The first section of `verify_and_credit_share`: the member to credit, if all checks pass. -/
def PoolNode.startShare (E : Env) (B : Bech32) (n : PoolNode) (b : Block) : Option String :=
  if ¬n.poolMode then none
  else if b.hash E ∈ n.seenShares then none
  else shareMember E B n.pool.address b

inductive ShareCall
  | start (b : Block)
  /-- The call `i` of those that passed the checks credits its share. -/
  | credit (i now : Nat)
  /-- The call `i` of those that credited adds the hash to those seen. -/
  | record (i : Nat)

/-- A node in a run of calls. -/
structure ShareLog where
  node : PoolNode
  /-- The shares whose calls passed the checks, with the members to credit. -/
  checked : List (Hash × String)
  /-- The shares whose calls credited them and did not add them to those seen. -/
  paid : List Hash
  /-- All credited shares, last first. -/
  credited : List Hash
  /-- All shares added to those seen, last first. -/
  recorded : List Hash

namespace ShareLog

/-- A node that has seen no shares. -/
def init (n : PoolNode) : ShareLog := ⟨{ n with seenShares := ∅ }, [], [], [], []⟩

def step (E : Env) (B : Bech32) (l : ShareLog) : ShareCall → ShareLog
  | .start b =>
    match l.node.startShare E B b with
    | none => l
    | some member => { l with checked := l.checked ++ [(b.hash E, member)] }
  | .credit i now =>
    match l.checked[i]? with
    | none => l
    | some (h, member) =>
      { l with
        node := { l.node with pool := l.node.pool.addShare now member }
        checked := l.checked.eraseIdx i
        paid := l.paid ++ [h]
        credited := h :: l.credited }
  | .record i =>
    match l.paid[i]? with
    | none => l
    | some h =>
      { l with
        node := { l.node with seenShares := remember l.node.seenShares h }
        paid := l.paid.eraseIdx i
        recorded := h :: l.recorded }

/-- No call is under way. -/
def Idle (l : ShareLog) : Prop := l.checked = [] ∧ l.paid = []

/-- A share that passes the other checks is not submitted while a call for it is under way, nor after
it was recorded and forgotten since. -/
def Fresh (E : Env) (B : Bech32) (l : ShareLog) : ShareCall → Prop
  | .start b => l.node.poolMode = true → (shareMember E B l.node.pool.address b).isSome →
      b.hash E ∉ l.checked.map (·.1) ∧ b.hash E ∉ l.paid ∧
        b.hash E ∉ l.recorded.drop (l.recorded.length % 200001)
  | _ => True

/-- The shares that passed the checks. -/
def shares (l : ShareLog) : Multiset Hash := ↑(l.checked.map (·.1)) + ↑l.paid + ↑l.recorded

/-- What is seen is what was recorded since it was last forgotten. -/
structure Sound (l : ShareLog) : Prop where
  credited : (l.credited : Multiset Hash) = ↑l.paid + ↑l.recorded
  seen : l.shares.Nodup →
    l.node.seenShares = (l.recorded.take (l.recorded.length % 200001)).toFinset

variable {E : Env} {B : Bech32} {l : ShareLog} {b : Block} {c : ShareCall} {h : Hash}
  {member : String} {now : Nat}

theorem startShare_eq_some : l.node.startShare E B b = some member ↔
    l.node.poolMode = true ∧ b.hash E ∉ l.node.seenShares ∧
      shareMember E B l.node.pool.address b = some member := by
  unfold PoolNode.startShare
  by_cases hmode : l.node.poolMode = true
  · by_cases hseen : b.hash E ∈ l.node.seenShares
    · simp [hseen]
    · simp [hmode, hseen]
  · simp [hmode]

theorem coe_eraseIdx {α : Type*} {l : List α} {i : Nat} {a : α} (h : l[i]? = some a) :
    (l : Multiset α) = a ::ₘ ↑(l.eraseIdx i) := by
  obtain ⟨hi, rfl⟩ := List.getElem?_eq_some_iff.1 h
  exact Multiset.coe_eq_coe.2 (List.getElem_cons_eraseIdx_perm hi).symm

theorem shares_start (h : l.node.startShare E B b = some member) :
    (l.step E B (.start b)).shares = b.hash E ::ₘ l.shares := by
  simp only [step, h, shares, List.map_append, List.map_singleton, ← Multiset.coe_add,
    Multiset.coe_singleton, ← Multiset.singleton_add]
  abel

/-- A call adds its share when it passes the checks, and keeps it then. -/
theorem step_shares (E : Env) (B : Bech32) (l : ShareLog) (c : ShareCall) :
    (l.step E B c).shares = l.shares ∨
      ∃ b member, c = .start b ∧ l.node.startShare E B b = some member ∧
        (l.step E B c).shares = b.hash E ::ₘ l.shares := by
  cases c with
  | start b =>
    cases hs : l.node.startShare E B b with
    | none =>
      refine .inl ?_
      simp only [step, hs]
    | some member => exact .inr ⟨b, member, rfl, hs, shares_start hs⟩
  | credit i now =>
    simp only [step]
    cases hi : l.checked[i]? with
    | none => exact .inl rfl
    | some x =>
      have hmap : (l.checked.map (·.1))[i]? = some x.1 := by rw [List.getElem?_map, hi]; rfl
      have herase := coe_eraseIdx hmap
      rw [List.eraseIdx_map] at herase
      refine .inl ?_
      simp only [shares, herase, ← Multiset.coe_add, Multiset.coe_singleton,
        ← Multiset.singleton_add]
      abel
  | record i =>
    simp only [step]
    cases hi : l.paid[i]? with
    | none => exact .inl rfl
    | some h =>
      refine .inl ?_
      simp only [shares, coe_eraseIdx hi, ← Multiset.cons_coe, ← Multiset.singleton_add]
      abel

theorem nodup_of_step (h : (l.step E B c).shares.Nodup) : l.shares.Nodup := by
  rcases step_shares E B l c with he | ⟨b, member, -, -, he⟩
  · exact he ▸ h
  · rw [he] at h
    exact (Multiset.nodup_cons.1 h).2

/-- The memory keeps what was recorded since it was last cleared. -/
theorem remember_take {recorded : List Hash} (hn : (h :: recorded).Nodup) :
    remember (recorded.take (recorded.length % 200001)).toFinset h =
      ((h :: recorded).take ((h :: recorded).length % 200001)).toFinset := by
  obtain ⟨hmem, hn⟩ := List.nodup_cons.1 hn
  have hcard : (insert h (recorded.take (recorded.length % 200001)).toFinset).card =
      recorded.length % 200001 + 1 := by
    have hfresh : h ∉ (recorded.take (recorded.length % 200001)).toFinset := fun hm =>
      hmem (List.mem_of_mem_take (List.mem_toFinset.1 hm))
    rw [Finset.card_insert_of_notMem hfresh,
      List.toFinset_card_of_nodup (hn.sublist (List.take_sublist _ _)), List.length_take,
      Nat.min_eq_left (Nat.mod_le _ _)]
  rw [remember, hcard, List.length_cons]
  by_cases hfull : recorded.length % 200001 = 200000
  · have hzero : (recorded.length + 1) % 200001 = 0 := by omega
    rw [if_pos (by omega), hzero]
    rfl
  · have hsucc : (recorded.length + 1) % 200001 = recorded.length % 200001 + 1 := by omega
    rw [if_neg (by omega), hsucc, List.take_succ_cons, List.toFinset_cons]

theorem Sound.step (hs : l.Sound) (c : ShareCall) : (l.step E B c).Sound := by
  have hseen := fun hn => hs.seen (nodup_of_step (E := E) (B := B) (c := c) hn)
  cases c with
  | start b =>
    simp only [ShareLog.step] at hseen ⊢
    split at hseen
    · exact hs
    · exact ⟨hs.credited, hseen⟩
  | credit i now =>
    simp only [ShareLog.step] at hseen ⊢
    cases hi : l.checked[i]? with
    | none => exact hs
    | some x =>
      rw [hi] at hseen
      refine ⟨?_, hseen⟩
      show ((x.1 :: l.credited : List Hash) : Multiset Hash) = ↑(l.paid ++ [x.1]) + ↑l.recorded
      rw [← Multiset.cons_coe, hs.credited, ← Multiset.coe_add, Multiset.coe_singleton,
        ← Multiset.singleton_add]
      abel
  | record i =>
    simp only [ShareLog.step] at hseen ⊢
    cases hi : l.paid[i]? with
    | none => exact hs
    | some h =>
      rw [hi] at hseen
      refine ⟨?_, fun hn => ?_⟩
      · show (l.credited : Multiset Hash) = ↑(l.paid.eraseIdx i) + ↑(h :: l.recorded)
        rw [hs.credited, coe_eraseIdx hi, ← Multiset.cons_coe, ← Multiset.singleton_add,
          ← Multiset.singleton_add]
        abel
      · have hnew : (h :: l.recorded).Nodup :=
          Multiset.nodup_of_le (Multiset.le_add_left _ _) hn
        show remember l.node.seenShares h = _
        rw [hseen hn]
        exact remember_take hnew

theorem Sound.init (n : PoolNode) : (init n).Sound := ⟨rfl, fun _ => rfl⟩

/-- **Which calls keep the shares distinct.** -/
theorem nodup_step_iff (hs : l.Sound) (hn : l.shares.Nodup) :
    (l.step E B c).shares.Nodup ↔ l.Fresh E B c := by
  have hseen := hs.seen hn
  obtain ⟨hcp, hrec, hdisj⟩ := Multiset.nodup_add.1 hn
  cases c with
  | credit i now =>
    rcases step_shares E B l (.credit i now) with he | ⟨b, member, hc, -⟩
    · rw [he]
      exact iff_of_true hn trivial
    · cases hc
  | record i =>
    rcases step_shares E B l (.record i) with he | ⟨b, member, hc, -⟩
    · rw [he]
      exact iff_of_true hn trivial
    · cases hc
  | start b =>
    have hsplit : ∀ h, h ∈ l.recorded ↔
        h ∈ l.node.seenShares ∨ h ∈ l.recorded.drop (l.recorded.length % 200001) := by
      intro h
      rw [hseen, List.mem_toFinset, ← List.mem_append, List.take_append_drop]
    cases hstart : l.node.startShare E B b with
    | some member =>
      obtain ⟨hmode, hnew, hmember⟩ := startShare_eq_some.1 hstart
      rw [shares_start hstart, Multiset.nodup_cons, and_iff_left hn, shares, Multiset.mem_add,
        Multiset.mem_add, Multiset.mem_coe, Multiset.mem_coe, Multiset.mem_coe, hsplit,
        or_iff_right hnew, not_or, not_or, and_assoc]
      exact ⟨fun h _ _ => h, fun h => h hmode (by rw [hmember]; rfl)⟩
    | none =>
      have hshares : (l.step E B (.start b)).shares = l.shares := by
        simp only [step, hstart]
      rw [hshares]
      refine iff_of_true hn fun hmode hsome => ?_
      obtain ⟨member, hmember⟩ := Option.isSome_iff_exists.1 hsome
      have hold : b.hash E ∈ l.node.seenShares := by
        by_contra hnew
        rw [startShare_eq_some.2 ⟨hmode, hnew, hmember⟩] at hstart
        cases hstart
      have hmem : b.hash E ∈ (l.recorded : Multiset Hash) := (hsplit _).2 (.inl hold)
      refine ⟨fun h => ?_, fun h => ?_, fun h => ?_⟩
      · exact Multiset.disjoint_left.1 hdisj (Multiset.mem_add.2 (.inl h)) hmem
      · exact Multiset.disjoint_left.1 hdisj (Multiset.mem_add.2 (.inr h)) hmem
      · rw [hseen, List.mem_toFinset] at hold
        have happ : (l.recorded.take (l.recorded.length % 200001) ++
            l.recorded.drop (l.recorded.length % 200001)).Nodup := by
          rw [List.take_append_drop]
          exact hrec
        exact (List.nodup_append.1 happ).2.2 _ hold _ h rfl

/-- In a run, all shares that passed the checks are distinct exactly if every call is fresh. -/
theorem shares_run_iff (n : PoolNode) (calls : List ShareCall) :
    Runs.Always (step E B) (fun l => l.shares.Nodup) (init n) calls ↔
      Runs.Each (step E B) (Fresh E B) (init n) calls :=
  Runs.always_iff_each (Q := Sound) (D := fun _ => True) (fun _ c _ hs _ => hs.step c)
    (fun _ _ _ hs hn => nodup_step_iff hs hn) (fun _ _ => trivial) (.init n) Multiset.nodup_zero

theorem sound_run (n : PoolNode) (calls : List ShareCall) :
    Runs.Always (step E B) Sound (init n) calls :=
  Runs.always_of_each (C := fun _ _ => True) (fun _ c hs _ => hs.step c) (.init n)
    (Runs.each_true _)

/-- **Once.** In a run of fresh calls no share is credited twice, and in a run that is through, this
needs fresh calls. -/
theorem once_run_iff (E : Env) (B : Bech32) (n : PoolNode) (calls : List ShareCall) :
    (Runs.Each (step E B) (Fresh E B) (init n) calls →
        Runs.Always (step E B) (fun l => l.credited.Nodup) (init n) calls) ∧
      ((calls.foldl (step E B) (init n)).Idle →
        (Runs.Always (step E B) (fun l => l.credited.Nodup) (init n) calls ↔
          Runs.Each (step E B) (Fresh E B) (init n) calls)) := by
  have hsound := sound_run (E := E) (B := B) n calls
  have hfresh : Runs.Each (step E B) (Fresh E B) (init n) calls →
      Runs.Always (step E B) (fun l => l.credited.Nodup) (init n) calls := by
    intro h
    refine (((shares_run_iff n calls).2 h).and hsound).imp fun l ⟨hn, hs⟩ => ?_
    have hle : (l.credited : Multiset Hash) ≤ l.shares := by
      rw [hs.credited, shares, add_assoc]
      exact Multiset.le_add_left _ _
    exact Multiset.nodup_of_le hle hn
  refine ⟨hfresh, fun ⟨hchecked, hpaid⟩ => ⟨fun h => ?_, hfresh⟩⟩
  rw [← shares_run_iff]
  refine Runs.always_of_last (fun l c => nodup_of_step) ?_
  have hlast : ((calls.foldl (step E B) (init n)).credited : Multiset Hash).Nodup := h.last
  rw [hsound.last.credited, hpaid] at hlast
  rw [shares, hchecked, hpaid]
  simpa using hlast

/-! ## Calls one after the other -/

/-- The sections of a whole call. -/
def call (now : Nat) (b : Block) : List ShareCall := [.start b, .credit 0 now, .record 0]

/-- A call that no other comes between is `verify_and_credit_share`. -/
theorem foldl_call (hl : l.Idle) : (call now b).foldl (step E B) l =
    { l with
      node := (l.node.verifyAndCreditShare E B now b).1
      credited :=
        if (l.node.verifyAndCreditShare E B now b).2 then b.hash E :: l.credited else l.credited
      recorded :=
        if (l.node.verifyAndCreditShare E B now b).2 then b.hash E :: l.recorded
        else l.recorded } := by
  obtain ⟨node, checked, paid, credited, recorded⟩ := l
  obtain ⟨rfl, rfl⟩ := hl
  simp only [call, List.foldl_cons, List.foldl_nil, step, PoolNode.startShare,
    PoolNode.verifyAndCreditShare]
  by_cases hmode : node.poolMode = true
  · rw [if_neg (not_not.2 hmode), if_neg (not_not.2 hmode)]
    by_cases hseen : b.hash E ∈ node.seenShares
    · rw [if_pos hseen, if_pos hseen]
      rfl
    · rw [if_neg hseen, if_neg hseen]
      cases shareMember E B node.pool.address b with
      | none => rfl
      | some member => rfl
  · rw [if_pos hmode, if_pos hmode]
    rfl

/-- A share that is not among those seen is credited. -/
theorem call_ok (now : Nat) (hmode : l.node.poolMode = true) (hl : l.Idle)
    (hseen : b.hash E ∉ l.node.seenShares)
    (hmember : (shareMember E B l.node.pool.address b).isSome) :
    let l' := (call now b).foldl (step E B) l
    l'.Idle ∧ l'.node.poolMode = true ∧ l'.node.pool.address = l.node.pool.address ∧
      (∀ h ∈ l'.node.seenShares, h = b.hash E ∨ h ∈ l.node.seenShares) ∧
      l'.recorded = b.hash E :: l.recorded ∧ l'.credited = b.hash E :: l.credited := by
  obtain ⟨member, hmember⟩ := Option.isSome_iff_exists.1 hmember
  have hver : l.node.verifyAndCreditShare E B now b =
      ({ l.node with
          pool := l.node.pool.addShare now member
          seenShares := remember l.node.seenShares (b.hash E) }, true) := by
    unfold PoolNode.verifyAndCreditShare
    rw [if_neg (not_not.2 hmode), if_neg hseen, hmember]
  simp only [foldl_call hl, hver]
  refine ⟨hl, hmode, rfl, fun h hh => ?_, rfl, rfl⟩
  unfold remember at hh
  split at hh
  · exact absurd hh (Finset.notMem_empty _)
  · exact Finset.mem_insert.1 hh

/-- Shares that were not recorded before, and are credited one after the other. -/
theorem foldl_calls (now : Nat) {bs : List Block} (hmode : l.node.poolMode = true) (hl : l.Idle)
    (hsub : ∀ h ∈ l.node.seenShares, h ∈ l.recorded)
    (hvalid : ∀ b ∈ bs, (shareMember E B l.node.pool.address b).isSome)
    (hnd : (bs.map (·.hash E)).Nodup) (hnew : ∀ b ∈ bs, b.hash E ∉ l.recorded) :
    let l' := (bs.flatMap (call now)).foldl (step E B) l
    l'.Idle ∧ l'.node.poolMode = true ∧ l'.node.pool.address = l.node.pool.address ∧
      l'.recorded = (bs.map (·.hash E)).reverse ++ l.recorded := by
  induction bs generalizing l with
  | nil => exact ⟨hl, hmode, rfl, rfl⟩
  | cons b bs ih =>
    obtain ⟨hbs, hnd'⟩ := List.nodup_cons.1 hnd
    have hseen : b.hash E ∉ l.node.seenShares := fun h => hnew b List.mem_cons_self (hsub _ h)
    have hcall := call_ok now hmode hl hseen (hvalid b List.mem_cons_self)
    rw [List.flatMap_cons, List.foldl_append]
    generalize (call now b).foldl (step E B) l = l₁ at hcall ⊢
    obtain ⟨hl₁, hmode₁, haddr₁, hseen₁, hrec₁, -⟩ := hcall
    have hrest := ih hmode₁ hl₁ (fun h hh => ?_) (fun b' hb' => ?_) hnd' fun b' hb' => ?_
    · obtain ⟨hidle, hmode', haddr, hrec⟩ := hrest
      refine ⟨hidle, hmode', haddr.trans haddr₁, hrec.trans ?_⟩
      rw [hrec₁, List.map_cons, List.reverse_cons, List.append_assoc]
      rfl
    · rw [hrec₁]
      rcases hseen₁ h hh with rfl | hh
      · exact List.mem_cons_self
      · exact List.mem_cons_of_mem _ (hsub h hh)
    · rw [haddr₁]
      exact hvalid b' (List.mem_cons_of_mem _ hb')
    · rw [hrec₁, List.mem_cons, not_or]
      refine ⟨fun he => hbs ?_, hnew b' (List.mem_cons_of_mem _ hb')⟩
      exact List.mem_map.2 ⟨b', hb', he⟩

/-- **After 200,001 shares**, each of them is credited again. -/
theorem credited_again {n : PoolNode} {bs : List Block} (now : Nat) (hmode : n.poolMode = true)
    (hvalid : ∀ b ∈ bs, (shareMember E B n.pool.address b).isSome)
    (hnd : (bs.map (·.hash E)).Nodup) (hlen : bs.length = 200001) (hb : b ∈ bs) :
    ¬Runs.Always (step E B) (fun l => l.credited.Nodup) (init n)
      ((bs ++ [b]).flatMap (call now)) := by
  intro h
  obtain ⟨hidle, hmode', haddr, hrec⟩ := foldl_calls (E := E) (B := B) now
    (l := init n) hmode ⟨rfl, rfl⟩ (fun _ hh => absurd hh (Finset.notMem_empty _)) hvalid hnd
    fun _ _ => List.not_mem_nil
  have hsound := (sound_run (E := E) (B := B) n (bs.flatMap (call now))).last
  have hlast := h.last
  rw [List.flatMap_append, List.foldl_append, List.flatMap_singleton] at hlast
  generalize (bs.flatMap (call now)).foldl (step E B) (init n) = l at *
  rw [show (init n).recorded = [] from rfl, List.append_nil] at hrec
  have hmem : b.hash E ∈ l.recorded := by
    rw [hrec, List.mem_reverse]
    exact List.mem_map_of_mem hb
  have hcredited : (l.credited : Multiset Hash) = ↑l.recorded := by
    rw [hsound.credited, hidle.2, Multiset.coe_nil, zero_add]
  -- the last of the shares cleared the memory
  have hseen : l.node.seenShares = ∅ := by
    have hnodup : l.shares.Nodup := by
      rw [shares, hidle.1, hidle.2, hrec]
      simpa using hnd
    have hclear := hsound.seen hnodup
    rwa [hrec, List.length_reverse, List.length_map, hlen, Nat.mod_self, List.take_zero,
      List.toFinset_nil] at hclear
  have hvalid' : (shareMember E B l.node.pool.address b).isSome := by
    rw [haddr]
    exact hvalid b hb
  obtain ⟨-, -, -, -, -, hagain⟩ := call_ok now hmode' hidle
    (hseen ▸ Finset.notMem_empty (b.hash E)) hvalid'
  rw [hagain] at hlast
  have hmem' : b.hash E ∈ (l.credited : Multiset Hash) := hcredited ▸ hmem
  exact (List.nodup_cons.1 hlast).1 hmem'

end ShareLog

open Sample in
theorem shareMember_share (nonce : Nat) :
    shareMember env bech32 "zentradev1pool" (share nonce) = some "zentradev1member" := by
  refine shareMember_eq_some.2 ⟨⟨shareCoinbase, rfl, by decide +kernel, by decide +kernel, ?_⟩,
    Nat.zero_le _⟩
  exact decide_eq_true rfl

open Sample in
/-- 200,001 shares, and the first of them again. -/
theorem share_credited_twice :
    ¬∀ (E : Env) (B : Bech32) (n : PoolNode) (calls : List ShareCall),
      Runs.Always (ShareLog.step E B) (fun l => l.credited.Nodup) (ShareLog.init n) calls := by
  intro h
  obtain ⟨bs, hvalid, hnd, hlen, hmem⟩ : ∃ bs : List Block,
      (∀ b ∈ bs, (shareMember env bech32 poolNode.pool.address b).isSome) ∧
        (bs.map (·.hash env)).Nodup ∧ bs.length = 200001 ∧ share 0 ∈ bs := by
    refine ⟨(List.range 200001).map share, fun b hb => ?_, ?_, ?_, ?_⟩
    · obtain ⟨nonce, -, rfl⟩ := List.mem_map.1 hb
      rw [show poolNode.pool.address = "zentradev1pool" from rfl, shareMember_share]
      rfl
    · rw [List.map_map]
      refine List.Nodup.map (fun i j hij => ?_) List.nodup_range
      have hval : 1 + i = 1 + j := congrArg Hash.val hij
      omega
    · rw [List.length_map, List.length_range]
    · exact List.mem_map.2 ⟨0, List.mem_range.2 (by decide), rfl⟩
  exact ShareLog.credited_again 0 rfl hvalid hnd hlen hmem (h env bech32 poolNode _)

end Zentra

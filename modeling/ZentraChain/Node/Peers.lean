import ZentraChain.Lib.Runs

/-!
# The peer table (`p2p_sync.rs`)

Peers are learned from a `hello` (the address it comes from, and those it shares), from an `addrs`
message, and from the answer to a `hello` of one's own. Addresses of a `hello` are compared with the
table one by one; those of an `addrs` message are all compared before the first of them is added.

* `PeerTable.step_length`: the table never grows beyond its bound.
* `PeerTable.valid_step_iff`: which message keeps it free of duplicates.
* `PeerTable.valid_run_iff`: and which runs do.
-/

namespace Zentra

/-- `serde_json::Value`; a number is a `u64` or another one. -/
inductive Value
  | null
  | bool (b : Bool)
  | number (u64 : Option UInt64)
  | string (s : String)
  | array (elems : List Value)
  | object (fields : List (String × Value))

namespace Value

def asStr : Value → Option String
  | string s => some s
  | _ => none

def asArray : Value → Option (List Value)
  | array elems => some elems
  | _ => none

def asU64 : Value → Option UInt64
  | number u64 => u64
  | _ => none

/-- `msg[key]`: null if there is no such field. -/
def field (key : String) : Value → Value
  | object fields => (fields.lookup key).getD null
  | _ => null

/-- The texts in an array. -/
def strings (elems : List Value) : List String := elems.filterMap asStr

end Value

namespace PeerTable

/-- `!a.is_empty() && a.contains(':')`. -/
def Acceptable (a : String) : Prop := a ≠ "" ∧ ':' ∈ a.toList

instance : DecidablePred Acceptable := fun _ => inferInstanceAs (Decidable (_ ∧ _))

def maxPeers : Nat := 256

/-- The address that a `hello` comes from, with the port it names. The socket's own IP is written as
text. -/
def addReachable (peers : List String) (ip : Option String) (msg : Value) : List String :=
  match (msg.field "p2p_port").asU64, ip with
  | some port, some ip =>
    let reachable := ip ++ ":" ++ toString port
    if peers.length < maxPeers ∧ reachable ∉ peers then peers ++ [reachable] else peers
  | _, _ => peers

/-- The loop of `merge_peers`. -/
def mergeLoop : List String → List String → List String
  | peers, [] => peers
  | peers, a :: rest =>
    if peers.length ≥ maxPeers then peers
    else if Acceptable a ∧ a ∉ peers then mergeLoop (peers ++ [a]) rest
    else mergeLoop peers rest

/-- `merge_peers`. -/
def mergePeers (peers : List String) (val : Value) : List String :=
  match val.asArray with
  | some elems => mergeLoop peers (Value.strings elems)
  | none => peers

/-- The addresses of an `addrs` message that are added to a table: acceptable ones that it does not have,
as many as there is room for and at most 50. -/
def added (peers : List String) (elems : List Value) : List String :=
  ((Value.strings elems).filter fun a => Acceptable a ∧ a ∉ peers).take
    (min 50 (maxPeers - peers.length))

def addAddrs (peers : List String) (msg : Value) : List String :=
  match (msg.field "addrs").asArray with
  | some elems => peers ++ added peers elems
  | none => peers

/-- What changes the table. -/
inductive Call
  /-- A message, over a socket whose peer has this IP, if it is known. -/
  | inbound (ip : Option String) (msg : Value)
  /-- The peers shared in the answer to a `hello` of one's own. -/
  | learned (val : Value)

/-- The table after a call. A peer of another network is dropped; messages of other types leave the
table as it is. -/
def step (net genesis : String) (peers : List String) : Call → List String
  | .inbound ip msg =>
    let type := (msg.field "t").asStr.getD ""
    if type = "hello" then
      if (msg.field "net").asStr ≠ some net ∨ (msg.field "genesis").asStr ≠ some genesis then peers
      else mergePeers (addReachable peers ip msg) (msg.field "peers")
    else if type = "addrs" then addAddrs peers msg
    else peers
  | .learned val => mergePeers peers val

/-- No duplicates, and not too many. -/
structure Valid (peers : List String) : Prop where
  nodup : peers.Nodup
  length : peers.length ≤ maxPeers

variable {net genesis : String} {peers : List String}

/-! ## One address at a time -/

/-- `P` survives a new address, if there is room for it. -/
def Kept (P : List String → Prop) : Prop :=
  ∀ peers a, P peers → peers.length < maxPeers → a ∉ peers → P (peers ++ [a])

theorem kept_length : Kept fun peers => peers.length ≤ maxPeers := by
  intro peers a _ hlt _
  simpa using hlt

theorem kept_valid : Kept Valid := by
  intro peers a h hlt ha
  refine ⟨?_, kept_length peers a h.length hlt ha⟩
  rw [List.nodup_append_comm, List.singleton_append, List.nodup_cons]
  exact ⟨ha, h.nodup⟩

section
variable {P : List String → Prop} (hP : Kept P)
include hP

theorem Kept.addReachable (h : P peers) (ip : Option String) (msg : Value) :
    P (addReachable peers ip msg) := by
  unfold PeerTable.addReachable
  split
  · dsimp only
    split_ifs with hnew
    · exact hP _ _ h hnew.1 hnew.2
    · exact h
  · exact h

theorem Kept.mergeLoop (h : P peers) (addrs : List String) : P (mergeLoop peers addrs) := by
  induction addrs generalizing peers with
  | nil => exact h
  | cons a rest ih =>
    rw [PeerTable.mergeLoop]
    split_ifs with hfull hnew
    · exact h
    · exact ih (hP _ _ h (Nat.not_le.1 hfull) hnew.2)
    · exact ih h

theorem Kept.mergePeers (h : P peers) (val : Value) : P (mergePeers peers val) := by
  unfold PeerTable.mergePeers
  split
  · exact hP.mergeLoop h _
  · exact h

end

/-! ## A whole message at once -/

theorem length_addAddrs (h : peers.length ≤ maxPeers) (msg : Value) :
    (addAddrs peers msg).length ≤ maxPeers := by
  unfold addAddrs
  split
  · rw [List.length_append, added, List.length_take]
    omega
  · exact h

/-- The addresses that an `addrs` message would add to the table are all different. -/
def Distinct (peers : List String) (msg : Value) : Prop :=
  ∀ elems, (msg.field "addrs").asArray = some elems → (added peers elems).Nodup

theorem notMem_of_mem_added {elems : List Value} {a : String} (h : a ∈ added peers elems) :
    a ∉ peers := by
  have hfilter := List.mem_of_mem_take h
  rw [List.mem_filter, decide_eq_true_eq] at hfilter
  exact hfilter.2.2

theorem nodup_addAddrs_iff (h : peers.Nodup) (msg : Value) :
    (addAddrs peers msg).Nodup ↔ Distinct peers msg := by
  unfold addAddrs Distinct
  cases (msg.field "addrs").asArray with
  | none => simp [h]
  | some elems =>
    have hdisj : ∀ a ∈ peers, ∀ b ∈ added peers elems, a ≠ b := by
      intro a ha b hb hab
      exact notMem_of_mem_added hb (hab ▸ ha)
    simp only [List.nodup_append, Option.some.injEq, forall_eq']
    exact ⟨fun hnd => hnd.2.1, fun hnd => ⟨h, hnd, hdisj⟩⟩

/-! ## Calls -/

/-- A call that is not an `addrs` message whose new addresses repeat. -/
def NoRepeat (peers : List String) : Call → Prop
  | .inbound _ msg => (msg.field "t").asStr = some "addrs" → Distinct peers msg
  | .learned _ => True

/-- A call is an `addrs` message, or adds one address after the other. -/
theorem step_cases {P : List String → Prop} (hP : Kept P) (h : P peers) (c : Call) :
    (∃ ip msg, c = .inbound ip msg ∧ (msg.field "t").asStr = some "addrs" ∧
      step net genesis peers c = addAddrs peers msg) ∨
    (P (step net genesis peers c) ∧ NoRepeat peers c) := by
  cases c with
  | learned val => exact .inr ⟨hP.mergePeers h val, trivial⟩
  | inbound ip msg =>
    by_cases htype : (msg.field "t").asStr = some "addrs"
    · exact .inl ⟨ip, msg, rfl, htype, by simp [step, htype]⟩
    · refine .inr ⟨?_, fun haddrs => absurd haddrs htype⟩
      have hother : (msg.field "t").asStr.getD "" ≠ "addrs" := by
        intro heq
        cases ht : (msg.field "t").asStr with
        | none => simp [ht] at heq
        | some t => exact htype (by simpa [ht] using heq)
      simp only [step, if_neg hother]
      split_ifs
      · exact h
      · exact hP.mergePeers (hP.addReachable h ip msg) _
      · exact h

/-- **The bound holds**, whatever the message. -/
theorem step_length (h : peers.length ≤ maxPeers) (c : Call) :
    (step net genesis peers c).length ≤ maxPeers := by
  rcases step_cases kept_length h c with ⟨ip, msg, -, -, heq⟩ | ⟨hlen, -⟩
  · rw [heq]
    exact length_addAddrs h msg
  · exact hlen

/-- In a run, too. -/
theorem length_run (net genesis : String) (calls : List Call) (h : peers.length ≤ maxPeers) :
    Runs.Always (step net genesis) (fun peers => peers.length ≤ maxPeers) peers calls :=
  Runs.always_of_each (fun _ c hlen _ => step_length hlen c) h (Runs.each_true calls)

/-- **Which calls keep the table valid.** -/
theorem valid_step_iff (h : Valid peers) (c : Call) :
    Valid (step net genesis peers c) ↔ NoRepeat peers c := by
  rcases @step_cases net genesis peers Valid kept_valid h c with
    ⟨ip, msg, rfl, htype, heq⟩ | ⟨hvalid, hrepeat⟩
  · rw [heq, NoRepeat, ← nodup_addAddrs_iff h.nodup]
    exact ⟨fun hv _ => hv.nodup, fun hnd => ⟨hnd htype, length_addAddrs h.length msg⟩⟩
  · exact iff_of_true hvalid hrepeat

/-- **The peer table.** A table that is valid at first is valid throughout a run exactly if no `addrs`
message adds an address twice. -/
theorem valid_run_iff (net genesis : String) (calls : List Call) (h : Valid peers) :
    Runs.Always (step net genesis) Valid peers calls ↔
      Runs.Each (step net genesis) NoRepeat peers calls :=
  Runs.always_iff_each (Q := fun _ => True) (D := fun _ => True) (fun _ _ _ _ _ => trivial)
    (fun _ c _ _ hv => valid_step_iff hv c) (fun _ _ => trivial) trivial h

end PeerTable

namespace Sample

/-- An `addrs` message with an address twice. -/
def repeated : Value :=
  .object [("addrs", .array [.string "10.0.0.1:1", .string "10.0.0.1:1"]), ("t", .string "addrs")]

end Sample

theorem PeerTable.valid_run_repeated :
    Runs.Always (step "devnet" "00") Valid [] [.inbound none Sample.repeated] ↔
      Runs.Each (step "devnet" "00") NoRepeat [] [.inbound none Sample.repeated] :=
  valid_run_iff "devnet" "00" _ ⟨List.nodup_nil, by decide⟩

/-- The address is in the table twice. -/
theorem PeerTable.repeated_twice : ¬∀ (net genesis : String) (peers : List String) (calls : List Call),
    Valid peers → Runs.Always (step net genesis) Valid peers calls := by
  intro h
  have hrun := (h "devnet" "00" [] [.inbound none Sample.repeated]
    ⟨List.nodup_nil, by decide⟩).last
  exact absurd hrun.nodup (by decide +kernel)

end Zentra

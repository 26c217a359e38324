import Mathlib.Data.List.Basic
import Mathlib.Tactic

/-!
# Dialogues over two queues

A client sends questions over one queue and reads answers from another; a server takes the questions
in their order, and answers those of some kinds. Both take their steps in any order. A step of the
client can fail, an answer can be unreadable, and what else either side does may change its state.

* `InStep`, `Run.inStep`: the `n`-th answer read is that to the `n`-th question asked, and how many
  questions the reader lags behind.
* `quiet_unique`: without failures and other changes, all orders of the steps lead to the same end.
* `Leads.tell`, `Leads.ask`: two or three steps amount to a call of the server.
-/

/-! ## Orders of steps -/

section
variable {γ : Type*}

/-- So many steps. -/
inductive Steps (r : γ → γ → Prop) : ℕ → γ → γ → Prop
  | refl (a : γ) : Steps r 0 a a
  | head {n : ℕ} {a b c : γ} : r a b → Steps r n b c → Steps r (n + 1) a c

/-- Two steps from one state can be made up for. -/
def Diamond (r : γ → γ → Prop) : Prop := ∀ a b c, r a b → r a c → b = c ∨ ∃ d, r b d ∧ r c d

variable {r : γ → γ → Prop} {a b z : γ} {m n : ℕ}

theorem Steps.of_reflTransGen (h : Relation.ReflTransGen r a z) : ∃ n, Steps r n a z := by
  induction h using Relation.ReflTransGen.head_induction_on with
  | refl => exact ⟨0, .refl _⟩
  | head hab _ ih =>
    obtain ⟨n, hn⟩ := ih
    exact ⟨n + 1, .head hab hn⟩

/-- A step of another order is on the way to the end as well. -/
theorem Steps.strip (hd : Diamond r) (hz : ∀ d, ¬r z d) (h : Steps r n a z) (hab : r a b) :
    ∃ k, n = k + 1 ∧ Steps r k b z := by
  induction h generalizing b with
  | refl a => exact absurd hab (hz b)
  | @head k a c z hac hcz ih =>
    refine ⟨k, rfl, ?_⟩
    obtain rfl | ⟨d, hbd, hcd⟩ := hd a b c hab hac
    · exact hcz
    · obtain ⟨j, hj, hdz⟩ := ih hz hcd
      rw [hj]
      exact .head hbd hdz

/-- **All orders take equally many steps to the same end.** -/
theorem Steps.unique (hd : Diamond r) (hz : ∀ d, ¬r z d) (h : Steps r n a z) (hm : Steps r m a b) :
    m ≤ n ∧ Steps r (n - m) b z := by
  induction hm generalizing n with
  | refl a => exact ⟨Nat.zero_le n, h⟩
  | head hab _ ih =>
    obtain ⟨k, hk, hbz⟩ := h.strip hd hz hab
    obtain ⟨hle, hrest⟩ := ih hbz
    rw [hk, Nat.add_sub_add_right]
    exact ⟨Nat.succ_le_succ hle, hrest⟩

end

namespace Dialogue

variable {α β ω Q R : Type*}

/-- What a client does next. -/
inductive Move (α ω Q R : Type*)
  /-- Send; how to go on after it, and after a failure. -/
  | send (q : Q) (ok err : ω)
  /-- Read; how to go on after an answer, and after a failure. -/
  | recv (ok : R → ω) (err : ω)
  | work (a : α) (w : ω)
  | stop

/-- An answer is read after each question that has one, and at no other time. -/
def Move.Disciplined (asks : Q → Bool) (waiting : ω → Bool) (w : ω) : Move α ω Q R → Prop
  | .send q ok _ => waiting w = false ∧ waiting ok = asks q
  | .recv ok err => waiting w = true ∧ (∀ r, waiting (ok r) = false) ∧ waiting err = false
  | .work _ w' => waiting w = false ∧ waiting w' = false
  | .stop => waiting w = false

/-- A client and a server. -/
structure Program (α β ω Q R : Type*) where
  next : ω → α → Move α ω Q R
  serve : β → Q → Option R × β
  /-- Is there an answer to the question? -/
  asks : Q → Bool
  /-- Can the answer be read? -/
  readable : R → Bool
  /-- Is an answer read next? -/
  waiting : ω → Bool
  serve_asks : ∀ b q, (serve b q).1.isSome = asks q
  disciplined : ∀ w a, (next w a).Disciplined asks waiting w

/-- The sides, and the queues between them. -/
structure Core (α β ω Q R : Type*) where
  phase : ω
  client : α
  server : β
  /-- sent and not yet taken -/
  requests : List Q
  /-- sent and not yet read -/
  replies : List R

/-- And what has been said. -/
structure State (α β ω Q R : Type*) extends Core α β ω Q R where
  asked : List Q
  /-- the questions answered, with the server's state before each -/
  served : List (Q × β)
  read : List R
  /-- waits that failed -/
  missed : ℕ
  /-- waits for an answer to what could not be sent -/
  unasked : ℕ

/-- Before anything is said. -/
def start (w : ω) (a : α) (b : β) : State α β ω Q R := ⟨⟨w, a, b, [], []⟩, [], [], [], 0, 0⟩

variable (P : Program α β ω Q R)

/-- The server takes a question. -/
def State.serve (s : State α β ω Q R) (q : Q) (qs : List Q) : State α β ω Q R :=
  { s with
    server := (P.serve s.server q).2
    requests := qs
    replies := s.replies ++ (P.serve s.server q).1.toList
    served := if P.asks q then s.served ++ [(q, s.server)] else s.served }

/-- The client has sent a question. -/
def State.sent (s : State α β ω Q R) (q : Q) (w : ω) : State α β ω Q R :=
  { s with
    phase := w
    requests := s.requests ++ [q]
    asked := if P.asks q then s.asked ++ [q] else s.asked }

/-- A step of a side, or another change of its state in `A` or `B`. -/
inductive Step (A : α → α → Prop) (B : β → β → Prop) : State α β ω Q R → State α β ω Q R → Prop
  | send {s : State α β ω Q R} {q : Q} {ok err : ω} (h : P.next s.phase s.client = .send q ok err) :
    Step A B s (s.sent P q ok)
  | sendFails {s : State α β ω Q R} {q : Q} {ok err : ω}
    (h : P.next s.phase s.client = .send q ok err) :
    Step A B s { s with phase := err, unasked := if P.waiting err then s.unasked + 1 else s.unasked }
  | recv {s : State α β ω Q R} {ok : R → ω} {err : ω} {r : R} {rs : List R}
    (h : P.next s.phase s.client = .recv ok err) (hr : s.replies = r :: rs)
    (hread : P.readable r = true) :
    Step A B s { s with phase := ok r, replies := rs, read := s.read ++ [r] }
  | recvFails {s : State α β ω Q R} {ok : R → ω} {err : ω}
    (h : P.next s.phase s.client = .recv ok err) :
    Step A B s { s with phase := err, missed := s.missed + 1 }
  | work {s : State α β ω Q R} {a : α} {w : ω} (h : P.next s.phase s.client = .work a w) :
    Step A B s { s with client := a, phase := w }
  | serve {s : State α β ω Q R} {q : Q} {qs : List Q} (hq : s.requests = q :: qs) :
    Step A B s (s.serve P q qs)
  | client {s : State α β ω Q R} {a : α} (h : A s.client a) : Step A B s { s with client := a }
  | server {s : State α β ω Q R} {b : β} (h : B s.server b) : Step A B s { s with server := b }

/-- Any number of steps. -/
def Run (A : α → α → Prop) (B : β → β → Prop) : State α β ω Q R → State α β ω Q R → Prop :=
  Relation.ReflTransGen (Step P A B)

/-! ## In step -/

/-- The answers are those to the first questions, in their order. -/
structure InStep (s : State α β ω Q R) : Prop where
  asked : s.asked = s.served.map (·.1) ++ s.requests.filter P.asks
  answers : s.served.map (fun x => (P.serve x.2 x.1).1) = (s.read ++ s.replies).map some
  readable : ∀ r ∈ s.read, P.readable r = true
  count : s.asked.length + s.unasked = s.read.length + s.missed + if P.waiting s.phase then 1 else 0

variable {P} {A : α → α → Prop} {B : β → β → Prop} {s t u : State α β ω Q R}

theorem Program.send_waiting {w ok err : ω} {a : α} {q : Q} (h : P.next w a = .send q ok err) :
    P.waiting w = false ∧ P.waiting ok = P.asks q := by
  have hd := P.disciplined w a
  rwa [h] at hd

theorem Program.recv_waiting {w err : ω} {a : α} {ok : R → ω} (h : P.next w a = .recv ok err) :
    P.waiting w = true ∧ (∀ r, P.waiting (ok r) = false) ∧ P.waiting err = false := by
  have hd := P.disciplined w a
  rwa [h] at hd

theorem Program.work_waiting {w w' : ω} {a a' : α} (h : P.next w a = .work a' w') :
    P.waiting w = false ∧ P.waiting w' = false := by
  have hd := P.disciplined w a
  rwa [h] at hd

/-- **The sides stay in step.** -/
theorem InStep.step (hi : InStep P s) (h : Step P A B s t) : InStep P t := by
  cases h with
  | @send q ok err h =>
    obtain ⟨hw, hok⟩ := Program.send_waiting h
    have hcount := hi.count
    refine ⟨?_, hi.answers, hi.readable, ?_⟩
    · show (if P.asks q then s.asked ++ [q] else s.asked) =
        s.served.map (·.1) ++ (s.requests ++ [q]).filter P.asks
      rw [List.filter_append, hi.asked]
      by_cases hq : P.asks q = true <;> simp [hq]
    · show (if P.asks q then s.asked ++ [q] else s.asked).length + s.unasked =
        s.read.length + s.missed + if P.waiting ok then 1 else 0
      rw [hok]
      by_cases hq : P.asks q = true <;> simp [hq, hw] at hcount ⊢ <;> omega
  | @sendFails q ok err h =>
    obtain ⟨hw, -⟩ := Program.send_waiting h
    have hcount := hi.count
    refine ⟨hi.asked, hi.answers, hi.readable, ?_⟩
    show s.asked.length + (if P.waiting err then s.unasked + 1 else s.unasked) =
      s.read.length + s.missed + if P.waiting err then 1 else 0
    by_cases he : P.waiting err = true <;> simp [he, hw] at hcount ⊢ <;> omega
  | @recv ok err r rs h hr hread =>
    obtain ⟨hw, hok, -⟩ := Program.recv_waiting h
    have hcount := hi.count
    refine ⟨hi.asked, ?_, fun x hx => ?_, ?_⟩
    · show _ = ((s.read ++ [r]) ++ rs).map some
      rw [List.append_assoc, List.singleton_append, ← hr]
      exact hi.answers
    · rcases List.mem_append.1 hx with hx | hx
      · exact hi.readable x hx
      · rw [List.mem_singleton.1 hx]
        exact hread
    · show s.asked.length + s.unasked =
        (s.read ++ [r]).length + s.missed + if P.waiting (ok r) then 1 else 0
      rw [hok r]
      simp [hw] at hcount ⊢
      omega
  | @recvFails ok err h =>
    obtain ⟨hw, -, herr⟩ := Program.recv_waiting h
    have hcount := hi.count
    refine ⟨hi.asked, hi.answers, hi.readable, ?_⟩
    show s.asked.length + s.unasked = s.read.length + (s.missed + 1) + if P.waiting err then 1 else 0
    simp [hw, herr] at hcount ⊢
    omega
  | @work a w h =>
    obtain ⟨hw, hw'⟩ := Program.work_waiting h
    refine ⟨hi.asked, hi.answers, hi.readable, ?_⟩
    have hcount := hi.count
    rw [hw] at hcount
    show s.asked.length + s.unasked = s.read.length + s.missed + if P.waiting w then 1 else 0
    rw [hw']
    exact hcount
  | @serve q qs hq =>
    have hasked := hi.asked
    rw [hq, List.filter_cons] at hasked
    have hsome := P.serve_asks s.server q
    refine ⟨?_, ?_, hi.readable, hi.count⟩
    · show s.asked = (if P.asks q then s.served ++ [(q, s.server)] else s.served).map (·.1) ++
        qs.filter P.asks
      rw [hasked]
      by_cases ha : P.asks q = true <;> simp [ha]
    · show (if P.asks q then s.served ++ [(q, s.server)] else s.served).map _ =
        (s.read ++ (s.replies ++ (P.serve s.server q).1.toList)).map some
      rw [← List.append_assoc, List.map_append, ← hi.answers]
      cases ha : P.asks q with
      | true =>
        rw [ha] at hsome
        obtain ⟨r, hr⟩ := Option.isSome_iff_exists.1 hsome
        simp [hr]
      | false =>
        rw [ha] at hsome
        rw [Option.isSome_eq_false_iff, Option.isNone_iff_eq_none] at hsome
        simp [hsome]
  | client h => exact ⟨hi.asked, hi.answers, hi.readable, hi.count⟩
  | server h => exact ⟨hi.asked, hi.answers, hi.readable, hi.count⟩

/-- **An answer read is that to the question with the same number.** -/
theorem InStep.answered (hi : InStep P s) {n : ℕ} {r : R} (h : s.read[n]? = some r) :
    ∃ q b, s.asked[n]? = some q ∧ s.served[n]? = some (q, b) ∧ (P.serve b q).1 = some r := by
  obtain ⟨hlt, hget⟩ := List.getElem?_eq_some_iff.1 h
  have hans : (s.served.map fun x => (P.serve x.2 x.1).1)[n]? = some (some r) := by
    rw [hi.answers, List.map_append, List.getElem?_append_left (by simpa using hlt),
      List.getElem?_map, h]
    rfl
  rw [List.getElem?_map, Option.map_eq_some_iff] at hans
  obtain ⟨⟨q, b⟩, hserved, hr⟩ := hans
  refine ⟨q, b, ?_, hserved, hr⟩
  have hlen : n < (s.served.map (·.1)).length := by
    rw [List.length_map]
    exact (List.getElem?_eq_some_iff.1 hserved).1
  rw [hi.asked, List.getElem?_append_left hlen, List.getElem?_map, hserved]
  rfl

/-- While nothing has failed, an answer that can be read is that to the last question. -/
theorem InStep.current (hi : InStep P s) (hm : s.missed = 0) (hu : s.unasked = 0)
    (hw : P.waiting s.phase = true) {r : R} {rs : List R} (hr : s.replies = r :: rs) :
    rs = [] ∧ ∃ q b, s.asked.getLast? = some q ∧ s.served.getLast? = some (q, b) ∧
      (P.serve b q).1 = some r := by
  have hcount := hi.count
  rw [hm, hu, hw, if_pos rfl] at hcount
  have hlen := congrArg List.length hi.answers
  have hask := congrArg List.length hi.asked
  rw [hr] at hlen
  simp only [List.length_map, List.length_append, List.length_cons] at hlen hask
  have hrs : rs = [] := List.eq_nil_of_length_eq_zero (by omega)
  refine ⟨hrs, ?_⟩
  have hans : (s.served.map fun x => (P.serve x.2 x.1).1).getLast? = some (some r) := by
    rw [hi.answers, hr, hrs]
    simp
  rw [List.getLast?_map, Option.map_eq_some_iff] at hans
  obtain ⟨⟨q, b⟩, hserved, hqr⟩ := hans
  refine ⟨q, b, ?_, hserved, hqr⟩
  have hnil : s.requests.filter P.asks = [] := List.eq_nil_of_length_eq_zero (by omega)
  rw [hi.asked, hnil, List.append_nil, List.getLast?_map, hserved]
  rfl

/-! ## The sides for themselves -/

/-- The server's state, and those it answered in, come after `b`. -/
structure After (I : β → β → Prop) (b : β) (s : State α β ω Q R) : Prop where
  server : I b s.server
  served : ∀ x ∈ s.served, I b x.2

theorem Run.after {I : β → β → Prop} (htrans : ∀ {a b c}, I a b → I b c → I a c)
    (hserve : ∀ b q, I b (P.serve b q).2) (hB : ∀ b b', B b b' → I b b') {b : β}
    (h : Run P A B s t) (hs : After I b s) : After I b t := by
  induction h with
  | refl => exact hs
  | @tail t u _ hst ih =>
    cases hst with
    | @serve q qs hq =>
      refine ⟨htrans ih.server (hserve _ q), fun x hx => ?_⟩
      change x ∈ (if P.asks q then t.served ++ [(q, t.server)] else t.served) at hx
      split_ifs at hx
      · rcases List.mem_append.1 hx with hx | hx
        · exact ih.served x hx
        · rw [List.mem_singleton.1 hx]
          exact ih.server
      · exact ih.served x hx
    | server h => exact ⟨htrans ih.server (hB _ _ h), ih.served⟩
    | _ => exact ⟨ih.server, ih.served⟩

/-! ## Quiet runs -/

variable (P) in
/-- The client's next step, unless it waits or has ended: nothing fails but what cannot be read. -/
def clientStep (c : Core α β ω Q R) : Option (Core α β ω Q R) :=
  match P.next c.phase c.client with
  | .send q ok _ => some { c with phase := ok, requests := c.requests ++ [q] }
  | .recv ok err =>
    match c.replies with
    | [] => none
    | r :: rs =>
      some (if P.readable r then { c with phase := ok r, replies := rs } else { c with phase := err })
  | .work a w => some { c with client := a, phase := w }
  | .stop => none

variable (P) in
/-- The server's next step. -/
def serverStep (c : Core α β ω Q R) : Option (Core α β ω Q R) :=
  match c.requests with
  | [] => none
  | q :: qs =>
    some { c with
      server := (P.serve c.server q).2
      requests := qs
      replies := c.replies ++ (P.serve c.server q).1.toList }

variable (P) in
/-- A step without failures and other changes. -/
inductive Quiet : Core α β ω Q R → Core α β ω Q R → Prop
  | client {c d : Core α β ω Q R} : clientStep P c = some d → Quiet c d
  | server {c d : Core α β ω Q R} : serverStep P c = some d → Quiet c d

variable {c d d' : Core α β ω Q R}

/-- The sides do not come in each other's way. -/
theorem clientStep_serverStep (h : clientStep P c = some d) (h' : serverStep P c = some d') :
    ∃ e, serverStep P d = some e ∧ clientStep P d' = some e := by
  obtain ⟨w, a, b, requests, replies⟩ := c
  cases requests with
  | nil => cases h'
  | cons q qs =>
    injection h' with h'
    subst h'
    unfold clientStep at h ⊢
    dsimp only at h ⊢
    split at h
    · injection h with h
      subst h
      exact ⟨_, rfl, rfl⟩
    · split at h
      · cases h
      · rename_i r rs
        injection h with h
        subst h
        by_cases hr : P.readable r = true
        · simp [hr, serverStep]
        · simp [hr, serverStep]
    · injection h with h
      subst h
      exact ⟨_, rfl, rfl⟩
    · cases h

theorem quiet_diamond : Diamond (Quiet P) := by
  intro c d e hd he
  cases hd with
  | client hd =>
    cases he with
    | client he => exact .inl (Option.some.inj (hd.symm.trans he))
    | server he =>
      obtain ⟨f, hs, hc⟩ := clientStep_serverStep hd he
      exact .inr ⟨f, .server hs, .client hc⟩
  | server hd =>
    cases he with
    | client he =>
      obtain ⟨f, hs, hc⟩ := clientStep_serverStep he hd
      exact .inr ⟨f, .client hc, .server hs⟩
    | server he => exact .inl (Option.some.inj (hd.symm.trans he))

/-- A quiet step is a step. -/
theorem Quiet.step {s : State α β ω Q R} (h : Quiet P s.toCore d) :
    ∃ t : State α β ω Q R, Step P A B s t ∧ t.toCore = d := by
  cases h with
  | client h =>
    unfold clientStep at h
    split at h
    · rename_i hm
      injection h with h
      exact ⟨_, .send hm, h⟩
    · rename_i hm
      split at h
      · cases h
      · rename_i r rs hr
        injection h with h
        by_cases hread : P.readable r = true
        · rw [if_pos hread] at h
          exact ⟨_, .recv hm hr hread, h⟩
        · rw [if_neg hread] at h
          exact ⟨_, .recvFails hm, h⟩
    · rename_i hm
      injection h with h
      exact ⟨_, .work hm, h⟩
    · cases h
  | server h =>
    unfold serverStep at h
    split at h
    · cases h
    · rename_i q qs hq
      injection h with h
      exact ⟨_, .serve hq, h⟩

/-- **One run tells of all**: if one order of the steps comes to an end, so does every other one, after as
many steps and in the same state. -/
theorem quiet_unique {z : Core α β ω Q R} (h : Relation.ReflTransGen (Quiet P) c z)
    (hstop : P.next z.phase z.client = .stop) (hq : z.requests = []) :
    ∃ n, ∀ m d, Steps (Quiet P) m c d → m ≤ n ∧ Steps (Quiet P) (n - m) d z := by
  have hz : ∀ d, ¬Quiet P z d := by
    intro d hd
    cases hd with
    | client hd =>
      unfold clientStep at hd
      rw [hstop] at hd
      cases hd
    | server hd =>
      unfold serverStep at hd
      rw [hq] at hd
      cases hd
  obtain ⟨n, hn⟩ := Steps.of_reflTransGen h
  exact ⟨n, fun m d hm => hn.unique quiet_diamond hz hm⟩

/-! ## Calls -/

/-- The sides between two calls. Answers before one that cannot be read have been read. -/
structure Point (α β ω : Type*) where
  phase : ω
  client : α
  server : β
  readable : Bool

/-- The queues are empty, or hold nothing that will be read. -/
def Point.Idle (P : Program α β ω Q R) (p : Point α β ω) (c : Core α β ω Q R) : Prop :=
  ∃ rs, c = ⟨p.phase, p.client, p.server, [], rs⟩ ∧
    if p.readable then rs = [] else ∃ x, rs.head? = some x ∧ P.readable x = false

/-- Quiet steps lead from the one to the other. -/
def Leads (P : Program α β ω Q R) (p p' : Point α β ω) : Prop :=
  ∀ c, p.Idle P c → ∃ d, Relation.ReflTransGen (Quiet P) c d ∧ p'.Idle P d

/-- The answer to a question, if it is read. -/
def Program.answer (P : Program α β ω Q R) (b : β) (readable : Bool) (q : Q) : Option R :=
  if readable then (P.serve b q).1.filter P.readable else none

variable {w w' ok err err' : ω} {k : R → ω} {a a' : α} {b : β} {q : Q} {o : Bool}
  {p p' p'' : Point α β ω}

theorem Leads.refl (p : Point α β ω) : Leads P p p := fun c h => ⟨c, .refl, h⟩

theorem Leads.trans (h : Leads P p p') (h' : Leads P p' p'') : Leads P p p'' := by
  intro c hc
  obtain ⟨d, hcd, hd⟩ := h c hc
  obtain ⟨e, hde, he⟩ := h' d hd
  exact ⟨e, hcd.trans hde, he⟩

/-- What leads to a stop is the end of every quiet run. -/
theorem Leads.ends (h : Leads P ⟨w, a, b, true⟩ p) (hstop : P.next p.phase p.client = .stop) :
    ∃ n rs, ∀ m d, Steps (Quiet P) m ⟨w, a, b, [], []⟩ d →
      m ≤ n ∧ Steps (Quiet P) (n - m) d ⟨p.phase, p.client, p.server, [], rs⟩ := by
  obtain ⟨z, hz, rs, rfl, -⟩ := h ⟨w, a, b, [], []⟩ ⟨[], rfl, rfl⟩
  obtain ⟨n, hn⟩ := quiet_unique hz hstop rfl
  exact ⟨n, rs, hn⟩

theorem Leads.work (h : P.next w a = .work a' w') :
    Leads P ⟨w, a, b, o⟩ ⟨w', a', b, o⟩ := by
  intro c hc
  obtain ⟨rs, rfl, hrs⟩ := hc
  refine ⟨⟨w', a', b, [], rs⟩, .single (.client ?_), rs, rfl, hrs⟩
  simp only [clientStep, h]

/-- A message without an answer. -/
theorem Leads.tell (h : P.next w a = .send q ok err) (ha : P.asks q = false) :
    Leads P ⟨w, a, b, o⟩ ⟨ok, a, (P.serve b q).2, o⟩ := by
  intro c hc
  obtain ⟨rs, rfl, hrs⟩ := hc
  have hnone : (P.serve b q).1 = none := by
    have hs := P.serve_asks b q
    rwa [ha, Option.isSome_eq_false_iff, Option.isNone_iff_eq_none] at hs
  refine ⟨⟨ok, a, (P.serve b q).2, [], rs⟩, .head (b := ⟨ok, a, b, [q], rs⟩) (.client ?_)
    (.single (.server ?_)), rs, rfl, hrs⟩
  · simp only [clientStep, h, List.nil_append]
  · simp only [serverStep, hnone, Option.toList_none, List.append_nil]

/-- A question, and its answer if it is read. -/
theorem Leads.ask (h : P.next w a = .send q ok err) (ha : P.asks q = true)
    (hk : P.next ok a = .recv k err') :
    Leads P ⟨w, a, b, o⟩ ⟨((P.answer b o q).map k).getD err', a, (P.serve b q).2,
      (P.answer b o q).isSome⟩ := by
  intro c hc
  obtain ⟨rs, rfl, hrs⟩ := hc
  obtain ⟨r, hr⟩ := Option.isSome_iff_exists.1 ((P.serve_asks b q).trans ha)
  have hserved : Relation.ReflTransGen (Quiet P) ⟨w, a, b, [], rs⟩
      ⟨ok, a, (P.serve b q).2, [], rs ++ [r]⟩ := by
    refine .head (b := ⟨ok, a, b, [q], rs⟩) (.client ?_) (.single (.server ?_))
    · simp only [clientStep, h, List.nil_append]
    · simp only [serverStep, hr, Option.toList_some]
  -- an answer that cannot be read stays, and so does every one behind it
  have hstuck : ∀ x ys, rs ++ [r] = x :: ys → P.readable x = false → P.answer b o q = none →
      ∃ d, Relation.ReflTransGen (Quiet P) ⟨w, a, b, [], rs⟩ d ∧ Point.Idle P
        ⟨((P.answer b o q).map k).getD err', a, (P.serve b q).2,
          (P.answer b o q).isSome⟩ d := by
    intro x ys hys hx hnone
    rw [hnone]
    refine ⟨⟨err', a, (P.serve b q).2, [], rs ++ [r]⟩, hserved.tail (.client ?_), rs ++ [r], rfl, x, ?_, hx⟩
    · simp only [clientStep, hk, hys, hx, Bool.false_eq_true, if_false]
    · rw [hys, List.head?_cons]
  cases o with
  | false =>
    obtain ⟨x, hhead, hx⟩ := hrs
    obtain ⟨ys, hys⟩ := List.head?_eq_some_iff.1 hhead
    exact hstuck x (ys ++ [r]) (by rw [hys]; rfl) hx rfl
  | true =>
    obtain rfl : rs = [] := hrs
    cases hread : P.readable r with
    | false => exact hstuck r [] rfl hread (by simp [Program.answer, hr, hread])
    | true =>
      have hsome : P.answer b true q = some r := by simp [Program.answer, hr, hread]
      rw [hsome]
      refine ⟨⟨k r, a, (P.serve b q).2, [], []⟩, hserved.tail (.client ?_), [], rfl, rfl⟩
      simp only [clientStep, hk, List.nil_append, hread, if_true]

end Dialogue

import Mathlib.Data.List.Infix
import ZentraChain.Lib.Walk

/-!
# Loops with a cursor

One turn of such a loop, on what it has collected and the node its cursor is at, either returns or
moves the cursor. Nothing bounds the number of turns. `Visits turn acc a l r` says that the loop, from
`acc` and `a`, does return: its cursor is at the nodes `l`, one a turn, and `r` is the result.

* `Visits.run`: with as much fuel as there are turns, or more, the loop computes its result.
* `Path.collects`, `Path.collects_upto`, `Path.pushes`: loops that follow a successor function return
  wherever its walk ends.
-/

namespace Walk

variable {α β γ ρ : Type*}

/-- The loop returns `r`, after turns at the nodes `l`. -/
inductive Visits (turn : β → α → (β × α) ⊕ ρ) : β → α → List α → ρ → Prop
  | stop {acc : β} {a : α} {r : ρ} : turn acc a = .inr r → Visits turn acc a [a] r
  | turn {acc acc' : β} {a b : α} {l : List α} {r : ρ} : turn acc a = .inl (acc', b) →
      Visits turn acc' b l r → Visits turn acc a (a :: l) r

/-- At most `n` turns of a loop. -/
def run (turn : β → α → (β × α) ⊕ ρ) : ℕ → β → α → Option ρ
  | 0, _, _ => none
  | n + 1, acc, a =>
    match turn acc a with
    | .inl (acc', b) => run turn n acc' b
    | .inr r => some r

section
variable {turn : β → α → (β × α) ⊕ ρ} {acc : β} {a : α} {l : List α} {r : ρ}

/-- With any fuel from the number of turns on, the loop returns the same. -/
theorem Visits.run (h : Visits turn acc a l r) {n : ℕ} (hn : l.length ≤ n) :
    run turn n acc a = some r := by
  induction h generalizing n with
  | stop hr =>
    obtain ⟨n, rfl⟩ := Nat.exists_eq_add_of_le' hn
    simp only [List.length_singleton, Walk.run, hr]
  | turn ht _ ih =>
    obtain ⟨n, rfl⟩ := Nat.exists_eq_add_of_le' hn
    rw [List.length_cons, ← Nat.add_assoc, Walk.run, ht]
    exact ih (Nat.le_add_left ..)

end

variable {next : α → Option α} {a stop : α} {l : List α}

section
variable {turn : List γ → α → (List γ × α) ⊕ List γ} {out : α → Option γ}

/-- **A loop that collects along a path** and goes from its last node to a node at which it
returns. -/
theorem Path.collects (hp : Path next a l) (hstop : ∀ acc, turn acc stop = .inr acc)
    (hturn : ∀ acc, ∀ x ∈ l, turn acc x = .inl (acc ++ (out x).toList, (next x).getD stop)) :
    ∀ acc, Visits turn acc a (l ++ [stop]) (acc ++ l.filterMap out) := by
  induction hp with
  | @last a hn =>
    intro acc
    have ht := hturn acc a List.mem_cons_self
    rw [hn] at ht
    rw [List.filterMap_cons, List.filterMap_nil]
    refine .turn ht ?_
    cases out a <;> exact .stop (by simp [hstop])
  | @step a b l hn _ ih =>
    intro acc
    have ht := hturn acc a List.mem_cons_self
    rw [hn] at ht
    have hrest := ih (fun acc x hx => hturn acc x (List.mem_cons_of_mem _ hx))
      (acc ++ (out a).toList)
    rw [List.append_assoc] at hrest
    rw [List.filterMap_cons]
    refine .turn ht ?_
    cases ho : out a <;> simpa [ho] using hrest

/-- **A loop that collects up to `m` things along a path.** It returns at the first node where it has
them, or after the whole path. -/
theorem Path.collects_upto {m : ℕ} (hp : Path next a l) (hstop : ∀ acc, turn acc stop = .inr acc)
    (hfull : ∀ acc x, m ≤ acc.length → turn acc x = .inr acc)
    (hturn : ∀ acc, acc.length < m → ∀ x ∈ l,
      turn acc x = .inl (acc ++ (out x).toList, (next x).getD stop)) :
    ∀ acc, acc.length ≤ m → ∃ seen, seen <+: l ++ [stop] ∧
      Visits turn acc a seen ((acc ++ l.filterMap out).take m) ∧
        (((acc ++ l.filterMap out).take m).length = m ∨ seen = l ++ [stop]) := by
  -- nothing more is collected once there are `m`
  have hdone : ∀ (acc : List γ) (x : α) (ys : List γ) (rest : List α), acc.length = m →
      ∃ seen, seen <+: (x :: rest) ++ [stop] ∧ Visits turn acc x seen ((acc ++ ys).take m) ∧
        (((acc ++ ys).take m).length = m ∨ seen = (x :: rest) ++ [stop]) := by
    intro acc x ys rest hm
    have hr : (acc ++ ys).take m = acc := by rw [← hm, List.take_left]
    rw [hr]
    exact ⟨[x], ⟨rest ++ [stop], rfl⟩, .stop (hfull acc x hm.ge), .inl hm⟩
  have hlen : ∀ (acc : List γ) (x : α), acc.length < m → (acc ++ (out x).toList).length ≤ m := by
    intro acc x hlt
    cases out x <;> simp <;> omega
  induction hp with
  | @last a hn =>
    intro acc hacc
    rcases Nat.lt_or_eq_of_le hacc with hlt | hm
    · have ht := hturn acc hlt a List.mem_cons_self
      rw [hn] at ht
      have hout : [a].filterMap out = (out a).toList := by
        rw [List.filterMap_cons]
        cases out a <;> rfl
      rw [hout, List.take_of_length_le (hlen acc a hlt)]
      exact ⟨[a] ++ [stop], List.prefix_rfl, .turn ht (.stop (hstop _)), .inr rfl⟩
    · exact hdone acc a _ [] hm
  | @step a b l hn _ ih =>
    intro acc hacc
    rcases Nat.lt_or_eq_of_le hacc with hlt | hm
    · have ht := hturn acc hlt a List.mem_cons_self
      rw [hn] at ht
      have hout : acc ++ (a :: l).filterMap out = acc ++ (out a).toList ++ l.filterMap out := by
        rw [List.filterMap_cons, List.append_assoc]
        cases out a <;> rfl
      obtain ⟨seen, hpre, hv, hend⟩ := ih
        (fun acc hlt x hx => hturn acc hlt x (List.mem_cons_of_mem _ hx)) _ (hlen acc a hlt)
      rw [hout]
      refine ⟨a :: seen, List.cons_prefix_cons.2 ⟨rfl, hpre⟩, .turn ht hv, ?_⟩
      exact hend.imp_right fun he => congrArg (a :: ·) he
    · exact hdone acc a _ l hm

end

/-- **A loop that pushes each next node** of a path and returns at its last. -/
theorem Path.pushes {turn : List α → α → (List α × α) ⊕ List α} (hp : Path next a l)
    (hlast : ∀ acc, ∀ x ∈ l, next x = none → turn acc x = .inr acc)
    (hturn : ∀ acc, ∀ x ∈ l, ∀ y, next x = some y → turn acc x = .inl (acc ++ [y], y)) :
    ∀ acc, Visits turn acc a l (acc ++ l.tail) := by
  induction hp with
  | @last a hn =>
    intro acc
    rw [List.tail_cons, List.append_nil]
    exact .stop (hlast acc a List.mem_cons_self hn)
  | @step a b l hn hp ih =>
    intro acc
    have hrest := ih (fun acc x hx => hlast acc x (List.mem_cons_of_mem _ hx))
      (fun acc x hx => hturn acc x (List.mem_cons_of_mem _ hx)) (acc ++ [b])
    obtain ⟨t, rfl⟩ := hp.head
    rw [List.append_assoc] at hrest
    exact .turn (hturn acc a List.mem_cons_self b hn) hrest

end Walk

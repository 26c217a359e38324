import Mathlib.Data.List.Nodup
import Mathlib.Tactic

/-!
# Paging by a sort key

A list is sent in pages of a fixed length, lowest keys first, and each page starts above the last key
of the page before it. Elements with the key at which a full page ends are left out unless they are on
it, so everything is sent exactly if no page ends within a group of one key (`complete_iff`).
-/

namespace Paging

variable {α : Type*} {S : α → Prop} {key : α → ℕ} {above : ℕ → List α} {limit f g : ℕ}

/-- The pages from `f` on, up to the first that is not full. -/
def pages (key : α → ℕ) (page : ℕ → List α) (limit : ℕ) : ℕ → ℕ → List (List α)
  | 0, _ => []
  | fuel + 1, f =>
    match (page f).getLast? with
    | none => []
    | some x => page f :: if (page f).length < limit then [] else pages key page limit fuel (key x)

/-- `above f` has what has a key above `f`, each once and lowest keys first. -/
structure Sorted (key : α → ℕ) (S : α → Prop) (above : ℕ → List α) : Prop where
  nodup : ∀ f, (above f).Nodup
  sorted : ∀ f, (above f).Pairwise fun x y => key x ≤ key y
  mem : ∀ f x, x ∈ above f ↔ S x ∧ f < key x

/-- The elements with a key up to `s`. -/
def upto (key : α → ℕ) (s : ℕ) (l : List α) : ℕ := l.countP fun x => key x ≤ s

theorem upto_cons (s : ℕ) (x : α) (l : List α) :
    upto key s (x :: l) = upto key s l + if key x ≤ s then 1 else 0 := by
  simp [upto, List.countP_cons]

theorem upto_append (s : ℕ) (l l' : List α) :
    upto key s (l ++ l') = upto key s l + upto key s l' := List.countP_append

theorem upto_le (key : α → ℕ) (s : ℕ) (l : List α) : upto key s l ≤ l.length := List.countP_le_length

/-- As many whole pages as there are end with a whole group of one key. -/
def Aligned (key : α → ℕ) (l : List α) (limit : ℕ) : Prop :=
  ∀ k, 0 < k → k * limit < l.length → ∃ s, upto key s l = k * limit

/-! ## A full page -/

section
variable {l init rest : List α} {x : α}

/-- Up to a key below that of the last element, the page has less than its length. -/
theorem upto_lt {s : ℕ} (hs : (init ++ [x] ++ rest).Pairwise fun y z => key y ≤ key z)
    (hlt : s < key x) : upto key s (init ++ [x] ++ rest) < (init ++ [x]).length := by
  have hrest : upto key s rest = 0 := by
    refine List.countP_eq_zero.2 fun y hy => ?_
    have hle : key x ≤ key y := (List.pairwise_append.1 hs).2.2 x (by simp) y hy
    simp only [decide_eq_true_eq]
    omega
  have hx : upto key s [x] = 0 := by
    refine List.countP_eq_zero.2 fun y hy => ?_
    rw [List.mem_singleton.1 hy]
    simp only [decide_eq_true_eq]
    omega
  have hinit := upto_le key s init
  rw [upto_append, upto_append, hrest, hx, List.length_append, List.length_singleton]
  omega

/-- Up to the key of the last element, it has the page and what follows with this key. -/
theorem upto_last (hs : (init ++ [x] ++ rest).Pairwise fun y z => key y ≤ key z) :
    upto key (key x) (init ++ [x] ++ rest) =
      (init ++ [x]).length + upto key (key x) rest := by
  have hpage : upto key (key x) (init ++ [x]) = (init ++ [x]).length := by
    refine List.countP_eq_length.2 fun y hy => decide_eq_true ?_
    rcases List.mem_append.1 hy with hy | hy
    · exact (List.pairwise_append.1 (List.pairwise_append.1 hs).1).2.2 y hy x (by simp)
    · rw [List.mem_singleton.1 hy]
  rw [upto_append, hpage]

end

/-! ## Sorted lists -/

section
variable {l pre post : List α} {x y : α}

/-- What has a lower key than an element of a sorted list stands before it. -/
theorem mem_before (key : α → ℕ)
    (hs : (pre ++ x :: post).Pairwise fun y z => key y ≤ key z)
    (hy : y ∈ pre ++ x :: post) (hlt : key y < key x) : y ∈ pre := by
  refine (List.mem_append.1 hy).resolve_right fun hm => ?_
  rcases List.mem_cons.1 hm with rfl | hm
  · exact absurd hlt (Nat.lt_irrefl _)
  · have hle := List.rel_of_pairwise_cons (List.pairwise_append.1 hs).2.1 hm
    omega

/-- What a page leaves out has no lower key than what is on it. -/
theorem le_of_cut (key : α → ℕ) (hs : l.Pairwise fun y z => key y ≤ key z)
    (hx : x ∈ l.take limit) (hy : y ∈ l) (hout : y ∉ l.take limit) : key x ≤ key y := by
  rw [← List.take_append_drop limit l] at hs hy
  exact (List.pairwise_append.1 hs).2.2 x hx y ((List.mem_append.1 hy).resolve_left hout)

/-- On a page, what has a lower key than an element stands before it. -/
theorem mem_before_take (key : α → ℕ) (hs : l.Pairwise fun y z => key y ≤ key z)
    (he : l.take limit = pre ++ x :: post) (hy : y ∈ l) (hlt : key y < key x) : y ∈ pre := by
  have hx : x ∈ l.take limit := by
    rw [he]
    exact List.mem_append_right _ List.mem_cons_self
  have hin : y ∈ l.take limit := by
    by_contra hout
    exact absurd (le_of_cut key hs hx hy hout) (Nat.not_le.2 hlt)
  have hsort := hs.sublist (List.take_sublist limit l)
  rw [he] at hsort hin
  exact mem_before key hsort hin hlt

end

namespace Sorted

variable (h : Sorted key S above)
include h

/-- What is above a higher key. -/
theorem perm (hfg : f ≤ g) : (above g).Perm ((above f).filter fun x => g < key x) := by
  refine (List.perm_ext_iff_of_nodup (h.nodup g) ((h.nodup f).filter _)).2 fun x => ?_
  rw [List.mem_filter, h.mem, h.mem, decide_eq_true_eq]
  exact ⟨fun ⟨hS, hg⟩ => ⟨⟨hS, hfg.trans_lt hg⟩, hg⟩, fun ⟨hm, hg⟩ => ⟨hm.1, hg⟩⟩

theorem upto_above {s : ℕ} (hfg : f ≤ g) (hgs : g ≤ s) :
    upto key s (above f) = upto key g (above f) + upto key s (above g) := by
  have hsplit : ∀ l : List α, upto key s l =
      upto key g l + upto key s (l.filter fun x => g < key x) := by
    intro l
    induction l with
    | nil => rfl
    | cons x l ih =>
      by_cases hx : key x ≤ g
      · rw [List.filter_cons_of_neg (by simpa using hx), upto_cons, upto_cons, ih,
          if_pos (hx.trans hgs), if_pos hx]
        omega
      · rw [List.filter_cons_of_pos (by simpa using hx), upto_cons, upto_cons, upto_cons, ih,
          if_neg hx]
        ring
  have hperm : upto key s (above g) = upto key s ((above f).filter fun x => g < key x) :=
    (h.perm hfg).countP_eq _
  rw [hperm, ← hsplit]

theorem length_above (hfg : f ≤ g) :
    (above f).length = upto key g (above f) + (above g).length := by
  have hlen := List.length_eq_countP_add_countP (fun x => decide (key x ≤ g)) (l := above f)
  rw [(h.perm hfg).length_eq, ← List.countP_eq_length_filter, hlen, upto]
  congr 1
  refine List.countP_congr fun x _ => ?_
  simp

/-- Nothing above `g` has a key up to `s ≤ g`. -/
theorem upto_eq_zero {s : ℕ} (hsg : s ≤ g) : upto key s (above g) = 0 := by
  refine List.countP_eq_zero.2 fun x hx => ?_
  have := ((h.mem g x).1 hx).2
  simp only [decide_eq_true_eq]
  omega

end Sorted

/-! ## Pages -/

/-- A list is empty, or too short for a page, or has a full page and more. -/
theorem page_cases (hl : 0 < limit) (l : List α) :
    l = [] ∨ (l ≠ [] ∧ l.length < limit) ∨
      ∃ init x rest, l = init ++ [x] ++ rest ∧ (init ++ [x]).length = limit := by
  by_cases hlen : l.length < limit
  · by_cases hnil : l = []
    · exact .inl hnil
    · exact .inr (.inl ⟨hnil, hlen⟩)
  · right; right
    have htake : (l.take limit).length = limit := by
      rw [List.length_take]
      omega
    have hne : l.take limit ≠ [] := by
      intro he
      rw [he] at htake
      exact absurd htake (Nat.ne_of_lt hl)
    have hlast : (l.take limit).dropLast ++ [(l.take limit).getLast hne] = l.take limit :=
      List.dropLast_append_getLast hne
    refine ⟨(l.take limit).dropLast, (l.take limit).getLast hne, l.drop limit, ?_, ?_⟩
    · rw [hlast, List.take_append_drop]
    · rw [hlast, htake]

/-- The first page of a list that is cut there. -/
abbrev cut (above : ℕ → List α) (limit : ℕ) : ℕ → List α := fun f => (above f).take limit

theorem pages_nil {fuel : ℕ} (h : above f = []) :
    pages key (cut above limit) limit (fuel + 1) f = [] := by
  rw [pages, cut, h, List.take_nil]
  rfl

theorem pages_short {fuel : ℕ} (hne : above f ≠ []) (hlt : (above f).length < limit) :
    pages key (cut above limit) limit (fuel + 1) f = [above f] := by
  have htake : (above f).take limit = above f := List.take_of_length_le hlt.le
  rw [pages, cut, htake, List.getLast?_eq_some_getLast hne]
  simp only
  rw [if_pos hlt]

theorem pages_full {fuel : ℕ} {init rest : List α} {x : α} (he : above f = init ++ [x] ++ rest)
    (hlen : (init ++ [x]).length = limit) :
    pages key (cut above limit) limit (fuel + 1) f =
      (init ++ [x]) :: pages key (cut above limit) limit fuel (key x) := by
  have htake : (above f).take limit = init ++ [x] := by
    rw [he, ← hlen, List.take_left]
  have hfull : ¬(init ++ [x]).length < limit := by omega
  rw [pages]
  simp only [cut, htake, List.getLast?_append, List.getLast?_singleton, Option.some_or]
  rw [if_neg hfull]

namespace Sorted

variable (h : Sorted key S above)
include h

/-- After a full page less is left. -/
theorem length_lt {init rest : List α} {x : α} (he : above f = init ++ [x] ++ rest) :
    f < key x ∧ (above (key x)).length + (init ++ [x]).length ≤ (above f).length := by
  have hx : f < key x := ((h.mem f x).1 (by rw [he]; simp)).2
  have hs := h.sorted f
  rw [he] at hs
  have hup := upto_last hs
  rw [← he] at hup
  have hlen := h.length_above hx.le
  exact ⟨hx, by omega⟩

/-- **What is sent is above the start**, and each element is sent once, lowest keys first. -/
theorem pages_sound (hl : 0 < limit) : ∀ (fuel f : ℕ),
    (∀ x ∈ (pages key (cut above limit) limit fuel f).flatten, S x ∧ f < key x) ∧
      (pages key (cut above limit) limit fuel f).flatten.Nodup ∧
      (pages key (cut above limit) limit fuel f).flatten.Pairwise fun x y => key x ≤ key y
  | 0, f => by simp [pages]
  | fuel + 1, f => by
    rcases page_cases hl (above f) with hnil | ⟨hne, hlt⟩ | ⟨init, x, rest, he, hlen⟩
    · rw [pages_nil hnil]
      simp
    · rw [pages_short hne hlt, List.flatten_singleton]
      exact ⟨fun x hx => (h.mem f x).1 hx, h.nodup f, h.sorted f⟩
    · obtain ⟨hx, -⟩ := h.length_lt he
      obtain ⟨hmem, hnd, hsort⟩ := pages_sound hl fuel (key x)
      have hs := h.sorted f
      have hn := h.nodup f
      rw [he] at hs hn
      have hpage : ∀ y ∈ init ++ [x], key y ≤ key x := by
        intro y hy
        rcases List.mem_append.1 hy with hy | hy
        · exact (List.pairwise_append.1 (List.pairwise_append.1 hs).1).2.2 y hy x (by simp)
        · rw [List.mem_singleton.1 hy]
      rw [pages_full he hlen, List.flatten_cons]
      refine ⟨fun y hy => ?_, List.nodup_append'.2 ⟨(List.nodup_append'.1 hn).1, hnd, ?_⟩,
        List.pairwise_append.2 ⟨(List.pairwise_append.1 hs).1, hsort, ?_⟩⟩
      · rcases List.mem_append.1 hy with hy | hy
        · refine (h.mem f y).1 ?_
          rw [he]
          exact List.mem_append_left _ hy
        · exact ⟨(hmem y hy).1, hx.trans (hmem y hy).2⟩
      · intro y hy hy'
        have h1 := hpage y hy
        have h2 := (hmem y hy').2
        omega
      · intro y hy z hz
        exact (hpage y hy).trans (hmem z hz).2.le

/-- **The loop ends by itself**: more steps than there are elements change nothing. -/
theorem pages_fuel (hl : 0 < limit) : ∀ (fuel fuel' f : ℕ), (above f).length < fuel →
    (above f).length < fuel' →
    pages key (cut above limit) limit fuel f = pages key (cut above limit) limit fuel' f
  | 0, _, _, hf, _ => absurd hf (Nat.not_lt_zero _)
  | _ + 1, 0, _, _, hf => absurd hf (Nat.not_lt_zero _)
  | fuel + 1, fuel' + 1, f, hf, hf' => by
    rcases page_cases hl (above f) with hnil | ⟨hne, hlt⟩ | ⟨init, x, rest, he, hlen⟩
    · rw [pages_nil hnil, pages_nil hnil]
    · rw [pages_short hne hlt, pages_short hne hlt]
    · obtain ⟨-, hle⟩ := h.length_lt he
      rw [pages_full he hlen, pages_full he hlen,
        pages_fuel hl fuel fuel' (key x) (by omega) (by omega)]

/-- A full page ends a group exactly if no more of its last key follows. -/
theorem aligned_full (hl : 0 < limit) {init rest : List α} {x : α}
    (he : above f = init ++ [x] ++ rest) (hlen : (init ++ [x]).length = limit) :
    Aligned key (above f) limit ↔
      upto key (key x) rest = 0 ∧ Aligned key (above (key x)) limit := by
  have hs := h.sorted f
  rw [he] at hs
  obtain ⟨hx, -⟩ := h.length_lt he
  have hN := h.length_above hx.le
  have hc : upto key (key x) (above f) = limit + upto key (key x) rest := by
    rw [he, upto_last hs, hlen]
  -- a page's length is not reached below its last key
  have hlow : ∀ s, s < key x → upto key s (above f) < limit := by
    intro s hlt
    rw [he, ← hlen]
    exact upto_lt hs hlt
  have hhigh : ∀ s, key x ≤ s →
      upto key s (above f) = upto key (key x) (above f) + upto key s (above (key x)) :=
    fun s hle => h.upto_above hx.le hle
  constructor
  · intro hA
    have hrest : upto key (key x) rest = 0 := by
      by_cases hmore : 1 * limit < (above f).length
      · obtain ⟨s, hs1⟩ := hA 1 Nat.one_pos hmore
        by_cases hlt : s < key x
        · have := hlow s hlt
          omega
        · have := hhigh s (Nat.not_lt.1 hlt)
          omega
      · have hlt := upto_le key (key x) (above f)
        omega
    refine ⟨hrest, fun k hk hlt => ?_⟩
    obtain ⟨s, hs1⟩ := hA (k + 1) (Nat.succ_pos k) (by rw [Nat.succ_mul]; omega)
    rw [Nat.succ_mul] at hs1
    have hge : key x ≤ s := by
      by_contra hlt'
      have := hlow s (Nat.not_le.1 hlt')
      omega
    have := hhigh s hge
    exact ⟨s, by omega⟩
  · rintro ⟨hrest, hA⟩ k hk hlt
    obtain ⟨j, rfl⟩ : ∃ j, k = j + 1 := ⟨k - 1, by omega⟩
    rw [Nat.succ_mul] at hlt ⊢
    rcases Nat.eq_zero_or_pos j with rfl | hj
    · exact ⟨key x, by omega⟩
    · obtain ⟨s, hs1⟩ := hA j hj (by omega)
      have hge : key x ≤ s := by
        by_contra hlt'
        have h0 : upto key s (above (key x)) = 0 := h.upto_eq_zero (Nat.not_le.1 hlt').le
        have hpos : 0 < j * limit := Nat.mul_pos hj hl
        omega
      have := hhigh s hge
      exact ⟨s, by omega⟩

/-- **Everything is sent exactly if no page ends within a group of one key.** -/
theorem complete_iff (hl : 0 < limit) : ∀ (fuel f : ℕ), (above f).length < fuel →
    ((∀ y, S y → f < key y → y ∈ (pages key (cut above limit) limit fuel f).flatten) ↔
      Aligned key (above f) limit)
  | 0, _, hf => absurd hf (Nat.not_lt_zero _)
  | fuel + 1, f, hf => by
    rcases page_cases hl (above f) with hnil | ⟨hne, hlt⟩ | ⟨init, x, rest, he, hlen⟩
    · refine ⟨fun _ k _ hlt => ?_, fun _ y hS hy => ?_⟩
      · rw [hnil] at hlt
        exact absurd hlt (Nat.not_lt_zero _)
      · have hm := (h.mem f y).2 ⟨hS, hy⟩
        rw [hnil] at hm
        cases hm
    · refine ⟨fun _ k hk hlt' => ?_, fun _ y hS hy => ?_⟩
      · have := Nat.le_mul_of_pos_left limit hk
        omega
      · rw [pages_short hne hlt, List.flatten_singleton]
        exact (h.mem f y).2 ⟨hS, hy⟩
    · obtain ⟨hx, hle⟩ := h.length_lt he
      have ih := complete_iff hl fuel (key x) (by omega)
      have hn := h.nodup f
      rw [he] at hn
      rw [h.aligned_full hl he hlen, ← ih, pages_full he hlen, List.flatten_cons]
      constructor
      · intro hall
        refine ⟨List.countP_eq_zero.2 fun y hy hle' => ?_, fun y hS hy => ?_⟩
        · -- what follows with the last key is on no page
          have hyf : y ∈ above f := by
            rw [he]
            exact List.mem_append_right _ hy
          obtain ⟨hS, hfy⟩ := (h.mem f y).1 hyf
          rcases List.mem_append.1 (hall y hS hfy) with hm | hm
          · exact (List.nodup_append'.1 hn).2.2 hm hy
          · have hgt := ((h.pages_sound hl fuel (key x)).1 y hm).2
            exact absurd (of_decide_eq_true hle') (Nat.not_le.2 hgt)
        · rcases List.mem_append.1 (hall y hS (hx.trans hy)) with hm | hm
          · have hs := h.sorted f
            rw [he] at hs
            rcases List.mem_append.1 hm with hm | hm
            · have hle' := (List.pairwise_append.1 (List.pairwise_append.1 hs).1).2.2 y hm x (by simp)
              exact absurd hle' (Nat.not_le.2 hy)
            · rw [List.mem_singleton.1 hm] at hy
              exact absurd hy (Nat.lt_irrefl _)
          · exact hm
      · rintro ⟨hrest, hall⟩ y hS hy
        by_cases hyx : key x < key y
        · exact List.mem_append_right _ (hall y hS hyx)
        · have hyf := (h.mem f y).2 ⟨hS, hy⟩
          rw [he] at hyf
          refine List.mem_append_left _ ((List.mem_append.1 hyf).resolve_right fun hm => ?_)
          exact List.countP_eq_zero.1 hrest y hm (decide_eq_true (Nat.not_lt.1 hyx))

end Sorted

end Paging

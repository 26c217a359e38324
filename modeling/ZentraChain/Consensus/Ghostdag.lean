import Mathlib.Data.Finset.Card
import ZentraChain.Types

/-!
# GhostDAG (`ghostdag.rs`)

`processBlock` computes a block's data from its parents' data alone: the parent with the highest
blue score (the last of them) is selected, the other parents are the mergeset, coloured by an
estimate of their anticone.

* `maxByKey_eq_some`: the last of the largest.
* `processBlock_spec`: what the result says of score, selected parent and mergeset, without the
  colouring.
* `processBlock_congr`: only the parents' data and what they name is read.
-/

namespace Zentra

structure GhostdagData where
  blueScore : Nat
  blueWork : Nat
  selectedParent : Hash
  mergesetBlues : List Hash
  mergesetReds : List Hash
  deriving DecidableEq, Repr

/-- The data of the genesis block; also what the 64 zero bytes of a parentless block decode to. -/
def GhostdagData.genesis : GhostdagData := ⟨0, 0, .zero, [], []⟩

/-- The manager; `k` is the anticone size a blue block may have. -/
structure GhostdagManager where
  k : Nat

namespace GhostdagManager

/-- `default_k`. -/
def defaultK : GhostdagManager := ⟨ghostdagK⟩

/-- `Iterator::max_by_key`: the last of the elements with the largest key. -/
def maxByKey {α : Type} (key : α → Nat) : List α → Option α
  | [] => none
  | a :: l => some (l.foldl (fun best x => if key best ≤ key x then x else best) a)

variable (get : Hash → Option GhostdagData)

/-- `get_ghostdag(h).unwrap_or_else(GhostdagData::genesis)`. -/
def dataOf (h : Hash) : GhostdagData := (get h).getD .genesis

/-- `get_ghostdag(h).map(|d| d.blue_score).unwrap_or(0)`. -/
def scoreOf (h : Hash) : Nat := ((get h).map (·.blueScore)).getD 0

/-- The parent with the highest blue score. -/
def selectParent (parents : List Hash) : Hash := (maxByKey (scoreOf get) parents).getD .zero

/-- Blue blocks outside the block's known past, the block itself aside. -/
def estimateAnticoneSize (block : Hash) (blueSet : Finset Hash) : Nat :=
  let data := dataOf get block
  let past := insert data.selectedParent (data.mergesetBlues ++ data.mergesetReds).toFinset
  (blueSet.filter fun b => b ∉ past ∧ b ≠ block).card

/-- The loop of `classify_mergeset`: the blue set grows with each parent found blue. -/
def classifyLoop (m : GhostdagManager) : List Hash → Finset Hash → List Hash × List Hash
  | [], _ => ([], [])
  | p :: ps, blueSet =>
    if estimateAnticoneSize get p blueSet ≤ m.k then
      let r := classifyLoop m ps
        (insert p (blueSet ∪ (dataOf get p).mergesetBlues.toFinset))
      (p :: r.1, r.2)
    else
      let r := classifyLoop m ps blueSet
      (r.1, p :: r.2)

/-- Classify the mergeset blocks as blue or red. -/
def classifyMergeset (m : GhostdagManager) (others : List Hash) (selected : GhostdagData) :
    List Hash × List Hash :=
  m.classifyLoop get others (insert selected.selectedParent selected.mergesetBlues.toFinset)

/-- Compute the GhostDAG data of a block with these parents. -/
def processBlock (m : GhostdagManager) (parents : List Hash) : GhostdagData :=
  if parents.isEmpty then .genesis
  else
    let selectedParent := selectParent get parents
    let selectedData := dataOf get selectedParent
    let others := parents.filter (· ≠ selectedParent)
    let (blues, reds) := m.classifyMergeset get others selectedData
    { blueScore := selectedData.blueScore + 1 + blues.length
      blueWork := selectedData.blueWork + 1
      selectedParent := selectedParent
      mergesetBlues := blues
      mergesetReds := reds }

variable {get} {m : GhostdagManager}

/-! ## The selected parent -/

theorem maxByKey_foldl_mem {α : Type} (key : α → Nat) : ∀ (l : List α) (a : α),
    l.foldl (fun best x => if key best ≤ key x then x else best) a ∈ a :: l
  | [], a => List.mem_cons_self
  | x :: l, a => by
    rw [List.foldl_cons]
    rcases List.mem_cons.1 (maxByKey_foldl_mem key l (if key a ≤ key x then x else a)) with h | h
    · rw [h]; split <;> simp
    · simp [h]

theorem maxByKey_foldl_le {α : Type} (key : α → Nat) : ∀ (l : List α) (a : α), ∀ y ∈ a :: l,
    key y ≤ key (l.foldl (fun best x => if key best ≤ key x then x else best) a)
  | [], a, y, hy => by simp only [List.mem_singleton] at hy; subst hy; exact Nat.le_refl _
  | x :: l, a, y, hy => by
    rw [List.foldl_cons]
    have ih := maxByKey_foldl_le key l (if key a ≤ key x then x else a)
    have hbest := ih _ List.mem_cons_self
    rcases List.mem_cons.1 hy with rfl | hy
    · refine Nat.le_trans ?_ hbest
      split <;> omega
    · rcases List.mem_cons.1 hy with rfl | hy
      · refine Nat.le_trans ?_ hbest
        split <;> omega
      · exact ih y (List.mem_cons_of_mem _ hy)

theorem maxByKey_foldl_eq {α : Type} (key : α → Nat) (t : α) : ∀ l : List α,
    (∀ x ∈ l, key x < key t) → l.foldl (fun best x => if key best ≤ key x then x else best) t = t
  | [], _ => rfl
  | x :: l, h => by
    rw [List.foldl_cons, if_neg (Nat.not_le.2 (h x List.mem_cons_self))]
    exact maxByKey_foldl_eq key t l fun y hy => h y (List.mem_cons_of_mem _ hy)

theorem maxByKey_foldl_split {α : Type} (key : α → Nat) : ∀ (l : List α) (a : α), ∃ pre post,
    a :: l = pre ++ l.foldl (fun best x => if key best ≤ key x then x else best) a :: post ∧
      ∀ y ∈ post, key y < key (l.foldl (fun best x => if key best ≤ key x then x else best) a)
  | [], a => ⟨[], [], rfl, by simp⟩
  | x :: l, a => by
    rw [List.foldl_cons]
    split
    · obtain ⟨pre, post, he, hpost⟩ := maxByKey_foldl_split key l x
      exact ⟨a :: pre, post, congrArg (a :: ·) he, hpost⟩
    · rename_i hlt
      obtain ⟨pre, post, he, hpost⟩ := maxByKey_foldl_split key l a
      generalize l.foldl (fun best x => if key best ≤ key x then x else best) a = m at *
      cases pre with
      | nil =>
        obtain ⟨rfl, rfl⟩ := List.cons.inj he
        exact ⟨[], x :: l, rfl, List.forall_mem_cons.2 ⟨Nat.not_le.1 hlt, hpost⟩⟩
      | cons c pre =>
        obtain ⟨rfl, rfl⟩ := List.cons.inj he
        exact ⟨a :: x :: pre, post, rfl, hpost⟩

/-- **The last of the largest**: none after it has as large a key. -/
theorem maxByKey_eq_some {α : Type} {key : α → Nat} {l : List α} {t : α}
    (hmax : ∀ x ∈ l, key x ≤ key t) : maxByKey key l = some t ↔
      ∃ pre post, l = pre ++ t :: post ∧ ∀ x ∈ post, key x < key t := by
  constructor
  · intro h
    cases l with
    | nil => cases h
    | cons a l =>
      cases h
      exact maxByKey_foldl_split key l a
  · rintro ⟨pre, post, rfl, hpost⟩
    cases pre with
    | nil => exact congrArg some (maxByKey_foldl_eq key t post hpost)
    | cons a pre =>
      have hpre := hmax _ (List.mem_append_left _ (maxByKey_foldl_mem key pre a))
      rw [List.cons_append, maxByKey, List.foldl_append, List.foldl_cons, if_pos hpre,
        maxByKey_foldl_eq key t post hpost]

theorem selectParent_mem {parents : List Hash} (h : parents ≠ []) :
    selectParent get parents ∈ parents := by
  cases parents with
  | nil => exact absurd rfl h
  | cons a l => exact maxByKey_foldl_mem _ l a

/-- No parent has a higher blue score than the selected one. -/
theorem selectParent_max {parents : List Hash} {p : Hash} (hp : p ∈ parents) :
    scoreOf get p ≤ scoreOf get (selectParent get parents) := by
  cases parents with
  | nil => cases hp
  | cons a l => exact maxByKey_foldl_le (scoreOf get) l a p hp

theorem blueScore_dataOf (h : Hash) : (dataOf get h).blueScore = scoreOf get h := by
  unfold dataOf scoreOf
  cases get h <;> rfl

/-! ## The mergeset -/

/-- Blue and red blocks are the other parents. -/
theorem mem_classifyLoop {q : Hash} : ∀ {ps : List Hash} {blueSet : Finset Hash},
    q ∈ ps ↔ q ∈ (m.classifyLoop get ps blueSet).1 ∨ q ∈ (m.classifyLoop get ps blueSet).2
  | [], _ => by simp [classifyLoop]
  | p :: ps, blueSet => by
    simp only [classifyLoop]
    split
    · simp only [List.mem_cons, or_assoc]
      exact or_congr_right mem_classifyLoop
    · simp only [List.mem_cons]
      rw [or_left_comm]
      exact or_congr_right mem_classifyLoop

theorem mem_classifyMergeset (m : GhostdagManager) (get : Hash → Option GhostdagData) (q : Hash)
    (others : List Hash) (selected : GhostdagData) : q ∈ others ↔
      q ∈ (m.classifyMergeset get others selected).1 ∨
        q ∈ (m.classifyMergeset get others selected).2 := mem_classifyLoop

/-- Score, work, selected parent and mergeset of a block with parents. -/
theorem processBlock_spec (m : GhostdagManager) (get : Hash → Option GhostdagData)
    {parents : List Hash} (h : parents ≠ []) :
    let d := m.processBlock get parents
    d.selectedParent = selectParent get parents ∧
      d.blueScore = (dataOf get d.selectedParent).blueScore + 1 + d.mergesetBlues.length ∧
      d.blueWork = (dataOf get d.selectedParent).blueWork + 1 ∧
      ∀ q, (q ∈ parents ∧ q ≠ d.selectedParent) ↔ (q ∈ d.mergesetBlues ∨ q ∈ d.mergesetReds) := by
  have he : parents.isEmpty = false := by simpa using h
  unfold processBlock
  rw [he]
  refine ⟨rfl, rfl, rfl, fun q => ?_⟩
  have hmem := mem_classifyMergeset m get q (parents.filter (· ≠ selectParent get parents))
    (dataOf get (selectParent get parents))
  rw [List.mem_filter] at hmem
  simpa using hmem

/-- A blue merge block is one of the parents. -/
theorem mem_mergesetBlues {parents : List Hash} {q : Hash}
    (h : q ∈ (m.processBlock get parents).mergesetBlues) : q ∈ parents := by
  cases parents with
  | nil => cases h
  | cons a l => exact (((processBlock_spec m get (by simp)).2.2.2 q).2 (.inl h)).1

theorem selectedParent_mem {parents : List Hash} (h : parents ≠ []) :
    (m.processBlock get parents).selectedParent ∈ parents :=
  (processBlock_spec m get h).1 ▸ selectParent_mem h

/-! ## What is read -/

section
variable {get' : Hash → Option GhostdagData} {parents : List Hash}

theorem dataOf_congr {h : Hash} (he : get' h = get h) : dataOf get' h = dataOf get h := by
  rw [dataOf, dataOf, he]

theorem maxByKey_congr {α : Type} {key key' : α → Nat} : ∀ {l : List α},
    (∀ x ∈ l, key' x = key x) → maxByKey key' l = maxByKey key l
  | [], _ => rfl
  | a :: l, h => by
    simp only [maxByKey, Option.some.injEq]
    induction l generalizing a with
    | nil => rfl
    | cons x l ih =>
      rw [List.foldl_cons, List.foldl_cons, h a (by simp), h x (by simp)]
      refine ih _ fun y hy => ?_
      rcases List.mem_cons.1 hy with rfl | hy
      · split <;> exact h _ (by simp)
      · exact h y (by simp [hy])

theorem classifyLoop_congr : ∀ {ps : List Hash} (blueSet : Finset Hash),
    (∀ p ∈ ps, get' p = get p) → m.classifyLoop get' ps blueSet = m.classifyLoop get ps blueSet
  | [], _, _ => rfl
  | p :: ps, blueSet, h => by
    have hp := dataOf_congr (h p List.mem_cons_self)
    have hest : estimateAnticoneSize get' p blueSet = estimateAnticoneSize get p blueSet := by
      simp only [estimateAnticoneSize, hp]
    have ih : ∀ bs, m.classifyLoop get' ps bs = m.classifyLoop get ps bs := fun bs =>
      classifyLoop_congr bs fun q hq => h q (by simp [hq])
    simp only [classifyLoop, hest, hp, ih]

/-- The computation reads the data of the parents only. -/
theorem processBlock_congr (h : ∀ p ∈ parents, get' p = get p) :
    m.processBlock get' parents = m.processBlock get parents := by
  rcases List.eq_nil_or_concat parents with rfl | ⟨_, _, he⟩
  · rfl
  · have hne : parents ≠ [] := by rw [he]; simp
    have hscore : ∀ p ∈ parents, scoreOf get' p = scoreOf get p := fun p hp => by
      rw [scoreOf, scoreOf, h p hp]
    have hs : selectParent get' parents = selectParent get parents := by
      rw [selectParent, selectParent, maxByKey_congr hscore]
    have hd : dataOf get' (selectParent get parents) = dataOf get (selectParent get parents) :=
      dataOf_congr (h _ (selectParent_mem hne))
    simp only [processBlock, classifyMergeset, hs, hd]
    rw [classifyLoop_congr _ fun p hp => h p (List.mem_filter.1 hp).1]

end

end GhostdagManager

end Zentra

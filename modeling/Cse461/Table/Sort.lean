import Cse461.Library.Bubble
import Cse461.Table.LinkedList

/-!
# Sorting

`SortLinkedList` is a bubble sort: the payloads of neighbours are swapped, the nodes stay
where they are. Whether it ends depends on the comparator, a function of the caller's. With
one that compares as it should (`IsComparator`), a list of `n` elements takes at most `n`
rounds, and is sorted stably, whichever way (`sortLinkedList_mergeSort`).
-/

namespace Cse461.Table.LinkedList

open Library

variable {α : Type}

/-- The inner loop of `SortLinkedList`, from `curnode` on. -/
def sortRound (ascending : UInt32) (comparatorFunction : α → α → Int32) :
    ℕ → Option ℕ → Bool → LinkedListM α Bool
  | 0, _, _ => throw .unbounded
  | fuel + 1, curnode, swapped => do
    let cur ← nodeAt curnode
    if cur.next.isNone then
      return swapped
    else
      let next ← nodeAt cur.next
      let compareResult := comparatorFunction cur.payload next.payload
      let compareResult := if ascending ≠ 0 then compareResult * -1 else compareResult
      if compareResult < 0 then
        setNode curnode fun n => { n with payload := next.payload }
        setNode cur.next fun n => { n with payload := cur.payload }
        sortRound ascending comparatorFunction fuel cur.next true
      else
        sortRound ascending comparatorFunction fuel cur.next swapped

/-- The outer loop of `SortLinkedList`. No round takes more than `bound` steps. -/
def sortRounds (bound : ℕ) (list : ℕ) (ascending : UInt32)
    (comparatorFunction : α → α → Int32) : ℕ → LinkedListM α Unit
  | 0 => throw .unbounded
  | fuel + 1 => do
    let h ← headAt list
    if ← sortRound ascending comparatorFunction bound h.head false then
      sortRounds bound list ascending comparatorFunction fuel
    else
      return ()

/-- `SortLinkedList`. Either loop takes at most `fuel` rounds. -/
def sortLinkedList (fuel : ℕ) (list : ℕ) (ascending : UInt32)
    (comparatorFunction : α → α → Int32) : LinkedListM α Unit := do
  if (← headAt list).numElements < 2 then
    return ()
  else
    sortRounds fuel list ascending comparatorFunction fuel

/-- What `LLPayloadComparatorFnPtr` is to return. -/
structure IsComparator (le : α → α → Prop) (comparatorFunction : α → α → Int32) : Prop where
  trans : ∀ a b c, le a b → le b c → le a c
  total : ∀ a b, le a b ∨ le b a
  lt : ∀ a b, ¬le b a → comparatorFunction a b = -1
  eq : ∀ a b, le a b → le b a → comparatorFunction a b = 0
  gt : ∀ a b, ¬le a b → comparatorFunction a b = 1

/-- The order in which `SortLinkedList` puts payloads. -/
def sorts (le : α → α → Prop) [DecidableRel le] (ascending : UInt32) (a b : α) : Bool :=
  if ascending ≠ 0 then le a b else le b a

section

variable {le : α → α → Prop} [DecidableRel le] {ascending : UInt32}
  {comparatorFunction : α → α → Int32} {a b c : α}

theorem IsComparator.sorts_trans (h : IsComparator le comparatorFunction) (ascending : UInt32) :
    ∀ a b c, sorts le ascending a b → sorts le ascending b c → sorts le ascending a c := by
  intro a b c hab hbc
  rw [sorts] at *
  split
  · next hasc =>
    rw [if_pos hasc, decide_eq_true_eq] at hab hbc
    exact decide_eq_true (h.trans a b c hab hbc)
  · next hasc =>
    rw [if_neg hasc, decide_eq_true_eq] at hab hbc
    exact decide_eq_true (h.trans c b a hbc hab)

theorem IsComparator.sorts_total (h : IsComparator le comparatorFunction) (ascending : UInt32) :
    ∀ a b, sorts le ascending a b || sorts le ascending b a := by
  intro a b
  rw [sorts, sorts, Bool.or_eq_true]
  split
  · simpa using h.total a b
  · simpa using h.total b a

/-- Neighbours are swapped if they are out of order. -/
theorem IsComparator.lt_zero_iff (h : IsComparator le comparatorFunction) :
    (if ascending ≠ 0 then comparatorFunction a b * -1 else comparatorFunction a b) < 0 ↔
      ¬sorts le ascending a b := by
  rw [sorts]
  by_cases hab : le a b
  · by_cases hba : le b a
    · rw [h.eq a b hab hba]
      split <;> simp [hab, hba]
    · rw [h.lt a b hba]
      split
      · simp [hab]
      · simp [hba]
  · have hba := (h.total a b).resolve_left hab
    rw [h.gt a b hab]
    split
    · simp [hab]
    · simp [hba]

end

section

variable {le : α → α → Prop} [DecidableRel le] {ascending : UInt32}
  {comparatorFunction : α → α → Int32} {m : Memory α} {c : ℕ → Option (List (ℕ × α))}
  {E : Stop → Memory α → Prop} {list a fuel bound : ℕ} {x y : α} {l l₁ l₂ : List (ℕ × α)}
  {swapped : Bool}

/-- The payloads of a list are replaced. -/
def withPayloads (l : List (ℕ × α)) (payloads : List α) : List (ℕ × α) :=
  (l.map Prod.fst).zip payloads

@[simp] theorem withPayloads_cons (l : List (ℕ × α)) (payloads : List α) :
    withPayloads ((a, x) :: l) (y :: payloads) = (a, y) :: withPayloads l payloads := rfl

theorem length_withPayloads {payloads : List α} (h : payloads.length = l.length) :
    (withPayloads l payloads).length = l.length := by
  simp [withPayloads, h]

theorem map_snd_withPayloads {payloads : List α} (h : payloads.length = l.length) :
    (withPayloads l payloads).map Prod.snd = payloads :=
  List.map_snd_zip (by simp [h])

/-- Payloads are replaced again. -/
theorem withPayloads_withPayloads {payloads : List α} (h : payloads.length = l.length)
    (payloads' : List α) :
    withPayloads (withPayloads l payloads) payloads' = withPayloads l payloads' := by
  rw [withPayloads, withPayloads, List.map_fst_zip (by simp [h])]
  rfl

@[simp] theorem withPayloads_self : withPayloads l (l.map Prod.snd) = l := by
  induction l with
  | nil => rfl
  | cons y l ih => rw [List.map_cons, withPayloads_cons, ih]

/-- A round does what `bubble` does, to the payloads, and says whether any were swapped. -/
theorem wp_sortRound (hcmp : IsComparator le comparatorFunction) (h : Represents m c)
    (hl : c list = some (l₁ ++ (a, x) :: l₂)) (hfuel : l₂.length < fuel) :
    wp (sortRound ascending comparatorFunction fuel (some a) swapped) (fun r m' =>
      (r = true ↔ swapped = true ∨ ¬(x :: l₂.map Prod.snd).IsChain (sorts le ascending · ·)) ∧
      m' = { m with nodes := m'.nodes } ∧
      Represents m' (Function.update c list (some (l₁ ++ withPayloads ((a, x) :: l₂)
        (bubble (sorts le ascending) x (l₂.map Prod.snd)))))) E m := by
  induction fuel generalizing m c l₁ l₂ a x swapped with
  | zero => exact absurd hfuel (Nat.not_lt_zero _)
  | succ fuel ih =>
    rw [sortRound, wp_bind]
    refine wp_nodeAt (h.linked list _ hl).get ?_
    dsimp only
    cases l₂ with
    | nil =>
      refine ⟨by simp, rfl, ?_⟩
      have hself : Function.update c list (some (l₁ ++ [(a, x)])) = c :=
        Function.update_eq_self_iff.2 hl.symm
      exact hself.symm ▸ h
    | cons z l₂ =>
      obtain ⟨b, y⟩ := z
      have hsplit : c list = some ((l₁ ++ [(a, x)]) ++ (b, y) :: l₂) := by rw [hl]; simp
      have hb : (first ((b, y) :: l₂) none).bind m.nodes = some ⟨y, first l₂ none, some a⟩ := by
        change m.nodes b = _
        simpa [last] using (h.linked list _ hsplit).get
      rw [if_neg (by simp [first]), wp_bind]
      refine wp_nodeAt hb ?_
      dsimp only
      rw [wp_ite, hcmp.lt_zero_iff, not_not]
      rw [List.map_cons, List.isChain_cons_cons, bubble]
      refine ⟨fun hlt => ?_, fun hle => ?_⟩
      · -- The payload is carried along.
        have hm₁ := h.setPayload hl y
        have hl₁ : Function.update c list (some (l₁ ++ (a, y) :: (b, y) :: l₂)) list =
            some ((l₁ ++ [(a, y)]) ++ (b, y) :: l₂) := by simp
        have hm₂ := hm₁.setPayload hl₁ x
        rw [if_neg hlt, wp_bind]
        refine wp_setNode (h.linked list _ hl).get ?_
        rw [wp_bind]
        refine wp_setNode (hm₁.linked list _ hl₁).get ?_
        refine wp_mono (ih hm₂ (Function.update_self ..) (Nat.lt_of_succ_lt_succ hfuel)) ?_
          fun _ _ hE => hE
        rintro r m' ⟨hr, hm', hrep⟩
        refine ⟨by simp [hr, hlt], hm', ?_⟩
        simpa [withPayloads] using hrep
      · rw [if_pos hle]
        refine wp_mono (ih h hsplit (Nat.lt_of_succ_lt_succ hfuel)) ?_ fun _ _ hE => hE
        rintro r m' ⟨hr, hm', hrep⟩
        refine ⟨by simp [hr, hle], hm', ?_⟩
        simpa [withPayloads] using hrep

/-- As many rounds as there are elements that are not where they belong sort a list. -/
theorem wp_sortRounds (hcmp : IsComparator le comparatorFunction) (h : Represents m c)
    (hl : c list = some l) (hnil : l ≠ []) (hbound : l.length ≤ bound) (hfuel : 0 < fuel)
    (hsettled : Settled (sorts le ascending) fuel (l.map Prod.snd)) :
    wp (sortRounds bound list ascending comparatorFunction fuel) (fun _ m' =>
      m' = { m with nodes := m'.nodes } ∧ Represents m' (Function.update c list
        (some (withPayloads l ((l.map Prod.snd).mergeSort (sorts le ascending)))))) E m := by
  have htrans := hcmp.sorts_trans ascending
  have htotal := hcmp.sorts_total ascending
  induction fuel generalizing m c l with
  | zero => exact absurd hfuel (lt_irrefl 0)
  | succ fuel ih =>
    obtain ⟨⟨a, x⟩, l, rfl⟩ := List.exists_cons_of_ne_nil hnil
    have hsplit : c list = some ([] ++ (a, x) :: l) := hl
    rw [sortRounds, wp_bind]
    refine wp_headAt (h.head list _ hl) ?_
    rw [wp_bind]
    refine wp_mono (wp_sortRound hcmp h hsplit hbound) ?_ fun _ _ hE => hE
    rintro r m₁ ⟨hr, hm₁, hrep⟩
    rw [List.map_cons] at hsettled ⊢
    rw [List.nil_append] at hrep
    rw [wp_ite]
    refine ⟨fun htrue => ?_, fun hfalse => ?_⟩
    · have hswapped := (hr.1 htrue).resolve_left Bool.false_ne_true
      have hpos : 0 < fuel := by
        rcases Nat.eq_zero_or_pos fuel with rfl | hpos
        · exact absurd ((isChain_iff htrans).2 hsettled.pairwise) hswapped
        · exact hpos
      -- What the list is to be sorted into is as before, with one element more in its place.
      have hlength : (bubble (sorts le ascending) x (l.map Prod.snd)).length =
          ((a, x) :: l).length := by simp
      have hrest := length_withPayloads hlength
      refine wp_mono (ih hrep (Function.update_self ..) ?_ (hrest ▸ hbound) hpos ?_) ?_
        fun _ _ hE => hE
      · exact List.ne_nil_of_length_pos (by rw [hrest]; exact Nat.succ_pos _)
      · rw [map_snd_withPayloads hlength]
        exact hsettled.bubble htrans htotal
      · rintro - m' ⟨hm', hrep'⟩
        rw [map_snd_withPayloads hlength, withPayloads_withPayloads hlength,
          mergeSort_bubble htrans htotal, Function.update_idem] at hrep'
        exact ⟨by rw [hm', hm₁], hrep'⟩
    · -- Nothing was swapped: the list is in order.
      have hchain : (x :: l.map Prod.snd).IsChain (sorts le ascending · ·) := by
        by_contra hchain
        exact hfalse (hr.2 (.inr hchain))
      rw [bubble_of_isChain hchain] at hrep
      rw [wp_pure, List.mergeSort_of_pairwise ((isChain_iff htrans).1 hchain)]
      exact ⟨hm₁, hrep⟩

/-- A list is sorted in place, and stably: as its payloads would be by the order of the
    comparator, or against it. The loops end within as many rounds as there are elements. -/
theorem sortLinkedList_mergeSort (hcmp : IsComparator le comparatorFunction)
    (h : Represents m c) (hl : c list = some l) (hfuel : l.length ≤ fuel) :
    wp (sortLinkedList fuel list ascending comparatorFunction) (fun _ m' =>
      m' = { m with nodes := m'.nodes } ∧ Represents m' (Function.update c list
        (some (withPayloads l ((l.map Prod.snd).mergeSort (sorts le ascending))))))
      (fun _ _ => False) m := by
  rw [sortLinkedList, wp_bind]
  refine wp_headAt (h.head list l hl) ?_
  rw [wp_ite]
  refine ⟨fun hshort => ?_, fun hlong => ?_⟩
  · have hsorted : (l.map Prod.snd).Pairwise (sorts le ascending · ·) := by
      rcases l with _ | ⟨x, _ | ⟨y, l⟩⟩
      · exact .nil
      · exact List.pairwise_singleton _ _
      · simp at hshort
    have hself : Function.update c list (some l) = c := Function.update_eq_self_iff.2 hl.symm
    rw [wp_pure, List.mergeSort_of_pairwise hsorted, withPayloads_self, hself]
    exact ⟨rfl, h⟩
  · have hpos : 0 < fuel := by
      dsimp only at hlong
      omega
    refine wp_sortRounds hcmp h hl ?_ hfuel hpos (settled_of_length_le ?_)
    · rintro rfl
      exact hlong Nat.zero_lt_two
    · rwa [List.length_map]

end

/-- A comparator of numbers. -/
def compareNumbers (a b : ℕ) : Int32 :=
  if a < b then -1 else if b < a then 1 else 0

theorem isComparator_compareNumbers : IsComparator (· ≤ ·) compareNumbers where
  trans _ _ _ := le_trans
  total := le_total
  lt a b h := if_pos (not_le.1 h)
  eq a b hab hba := by rw [compareNumbers, if_neg hba.not_gt, if_neg hab.not_gt]
  gt a b h := by rw [compareNumbers, if_neg (not_le.1 h).not_gt, if_pos (not_le.1 h)]

/-- A list with 5, 3 and 4, in the nodes at 1 to 3. -/
def threeNumbers : Memory ℕ where
  nodes a :=
    if a = 1 then some ⟨5, some 2, none⟩
    else if a = 2 then some ⟨3, some 3, some 1⟩
    else if a = 3 then some ⟨4, none, some 2⟩
    else none
  heads := Function.update (fun _ => none) 0 (some ⟨3, some 1, some 3⟩)
  next := 4
  room _ := true

/-- It is sorted in two rounds, and a last one. -/
theorem sortLinkedList_mergeSort_three :
    wp (sortLinkedList 3 0 1 compareNumbers) (fun _ m' =>
      m' = { threeNumbers with nodes := m'.nodes } ∧
      Represents m' (Function.update (Function.update (fun _ => none) 0
        (some [(1, 5), (2, 3), (3, 4)])) 0 (some (withPayloads [(1, 5), (2, 3), (3, 4)]
          (List.mergeSort [5, 3, 4] (sorts (· ≤ ·) 1)))))) (fun _ _ => False) threeNumbers := by
  have hnone : Represents (⟨fun _ => none, fun _ => none, 0, fun _ => true⟩ : Memory ℕ)
      fun _ => none := by
    constructor <;> simp
  have h : Represents threeNumbers
      (Function.update (fun _ => none) 0 (some [(1, 5), (2, 3), (3, 4)])) := by
    refine hnone.update (l := []) (Nat.zero_le _) (by decide) (by simp) (by simp) rfl ?_ ?_ ?_ ?_
    · exact fun a _ ha => absurd ha (Nat.not_lt_zero a)
    · exact ⟨rfl, rfl, rfl, trivial⟩
    · decide
    · decide
  exact sortLinkedList_mergeSort isComparator_compareNumbers h (Function.update_self ..) le_rfl

end Cse461.Table.LinkedList

import Mathlib

/-!
# Bubble sort

A round of bubble sort (`bubble`) goes over a list once and swaps the neighbours that are
out of order. It carries the largest element so far along, and leaves it at the end.

* `bubble_of_isChain`: a round in which nothing is swapped changes nothing.
* `Settled.bubble`: after every round, one element more is where it belongs, at the end of
  the list. A list of `n` elements is sorted after `n - 1` rounds (`Settled.pairwise`).
* `ties_bubble`: elements that the order does not tell apart stay in the order which they
  come in. With the order, this determines a sorted list (`eq_of_ties`): it is the one of
  `List.mergeSort`, and a round does not change it (`mergeSort_bubble`).
-/

namespace Library

variable {α : Type*} {le : α → α → Bool} {a x : α} {l l₁ l₂ : List α} {n : ℕ}

/-- A round over `a :: l`. -/
def bubble (le : α → α → Bool) : α → List α → List α
  | a, [] => [a]
  | a, b :: l => if le a b then a :: bubble le b l else b :: bubble le a l

/-- The elements of a list that the order does not tell from `x`. -/
def ties (le : α → α → Bool) (x : α) (l : List α) : List α :=
  l.filter fun y => le x y && le y x

/-- All elements but the first `n` are where they belong. -/
def Settled (le : α → α → Bool) (n : ℕ) (l : List α) : Prop :=
  ∃ l₁ l₂, l = l₁ ++ l₂ ∧ l₁.length ≤ n ∧ l₂.Pairwise (le · ·) ∧ ∀ x ∈ l₁, ∀ y ∈ l₂, le x y

theorem bubble_perm : (bubble le a l).Perm (a :: l) := by
  induction l generalizing a with
  | nil => exact .refl _
  | cons b l ih =>
    rw [bubble]
    split
    · exact ih.cons a
    · exact (ih.cons b).trans (.swap a b l)

@[simp] theorem length_bubble : (bubble le a l).length = l.length + 1 :=
  bubble_perm.length_eq

theorem bubble_of_isChain (h : (a :: l).IsChain (le · ·)) : bubble le a l = a :: l := by
  induction l generalizing a with
  | nil => rfl
  | cons b l ih =>
    rw [List.isChain_cons_cons] at h
    rw [bubble, if_pos h.1, ih h.2]

theorem ties_cons : ties le x (a :: l) =
    if le x a && le a x then a :: ties le x l else ties le x l :=
  List.filter_cons

theorem mem_ties : a ∈ ties le x l ↔ a ∈ l ∧ le x a ∧ le a x := by
  rw [ties, List.mem_filter, Bool.and_eq_true]

theorem settled_of_length_le (h : l.length ≤ n) : Settled le n l :=
  ⟨l, [], (List.append_nil l).symm, h, .nil, fun _ _ _ hy => absurd hy List.not_mem_nil⟩

/-! ## What is sorted -/

section

variable (trans : ∀ a b c, le a b → le b c → le a c) (total : ∀ a b, le a b || le b a)

include trans in
/-- A list is in order if its neighbours are. -/
theorem isChain_iff : l.IsChain (le · ·) ↔ l.Pairwise (le · ·) := by
  have : IsTrans α (le · ·) := ⟨trans⟩
  exact List.isChain_iff_pairwise

include total in
theorem le_self (a : α) : le a a := by
  simpa using total a a

include trans in
/-- A round does not reach into the elements that are where they belong. -/
theorem bubble_append (h : l₂.Pairwise (le · ·)) (hle : ∀ x ∈ a :: l₁, ∀ y ∈ l₂, le x y) :
    bubble le a (l₁ ++ l₂) = bubble le a l₁ ++ l₂ := by
  induction l₁ generalizing a with
  | nil =>
    refine bubble_of_isChain ((isChain_iff trans).2 (List.pairwise_cons.2 ⟨?_, h⟩))
    exact hle a List.mem_cons_self
  | cons b l₁ ih =>
    rw [List.cons_append, bubble, bubble]
    split
    · rw [ih fun x hx => hle x (List.mem_cons_of_mem _ hx), List.cons_append]
    · rw [ih, List.cons_append]
      intro x hx
      refine hle x ?_
      rcases List.mem_cons.1 hx with rfl | hx
      · exact List.mem_cons_self
      · exact List.mem_cons_of_mem _ (List.mem_cons_of_mem _ hx)

include trans total in
/-- The largest element is left at the end. -/
theorem exists_bubble_eq (a : α) (l : List α) :
    ∃ l' b, bubble le a l = l' ++ [b] ∧ ∀ x ∈ l', le x b := by
  induction l generalizing a with
  | nil => exact ⟨[], a, rfl, fun x hx => absurd hx List.not_mem_nil⟩
  | cons c l ih =>
    -- What is carried into the rest of the round is not above what the round leaves.
    have hcarried : ∀ {d l' b}, bubble le d l = l' ++ [b] → (∀ x ∈ l', le x b) → le d b := by
      intro d l' b heq hle
      have hd : d ∈ l' ++ [b] := heq ▸ bubble_perm.mem_iff.2 List.mem_cons_self
      rcases List.mem_append.1 hd with hd | hd
      · exact hle d hd
      · rw [List.mem_singleton.1 hd]
        exact le_self total b
    rw [bubble]
    split
    · next hac =>
      obtain ⟨l', b, heq, hle⟩ := ih c
      refine ⟨a :: l', b, by rw [heq, List.cons_append], ?_⟩
      intro x hx
      rcases List.mem_cons.1 hx with rfl | hx
      · exact trans x c b hac (hcarried heq hle)
      · exact hle x hx
    · next hac =>
      obtain ⟨l', b, heq, hle⟩ := ih a
      have hca : le c a := by simpa [hac] using total a c
      refine ⟨c :: l', b, by rw [heq, List.cons_append], ?_⟩
      intro x hx
      rcases List.mem_cons.1 hx with rfl | hx
      · exact trans x a b hca (hcarried heq hle)
      · exact hle x hx

include trans total in
/-- After a round, one element more is where it belongs. -/
theorem Settled.bubble (h : Settled le (n + 1) (a :: l)) : Settled le n (bubble le a l) := by
  obtain ⟨l₁, l₂, heq, hlength, hsorted, hle⟩ := h
  cases l₁ with
  | nil =>
    rw [List.nil_append] at heq
    subst heq
    refine ⟨[], a :: l, bubble_of_isChain ((isChain_iff trans).2 hsorted), n.zero_le, hsorted, ?_⟩
    exact fun x hx => absurd hx List.not_mem_nil
  | cons a' l₁ =>
    rw [List.cons_append] at heq
    obtain ⟨rfl, rfl⟩ := List.cons.inj heq
    obtain ⟨l', b, hb, hlast⟩ := exists_bubble_eq trans total a l₁
    have hsub : ∀ x ∈ l' ++ [b], x ∈ a :: l₁ := fun x hx => bubble_perm.mem_iff.1 (hb ▸ hx)
    refine ⟨l', b :: l₂, ?_, ?_, List.pairwise_cons.2 ⟨?_, hsorted⟩, ?_⟩
    · rw [bubble_append trans hsorted hle, hb, List.append_assoc, List.singleton_append]
    · have hround : (Library.bubble le a l₁).length = l'.length + 1 := by
        rw [hb, List.length_append, List.length_singleton]
      rw [length_bubble] at hround
      rw [List.length_cons] at hlength
      omega
    · exact hle b (hsub b (List.mem_append_right _ List.mem_cons_self))
    · intro x hx y hy
      rcases List.mem_cons.1 hy with rfl | hy
      · exact hlast x hx
      · exact hle x (hsub x (List.mem_append_left _ hx)) y hy

/-- Where all elements but one are where they belong, all are. -/
theorem Settled.pairwise (h : Settled le 1 l) : l.Pairwise (le · ·) := by
  obtain ⟨l₁, l₂, rfl, hlength, hsorted, hle⟩ := h
  refine List.pairwise_append.2 ⟨?_, hsorted, hle⟩
  rcases l₁ with _ | ⟨x, _ | ⟨y, l₁⟩⟩
  · exact .nil
  · exact List.pairwise_singleton _ x
  · simp at hlength

/-! ## What is stable -/

include trans in
/-- A round leaves ties in the order which they come in. -/
theorem ties_bubble (x : α) : ties le x (bubble le a l) = ties le x (a :: l) := by
  induction l generalizing a with
  | nil => rfl
  | cons b l ih =>
    rw [bubble]
    split
    · rw [ties_cons, ih, ← ties_cons]
    · next hab =>
      rw [ties_cons, ih, ties_cons, ties_cons, ties_cons]
      by_cases ha : le x a && le a x
      · -- Of two elements that are swapped, one is not tied with `x`.
        have hb : ¬(le x b && le b x) := by
          intro hb
          rw [Bool.and_eq_true] at ha hb
          exact hab (trans a x b ha.2 hb.1)
        rw [if_neg hb, if_neg hb]
      · rw [if_neg ha, if_neg ha]

include total in
theorem mem_iff_of_ties (h : ∀ x, ties le x l₁ = ties le x l₂) : a ∈ l₁ ↔ a ∈ l₂ := by
  have ha : a ∈ ties le a l₁ ↔ a ∈ ties le a l₂ := by rw [h a]
  simpa [mem_ties, le_self total a] using ha

include total in
/-- A sorted list is determined by the order of its ties. -/
theorem eq_of_ties (h₁ : l₁.Pairwise (le · ·)) (h₂ : l₂.Pairwise (le · ·))
    (h : ∀ x, ties le x l₁ = ties le x l₂) : l₁ = l₂ := by
  -- The first element of a sorted list is not above the others.
  have hfirst : ∀ {y z : α} {l : List α}, (y :: l).Pairwise (le · ·) → z ∈ y :: l → le y z := by
    intro y z l hl hz
    rcases List.mem_cons.1 hz with rfl | hz
    · exact le_self total z
    · exact (List.pairwise_cons.1 hl).1 z hz
  induction l₁ generalizing l₂ with
  | nil =>
    cases l₂ with
    | nil => rfl
    | cons b l₂ => exact absurd ((mem_iff_of_ties total h).2 List.mem_cons_self) List.not_mem_nil
  | cons a l₁ ih =>
    cases l₂ with
    | nil => exact absurd ((mem_iff_of_ties total h).1 List.mem_cons_self) List.not_mem_nil
    | cons b l₂ =>
      have hab : le a b := hfirst h₁ ((mem_iff_of_ties total h).2 List.mem_cons_self)
      have hba : le b a := hfirst h₂ ((mem_iff_of_ties total h).1 List.mem_cons_self)
      -- Being ties, the first elements come first among the ties.
      have hties := h a
      rw [ties_cons, ties_cons, if_pos (by simp [le_self total a]), if_pos (by simp [hab, hba])]
        at hties
      obtain ⟨rfl, -⟩ := List.cons.inj hties
      congr 1
      refine ih h₁.of_cons h₂.of_cons fun x => ?_
      have hx := h x
      rw [ties_cons, ties_cons] at hx
      split at hx
      · exact (List.cons.inj hx).2
      · exact hx

include trans total in
theorem ties_mergeSort (x : α) : ties le x (l.mergeSort le) = ties le x l := by
  have hsorted : (ties le x l).Pairwise (le · ·) := by
    rw [List.pairwise_iff_forall_sublist]
    intro y z hyz
    have hy : y ∈ ties le x l := hyz.subset List.mem_cons_self
    have hz : z ∈ ties le x l := hyz.subset (List.mem_cons_of_mem _ List.mem_cons_self)
    exact trans y x z (mem_ties.1 hy).2.2 (mem_ties.1 hz).2.1
  have hsub := List.sublist_mergeSort trans total hsorted List.filter_sublist
  have hties := hsub.filter fun y => le x y && le y x
  rw [ties, List.filter_filter] at hties
  simp only [Bool.and_self] at hties
  refine (hties.eq_of_length ?_).symm
  exact ((List.mergeSort_perm l le).filter _).length_eq.symm

include trans total in
/-- A round does not change what a list is to be sorted into. -/
theorem mergeSort_bubble : (bubble le a l).mergeSort le = (a :: l).mergeSort le := by
  refine eq_of_ties total (List.pairwise_mergeSort trans total _)
    (List.pairwise_mergeSort trans total _) fun x => ?_
  rw [ties_mergeSort trans total, ties_bubble trans, ties_mergeSort trans total]

end

end Library

import Mathlib

/-!
# Interleavings

The ways to take the elements of several queues one at a time, each from the
front of its queue, until all are empty. An interleaving has the elements of the
queues, each as often as they do (`Interleaving.perm`). It can be computed from the
turns that the queues take (`interleaving_of_takeTurns`).
-/

namespace Library

open scoped List

variable {α : Type*}

/-- The list is taken from the queues, an element at a time. -/
inductive Interleaving : List (List α) → List α → Prop
  | nil {qs : List (List α)} : (∀ q ∈ qs, q = []) → Interleaving qs []
  | cons {qs : List (List α)} {k : ℕ} {x : α} {q l : List α} :
      qs[k]? = some (x :: q) → Interleaving (qs.set k q) l → Interleaving qs (x :: l)

/-- What is taken from the queues in these turns, if nothing is left in them then. -/
def takeTurns : List (List α) → List ℕ → Option (List α)
  | qs, [] => if qs.all List.isEmpty then some [] else none
  | qs, k :: ks =>
    match qs[k]? with
    | some (x :: q) => (takeTurns (qs.set k q) ks).map (x :: ·)
    | _ => none

theorem interleaving_of_takeTurns {qs : List (List α)} {ks : List ℕ} {l : List α}
    (h : takeTurns qs ks = some l) : Interleaving qs l := by
  induction ks generalizing qs l with
  | nil =>
    rw [takeTurns] at h
    split at h
    · next hall =>
      obtain rfl := Option.some.inj h
      exact .nil fun q hq => List.isEmpty_iff.1 (List.all_eq_true.1 hall q hq)
    · cases h
  | cons k ks ih =>
    rw [takeTurns] at h
    split at h
    · next hk =>
      obtain ⟨l', hl', rfl⟩ := Option.map_eq_some_iff.1 h
      exact .cons hk (ih hl')
    · cases h

/-- Replacing a list replaces its elements. -/
theorem flatten_set_perm {qs : List (List α)} {k : ℕ} {q : List α} (h : qs[k]? = some q)
    (q' : List α) :
    (q' ++ qs.flatten).Perm (q ++ (qs.set k q').flatten) := by
  obtain ⟨hk, rfl⟩ := List.getElem?_eq_some_iff.1 h
  have hsplit : qs.flatten = (qs.take k).flatten ++ (qs[k] ++ (qs.drop (k + 1)).flatten) := by
    conv_lhs => rw [← List.take_append_drop k qs, List.drop_eq_getElem_cons hk]
    rw [List.flatten_append, List.flatten_cons]
  have hset : (qs.set k q').flatten =
      (qs.take k).flatten ++ (q' ++ (qs.drop (k + 1)).flatten) := by
    rw [List.set_eq_take_append_cons_drop, if_pos hk, List.flatten_append, List.flatten_cons]
  rw [hsplit, hset]
  calc q' ++ ((qs.take k).flatten ++ (qs[k] ++ (qs.drop (k + 1)).flatten))
    _ ~ (qs.take k).flatten ++ (q' ++ (qs[k] ++ (qs.drop (k + 1)).flatten)) :=
        List.perm_append_comm_assoc _ _ _
    _ ~ (qs.take k).flatten ++ (qs[k] ++ (q' ++ (qs.drop (k + 1)).flatten)) :=
        (List.perm_append_comm_assoc _ _ _).append_left _
    _ ~ qs[k] ++ ((qs.take k).flatten ++ (q' ++ (qs.drop (k + 1)).flatten)) :=
        List.perm_append_comm_assoc _ _ _

/-- The elements of one list, and those of the others. -/
theorem flatten_perm_append {qs : List (List α)} {k : ℕ} {q : List α} (h : qs[k]? = some q) :
    qs.flatten.Perm (q ++ (qs.set k []).flatten) := by
  simpa using flatten_set_perm h []

theorem flatten_set_perm_append {qs : List (List α)} {k : ℕ} (h : k < qs.length) (q : List α) :
    (qs.set k q).flatten.Perm (q ++ (qs.set k []).flatten) := by
  have hk : (qs.set k q)[k]? = some q := List.getElem?_set_self h
  have hset := flatten_perm_append hk
  rwa [List.set_set] at hset

/-- A list of images, up to their order, is the list of the images, in some order. -/
theorem exists_perm_map {β : Type*} {f : α → β} {l : List α} {l' : List β}
    (h : l'.Perm (l.map f)) : ∃ l₁, l₁ ~ l ∧ l₁.map f = l' := by
  induction l' generalizing l with
  | nil =>
    have hl : l = [] := by simpa using h.symm.eq_nil
    exact ⟨[], by rw [hl], rfl⟩
  | cons y l' ih =>
    obtain ⟨x, hx, rfl⟩ := List.mem_map.1 (h.subset List.mem_cons_self)
    obtain ⟨s, t, rfl⟩ := List.append_of_mem hx
    have hcancel : l'.Perm ((s ++ t).map f) := by
      rw [List.map_append] at h ⊢
      exact (h.trans List.perm_middle).cons_inv
    obtain ⟨l₁, hl₁, rfl⟩ := ih hcancel
    exact ⟨x :: l₁, (hl₁.cons x).trans List.perm_middle.symm, rfl⟩

/-- An interleaving has the elements of the queues. -/
theorem Interleaving.perm {qs : List (List α)} {l : List α} (h : Interleaving qs l) :
    l.Perm qs.flatten := by
  induction h with
  | nil h => rw [List.flatten_eq_nil_iff.2 h]
  | @cons qs k x q l hk _ ih =>
    have hset := flatten_set_perm hk q
    have hcancel : qs.flatten.Perm (x :: (qs.set k q).flatten) := by
      refine (List.perm_append_left_iff q).1 (hset.trans ?_)
      rw [List.cons_append]
      exact List.perm_middle.symm
    exact (ih.cons x).trans hcancel.symm

end Library

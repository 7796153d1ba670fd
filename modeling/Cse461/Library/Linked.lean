import Mathlib

/-!
# Doubly linked chains

Nodes in a memory, each with the address of the next and of the previous one.
`Linked m p l n` says that the nodes `l`, given by their addresses and payloads, are
chained in both directions: `p` comes before the first one, and `n` after the last.

* `linked_append`: a chain of two parts is a chain of each, with the other at its end.
* `Linked.congr`: a chain depends on the memory at its addresses only.
* `Linked.setNext`, `Linked.setPrev`: what the two ends point to can be changed, with
  one write each.
* `Linked.insert`, `Linked.delete`: a node is put in or taken out by changing what its
  neighbours point to.
* `Linked.setPayload`: what a node holds can be changed, with one write.
* `Walk` follows the links of one direction: forwards from the first node, and backwards
  from the last one, a walk meets the nodes of the chain.
-/

namespace Library

/-- A node of a chain. -/
structure Node (β : Type*) where
  payload : β
  next : Option ℕ
  prev : Option ℕ

variable {β : Type*} {m m' : ℕ → Option (Node β)} {p n : Option ℕ} {l l₁ l₂ : List (ℕ × β)}
  {a : ℕ} {x : β}

/-- The address of the first node, `n` if there is none. -/
def first : List (ℕ × β) → Option ℕ → Option ℕ
  | [], n => n
  | (a, _) :: _, _ => some a

/-- The address of the last node, `p` if there is none. -/
def last : List (ℕ × β) → Option ℕ → Option ℕ
  | [], p => p
  | (a, _) :: l, _ => last l (some a)

/-- The nodes `l` are chained, between `p` and `n`. -/
def Linked (m : ℕ → Option (Node β)) : Option ℕ → List (ℕ × β) → Option ℕ → Prop
  | _, [], _ => True
  | p, (a, x) :: l, n => m a = some ⟨x, first l n, p⟩ ∧ Linked m (some a) l n

/-- Change the node at an address, if there is one. -/
def modifyNode (m : ℕ → Option (Node β)) (p : Option ℕ) (f : Node β → Node β) :
    ℕ → Option (Node β) :=
  match p with
  | none => m
  | some a => Function.update m a ((m a).map f)

/-! ## Parts of a chain -/

@[simp] theorem first_append (l₁ l₂ : List (ℕ × β)) (n : Option ℕ) :
    first (l₁ ++ l₂) n = first l₁ (first l₂ n) := by
  cases l₁ <;> rfl

@[simp] theorem last_append (l₁ l₂ : List (ℕ × β)) (p : Option ℕ) :
    last (l₁ ++ l₂) p = last l₂ (last l₁ p) := by
  induction l₁ generalizing p with
  | nil => rfl
  | cons y l₁ ih => exact ih _

/-- The last node of a chain that has one does not depend on what is before. -/
theorem last_of_ne_nil (h : l ≠ []) (p q : Option ℕ) : last l p = last l q := by
  cases l with
  | nil => exact absurd rfl h
  | cons y l => rfl

theorem first_of_ne_nil (h : l ≠ []) (n q : Option ℕ) : first l n = first l q := by
  cases l with
  | nil => exact absurd rfl h
  | cons y l => rfl

theorem first_append_of_ne_nil (h : l₁ ≠ []) (l₂ : List (ℕ × β)) (n : Option ℕ) :
    first (l₁ ++ l₂) n = first l₁ none :=
  (first_append ..).trans (first_of_ne_nil h _ _)

theorem mem_of_first (h : first l none = some a) : a ∈ l.map Prod.fst := by
  cases l with
  | nil => cases h
  | cons y l =>
    obtain rfl := Option.some.inj h
    exact List.mem_cons_self

theorem mem_of_last (h : last l none = some a) : a ∈ l.map Prod.fst := by
  rcases List.eq_nil_or_concat l with rfl | ⟨l, y, rfl⟩
  · cases h
  · rw [List.concat_eq_append, last_append] at h
    obtain rfl := Option.some.inj h
    simp

theorem first_eq_none_iff : first l none = none ↔ l = [] := by
  cases l <;> simp [first]

theorem last_eq_none_iff : last l none = none ↔ l = [] := by
  rcases List.eq_nil_or_concat l with rfl | ⟨l, y, rfl⟩
  · simp [last]
  · simp [last]

theorem linked_append : Linked m p (l₁ ++ l₂) n ↔
    Linked m p l₁ (first l₂ n) ∧ Linked m (last l₁ p) l₂ n := by
  induction l₁ generalizing p with
  | nil => simp [Linked, last]
  | cons y l₁ ih => simp only [List.cons_append, Linked, last, first_append, ih, and_assoc]

/-- A node of a chain. -/
theorem Linked.get (h : Linked m p (l₁ ++ (a, x) :: l₂) n) :
    m a = some ⟨x, first l₂ n, last l₁ p⟩ :=
  (linked_append.1 h).2.1

/-- A chain depends on the memory at its addresses only. -/
theorem Linked.congr (h : Linked m p l n) (hm : ∀ a ∈ l.map Prod.fst, m' a = m a) :
    Linked m' p l n := by
  induction l generalizing p with
  | nil => trivial
  | cons y l ih =>
    exact ⟨(hm y.1 List.mem_cons_self).trans h.1,
      ih h.2 fun a ha => hm a (List.mem_cons_of_mem _ ha)⟩

/-! ## Writes -/

theorem modifyNode_of_ne {f : Node β → Node β} (h : p ≠ some a) : modifyNode m p f a = m a := by
  cases p with
  | none => rfl
  | some b => exact Function.update_of_ne (fun hab => h (congrArg some hab.symm)) _ _

theorem modifyNode_self {f : Node β → Node β} : modifyNode m (some a) f a = (m a).map f :=
  Function.update_self ..

theorem modifyNode_isSome {f : Node β → Node β} {q : Option ℕ} (h : (q.bind m).isSome) :
    (q.bind (modifyNode m p f)).isSome := by
  cases q with
  | none => cases h
  | some b =>
    by_cases hp : p = some b
    · subst hp
      simpa [modifyNode] using h
    · simpa [modifyNode_of_ne hp] using h

theorem Linked.isSome_first (h : Linked m p l n) (hl : l ≠ []) : ((first l none).bind m).isSome := by
  cases l with
  | nil => exact absurd rfl hl
  | cons y l => simp [first, h.1]

theorem Linked.isSome_last (h : Linked m p l n) (hl : l ≠ []) : ((last l none).bind m).isSome := by
  rcases List.eq_nil_or_concat l with rfl | ⟨l, y, rfl⟩
  · exact absurd rfl hl
  · rw [List.concat_eq_append] at h ⊢
    have hget : m y.1 = some ⟨y.2, n, last l p⟩ := h.get
    simp [last, hget]

/-- What comes after the last node is changed. -/
theorem Linked.setNext (h : Linked m p l n) (hl : (l.map Prod.fst).Nodup) (q : Option ℕ) :
    Linked (modifyNode m (last l none) fun y => { y with next := q }) p l q := by
  rcases List.eq_nil_or_concat l with rfl | ⟨l, ⟨a, x⟩, rfl⟩
  · trivial
  · rw [List.concat_eq_append] at h hl ⊢
    rw [linked_append] at h ⊢
    obtain ⟨h, ha, -⟩ := h
    have hnot : a ∉ l.map Prod.fst := by
      rw [List.map_append, List.nodup_append] at hl
      exact fun hmem => hl.2.2 a hmem a List.mem_cons_self rfl
    have hlast : last (l ++ [(a, x)]) none = some a := last_append ..
    rw [hlast]
    refine ⟨h.congr fun b hb => modifyNode_of_ne fun hab => hnot ?_, ?_, trivial⟩
    · rwa [Option.some.inj hab]
    · rw [modifyNode_self, ha]
      rfl

/-- What comes before the first node is changed. -/
theorem Linked.setPrev (h : Linked m p l n) (hl : (l.map Prod.fst).Nodup) (q : Option ℕ) :
    Linked (modifyNode m (first l none) fun y => { y with prev := q }) q l n := by
  cases l with
  | nil => trivial
  | cons y l =>
    refine ⟨?_, h.2.congr fun b hb => modifyNode_of_ne fun hab => ?_⟩
    · rw [first, modifyNode_self, h.1]
      rfl
    · obtain rfl := Option.some.inj hab
      exact (List.nodup_cons.1 hl).1 hb

/-- A node is put before the first one. -/
theorem Linked.cons (h : Linked m p l n) (hl : (l.map Prod.fst).Nodup) (ha : a ∉ l.map Prod.fst)
    (hm : m a = some ⟨x, first l n, p⟩) :
    Linked (modifyNode m (first l none) fun y => { y with prev := some a }) p ((a, x) :: l) n := by
  refine ⟨?_, h.setPrev hl (some a)⟩
  rwa [modifyNode_of_ne fun hfirst => ha (mem_of_first hfirst)]

/-- A node is put in between: its neighbours are made to point to it. -/
theorem Linked.insert (h : Linked m p (l₁ ++ l₂) n) (hl : ((l₁ ++ l₂).map Prod.fst).Nodup)
    (ha : a ∉ (l₁ ++ l₂).map Prod.fst) (hm : m a = some ⟨x, first l₂ n, last l₁ p⟩) :
    Linked (modifyNode (modifyNode m (last l₁ none) fun y => { y with next := some a })
      (first l₂ none) fun y => { y with prev := some a }) p (l₁ ++ (a, x) :: l₂) n := by
  rw [List.map_append, List.nodup_append] at hl
  rw [List.map_append, List.mem_append, not_or] at ha
  obtain ⟨hl₁, hl₂, hdisjoint⟩ := hl
  obtain ⟨h₁, h₂⟩ := linked_append.1 h
  refine linked_append.2 ⟨?_, ?_, ?_⟩
  · refine (h₁.setNext hl₁ (some a)).congr fun b hb => modifyNode_of_ne fun hfirst => ?_
    exact hdisjoint b hb b (mem_of_first hfirst) rfl
  · refine (modifyNode_of_ne fun hfirst => ha.2 (mem_of_first hfirst)).trans ?_
    exact (modifyNode_of_ne fun hlast => ha.1 (mem_of_last hlast)).trans hm
  · refine Linked.setPrev (h₂.congr fun b hb => modifyNode_of_ne fun hlast => ?_) hl₂ _
    exact hdisjoint b (mem_of_last hlast) b hb rfl

/-- A node is taken out: its neighbours are made to point to each other. -/
theorem Linked.delete (h : Linked m p (l₁ ++ (a, x) :: l₂) n)
    (hl : ((l₁ ++ (a, x) :: l₂).map Prod.fst).Nodup) :
    Linked (modifyNode (modifyNode m (last l₁ none) fun y => { y with next := first l₂ n })
      (first l₂ none) fun y => { y with prev := last l₁ p }) p (l₁ ++ l₂) n := by
  rw [List.map_append, List.map_cons, List.nodup_append] at hl
  obtain ⟨hl₁, hl₂, hdisjoint⟩ := hl
  obtain ⟨h₁, -, h₂⟩ := linked_append.1 h
  refine linked_append.2 ⟨?_, ?_⟩
  · refine (h₁.setNext hl₁ (first l₂ n)).congr fun b hb => modifyNode_of_ne fun hfirst => ?_
    exact hdisjoint b hb b (List.mem_cons_of_mem _ (mem_of_first hfirst)) rfl
  · refine Linked.setPrev (h₂.congr fun b hb => modifyNode_of_ne fun hlast => ?_)
      (List.nodup_cons.1 hl₂).2 _
    exact hdisjoint b (mem_of_last hlast) b (List.mem_cons_of_mem _ hb) rfl

/-- The payload of a node is changed. -/
theorem Linked.setPayload (h : Linked m p (l₁ ++ (a, x) :: l₂) n)
    (hl : ((l₁ ++ (a, x) :: l₂).map Prod.fst).Nodup) (y : β) :
    Linked (modifyNode m (some a) fun z => { z with payload := y }) p (l₁ ++ (a, y) :: l₂) n := by
  rw [List.map_append, List.map_cons, List.nodup_append] at hl
  obtain ⟨-, hl₂, hdisjoint⟩ := hl
  obtain ⟨h₁, ha, h₂⟩ := linked_append.1 h
  refine linked_append.2 ⟨h₁.congr fun b hb => modifyNode_of_ne fun hab => ?_, ?_,
    h₂.congr fun b hb => modifyNode_of_ne fun hab => ?_⟩
  · exact hdisjoint b hb a List.mem_cons_self (Option.some.inj hab).symm
  · rw [modifyNode_self, ha]
    rfl
  · exact (List.nodup_cons.1 hl₂).1 (Option.some.inj hab ▸ hb)

/-! ## Walks -/

/-- Following `dir` from `p` leads through the nodes `l`, and ends after them. -/
def Walk (m : ℕ → Option (Node β)) (dir : Node β → Option ℕ) : Option ℕ → List (ℕ × β) → Prop
  | p, [] => p = none
  | p, (a, x) :: l => p = some a ∧ ∃ y, m a = some y ∧ y.payload = x ∧ Walk m dir (dir y) l

theorem Linked.walk_next (h : Linked m p l none) : Walk m Node.next (first l none) l := by
  induction l generalizing p with
  | nil => rfl
  | cons y l ih => exact ⟨rfl, _, h.1, rfl, ih h.2⟩

theorem Linked.walk_prev (h : Linked m none l n) : Walk m Node.prev (last l none) l.reverse := by
  induction l using List.reverseRecOn generalizing n with
  | nil => rfl
  | append_singleton l y ih =>
    obtain ⟨h₁, h₂, -⟩ := linked_append.1 h
    rw [last_append, List.reverse_append]
    exact ⟨rfl, _, h₂, rfl, ih h₁⟩

end Library

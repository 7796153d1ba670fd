import Cse461.Table.LinkedList

/-!
# Linked lists are sequences

The calls on a linked list do to it what they are documented to do to a sequence of
payloads, with a cursor in it if there is an iterator (`Op.spec`), and they keep the links
in both directions (`IsSequence`). A call that finds no room for a record reports that and
changes nothing.

An iterator is used until the list is changed other than through it, or is empty.
-/

namespace Cse461.Table.Sequence

open Library LinkedList

variable {α : Type}

/-! ## What a sequence does -/

/-- A call on a list, or on the iterator in use. -/
inductive Op (α : Type)
  | push (payload : α)
  | append (payload : α)
  | pop
  | slice
  | makeIterator (pos : ℤ)
  | next
  | prev
  | insertBefore (payload : α)
  | delete

/-- What a call returns: whether it succeeded, or a payload. With a deletion comes the payload
    that it passes to `payload_free_function`. -/
inductive Result (α : Type)
  | success (r : Bool)
  | payload (r : Option α)
  | deleted (freed : Option α) (r : Bool)
  deriving DecidableEq

/-- A sequence of payloads, the index of the one that the iterator in use is on, and the
    number of the next allocation. -/
structure State (α : Type) where
  payloads : List α
  cursor : Option ℕ
  next : ℕ
  deriving DecidableEq

/-- What is documented of a call. If there is no iterator in use, those on it are not made. -/
def Op.spec (room : ℕ → Bool) (s : State α) : Op α → Result α × State α
  | .push x =>
    if room s.next then (.success true, ⟨x :: s.payloads, none, s.next + 1⟩)
    else (.success false, { s with next := s.next + 1 })
  | .append x =>
    if room s.next then (.success true, ⟨s.payloads ++ [x], none, s.next + 1⟩)
    else (.success false, { s with next := s.next + 1 })
  | .pop => (.payload s.payloads.head?, { s with payloads := s.payloads.tail, cursor := none })
  | .slice =>
    (.payload s.payloads.getLast?, { s with payloads := s.payloads.dropLast, cursor := none })
  | .makeIterator pos =>
    if s.payloads = [] then (.success false, { s with cursor := none })
    else if room s.next then
      (.success true,
        ⟨s.payloads, some (if pos = 0 then 0 else s.payloads.length - 1), s.next + 1⟩)
    else (.success false, ⟨s.payloads, none, s.next + 1⟩)
  | .next =>
    match s.cursor with
    | some i =>
      if i + 1 < s.payloads.length then (.success true, { s with cursor := some (i + 1) })
      else (.success false, s)
    | none => (.success false, s)
  | .prev =>
    match s.cursor with
    | some i => if 0 < i then (.success true, { s with cursor := some (i - 1) }) else (.success false, s)
    | none => (.success false, s)
  | .insertBefore x =>
    match s.cursor with
    | some i =>
      if room s.next then (.success true, ⟨s.payloads.insertIdx i x, some (i + 1), s.next + 1⟩)
      else (.success false, { s with next := s.next + 1 })
    | none => (.success false, s)
  | .delete =>
    match s.cursor with
    | some i =>
      if s.payloads.length = 1 then (.deleted s.payloads[i]? false, ⟨[], none, s.next⟩)
      -- From the tail, the cursor goes back.
      else (.deleted s.payloads[i]? true,
        ⟨s.payloads.eraseIdx i, some (if i + 1 = s.payloads.length then i - 1 else i), s.next⟩)
    | none => (.success false, s)

/-- Make a call, with the iterator in use. A change of the list ends its use, and so does the
    deletion of the last node. -/
def Op.call (list : ℕ) (iter : Option LLIterSt) :
    Op α → LinkedListM α (Result α × Option LLIterSt)
  | .push x => do
    let r ← pushLinkedList list x
    return (.success r, if r then none else iter)
  | .append x => do
    let r ← appendLinkedList list x
    return (.success r, if r then none else iter)
  | .pop => do return (.payload (← popLinkedList list), none)
  | .slice => do return (.payload (← sliceLinkedList list), none)
  | .makeIterator pos => do
    let it ← llMakeIterator list pos
    return (.success it.isSome, it)
  | .next => do
    match iter with
    | some it =>
      let (r, it) ← llIteratorNext it
      return (.success r, some it)
    | none => return (.success false, none)
  | .prev => do
    match iter with
    | some it =>
      let (r, it) ← llIteratorPrev it
      return (.success r, some it)
    | none => return (.success false, none)
  | .insertBefore x => do
    match iter with
    | some it => return (.success (← llIteratorInsertBefore it x), some it)
    | none => return (.success false, none)
  | .delete => do
    match iter with
    | some it =>
      let (freed, r, it) ← llIteratorDelete it
      return (.deleted freed r, if r then some it else none)
    | none => return (.success false, none)

/-- Make calls, one after the other. -/
def calls (list : ℕ) :
    Option LLIterSt → List (Op α) → LinkedListM α (List (Result α) × Option LLIterSt)
  | iter, [] => return ([], iter)
  | iter, o :: l => do
    let (r, iter) ← o.call list iter
    let (rs, iter) ← calls list iter l
    return (r :: rs, iter)

/-- What is documented of the calls, one after the other. -/
def specRun (room : ℕ → Bool) (s : State α) : List (Op α) → List (Result α) × State α
  | [] => ([], s)
  | o :: l =>
    ((o.spec room s).1 :: (specRun room (o.spec room s).2 l).1, (specRun room (o.spec room s).2 l).2)

/-! ## Lists are sequences -/

/-- The list at `list` has the payloads of the sequence, in both directions, and the iterator
    is on the node of the cursor. -/
structure IsSequence (m : Memory α) (list : ℕ) (iter : Option LLIterSt) (s : State α) :
    Prop where
  links : ∃ (h : LinkedListHead) (l : List (ℕ × α)), m.heads list = some h ∧
    l.map Prod.snd = s.payloads ∧ h.numElements = s.payloads.length ∧
    Walk m.nodes Node.next h.head l ∧ Walk m.nodes Node.prev h.tail l.reverse ∧
    (∀ n, h.head.bind m.nodes = some n → n.prev = none) ∧
    (∀ n, h.tail.bind m.nodes = some n → n.next = none) ∧
    (h.head = none ↔ h.numElements = 0) ∧ (h.tail = none ↔ h.numElements = 0) ∧
    iter = s.cursor.bind fun i => l[i]?.map fun y => ⟨list, some y.1⟩
  cursor : ∀ i ∈ s.cursor, i < s.payloads.length

section

variable {m : Memory α} {c : ℕ → Option (List (ℕ × α))} {E : Stop → Memory α → Prop}
  {list : ℕ} {l : List (ℕ × α)} {iter : Option LLIterSt} {s : State α}

/-- The nodes of a list, of which the iterator is on the one at the cursor. -/
structure Holds (m : Memory α) (c : ℕ → Option (List (ℕ × α))) (list : ℕ) (l : List (ℕ × α))
    (iter : Option LLIterSt) (s : State α) : Prop where
  represents : Represents m c
  nodes : c list = some l
  payloads : l.map Prod.snd = s.payloads
  next : m.next = s.next
  cursor : (s.cursor = none ∧ iter = none) ∨ ∃ l₁ y l₂, l = l₁ ++ y :: l₂ ∧
    s.cursor = some l₁.length ∧ iter = some ⟨list, some y.1⟩

theorem Holds.isSequence (h : Holds m c list l iter s) : IsSequence m list iter s := by
  have hlinked := h.represents.linked list l h.nodes
  have hlength : l.length = s.payloads.length := by rw [← h.payloads, List.length_map]
  refine ⟨⟨_, l, h.represents.head list l h.nodes, h.payloads, hlength, hlinked.walk_next,
    hlinked.walk_prev, ?_, ?_, ?_, ?_, ?_⟩, ?_⟩
  · intro n hn
    cases l with
    | nil => cases hn
    | cons y l =>
      obtain rfl := Option.some.inj (hlinked.1.symm.trans hn)
      rfl
  · intro n hn
    rcases List.eq_nil_or_concat l with rfl | ⟨l, y, rfl⟩
    · cases hn
    · rw [List.concat_eq_append] at hn hlinked
      have hlast : last (l ++ [y]) none = some y.1 := last_append ..
      rw [hlast] at hn
      obtain rfl := Option.some.inj ((linked_append.1 hlinked).2.1.symm.trans hn)
      rfl
  · exact first_eq_none_iff.trans List.length_eq_zero_iff.symm
  · exact last_eq_none_iff.trans List.length_eq_zero_iff.symm
  · rcases h.cursor with ⟨hcursor, hiter⟩ | ⟨l₁, y, l₂, rfl, hcursor, hiter⟩
    · rw [hcursor, hiter]
      rfl
    · rw [hcursor, hiter]
      simp
  · intro i hi
    rcases h.cursor with ⟨hcursor, -⟩ | ⟨l₁, y, l₂, rfl, hcursor, -⟩
    · rw [hcursor] at hi
      cases hi
    · rw [hcursor] at hi
      obtain rfl := Option.some.inj hi
      rw [← hlength, List.length_append, List.length_cons]
      omega

namespace Holds

/-- A call that changes neither the list nor the use of the iterator. -/
theorem mono {m' : Memory α} (h : Holds m c list l iter s) (hnext : m'.next = m.next + 1)
    (hrep : Represents m' c) : Holds m' c list l iter { s with next := s.next + 1 } :=
  ⟨hrep, h.nodes, h.payloads, by rw [hnext, h.next], h.cursor⟩

/-- A call after which no iterator is in use. -/
theorem of_list {m' : Memory α} {l' : List (ℕ × α)} {s' : State α}
    (hrep : Represents m' (Function.update c list (some l')))
    (hpayloads : l'.map Prod.snd = s'.payloads) (hnext : m'.next = s'.next)
    (hcursor : s'.cursor = none) :
    Holds m' (Function.update c list (some l')) list l' none s' :=
  ⟨hrep, Function.update_self .., hpayloads, hnext, .inl ⟨hcursor, rfl⟩⟩

/-- A call after which an iterator is in use. -/
theorem of_cursor {m' : Memory α} {c' : ℕ → Option (List (ℕ × α))} {l₁ l₂ : List (ℕ × α)}
    {y : ℕ × α} {s' : State α} (hrep : Represents m' c') (hnodes : c' list = some (l₁ ++ y :: l₂))
    (hpayloads : (l₁ ++ y :: l₂).map Prod.snd = s'.payloads) (hnext : m'.next = s'.next)
    (hcursor : s'.cursor = some l₁.length) :
    Holds m' c' list (l₁ ++ y :: l₂) (some ⟨list, some y.1⟩) s' :=
  ⟨hrep, hnodes, hpayloads, hnext, .inr ⟨l₁, y, l₂, rfl, hcursor, rfl⟩⟩

end Holds

theorem insertIdx_append (xs ys : List α) (x : α) :
    (xs ++ ys).insertIdx xs.length x = xs ++ x :: ys := by
  induction xs with
  | nil => rfl
  | cons y xs ih => exact congrArg (y :: ·) ih

/-- The call does to the list what is documented of it. -/
def Does (m : Memory α) (list : ℕ) (iter : Option LLIterSt) (s : State α) (o : Op α) : Prop :=
  wp (o.call list iter) (fun r m' => r.1 = (o.spec m.room s).1 ∧ m'.room = m.room ∧
    ∃ c' l', Holds m' c' list l' r.2 (o.spec m.room s).2) (fun _ _ => False) m

namespace Holds

theorem push (h : Holds m c list l iter s) (x : α) : Does m list iter s (.push x) := by
  rw [Does, Op.call, wp_bind]
  refine wp_mono (wp_pushLinkedList h.represents h.nodes) ?_ fun _ _ hE => hE
  rintro r m' ⟨rfl, hroom, hm', hrep⟩
  rw [Op.spec, ← h.next]
  cases hr : m.room m.next with
  | false =>
    rw [hr] at hrep
    exact ⟨rfl, hroom, c, l, h.next ▸ h.mono hm' hrep⟩
  | true =>
    rw [hr] at hrep
    exact ⟨rfl, hroom, _, _, .of_list hrep (congrArg (x :: ·) h.payloads) hm' rfl⟩

theorem append (h : Holds m c list l iter s) (x : α) : Does m list iter s (.append x) := by
  rw [Does, Op.call, wp_bind]
  refine wp_mono (wp_appendLinkedList h.represents h.nodes) ?_ fun _ _ hE => hE
  rintro r m' ⟨rfl, hroom, hm', hrep⟩
  rw [Op.spec, ← h.next]
  cases hr : m.room m.next with
  | false =>
    rw [hr] at hrep
    exact ⟨rfl, hroom, c, l, h.next ▸ h.mono hm' hrep⟩
  | true =>
    rw [hr] at hrep
    refine ⟨rfl, hroom, _, _, .of_list hrep ?_ hm' rfl⟩
    rw [List.map_append, h.payloads]
    rfl

theorem pop (h : Holds m c list l iter s) : Does m list iter s .pop := by
  rw [Does, Op.call, wp_bind]
  cases l with
  | nil =>
    have hnil : s.payloads = [] := h.payloads.symm
    refine wp_popLinkedList_nil h.represents h.nodes ⟨?_, rfl, c, [], ?_⟩
    · rw [Op.spec, hnil]
      rfl
    · exact ⟨h.represents, h.nodes, by rw [Op.spec, hnil]; rfl, h.next, .inl ⟨rfl, rfl⟩⟩
  | cons y l =>
    refine wp_mono (wp_popLinkedList h.represents h.nodes) ?_ fun _ _ hE => hE
    rintro r m' ⟨rfl, hroom, hm', hrep⟩
    rw [Op.spec, ← h.payloads]
    exact ⟨rfl, hroom, _, _, .of_list hrep rfl (hm'.trans h.next) rfl⟩

theorem slice (h : Holds m c list l iter s) : Does m list iter s .slice := by
  rw [Does, Op.call, wp_bind]
  rcases List.eq_nil_or_concat l with rfl | ⟨l, y, rfl⟩
  · have hnil : s.payloads = [] := h.payloads.symm
    refine wp_sliceLinkedList_nil h.represents h.nodes ⟨?_, rfl, c, [], ?_⟩
    · rw [Op.spec, hnil]
      rfl
    · exact ⟨h.represents, h.nodes, by rw [Op.spec, hnil]; rfl, h.next, .inl ⟨rfl, rfl⟩⟩
  · rw [List.concat_eq_append] at h
    refine wp_mono (wp_sliceLinkedList h.represents h.nodes) ?_ fun _ _ hE => hE
    rintro r m' ⟨rfl, hroom, hm', hrep⟩
    rw [Op.spec, ← h.payloads]
    exact ⟨by simp, hroom, _, _, .of_list hrep (by simp) (hm'.trans h.next) rfl⟩

theorem makeIterator (h : Holds m c list l iter s) (pos : ℤ) :
    Does m list iter s (.makeIterator pos) := by
  have hlength : l.length = s.payloads.length := by rw [← h.payloads, List.length_map]
  rw [Does, Op.call, wp_bind]
  refine wp_mono (wp_llMakeIterator h.represents h.nodes) ?_ fun _ _ hE => hE
  rintro r m' ⟨rfl, rfl⟩
  rw [wp_pure, Op.spec]
  by_cases hnil : l = []
  · have hpayloads : s.payloads = [] := by rw [← h.payloads, hnil]; rfl
    rw [if_pos hpayloads, if_neg fun hne => hne.1 hnil]
    exact ⟨rfl, rfl, c, l, h.represents.mono (Nat.le_add_right _ _) rfl rfl, h.nodes, h.payloads,
      by rw [if_pos hnil]; exact h.next, .inl ⟨rfl, rfl⟩⟩
  · have hpayloads : s.payloads ≠ [] := by
      rw [← h.payloads]
      exact fun hmap => hnil (List.map_eq_nil_iff.1 hmap)
    have hrep : Represents { m with next := m.next + 1 } c :=
      h.represents.mono (Nat.le_succ _) rfl rfl
    rw [if_neg hpayloads, ← h.next, if_neg hnil]
    cases hr : m.room m.next with
    | false =>
      rw [if_neg fun hne => Bool.false_ne_true hne.2]
      exact ⟨rfl, rfl, c, l, hrep, h.nodes, h.payloads, rfl, .inl ⟨rfl, rfl⟩⟩
    | true =>
      rw [if_pos ⟨hnil, rfl⟩]
      refine ⟨rfl, rfl, c, l, hrep, h.nodes, h.payloads, rfl, .inr ?_⟩
      by_cases hpos : pos = 0
      · obtain ⟨y, l₂, rfl⟩ := List.exists_cons_of_ne_nil hnil
        refine ⟨[], y, l₂, rfl, ?_, ?_⟩
        · rw [if_pos rfl, if_pos hpos]
          rfl
        · rw [if_pos hpos]
          rfl
      · obtain ⟨l₁, y, rfl⟩ := (List.eq_nil_or_concat l).resolve_left hnil
        rw [List.concat_eq_append] at *
        have hlast : last (l₁ ++ [y]) none = some y.1 := last_append ..
        rw [List.length_append, List.length_singleton] at hlength
        refine ⟨l₁, y, [], rfl, ?_, ?_⟩
        · rw [if_pos rfl, if_neg hpos, ← hlength]
          rfl
        · rw [if_neg hpos, hlast]

theorem next_call (h : Holds m c list l iter s) : Does m list iter s .next := by
  rcases h.cursor with ⟨hcursor, rfl⟩ | ⟨l₁, y, l₂, rfl, hcursor, rfl⟩
  · rw [Does, Op.spec, hcursor]
    exact ⟨rfl, rfl, c, l, h⟩
  · have hlength : (l₁ ++ y :: l₂).length = s.payloads.length := by
      rw [← h.payloads, List.length_map]
    rw [List.length_append, List.length_cons] at hlength
    rw [Does, Op.call, wp_bind, Op.spec, hcursor]
    refine wp_llIteratorNext h.represents h.nodes ?_
    dsimp only
    cases l₂ with
    | nil =>
      have htail : ¬l₁.length + 1 < s.payloads.length := by rw [← hlength]; simp
      rw [if_neg htail]
      exact ⟨rfl, rfl, c, _, h⟩
    | cons z l₂ =>
      have hlt : l₁.length + 1 < s.payloads.length := by rw [← hlength]; simp
      have hsplit : l₁ ++ y :: z :: l₂ = (l₁ ++ [y]) ++ z :: l₂ := by simp
      have hnodes := h.nodes.trans (congrArg some hsplit)
      rw [if_pos hlt]
      refine ⟨rfl, rfl, c, _, .of_cursor h.represents hnodes ?_ h.next ?_⟩
      · rw [← hsplit]
        exact h.payloads
      · rw [List.length_append]
        rfl

theorem prev_call (h : Holds m c list l iter s) : Does m list iter s .prev := by
  rcases h.cursor with ⟨hcursor, rfl⟩ | ⟨l₁, y, l₂, rfl, hcursor, rfl⟩
  · rw [Does, Op.spec, hcursor]
    exact ⟨rfl, rfl, c, l, h⟩
  · rw [Does, Op.call, wp_bind, Op.spec, hcursor]
    refine wp_llIteratorPrev h.represents h.nodes ?_
    dsimp only
    rcases List.eq_nil_or_concat l₁ with rfl | ⟨l₁, z, rfl⟩
    · exact ⟨rfl, rfl, c, _, h⟩
    · rw [List.concat_eq_append] at *
      have hlast : last (l₁ ++ [z]) none = some z.1 := last_append ..
      have hsplit : l₁ ++ [z] ++ y :: l₂ = l₁ ++ z :: y :: l₂ := by simp
      have hnodes := h.nodes.trans (congrArg some hsplit)
      have hpos : 0 < (l₁ ++ [z]).length := by simp
      have hne : l₁ ++ [z] ≠ [] := by simp
      rw [if_pos hpos, if_neg hne, hlast, decide_eq_true hne]
      refine ⟨rfl, rfl, c, _, .of_cursor h.represents hnodes ?_ h.next ?_⟩
      · rw [← hsplit]
        exact h.payloads
      · simp

theorem insertBefore (h : Holds m c list l iter s) (x : α) :
    Does m list iter s (.insertBefore x) := by
  rcases h.cursor with ⟨hcursor, rfl⟩ | ⟨l₁, y, l₂, rfl, hcursor, rfl⟩
  · rw [Does, Op.spec, hcursor]
    exact ⟨rfl, rfl, c, l, h⟩
  · rw [Does, Op.call, wp_bind, Op.spec, hcursor]
    refine wp_mono (wp_llIteratorInsertBefore h.represents h.nodes) ?_ fun _ _ hE => hE
    rintro r m' ⟨rfl, hroom, hm', hrep⟩
    dsimp only
    rw [← h.next]
    cases hr : m.room m.next with
    | false =>
      rw [hr] at hrep
      refine ⟨rfl, hroom, c, l₁ ++ y :: l₂, ?_⟩
      rw [h.next, ← hcursor]
      exact h.mono hm' hrep
    | true =>
      rw [hr] at hrep
      have hsplit : l₁ ++ (m.next, x) :: y :: l₂ = (l₁ ++ [(m.next, x)]) ++ y :: l₂ := by simp
      have hnodes := (Function.update_self list (some (l₁ ++ (m.next, x) :: y :: l₂)) c).trans
        (congrArg some hsplit)
      refine ⟨rfl, hroom, _, _, .of_cursor hrep hnodes ?_ hm' ?_⟩
      · have hlength : l₁.length = (l₁.map Prod.snd).length := List.length_map _ |>.symm
        rw [← hsplit, if_pos rfl, ← h.payloads, hlength, List.map_append, List.map_append,
          insertIdx_append]
        rfl
      · rw [List.length_append]
        rfl

theorem delete (h : Holds m c list l iter s) : Does m list iter s .delete := by
  rcases h.cursor with ⟨hcursor, rfl⟩ | ⟨l₁, y, l₂, rfl, hcursor, rfl⟩
  · rw [Does, Op.spec, hcursor]
    exact ⟨rfl, rfl, c, l, h⟩
  · have hlength : l₁.length + (l₂.length + 1) = s.payloads.length := by
      rw [← h.payloads, List.length_map, List.length_append, List.length_cons]
    rw [Does, Op.call, wp_bind, Op.spec, hcursor]
    refine wp_mono (wp_llIteratorDelete h.represents h.nodes) ?_ fun _ _ hE => hE
    rintro r m' ⟨rfl, hroom, hm', hrep⟩
    dsimp only
    have hpayloads : (l₁ ++ l₂).map Prod.snd = s.payloads.eraseIdx l₁.length := by
      rw [← h.payloads, List.map_append, List.map_append]
      simp [List.eraseIdx_append_of_length_le]
    have hfreed : s.payloads[l₁.length]? = some y.2 := by
      rw [← h.payloads]
      simp
    by_cases hnil : l₁ ++ l₂ = []
    · obtain ⟨rfl, rfl⟩ := List.append_eq_nil_iff.1 hnil
      have hone : s.payloads.length = 1 := hlength.symm
      rw [if_pos hone, hfreed]
      exact ⟨rfl, hroom, _, _, .of_list hrep rfl (hm'.trans h.next) rfl⟩
    · have hone : s.payloads.length ≠ 1 := by
        intro hone
        refine hnil (List.length_eq_zero_iff.1 ?_)
        rw [List.length_append]
        omega
      have htrue : decide (l₁ ++ l₂ ≠ []) = true := decide_eq_true hnil
      rw [if_neg hone, htrue, if_pos rfl, hfreed]
      refine ⟨rfl, hroom, Function.update c list (some (l₁ ++ l₂)), l₁ ++ l₂, ?_⟩
      have hnodes := Function.update_self list (some (l₁ ++ l₂)) c
      cases l₂ with
      | nil =>
        -- From the tail, the cursor goes back.
        rw [List.append_nil] at *
        obtain ⟨l₁, z, rfl⟩ := (List.eq_nil_or_concat l₁).resolve_left hnil
        rw [List.concat_eq_append] at *
        have hlast : last (l₁ ++ [z]) none = some z.1 := last_append ..
        have htail : (l₁ ++ [z]).length + 1 = s.payloads.length := hlength
        rw [if_pos rfl, hlast]
        refine .of_cursor hrep hnodes hpayloads (hm'.trans h.next) ?_
        rw [if_pos htail, List.length_append]
        rfl
      | cons z l₂ =>
        have hlt : l₁.length + 1 ≠ s.payloads.length := by rw [← hlength]; simp
        rw [if_neg (List.cons_ne_nil z l₂), if_neg hlt]
        exact .of_cursor hrep hnodes hpayloads (hm'.trans h.next) rfl

/-- A call does to the list what is documented of it. -/
theorem does (h : Holds m c list l iter s) (o : Op α) : Does m list iter s o := by
  cases o with
  | push x => exact h.push x
  | append x => exact h.append x
  | pop => exact h.pop
  | slice => exact h.slice
  | makeIterator pos => exact h.makeIterator pos
  | next => exact h.next_call
  | prev => exact h.prev_call
  | insertBefore x => exact h.insertBefore x
  | delete => exact h.delete

/-- The calls do to the list what is documented of them, one after the other. -/
theorem wp_calls (h : Holds m c list l iter s) (ops : List (Op α)) :
    wp (calls list iter ops) (fun r m' => r.1 = (specRun m.room s ops).1 ∧
      ∃ c' l', Holds m' c' list l' r.2 (specRun m.room s ops).2) (fun _ _ => False) m := by
  induction ops generalizing m c l iter s with
  | nil => exact ⟨rfl, c, l, h⟩
  | cons o ops ih =>
    rw [calls, wp_bind]
    refine wp_mono (h.does o) ?_ fun _ _ hE => hE
    rintro ⟨r, iter₁⟩ m₁ ⟨rfl, hroom, c₁, l₁, h₁⟩
    dsimp only
    rw [wp_bind]
    refine wp_mono (ih h₁) ?_ fun _ _ hE => hE
    rintro ⟨rs, iter'⟩ m' ⟨rfl, c', l', h'⟩
    rw [hroom] at h' ⊢
    exact ⟨rfl, c', l', h'⟩

end Holds

/-- A memory before the first allocation. -/
def Memory.empty (room : ℕ → Bool) : Memory α where
  nodes _ := none
  heads _ := none
  next := 0
  room := room

/-- A new list is a sequence throughout: the calls return what is documented of them, and the
    list has the payloads that it should have, linked in both directions. -/
theorem calls_isSequence {room : ℕ → Bool} (hroom : room 0) (ops : List (Op α)) :
    ∃ (m m' : Memory α) (iter : Option LLIterSt),
      allocateLinkedList (Memory.empty room) = .ok (some 0) m ∧
        calls 0 none ops m = .ok ((specRun room ⟨[], none, 1⟩ ops).1, iter) m' ∧
          IsSequence m' 0 iter (specRun room ⟨[], none, 1⟩ ops).2 := by
  have hempty : Represents (Memory.empty room : Memory α) fun _ => none := by
    constructor <;> simp
  obtain ⟨r, m, hr, rfl, hm, hnext, hrep⟩ := ok_of_wp (wp_allocateLinkedList hempty)
  have hzero : (Memory.empty room : Memory α).room (Memory.empty room : Memory α).next = true :=
    hroom
  rw [hzero, if_pos rfl] at hr hrep
  have h : Holds m _ 0 [] none ⟨[], none, 1⟩ :=
    ⟨hrep, Function.update_self .., rfl, hnext, .inl ⟨rfl, rfl⟩⟩
  obtain ⟨⟨rs, iter⟩, m', hrs, rfl, c', l', h'⟩ := ok_of_wp (h.wp_calls ops)
  rw [hm] at hrs h'
  exact ⟨m, m', iter, hr, hrs, h'.isSequence⟩

/-- A payload is put before another through an iterator, and that one is deleted. -/
theorem calls_isSequence_replaced : ∃ (m m' : Memory ℕ) (iter : Option LLIterSt),
    allocateLinkedList (Memory.empty fun _ => true) = .ok (some 0) m ∧
      calls 0 none [.push 7, .makeIterator 0, .insertBefore 8, .delete] m = .ok
        ([.success true, .success true, .success true, .deleted (some 7) true], iter) m' ∧
        IsSequence m' 0 iter ⟨[8], some 0, 4⟩ :=
  calls_isSequence rfl [.push 7, .makeIterator 0, .insertBefore 8, .delete]

end

end Cse461.Table.Sequence

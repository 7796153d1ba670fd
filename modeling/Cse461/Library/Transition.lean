import Mathlib

/-!
# Systems of atomic steps

A system goes from state to state by atomic steps; which one it takes next, its
*action*, is not determined. A step is a partial function of the action, so
that runs can be computed (`System.exec`).

* `System.Reachable.invariant` is the rule of invariants: what holds initially,
  and is kept by every step, holds in every reachable state.
* `System.exec_congr`, `System.exec_of_steps`: two systems have the same runs as long as
  they take the same steps.
* `System.restrict` leaves out the steps that do not meet a condition: the states
  it reaches are those of the runs whose steps all do.
* `System.trace` is what can be seen of a run. If each step of a system is seen as
  one of another system, or not at all (`System.Simulates`), then each run is seen
  as one of that system (`System.Simulates.exec`).
* `threads` is the system of any number of threads over a shared memory, each a
  sequential program of atomic steps. `total` is a sum over the threads, which
  a step changes by the summand of one thread only (`total_update`).
-/

namespace Library

variable {σ α : Type*}

/-- A system of atomic steps: `step s a` is the state after the action `a`,
    `none` if it is not possible in `s`. -/
structure System (σ α : Type*) where
  init : σ → Prop
  step : σ → α → Option σ

namespace System

variable (S : System σ α)

/-- Take the actions one after the other. -/
def exec : σ → List α → Option σ
  | s, [] => some s
  | s, a :: l => (S.step s a).bind fun s' => exec s' l

/-- The states of the runs of the system. -/
inductive Reachable : σ → Prop
  | init {s : σ} : S.init s → Reachable s
  | step {s s' : σ} {a : α} : Reachable s → S.step s a = some s' → Reachable s'

/-- The system, less the steps that do not meet a condition. -/
def restrict (G : σ → α → Prop) [∀ s a, Decidable (G s a)] : System σ α where
  init := S.init
  step s a := if G s a then S.step s a else none

variable {S} {s s' : σ} {a : α}

/-- The rule of invariants. -/
theorem Reachable.invariant {I : σ → Prop} (h : S.Reachable s) (hinit : ∀ s, S.init s → I s)
    (hstep : ∀ s a s', I s → S.step s a = some s' → I s') : I s := by
  induction h with
  | init h => exact hinit _ h
  | step _ h ih => exact hstep _ _ _ ih h

theorem Reachable.exec {l : List α} (h : S.Reachable s) (hl : S.exec s l = some s') :
    S.Reachable s' := by
  induction l generalizing s with
  | nil => exact Option.some.inj hl ▸ h
  | cons a l ih =>
    obtain ⟨s₁, hs₁, hl⟩ := Option.bind_eq_some_iff.1 hl
    exact ih (h.step hs₁) hl

/-- From an initial state, a list of actions leads to a reachable state. -/
theorem reachable_of_exec {l : List α} (h : S.init s) (hl : S.exec s l = some s') :
    S.Reachable s' :=
  (Reachable.init h).exec hl

theorem exec_append (l l' : List α) :
    S.exec s (l ++ l') = (S.exec s l).bind fun s' => S.exec s' l' := by
  induction l generalizing s with
  | nil => rfl
  | cons a l ih => simp [System.exec, ih, Option.bind_assoc]

/-- A run of one action more. -/
theorem exec_concat {l : List α} : S.exec s (l ++ [a]) = some s' ↔
    ∃ s₁, S.exec s l = some s₁ ∧ S.step s₁ a = some s' := by
  simp [exec_append, System.exec, Option.bind_eq_some_iff]

/-- Two systems that take the same steps from the states of `I` have the same runs of the
    actions `G`, under which `I` is kept. -/
theorem exec_congr {S' : System σ α} {I : σ → Prop} {G : α → Prop} {l : List α}
    (hstep : ∀ s a, I s → G a → S'.step s a = S.step s a)
    (hkeep : ∀ s a s', I s → G a → S.step s a = some s' → I s') (hs : I s)
    (hl : ∀ a ∈ l, G a) : S'.exec s l = S.exec s l := by
  induction l generalizing s with
  | nil => rfl
  | cons a l ih =>
    have ha := hl a List.mem_cons_self
    rw [System.exec, System.exec, hstep s a hs ha]
    cases h : S.step s a with
    | none => rfl
    | some s₁ => exact ih (hkeep s a s₁ hs ha h) fun b hb => hl b (List.mem_cons_of_mem _ hb)

/-- A run that ends in `Q` is one of a system that takes the steps which lead into `Q`, where
    `Q` is not come back to. -/
theorem exec_of_steps {S' : System σ α} {Q : σ → Prop} {l : List α}
    (hstep : ∀ s a s', S.step s a = some s' → Q s' → Q s ∧ S'.step s a = some s')
    (hl : S.exec s l = some s') (hs' : Q s') : S'.exec s l = some s' := by
  induction l using List.reverseRecOn generalizing s' with
  | nil => exact hl
  | append_singleton l a ih =>
    obtain ⟨s₁, hs₁, ha⟩ := exec_concat.1 hl
    obtain ⟨hQ, ha'⟩ := hstep s₁ a s' ha hs'
    exact exec_concat.2 ⟨s₁, ih hs₁ hQ, ha'⟩

section Restrict

variable {G : σ → α → Prop} [∀ s a, Decidable (G s a)]

theorem restrict_step_eq_some :
    (S.restrict G).step s a = some s' ↔ G s a ∧ S.step s a = some s' := by
  simp only [restrict]
  split
  · simp [*]
  · simp [*]

end Restrict

/-! ### Simulation -/

section Simulation

variable {τ β : Type*}

/-- What is seen of a run, where `label` is what is seen of a step, if anything. -/
def trace (S : System σ α) (label : σ → α → Option β) : σ → List α → List β
  | _, [] => []
  | s, a :: l => (label s a).toList ++ (S.step s a).elim [] fun s' => trace S label s' l

/-- Each step of `S` is seen as one of `T`, or as none, and leads to what `f` sees. -/
def Simulates (S : System σ α) (T : System τ β) (f : σ → τ) (label : σ → α → Option β) : Prop :=
  ∀ s a s', S.step s a = some s' → T.exec (f s) (label s a).toList = some (f s')

variable {T : System τ β} {f : σ → τ} {label : σ → α → Option β} {l : List α}

/-- What is seen of a run of one action more. -/
theorem trace_concat (hl : S.exec s l = some s') (a : α) :
    S.trace label s (l ++ [a]) = S.trace label s l ++ (label s' a).toList := by
  induction l generalizing s with
  | nil =>
    obtain rfl := Option.some.inj hl
    cases hs : S.step s a with
    | none => simp [trace, hs]
    | some s₁ => simp [trace, hs]
  | cons b l ih =>
    obtain ⟨s₁, hs₁, hl⟩ := Option.bind_eq_some_iff.1 hl
    simp [trace, hs₁, ih hl]

/-- What is seen of what is seen. -/
theorem trace_filterMap {γ : Type*} (g : β → Option γ) (s : σ) (l : List α) :
    (S.trace label s l).filterMap g = S.trace (fun s a => (label s a).bind g) s l := by
  induction l generalizing s with
  | nil => rfl
  | cons a l ih =>
    have hhead : (label s a).toList.filterMap g = ((label s a).bind g).toList := by
      cases label s a with
      | none => rfl
      | some b => cases hb : g b <;> simp [hb]
    rw [trace, trace, List.filterMap_append, hhead]
    cases S.step s a with
    | none => rfl
    | some s₁ => exact congrArg _ (ih s₁)

/-- A run is seen as a run. -/
theorem Simulates.exec (h : S.Simulates T f label) (hl : S.exec s l = some s') :
    T.exec (f s) (S.trace label s l) = some (f s') := by
  induction l generalizing s with
  | nil => exact congrArg (some ∘ f) (Option.some.inj hl)
  | cons a l ih =>
    obtain ⟨s₁, hs₁, hl⟩ := Option.bind_eq_some_iff.1 hl
    rw [trace, exec_append, h s a s₁ hs₁, hs₁]
    exact ih hl

end Simulation

end System

/-! ## Threads -/

section Threads

variable {ι π : Type*}

/-- A shared memory, and where each thread is. -/
@[ext]
structure Threads (ι σ π : Type*) where
  shared : σ
  pc : ι → π

/-- The system of the threads `ι` that each start at `start` and take the steps
    `step`, given what the code does not determine. -/
def threads [DecidableEq ι] (init : σ → Prop) (start : π) (step : σ → π → α → Option (σ × π)) :
    System (Threads ι σ π) (ι × α) where
  init s := init s.shared ∧ ∀ i, s.pc i = start
  step s a := (step s.shared (s.pc a.1) a.2).map fun x =>
    ⟨x.1, Function.update s.pc a.1 x.2⟩

theorem threads_step_eq_some [DecidableEq ι] {init : σ → Prop} {start : π}
    {step : σ → π → α → Option (σ × π)} {s s' : Threads ι σ π} {i : ι} {a : α} :
    (threads init start step).step s (i, a) = some s' ↔ ∃ p',
      step s.shared (s.pc i) a = some (s'.shared, p') ∧ s'.pc = Function.update s.pc i p' := by
  simp only [threads, Option.map_eq_some_iff, Prod.exists]
  constructor
  · rintro ⟨x, p', h, rfl⟩
    exact ⟨p', h, rfl⟩
  · rintro ⟨p', h, hpc⟩
    exact ⟨s'.shared, p', h, Threads.ext rfl hpc.symm⟩

variable [Fintype ι]

/-- The sum of `w` over where the threads are. -/
def total (w : π → ℕ) (pc : ι → π) : ℕ := ∑ i, w (pc i)

theorem total_update [DecidableEq ι] (w : π → ℕ) (pc : ι → π) (i : ι) (p : π) :
    total w (Function.update pc i p) + w (pc i) = total w pc + w p := by
  have h := Finset.sum_update_of_mem (Finset.mem_univ i) (fun j => w (pc j)) (w p)
  have hupdate : total w (Function.update pc i p) = w p + ∑ j ∈ Finset.univ \ {i}, w (pc j) := by
    rw [← h, total]
    exact Finset.sum_congr rfl fun j _ => by
      by_cases hj : j = i
      · simp [hj]
      · simp [hj]
  have htotal : total w pc = w (pc i) + ∑ j ∈ Finset.univ \ {i}, w (pc j) := by
    rw [total, ← Finset.sum_sdiff (Finset.subset_univ {i}), Finset.sum_singleton, add_comm]
  rw [hupdate, htotal]
  ring

theorem le_total (w : π → ℕ) (pc : ι → π) (i : ι) : w (pc i) ≤ total w pc :=
  Finset.single_le_sum (f := fun j => w (pc j)) (fun _ _ => Nat.zero_le _) (Finset.mem_univ i)

theorem total_eq_zero {w : π → ℕ} {pc : ι → π} (h : ∀ i, w (pc i) = 0) : total w pc = 0 :=
  Finset.sum_eq_zero fun i _ => h i

/-- Two threads that count are two in the sum. -/
theorem add_le_total [DecidableEq ι] (w : π → ℕ) (pc : ι → π) {i j : ι} (hij : i ≠ j) :
    w (pc i) + w (pc j) ≤ total w pc := by
  have h := Finset.sum_le_sum_of_subset (f := fun k => w (pc k)) (Finset.subset_univ {i, j})
  rwa [Finset.sum_pair hij] at h

end Threads

end Library

import Mathlib

/-!
# Programs of atomic operations

A program of a thread does one atomic operation after the other, and goes on as
the results of these tell it to. What the operations do to a memory is left open:
between two of them, other threads may do theirs.

`Program.Ensures` is what holds of the operations of a program whatever other
threads do in between, as long as the results of its operations are as assumed;
`Program.Ensures.step` takes the program one operation on. `Program.run` is the
run of a program that is alone; it goes through the program part by part
(`Program.run_bind`).
-/

namespace Library

/-- A program of the operations `Op`: it returns, or does an operation, and goes on
    with its result. -/
inductive Program (Op : Type → Type) (α : Type) : Type 1
  | ret (a : α)
  | op {β : Type} (o : Op β) (next : β → Program Op α)

namespace Program

variable {Op : Type → Type} {α β : Type}

/-- One program after the other. -/
protected def bind : Program Op α → (α → Program Op β) → Program Op β
  | ret a, f => f a
  | op o next, f => op o fun b => (next b).bind f

instance : Monad (Program Op) where
  pure := ret
  bind := Program.bind

/-- The program of one operation. -/
def ofOp (o : Op α) : Program Op α := op o ret

/-- The run of a program that is alone. -/
def run {m : Type → Type} [Monad m] (exec : ∀ {β}, Op β → m β) : Program Op α → m α
  | ret a => pure a
  | op o next => exec o >>= fun b => (next b).run exec

theorem bind_ret (x : Program Op α) : x >>= ret = x := by
  change x.bind ret = x
  induction x with
  | ret a => rfl
  | op o next ih => exact congrArg (op o) (funext ih)

theorem bind_bind {γ : Type} (x : Program Op α) (f : α → Program Op β) (g : β → Program Op γ) :
    x >>= f >>= g = x >>= fun a => f a >>= g := by
  change (x.bind f).bind g = x.bind fun a => (f a).bind g
  induction x with
  | ret a => rfl
  | op o next ih => exact congrArg (op o) (funext ih)

instance : LawfulMonad (Program Op) :=
  .mk' (Program Op) bind_ret (fun _ _ => rfl) bind_bind

/-! ## Alone -/

section

variable {m : Type → Type} [Monad m] {exec : ∀ {β}, Op β → m β}

@[simp] theorem run_pure (a : α) : (pure a : Program Op α).run exec = pure a := rfl

@[simp] theorem run_ite {c : Prop} [Decidable c] (x y : Program Op α) :
    (if c then x else y).run exec = if c then x.run exec else y.run exec := by
  by_cases hc : c <;> simp [hc]

variable [LawfulMonad m]

@[simp] theorem run_ofOp (o : Op α) : (ofOp o).run exec = exec o :=
  bind_pure _

/-- Programs that are put together run one after the other. -/
@[simp] theorem run_bind (x : Program Op α) (f : α → Program Op β) :
    (x >>= f).run exec = x.run exec >>= fun a => (f a).run exec := by
  change (x.bind f).run exec = _
  induction x with
  | ret a => exact (pure_bind a fun a => (f a).run exec).symm
  | op o next ih =>
    rw [run, bind_assoc]
    exact congrArg (exec o >>= ·) (funext ih)

@[simp] theorem run_map (f : α → β) (x : Program Op α) :
    (f <$> x).run exec = f <$> x.run exec := by
  rw [← bind_pure_comp, run_bind, ← bind_pure_comp]
  rfl

end

/-! ## What a program ensures -/

/-- If every operation has a result as assumed by `A`, the program does operations
    of `G` only, and returns a value of `Q`. -/
def Ensures (A : ∀ β, Op β → β → Prop) (G : ∀ β, Op β → Prop) : Program Op α → (α → Prop) → Prop
  | ret a, Q => Q a
  | op o next, Q => G _ o ∧ ∀ b, A _ o b → (next b).Ensures A G Q

variable {A : ∀ β, Op β → β → Prop} {G : ∀ β, Op β → Prop} {Q Q' : α → Prop}

@[simp] theorem ensures_pure (a : α) : (pure a : Program Op α).Ensures A G Q ↔ Q a := Iff.rfl

@[simp] theorem ensures_ofOp (o : Op α) :
    (ofOp o).Ensures A G Q ↔ G α o ∧ ∀ a, A α o a → Q a := Iff.rfl

@[simp] theorem ensures_bind (x : Program Op α) (f : α → Program Op β) {Q : β → Prop} :
    (x >>= f).Ensures A G Q ↔ x.Ensures A G fun a => (f a).Ensures A G Q := by
  change (x.bind f).Ensures A G Q ↔ _
  induction x with
  | ret a => exact Iff.rfl
  | op o next ih => exact and_congr Iff.rfl (forall_congr' fun b => imp_congr_right fun _ => ih b)

/-- An operation, and what follows it. -/
theorem ensures_ofOp_bind {o : Op α} {f : α → Program Op β} {Q : β → Prop} :
    (ofOp o >>= f).Ensures A G Q ↔ G α o ∧ ∀ a, A α o a → (f a).Ensures A G Q := Iff.rfl

theorem Ensures.mono {x : Program Op α} (hx : x.Ensures A G Q) (hQ : ∀ a, Q a → Q' a) :
    x.Ensures A G Q' := by
  induction x with
  | ret a => exact hQ a hx
  | op o next ih => exact ⟨hx.1, fun b hb => ih b (hx.2 b hb)⟩

/-- A loop ensures what its rounds do. -/
theorem ensures_forM {f : β → Program Op PUnit} {l : List β}
    (h : ∀ b ∈ l, (f b).Ensures A G fun _ => True) : (l.forM f).Ensures A G fun _ => True := by
  induction l with
  | nil => exact trivial
  | cons b l ih =>
    rw [List.forall_mem_cons] at h
    change (f b >>= fun _ => l.forM f).Ensures A G _
    rw [ensures_bind]
    exact h.1.mono fun _ _ => ih h.2

/-- One operation of the program, with a result as assumed. -/
theorem Ensures.step {o : Op β} {next : β → Program Op α} (h : (op o next).Ensures A G Q) {b : β}
    (hb : A β o b) : G β o ∧ (next b).Ensures A G Q :=
  ⟨h.1, h.2 b hb⟩

end Program

end Library

import Cse461.Library.Exec
import Cse461.Library.Program
import Cse461.Library.Transition

/-!
# Critical sections

An object that threads share, and call as they like (`Guarded.system`): a call is a program
of atomic operations, which waits for a lock at its start and posts it at its end. Between
two operations of one thread, the others go on with theirs.

A call *commits* with its last operation. What the calls return is what they would return
one after the other, in the order in which they commit (`Guarded.linearizable`), and each of
them commits after it is made and before it returns (`Guarded.events_exec`): an object that
is right for one caller is right for many.

* `Guarded.Stands` is the invariant. A thread that is inside, the only one, is where it would
  be if it had made its call alone, on what the calls before have left.
* Where calls that are made one after the other return, threads can always finish theirs
  (`Guarded.exists_idle`).
-/

namespace Library

/-- What an operation does to the lock of an object. -/
inductive LockKind
  | wait
  | post
  | access
  deriving DecidableEq

namespace Program

variable {Op : Type → Type} {α : Type}

/-- What the program returns, if there is nothing left to do. -/
def returned : Program Op α → Option α
  | ret a => some a
  | op _ _ => none

/-- The lock is held: it is posted at the end, and not waited for. -/
def Held (kind : ∀ β, Op β → LockKind) : Program Op α → Prop
  | ret _ => False
  | op o next =>
    match kind _ o with
    | .wait => False
    | .access => ∀ b, (next b).Held kind
    | .post => ∀ b, ∃ a, next b = ret a

/-- The lock is waited for at the start, and held from then on. -/
def Brackets (kind : ∀ β, Op β → LockKind) : Program Op α → Prop
  | ret _ => False
  | op o next => kind _ o = .wait ∧ ∀ b, (next b).Held kind

section

variable {kind : ∀ β, Op β → LockKind} {β : Type} {x y : Program Op α}

theorem held_post {o : Op β} (h : kind β o = .post) : (ofOp o).Held kind := by
  rw [ofOp, Held, h]
  exact fun b => ⟨b, rfl⟩

theorem held_ite {c : Prop} [Decidable c] :
    (if c then x else y).Held kind ↔ (c → x.Held kind) ∧ (¬c → y.Held kind) := by
  by_cases hc : c <;> simp [hc]

theorem Held.map (h : x.Held kind) (f : α → β) : (f <$> x).Held kind := by
  induction x with
  | ret a => exact h
  | op o next ih =>
    change (op o fun b => f <$> next b).Held kind
    rw [Held] at h ⊢
    split at h
    · exact h
    · exact fun b => ih b (h b)
    · intro b
      obtain ⟨a, ha⟩ := h b
      exact ⟨f a, by rw [ha]; rfl⟩

theorem Brackets.map (h : x.Brackets kind) (f : α → β) : (f <$> x).Brackets kind := by
  cases x with
  | ret a => exact h
  | op o next => exact ⟨h.1, fun b => (h.2 b).map f⟩

end

theorem returned_eq_some {p : Program Op α} {a : α} : p.returned = some a ↔ p = ret a := by
  cases p <;> simp [returned]

end Program

/-- An object with a lock: `code` are the programs of its calls, `exec` is what their
    operations do. The lock is `free` or `taken`. -/
structure Guarded (Op : Type → Type) (ε σ Call Result : Type) where
  init : σ → Prop
  exec : ∀ β, Op β → EStateM ε σ β
  kind : ∀ β, Op β → LockKind
  code : Call → Program Op Result
  free : σ → Prop
  taken : σ → Prop
  free_of_init : ∀ s, init s → free s
  brackets : ∀ c, (code c).Brackets kind
  wait_free : ∀ {β} (o : Op β) s, kind β o = .wait → free s →
    wp (exec β o) (fun _ => taken) (fun _ _ => True) s
  wait_taken : ∀ {β} (o : Op β) s, kind β o = .wait → taken s →
    wp (exec β o) (fun _ _ => False) (fun _ _ => True) s
  access_taken : ∀ {β} (o : Op β) s, kind β o = .access → taken s →
    wp (exec β o) (fun _ => taken) (fun _ _ => True) s
  post_taken : ∀ {β} (o : Op β) s, kind β o = .post → taken s →
    wp (exec β o) (fun _ => free) (fun _ _ => True) s

/-- What is seen of a call. -/
inductive Event (Call Result : Type)
  | call (c : Call)
  | commit (c : Call) (r : Result)
  | ret (c : Call) (r : Result)

/-- How far a call is. -/
inductive Phase (Call Result : Type)
  | idle
  | called (c : Call)
  | committed (c : Call) (r : Result)

/-- The calls of one thread: one after the other, each of which commits once before it
    returns. -/
inductive OneByOne {Call Result : Type} : Phase Call Result → List (Event Call Result) → Prop
  | idle : OneByOne .idle []
  | call {l : List (Event Call Result)} (c : Call) :
      OneByOne .idle l → OneByOne (.called c) (l ++ [.call c])
  | commit {l : List (Event Call Result)} {c : Call} (r : Result) :
      OneByOne (.called c) l → OneByOne (.committed c r) (l ++ [.commit c r])
  | ret {l : List (Event Call Result)} {c : Call} {r : Result} :
      OneByOne (.committed c r) l → OneByOne .idle (l ++ [.ret c r])

namespace Guarded

variable {Op : Type → Type} {ε σ Call Result : Type} (G : Guarded Op ε σ Call Result)

/-- The calls are made one after the other. -/
def sequential : List Call → EStateM ε σ (List Result)
  | [] => pure []
  | c :: l => do
    let r ← (G.code c).run (G.exec _)
    let rs ← sequential l
    pure (r :: rs)

/-- Where a thread is: in a call, with what is left of it, or in none. -/
abbrev Place (Op : Type → Type) (Call Result : Type) := Option (Call × Program Op Result)

/-- A thread makes a call, or goes on with it. -/
def step (s : σ) : Place Op Call Result → Option Call → Option (σ × Place Op Call Result)
  | none, some c => some (s, some (c, G.code c))
  | some (_, .ret _), none => some (s, none)
  | some (c, .op o next), none =>
    match G.exec _ o s with
    | .ok b s' => some (s', some (c, next b))
    | .error _ _ => none
  | _, _ => none

/-- What is seen of a step. -/
def event (s : σ) : Place Op Call Result → Option Call → Option (Event Call Result)
  | none, some c => some (.call c)
  | some (c, .ret r), none => some (.ret c r)
  | some (c, .op o next), none =>
    match G.exec _ o s with
    | .ok b _ => (next b).returned.map (.commit c)
    | .error _ _ => none
  | _, _ => none

/-- How far the call of a thread is. -/
def phase : Place Op Call Result → Phase Call Result
  | none => .idle
  | some (c, .ret r) => .committed c r
  | some (c, .op _ _) => .called c

/-- What a step does, and what is seen of it. -/
inductive Move : σ → Place Op Call Result → σ → Place Op Call Result →
    Option (Event Call Result) → Prop
  | call {s : σ} (c : Call) : Move s none s (some (c, G.code c)) (some (.call c))
  | ret {s : σ} {c : Call} {r : Result} :
      Move s (some (c, .ret r)) s none (some (.ret c r))
  | inside {s s' : σ} {c : Call} {β : Type} {o : Op β} {next : β → Program Op Result} {b : β} :
      G.exec β o s = .ok b s' → (next b).returned = none →
      Move s (some (c, .op o next)) s' (some (c, next b)) none
  | commit {s s' : σ} {c : Call} {β : Type} {o : Op β} {next : β → Program Op Result} {b : β}
      {r : Result} : G.exec β o s = .ok b s' → next b = .ret r →
      Move s (some (c, .op o next)) s' (some (c, .ret r)) (some (.commit c r))

variable {G} {s s' : σ} {p p' : Place Op Call Result} {a : Option Call}

theorem move_of_step (h : G.step s p a = some (s', p')) : G.Move s p s' p' (G.event s p a) := by
  rcases p with _ | ⟨c, r | ⟨o, next⟩⟩
  · cases a with
    | none => cases h
    | some c =>
      obtain ⟨rfl, rfl⟩ := Prod.mk.inj (Option.some.inj h)
      exact .call c
  · cases a with
    | none =>
      obtain ⟨rfl, rfl⟩ := Prod.mk.inj (Option.some.inj h)
      exact .ret
    | some c => cases h
  · cases a with
    | none =>
      simp only [step] at h
      simp only [event]
      cases hexec : G.exec _ o s with
      | error e s₁ => simp [hexec] at h
      | ok b s₁ =>
        rw [hexec] at h
        obtain ⟨rfl, rfl⟩ := Prod.mk.inj (Option.some.inj h)
        dsimp only
        cases hnext : (next b).returned with
        | none => exact .inside hexec hnext
        | some r =>
          have hret := Program.returned_eq_some.1 hnext
          rw [hret]
          exact .commit hexec hret
    | some c => cases h

theorem phase_of_returned {c : Call} {p : Program Op Result} (h : p.returned = none) :
    phase (some (c, p)) = .called c := by
  cases p with
  | ret r => cases h
  | op o next => rfl

theorem returned_of_held {p : Program Op Result} (h : p.Held G.kind) : p.returned = none := by
  cases p with
  | ret r => exact h.elim
  | op o next => rfl

theorem returned_code (c : Call) : (G.code c).returned = none := by
  have h := G.brackets c
  cases hcode : G.code c with
  | ret r => exact (hcode ▸ h : (Program.ret r).Brackets G.kind).elim
  | op o next => rfl

/-- What is seen of a step is what comes next. -/
theorem Move.oneByOne {e : Option (Event Call Result)} {l : List (Event Call Result)}
    (h : G.Move s p s' p' e) (hl : OneByOne (phase p) l) :
    OneByOne (phase p') (l ++ e.toList) := by
  cases h with
  | call c =>
    rw [phase_of_returned (returned_code c)]
    exact hl.call c
  | ret => exact hl.ret
  | inside _ hret =>
    rw [phase_of_returned hret, Option.toList_none, List.append_nil]
    exact hl
  | commit _ _ => exact hl.commit _

/-! ## The system -/

section

variable {ι : Type*} [DecidableEq ι]

variable (G) in
/-- The system of the threads `ι`. -/
def system (ι : Type*) [DecidableEq ι] :
    System (Threads ι σ (Place Op Call Result)) (ι × Option Call) :=
  threads G.init none G.step

variable (G) in
/-- What is seen of a step of the system. -/
def label (s : Threads ι σ (Place Op Call Result)) (a : ι × Option Call) :
    Option (ι × Event Call Result) :=
  (G.event s.shared (s.pc a.1) a.2).map (a.1, ·)

variable (G) in
/-- What is seen of a run. -/
def events (s : Threads ι σ (Place Op Call Result)) (l : List (ι × Option Call)) :
    List (ι × Event Call Result) :=
  (G.system ι).trace G.label s l

/-- What is seen of one thread. -/
def ofThread (i : ι) (l : List (ι × Event Call Result)) : List (Event Call Result) :=
  l.filterMap fun e => if e.1 = i then some e.2 else none

/-- The calls that commit, in the order in which they do, with what they return. -/
def commits (l : List (ι × Event Call Result)) : List (Call × Result) :=
  l.filterMap fun
    | (_, .commit c r) => some (c, r)
    | _ => none

variable {s₀ s₁ : Threads ι σ (Place Op Call Result)} {l : List (ι × Option Call)} {i : ι}

/-- A step of a thread. -/
theorem exists_move {x : ι × Option Call} (h : (G.system ι).step s₀ x = some s₁) : ∃ p',
    G.Move s₀.shared (s₀.pc x.1) s₁.shared p' (G.event s₀.shared (s₀.pc x.1) x.2) ∧
      s₁.pc = Function.update s₀.pc x.1 p' := by
  obtain ⟨p', hstep, hpc⟩ := threads_step_eq_some.1 h
  exact ⟨p', move_of_step hstep, hpc⟩

/-- What is seen of a run of one step more. -/
theorem events_concat (hl : (G.system ι).exec s₀ l = some s₁) (x : ι × Option Call) :
    G.events s₀ (l ++ [x]) = G.events s₀ l ++ (G.label s₁ x).toList :=
  System.trace_concat hl x

omit [DecidableEq ι] in
theorem commits_append (l l' : List (ι × Event Call Result)) :
    commits (l ++ l') = commits l ++ commits l' :=
  List.filterMap_append

theorem ofThread_append_self (l : List (ι × Event Call Result)) (i : ι)
    (e : Option (Event Call Result)) :
    ofThread i (l ++ (e.map (i, ·)).toList) = ofThread i l ++ e.toList := by
  cases e <;> simp [ofThread]

theorem ofThread_append_of_ne (l : List (ι × Event Call Result)) {i j : ι} (h : j ≠ i)
    (e : Option (Event Call Result)) : ofThread i (l ++ (e.map (j, ·)).toList) = ofThread i l := by
  cases e <;> simp [ofThread, h]

/-- Each call commits after it is made, and before it returns. -/
theorem oneByOne_ofThread (hinit : (G.system ι).init s₀) (hl : (G.system ι).exec s₀ l = some s₁)
    (i : ι) : OneByOne (phase (s₁.pc i)) (ofThread i (G.events s₀ l)) := by
  induction l using List.reverseRecOn generalizing s₁ with
  | nil =>
    obtain rfl := Option.some.inj hl
    rw [hinit.2 i]
    exact .idle
  | append_singleton l x ih =>
    obtain ⟨s, hs, hstep⟩ := System.exec_concat.1 hl
    obtain ⟨p', hmove, hpc⟩ := exists_move hstep
    rw [events_concat hs, label, hpc]
    rcases eq_or_ne x.1 i with rfl | hi
    · rw [Function.update_self, ofThread_append_self]
      exact hmove.oneByOne (ih hs)
    · rw [Function.update_of_ne hi.symm, ofThread_append_of_ne _ hi]
      exact ih hs

/-! ## One caller at a time -/

/-- The thread is not inside: it has no call, or waits for the lock, or has posted it. -/
def Outside (G : Guarded Op ε σ Call Result) (p : Place Op Call Result) : Prop :=
  ∀ c x, p = some (c, x) → x = G.code c ∨ ∃ r, x = .ret r

theorem outside_none : G.Outside none :=
  fun _ _ hnone => absurd hnone.symm (Option.some_ne_none _)

theorem outside_code (c : Call) : G.Outside (some (c, G.code c)) := by
  rintro _ _ hx
  obtain ⟨rfl, rfl⟩ := Prod.mk.inj (Option.some.inj hx)
  exact .inl rfl

theorem outside_ret (c : Call) (r : Result) : G.Outside (some (c, .ret r)) :=
  fun _ _ hx => .inr ⟨r, (Prod.mk.inj (Option.some.inj hx)).2.symm⟩

/-- The calls that are committed have left `m`. The thread that is inside, if there is one, is
    where it would be if it was alone on that. -/
inductive Stands (G : Guarded Op ε σ Call Result) (m : σ) :
    Threads ι σ (Place Op Call Result) → Prop
  | free {s : Threads ι σ (Place Op Call Result)} :
      s.shared = m → G.free m → (∀ i, G.Outside (s.pc i)) → Stands G m s
  | held {s : Threads ι σ (Place Op Call Result)} (i : ι) (c : Call) (x : Program Op Result) :
      s.pc i = some (c, x) → x.Held G.kind → G.taken s.shared →
      x.run (G.exec _) s.shared = (G.code c).run (G.exec _) m →
      (∀ j, j ≠ i → G.Outside (s.pc j)) → Stands G m s

theorem run_of_ok {β : Type} {o : Op β} {next : β → Program Op Result} {b : β}
    (h : G.exec β o s = .ok b s') :
    (Program.op o next).run (G.exec _) s = (next b).run (G.exec _) s' := by
  change (G.exec β o >>= fun b => (next b).run (G.exec _)) s = _
  simp [bind, EStateM.bind, h]

theorem not_held_code (c : Call) : ¬(G.code c).Held G.kind := by
  intro hheld
  have h := G.brackets c
  cases hcode : G.code c with
  | ret r => exact (hcode ▸ h : (Program.ret r).Brackets G.kind).elim
  | op o next =>
    rw [hcode] at h hheld
    rw [Program.Held, h.1] at hheld
    exact hheld

theorem not_held_of_outside {c : Call} {x : Program Op Result} (h : G.Outside (some (c, x))) :
    ¬x.Held G.kind := by
  rcases h c x rfl with rfl | ⟨r, rfl⟩
  · exact not_held_code c
  · exact id

/-- A thread that is not inside begins or ends a call. -/
theorem Stands.other {m : σ} (h : G.Stands m s₀) (hout : G.Outside (s₀.pc i))
    (hout' : G.Outside p') (hshared : s₁.shared = s₀.shared)
    (hpc : s₁.pc = Function.update s₀.pc i p') : G.Stands m s₁ := by
  have houtside : ∀ j, G.Outside (s₀.pc j) → G.Outside (s₁.pc j) := by
    intro j hj
    rw [hpc]
    rcases eq_or_ne j i with rfl | hji
    · rwa [Function.update_self]
    · rwa [Function.update_of_ne hji]
  cases h with
  | free hm hl hall => exact .free (hshared.trans hm) hl fun j => houtside j (hall j)
  | held j c x hx hheld hl hrun hall =>
    have hji : j ≠ i := by
      rintro rfl
      exact not_held_of_outside (hx ▸ hout) hheld
    refine .held j c x ?_ hheld (hshared ▸ hl) (hshared ▸ hrun) fun k hk => houtside k (hall k hk)
    rwa [hpc, Function.update_of_ne hji]

omit [DecidableEq ι] in
theorem Outside.brackets {c : Call} {β : Type} {o : Op β} {next : β → Program Op Result}
    (h : G.Outside (some (c, .op o next))) :
    Program.op o next = G.code c ∧ G.kind β o = .wait ∧ ∀ b, (next b).Held G.kind := by
  have hcode : Program.op o next = G.code c := by
    rcases h c _ rfl with hcode | ⟨r, hret⟩
    · exact hcode
    · cases hret
  have hbrackets := G.brackets c
  rw [← hcode] at hbrackets
  exact ⟨hcode, hbrackets⟩

/-- An operation takes the lock, or is done inside; the last one posts it. -/
theorem Stands.op {m : σ} {c : Call} {β : Type} {o : Op β} {next : β → Program Op Result} {b : β}
    (h : G.Stands m s₀) (hx : s₀.pc i = some (c, .op o next))
    (hexec : G.exec β o s₀.shared = .ok b s₁.shared)
    (hpc : s₁.pc = Function.update s₀.pc i (some (c, next b))) :
    (next b).returned = none ∧ G.Stands m s₁ ∨ ∃ r, next b = .ret r ∧
      (G.code c).run (G.exec _) m = .ok r s₁.shared ∧ G.Stands s₁.shared s₁ := by
  have hself : s₁.pc i = some (c, next b) := by rw [hpc, Function.update_self]
  have hother : ∀ j, j ≠ i → s₁.pc j = s₀.pc j := by
    intro j hj
    rw [hpc, Function.update_of_ne hj]
  have hrun : (Program.op o next).run (G.exec _) s₀.shared =
      (next b).run (G.exec _) s₁.shared := run_of_ok hexec
  cases h with
  | free hm hl hall =>
    obtain ⟨hcode, hwait, hheld⟩ := (hx ▸ hall i : G.Outside _).brackets
    have hl' := (wp_of_ok hexec).1 (G.wait_free o s₀.shared hwait (hm ▸ hl))
    rw [hcode, hm] at hrun
    refine .inl ⟨returned_of_held (hheld b), ?_⟩
    exact .held i c (next b) hself (hheld b) hl' hrun.symm fun j hj => hother j hj ▸ hall j
  | held j c' x hx' hheld hl hrun' hall =>
    rcases eq_or_ne j i with rfl | hji
    · obtain ⟨rfl, rfl⟩ := Prod.mk.inj (Option.some.inj (hx'.symm.trans hx))
      rw [hrun] at hrun'
      rw [Program.Held] at hheld
      split at hheld
      · exact hheld.elim
      · next haccess =>
        refine .inl ⟨returned_of_held (hheld b), .held j c' (next b) hself (hheld b) ?_ hrun' ?_⟩
        · exact (wp_of_ok hexec).1 (G.access_taken o s₀.shared haccess hl)
        · exact fun k hk => hother k hk ▸ hall k hk
      · next hpost =>
        obtain ⟨r, hr⟩ := hheld b
        rw [hr] at hrun'
        have hfree := (wp_of_ok hexec).1 (G.post_taken o s₀.shared hpost hl)
        refine .inr ⟨r, hr, hrun'.symm, .free rfl hfree fun k => ?_⟩
        rcases eq_or_ne k j with rfl | hk
        · rw [hself, hr]
          exact outside_ret c' r
        · rw [hother k hk]
          exact hall k hk
    · -- The lock is taken: the thread would have to wait for it.
      obtain ⟨-, hwait, -⟩ := (hx ▸ hall i hji.symm : G.Outside _).brackets
      exact ((wp_of_ok hexec).1 (G.wait_taken o s₀.shared hwait hl)).elim

theorem sequential_append {m m₁ m' : σ} {l l' : List Call} {rs rs' : List Result}
    (h : G.sequential l m = .ok rs m₁) (h' : G.sequential l' m₁ = .ok rs' m') :
    G.sequential (l ++ l') m = .ok (rs ++ rs') m' := by
  induction l generalizing m rs with
  | nil =>
    obtain ⟨rfl, rfl⟩ := EStateM.Result.ok.inj h
    exact h'
  | cons c l ih =>
    rw [List.cons_append]
    simp only [sequential, bind, EStateM.bind] at h ⊢
    cases hc : (G.code c).run (G.exec _) m with
    | error e m₂ => simp [hc] at h
    | ok r m₂ =>
      rw [hc] at h
      dsimp only at h ⊢
      cases hl : G.sequential l m₂ with
      | error e m₃ => simp [hl] at h
      | ok rs₁ m₃ =>
        rw [hl] at h
        obtain ⟨rfl, rfl⟩ := EStateM.Result.ok.inj h
        rw [ih hl]
        rfl

theorem sequential_singleton {m m' : σ} {c : Call} {r : Result}
    (h : (G.code c).run (G.exec _) m = .ok r m') : G.sequential [c] m = .ok [r] m' := by
  simp [sequential, bind, EStateM.bind, pure, EStateM.pure, h]

/-- What is committed by a step is what one caller would do next. -/
theorem Stands.step {m : σ} {e : Option (Event Call Result)} (h : G.Stands m s₀)
    (hmove : G.Move s₀.shared (s₀.pc i) s₁.shared p' e)
    (hpc : s₁.pc = Function.update s₀.pc i p') : ∃ m',
      G.sequential ((commits (e.map (i, ·)).toList).map Prod.fst) m =
        .ok ((commits (e.map (i, ·)).toList).map Prod.snd) m' ∧ G.Stands m' s₁ := by
  generalize hp : s₀.pc i = p, hs : s₀.shared = s, hs' : s₁.shared = s' at hmove
  cases hmove with
  | call c =>
    exact ⟨m, rfl, h.other (hp ▸ outside_none) (outside_code c) (hs'.trans hs.symm) hpc⟩
  | ret =>
    exact ⟨m, rfl, h.other (hp ▸ outside_ret _ _) outside_none (hs'.trans hs.symm) hpc⟩
  | inside hexec hret =>
    rw [← hs, ← hs'] at hexec
    rcases h.op hp hexec hpc with ⟨-, h'⟩ | ⟨r, hr, -, -⟩
    · exact ⟨m, rfl, h'⟩
    · rw [hr] at hret
      cases hret
  | commit hexec hret =>
    rw [← hs, ← hs'] at hexec
    rw [← hret] at hpc
    rcases h.op hp hexec hpc with ⟨hnone, -⟩ | ⟨r, hr, hrun, h'⟩
    · rw [hret] at hnone
      cases hnone
    · obtain rfl := Program.ret.inj (hret.symm.trans hr)
      exact ⟨s₁.shared, sequential_singleton hrun, h'⟩

/-- The calls that commit in a run do what one caller would do next. -/
theorem Stands.exec {m : σ} (h : G.Stands m s₀) (hl : (G.system ι).exec s₀ l = some s₁) : ∃ m',
    G.sequential ((commits (G.events s₀ l)).map Prod.fst) m =
      .ok ((commits (G.events s₀ l)).map Prod.snd) m' ∧ G.Stands m' s₁ := by
  induction l using List.reverseRecOn generalizing s₁ with
  | nil =>
    obtain rfl := Option.some.inj hl
    exact ⟨m, rfl, h⟩
  | append_singleton l x ih =>
    obtain ⟨s, hs, hstep⟩ := System.exec_concat.1 hl
    obtain ⟨p', hmove, hpc⟩ := exists_move hstep
    obtain ⟨m₁, hseq, hstands⟩ := ih hs
    obtain ⟨m', hseq', hstands'⟩ := hstands.step hmove hpc
    refine ⟨m', ?_, hstands'⟩
    rw [events_concat hs, commits_append, List.map_append, List.map_append]
    exact sequential_append hseq hseq'

theorem stands_of_init (h : (G.system ι).init s₀) : G.Stands s₀.shared s₀ :=
  .free rfl (G.free_of_init _ h.1) fun i => by
    rw [h.2 i]
    exact outside_none

/-- The calls that committed did what they would have done one after the other. -/
theorem linearizable (hinit : (G.system ι).init s₀) (hl : (G.system ι).exec s₀ l = some s₁) :
    ∃ m, G.sequential ((commits (G.events s₀ l)).map Prod.fst) s₀.shared =
      .ok ((commits (G.events s₀ l)).map Prod.snd) m ∧ G.Stands m s₁ :=
  (stands_of_init hinit).exec hl

/-! ## No deadlock -/

/-- A thread whose call returns when it is alone can finish it. -/
theorem exists_exec_alone {c : Call} {x : Program Op Result} {r : Result} {m : σ}
    (hx : s₀.pc i = some (c, x)) (hrun : x.run (G.exec _) s₀.shared = .ok r m) : ∃ l s₁,
      (∀ y ∈ l, y = (i, none)) ∧ (G.system ι).exec s₀ l = some s₁ ∧
        s₁.pc = Function.update s₀.pc i none := by
  induction x generalizing s₀ with
  | ret r =>
    have hstep : (G.system ι).step s₀ (i, none) =
        some ⟨s₀.shared, Function.update s₀.pc i none⟩ := by
      rw [system, threads_step_eq_some]
      exact ⟨none, by rw [hx]; rfl, rfl⟩
    exact ⟨[(i, none)], _, by simp, by rw [System.exec, hstep]; rfl, rfl⟩
  | op o next ih =>
    cases hexec : G.exec _ o s₀.shared with
    | error e s =>
      change (G.exec _ o >>= fun b => (next b).run (G.exec _)) s₀.shared = _ at hrun
      simp [bind, EStateM.bind, hexec] at hrun
    | ok b s =>
      rw [run_of_ok hexec] at hrun
      let s' : Threads ι σ (Place Op Call Result) :=
        ⟨s, Function.update s₀.pc i (some (c, next b))⟩
      have hstep : (G.system ι).step s₀ (i, none) = some s' := by
        rw [system, threads_step_eq_some]
        exact ⟨some (c, next b), by rw [hx]; simp [step, hexec, s'], rfl⟩
      have hx' : s'.pc i = some (c, next b) := Function.update_self ..
      obtain ⟨l, s₁, hl, hs₁, hpc⟩ := ih b hx' hrun
      refine ⟨(i, none) :: l, s₁, ?_, ?_, ?_⟩
      · simpa using hl
      · rw [System.exec, hstep]
        exact hs₁
      · rw [hpc]
        exact Function.update_idem ..

omit [DecidableEq ι] in
/-- Where each call returns if it is made alone, there is a thread that would finish its call
    if the others waited, as long as there is a call. -/
theorem Stands.exists_run {m : σ} (h : G.Stands m s₀)
    (hm : ∀ c, ∃ r m', (G.code c).run (G.exec _) m = .ok r m') (hbusy : s₀.pc i ≠ none) :
    ∃ j c x r m', s₀.pc j = some (c, x) ∧ x.run (G.exec _) s₀.shared = .ok r m' := by
  cases h with
  | free hshared _ hall =>
    obtain ⟨⟨c, x⟩, hx⟩ := Option.ne_none_iff_exists'.1 hbusy
    rcases hall i c x hx with rfl | ⟨r, rfl⟩
    · obtain ⟨r, m', hrun⟩ := hm c
      exact ⟨i, c, _, r, m', hx, hshared ▸ hrun⟩
    · exact ⟨i, c, _, r, s₀.shared, hx, rfl⟩
  | held j c x hx _ _ hrun _ =>
    obtain ⟨r, m', hrun'⟩ := hm c
    exact ⟨j, c, x, r, m', hx, hrun.trans hrun'⟩

theorem sequential_invariant {Q : σ → Prop}
    (hQ : ∀ m c, Q m → ∃ r m', (G.code c).run (G.exec _) m = .ok r m' ∧ Q m') {m m' : σ}
    {cs : List Call} {rs : List Result} (hm : Q m) (h : G.sequential cs m = .ok rs m') : Q m' := by
  induction cs generalizing m rs with
  | nil =>
    obtain ⟨-, rfl⟩ := EStateM.Result.ok.inj h
    exact hm
  | cons c cs ih =>
    obtain ⟨r, m₁, hr, hm₁⟩ := hQ m c hm
    simp only [sequential, bind, EStateM.bind, hr] at h
    cases hcs : G.sequential cs m₁ with
    | error e m₂ => simp [hcs] at h
    | ok rs₁ m₂ =>
      rw [hcs] at h
      obtain ⟨-, rfl⟩ := EStateM.Result.ok.inj h
      exact ih hm₁ hcs

/-- However far the calls of the threads are, they can all be finished. -/
theorem Stands.exists_idle [Fintype ι] {Q : σ → Prop}
    (hQ : ∀ m c, Q m → ∃ r m', (G.code c).run (G.exec _) m = .ok r m' ∧ Q m') {m : σ}
    (h : G.Stands m s₀) (hm : Q m) : ∃ l s₁, (∀ y ∈ l, y.2 = none) ∧
      (G.system ι).exec s₀ l = some s₁ ∧ ∀ i, s₁.pc i = none := by
  induction hn : (Finset.univ.filter fun i => (s₀.pc i).isSome).card using Nat.strongRecOn
    generalizing s₀ m with
  | ind n ih =>
    by_cases hidle : ∀ i, s₀.pc i = none
    · exact ⟨[], s₀, by simp, rfl, hidle⟩
    · -- One thread finishes its call, so that there is one less that has one.
      push Not at hidle
      obtain ⟨i, hi⟩ := hidle
      have hreturns : ∀ c, ∃ r m', (G.code c).run (G.exec _) m = .ok r m' := by
        intro c
        obtain ⟨r, m', hr, -⟩ := hQ m c hm
        exact ⟨r, m', hr⟩
      obtain ⟨j, c, x, r, m', hx, hrun⟩ := h.exists_run hreturns hi
      obtain ⟨l, s₁, hl, hs₁, hpc⟩ := exists_exec_alone hx hrun
      obtain ⟨m₁, hseq, hstands⟩ := h.exec hs₁
      have hlt : (Finset.univ.filter fun i => (s₁.pc i).isSome).card < n := by
        have herase : (Finset.univ.filter fun i => (s₁.pc i).isSome) =
            (Finset.univ.filter fun i => (s₀.pc i).isSome).erase j := by
          ext k
          rcases eq_or_ne k j with rfl | hk
          · simp [hpc]
          · simp [hpc, hk]
        rw [← hn, herase]
        exact Finset.card_erase_lt_of_mem (by simp [hx])
      obtain ⟨l', s₂, hl', hs₂, hidle⟩ := ih _ hlt hstands (sequential_invariant hQ hm hseq) rfl
      refine ⟨l ++ l', s₂, ?_, ?_, hidle⟩
      · intro y hy
        rcases List.mem_append.1 hy with hy | hy
        · rw [hl y hy]
        · exact hl' y hy
      · rw [System.exec_append, hs₁]
        exact hs₂

end

end Guarded

end Library

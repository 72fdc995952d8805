import BugInsight.Runs

/-!
# Programs of atomic operations

A program performs operations and goes on with their results.  `perform e o s` is what the operation
`o` returns and does to the state `s`; `e` stands for what the program was called with.

* `exec`: a program that runs alone;
* `Threads.step`: the programs of several threads, whose operations come in any order;
* `run_alone`: a thread that is not interrupted does what `exec` says;
* `Performs`, `always_of_performs`: an invariant that all operations of all programs keep.
-/

namespace Programs

/-- A program with operations `Op`, which have results of types `Res`. -/
inductive Program (Op : Type) (Res : Op → Type) (α : Type)
  | pure (a : α)
  | op (o : Op) (next : Res o → Program Op Res α)

variable {Op : Type} {Res : Op → Type} {Env σ α β : Type}

namespace Program

/-- One program after the other. -/
def bind : Program Op Res α → (α → Program Op Res β) → Program Op Res β
  | .pure a, f => f a
  | .op o next, f => .op o fun r => (next r).bind f

instance : Monad (Program Op Res) where
  pure := .pure
  bind := bind

/-- The program that performs one operation. -/
def perform (o : Op) : Program Op Res (Res o) := .op o .pure

/-- A program that runs alone. -/
def exec (h : (o : Op) → σ → Res o × σ) : Program Op Res α → σ → α × σ
  | .pure a, s => (a, s)
  | .op o next, s => (next (h o s).1).exec h (h o s).2

variable (h : (o : Op) → σ → Res o × σ) (s : σ)

@[simp] theorem exec_pure (a : α) : (Pure.pure a : Program Op Res α).exec h s = (a, s) := rfl

@[simp] theorem exec_bind (p : Program Op Res α) (f : α → Program Op Res β) :
    (p >>= f).exec h s = (f (p.exec h s).1).exec h (p.exec h s).2 := by
  induction p generalizing s with
  | pure a => rfl
  | op o next ih => exact ih (h o s).1 (h o s).2

theorem exec_ite (c : Prop) [Decidable c] (p q : Program Op Res α) :
    (if c then p else q).exec h s = if c then p.exec h s else q.exec h s := by
  split_ifs
  · rfl
  · rfl

/-- All operations that a program comes to, if their results are as `A` says, satisfy `P`. -/
def Performs (P : Op → Prop) (A : (o : Op) → Res o → Prop) : Program Op Res α → Prop
  | .pure _ => True
  | .op o next => P o ∧ ∀ r, A o r → (next r).Performs P A

variable {P : Op → Prop} {A : (o : Op) → Res o → Prop}

theorem Performs.bind {p : Program Op Res α} {f : α → Program Op Res β} (hp : p.Performs P A)
    (hf : ∀ a, (f a).Performs P A) : (p >>= f).Performs P A := by
  induction p with
  | pure a => exact hf a
  | op o next ih => exact ⟨hp.1, fun r hr => ih r (hp.2 r hr)⟩

end Program

/-- Threads with the rests of their programs, over a shared state. -/
structure Threads (Op : Type) (Res : Op → Type) (Env σ : Type) where
  state : σ
  program : ℕ → Option (Env × Program Op Res Unit)

/-- What a thread does: it calls a program, or goes on with it. -/
inductive Action (Op : Type) (Res : Op → Type) (Env : Type)
  | call (thread : ℕ) (e : Env) (p : Program Op Res Unit)
  | next (thread : ℕ)

namespace Threads

variable (perform : Env → (o : Op) → σ → Res o × σ) (w w' : Threads Op Res Env σ)

/-- No thread is in a program. -/
def start (s : σ) : Threads Op Res Env σ := ⟨s, fun _ => none⟩

/-- A thread goes on. -/
def setProgram (t : ℕ) (p : Option (Env × Program Op Res Unit)) : Threads Op Res Env σ :=
  { w with program := Function.update w.program t p }

/-- One step. -/
def step : Action Op Res Env → Option (Threads Op Res Env σ)
  | .call t e p => if (w.program t).isNone then some (w.setProgram t (some (e, p))) else none
  | .next t =>
      match w.program t with
      | none => none
      | some (_, .pure _) => some (w.setProgram t none)
      | some (e, .op o next) =>
          let r := perform e o w.state
          some ({ w with state := r.2 }.setProgram t (some (e, next r.1)))

variable {perform w w'}

@[simp] theorem setProgram_self (t : ℕ) (p : Option (Env × Program Op Res Unit)) :
    (w.setProgram t p).program t = p := Function.update_self ..

theorem setProgram_of_ne {t u : ℕ} (hu : u ≠ t) (p : Option (Env × Program Op Res Unit)) :
    (w.setProgram t p).program u = w.program u := Function.update_of_ne hu ..

/-- **What a step does**: a program is called, ends, or performs its next operation. -/
theorem step_cases {a : Action Op Res Env} (h : w.step perform a = some w') :
    (∃ t e p, a = .call t e p ∧ w.program t = none ∧ w' = w.setProgram t (some (e, p))) ∨
      ∃ t e, a = .next t ∧
        ((∃ u, w.program t = some (e, .pure u) ∧ w' = w.setProgram t none) ∨
          ∃ o next, w.program t = some (e, .op o next) ∧
            w' = { w with state := (perform e o w.state).2 }.setProgram t
              (some (e, next (perform e o w.state).1))) := by
  cases a with
  | call t e p =>
    simp only [step, Option.isNone_iff_eq_none] at h
    split_ifs at h with hnone
    cases h
    exact Or.inl ⟨t, e, p, rfl, hnone, rfl⟩
  | next t =>
    simp only [step] at h
    split at h
    · cases h
    · rename_i e u hp
      cases h
      exact Or.inr ⟨t, e, rfl, Or.inl ⟨u, hp, rfl⟩⟩
    · rename_i e o next hp
      cases h
      exact Or.inr ⟨t, e, rfl, Or.inr ⟨o, next, hp, rfl⟩⟩

/-- **A program that is not interrupted** does what it does alone. -/
theorem run_alone (t : ℕ) (e : Env) (p : Program Op Res Unit) (hw : w.program t = none) :
    ∃ n, Runs.run (step perform) w (.call t e p :: List.replicate n (.next t)) =
      some ⟨(p.exec (perform e) w.state).2, w.program⟩ := by
  have hrest : ∀ (p : Program Op Res Unit) (v : Threads Op Res Env σ),
      v.program t = some (e, p) → ∃ n, Runs.run (step perform) v (List.replicate n (.next t)) =
        some ⟨(p.exec (perform e) v.state).2, Function.update v.program t none⟩ := by
    intro p
    induction p with
    | pure u =>
      intro v hv
      refine ⟨1, ?_⟩
      rw [List.replicate_one, Runs.run_cons]
      simp only [step, hv]
      rfl
    | op o next ih =>
      intro v hv
      obtain ⟨n, hn⟩ := ih (perform e o v.state).1
        ({ v with state := (perform e o v.state).2 }.setProgram t
          (some (e, next (perform e o v.state).1))) (setProgram_self _ _)
      refine ⟨n + 1, ?_⟩
      rw [List.replicate_succ, Runs.run_cons]
      simp only [step, hv]
      refine hn.trans ?_
      simp only [setProgram, Function.update_idem]
      rfl
  obtain ⟨n, hn⟩ := hrest p (w.setProgram t (some (e, p))) (setProgram_self _ _)
  refine ⟨n, ?_⟩
  rw [Runs.run_cons]
  simp only [step, hw, Option.isNone_none, if_true]
  refine hn.trans ?_
  simp only [setProgram, Function.update_idem]
  rw [← hw, Function.update_eq_self]

variable {I : σ → Prop} {P : Env → Op → Prop} {A : Env → (o : Op) → Res o → Prop} {s : σ}
  {calls : List (Action Op Res Env)}

/-- **The invariant rule**: what the operations of all called programs keep holds in every state. -/
theorem always_of_performs (hs : I s) (hkeep : ∀ e o s, I s → P e o → I (perform e o s).2)
    (hresult : ∀ e o s, I s → A e o (perform e o s).1)
    (hcalls : ∀ t e p, Action.call t e p ∈ calls → p.Performs (P e) (A e)) :
    Runs.Always (step perform) (fun w => I w.state) (start s) calls := by
  let J : Threads Op Res Env σ → Prop := fun w =>
    I w.state ∧ ∀ t e p, w.program t = some (e, p) → p.Performs (P e) (A e)
  have hJ : Runs.Always (step perform) J (start s) calls := by
    refine Runs.always_of_steps ⟨hs, nofun⟩ ?_ Runs.steps_mem
    rintro w a w' ⟨hI, hp⟩ ha hstep
    rcases step_cases hstep with ⟨t, e, p, rfl, -, rfl⟩ |
      ⟨t, e, rfl, ⟨u, -, rfl⟩ | ⟨o, next, ht, rfl⟩⟩
    · refine ⟨hI, fun u e' p' hu => ?_⟩
      by_cases hut : u = t
      · rw [hut, setProgram_self] at hu
        cases hu
        exact hcalls t e p ha
      · rw [setProgram_of_ne hut] at hu
        exact hp u e' p' hu
    · refine ⟨hI, fun u e' p' hu => ?_⟩
      by_cases hut : u = t
      · rw [hut, setProgram_self] at hu
        cases hu
      · rw [setProgram_of_ne hut] at hu
        exact hp u e' p' hu
    · obtain ⟨hop, hnext⟩ := hp t e _ ht
      refine ⟨hkeep e o w.state hI hop, fun u e' p' hu => ?_⟩
      by_cases hut : u = t
      · rw [hut, setProgram_self] at hu
        cases hu
        exact hnext _ (hresult e o w.state hI)
      · rw [setProgram_of_ne hut] at hu
        exact hp u e' p' hu
  exact hJ.imp fun _ h => h.1

end Threads

end Programs

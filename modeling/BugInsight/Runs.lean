import Mathlib.Tactic

/-!
# Runs of a partial step function

`step s a` is the state after the action `a`, or `none` if `a` is not possible in `s` or does not
come to an end.  `run step s l` performs the actions of a list.

* `run_induct`: what holds at the start and is kept by every step holds after every run;
* `Steps`, `Always`: a property of every step and of every state of a run, with their rules for
  one more action;
* `always_of_steps`, `always_iff_steps`, `steps_iff_last`: from one step to a whole run.
-/

namespace Runs

variable {σ α : Type*} {step : σ → α → Option σ} {s s' : σ} {a : α} {l : List α}

/-- The state after a list of actions. -/
def run (step : σ → α → Option σ) (s : σ) (l : List α) : Option σ := l.foldlM step s

@[simp] theorem run_nil : run step s [] = some s := rfl

theorem run_cons : run step s (a :: l) = (step s a).bind fun s' => run step s' l :=
  List.foldlM_cons

theorem run_append (l₁ l₂ : List α) :
    run step s (l₁ ++ l₂) = (run step s l₁).bind fun s' => run step s' l₂ :=
  List.foldlM_append

theorem run_concat : run step s (l ++ [a]) = (run step s l).bind fun s' => step s' a := by
  rw [run_append]
  refine congrArg _ (funext fun s' => ?_)
  exact Option.bind_fun_some (step s' a)

theorem run_concat_eq_some : run step s (l ++ [a]) = some s' ↔
    ∃ s₁, run step s l = some s₁ ∧ step s₁ a = some s' := by
  rw [run_concat, Option.bind_eq_some_iff]

/-- Induction on a run, from its last action. -/
theorem run_induct {motive : List α → σ → Prop} (hnil : motive [] s)
    (hstep : ∀ l s₁ a s₂, run step s l = some s₁ → motive l s₁ → step s₁ a = some s₂ →
      motive (l ++ [a]) s₂) :
    ∀ l s', run step s l = some s' → motive l s' := by
  intro l
  induction l using List.reverseRecOn with
  | nil => intro s' h; cases h; exact hnil
  | append_singleton l a ih =>
    intro s' h
    obtain ⟨s₁, hl, ha⟩ := run_concat_eq_some.1 h
    exact hstep l s₁ a s' hl (ih s₁ hl) ha

/-- Actions that change nothing can be left out of a run. -/
theorem run_filter {p : α → Bool}
    (hskip : ∀ a ∈ l, p a = false → ∀ s₁ s₂, step s₁ a = some s₂ → s₂ = s₁)
    (hrun : run step s l = some s') : run step s (l.filter p) = some s' := by
  induction l generalizing s with
  | nil => exact hrun
  | cons a l ih =>
    rw [run_cons] at hrun
    obtain ⟨s₁, hs₁, hrun⟩ := Option.bind_eq_some_iff.1 hrun
    have hrest := ih (fun b hb => hskip b (List.mem_cons_of_mem a hb)) hrun
    cases ha : p a with
    | false =>
      rw [List.filter_cons_of_neg (by simp [ha])]
      rwa [hskip a List.mem_cons_self ha s s₁ hs₁] at hrest
    | true =>
      rw [List.filter_cons_of_pos ha, run_cons, hs₁]
      exact hrest

/-- `P` holds of every action and the state before it. -/
def Steps (step : σ → α → Option σ) (P : σ → α → Prop) (s : σ) (l : List α) : Prop :=
  ∀ pre a post s', l = pre ++ a :: post → run step s pre = some s' → P s' a

/-- `P` holds of every state of the run. -/
def Always (step : σ → α → Option σ) (P : σ → Prop) (s : σ) (l : List α) : Prop :=
  ∀ pre post s', l = pre ++ post → run step s pre = some s' → P s'

variable {P : σ → α → Prop} {Q : σ → Prop}

theorem steps_nil : Steps step P s [] := fun pre a post s' h => by simp at h

theorem steps_concat : Steps step P s (l ++ [a]) ↔
    Steps step P s l ∧ ∀ s', run step s l = some s' → P s' a := by
  constructor
  · refine fun h => ⟨fun pre b post s' hl => h pre b (post ++ [a]) s' (by simp [hl]), ?_⟩
    exact fun s' => h l a [] s' rfl
  · rintro ⟨hl, ha⟩ pre b post s' heq hpre
    rcases List.eq_nil_or_concat post with rfl | ⟨post', c, rfl⟩
    · obtain ⟨rfl, hab⟩ := List.append_inj' heq rfl
      cases hab
      exact ha s' hpre
    · rw [List.concat_eq_append, ← List.cons_append, ← List.append_assoc] at heq
      exact hl pre b post' s' (List.append_inj' heq rfl).1 hpre

theorem always_nil : Always step Q s [] ↔ Q s := by
  constructor
  · exact fun h => h [] [] s rfl rfl
  · intro h pre post s' hl hs'
    rw [(List.append_eq_nil_iff.1 hl.symm).1] at hs'
    cases hs'
    exact h

theorem always_concat : Always step Q s (l ++ [a]) ↔
    Always step Q s l ∧ ∀ s', run step s (l ++ [a]) = some s' → Q s' := by
  constructor
  · refine fun h => ⟨fun pre post s' hl => h pre (post ++ [a]) s' (by simp [hl]), ?_⟩
    exact fun s' => h (l ++ [a]) [] s' (by simp)
  · rintro ⟨hl, ha⟩ pre post s' heq hpre
    rcases List.eq_nil_or_concat post with rfl | ⟨post', c, rfl⟩
    · rw [List.append_nil] at heq
      exact ha s' (heq ▸ hpre)
    · rw [List.concat_eq_append, ← List.append_assoc] at heq
      exact hl pre post' s' (List.append_inj' heq rfl).1 hpre

/-- **The invariant rule** for runs whose steps all meet a condition: what holds at the start and
is kept by every such step holds of every state of the run. -/
theorem always_of_steps (hs : Q s) (hstep : ∀ s₁ a s₂, Q s₁ → P s₁ a → step s₁ a = some s₂ → Q s₂)
    (hl : Steps step P s l) : Always step Q s l := by
  induction l using List.reverseRecOn with
  | nil => exact always_nil.2 hs
  | append_singleton l a ih =>
    obtain ⟨hl', ha⟩ := steps_concat.1 hl
    refine always_concat.2 ⟨ih hl', fun s' hs' => ?_⟩
    obtain ⟨s₁, h₁, h₂⟩ := run_concat_eq_some.1 hs'
    exact hstep s₁ a s' (ih hl' l [] s₁ (by simp) h₁) (ha s₁ h₁) h₂

variable {P' : σ → α → Prop} {Q' : σ → Prop}

theorem steps_mem : Steps step (fun _ a => a ∈ l) s l := fun pre a post s₁ hl _ => by
  rw [hl]
  simp

theorem Steps.and (h : Steps step P s l) (h' : Steps step P' s l) :
    Steps step (fun s₁ a => P s₁ a ∧ P' s₁ a) s l :=
  fun pre a post s₁ hl h₁ => ⟨h pre a post s₁ hl h₁, h' pre a post s₁ hl h₁⟩

theorem Always.imp (h : Always step Q s l) (hQ : ∀ s₁, Q s₁ → Q' s₁) : Always step Q' s l :=
  fun pre post s₁ hl h₁ => hQ s₁ (h pre post s₁ hl h₁)

/-- What holds of every state holds before and after every step. -/
theorem Always.steps (h : Always step Q s l) :
    Steps step (fun s₁ a => Q s₁ ∧ ∀ s₂, step s₁ a = some s₂ → Q s₂) s l := by
  intro pre a post s₁ hl h₁
  refine ⟨h pre (a :: post) s₁ hl h₁, fun s₂ h₂ => h (pre ++ [a]) post s₂ (by simp [hl]) ?_⟩
  exact run_concat_eq_some.2 ⟨s₁, h₁, h₂⟩

/-- The rest of a run. -/
theorem Always.of_append {l' : List α} (h : Always step Q s (l ++ l'))
    (hrun : run step s l = some s') : Always step Q s' l' := by
  intro pre post s₁ hl h₁
  refine h (l ++ pre) post s₁ (by rw [hl, List.append_assoc]) ?_
  rw [run_append, hrun]
  exact h₁

theorem Steps.left {l' : List α} (h : Steps step P s (l ++ l')) : Steps step P s l :=
  fun pre a post s₁ hl h₁ => h pre a (post ++ l') s₁ (by simp [hl]) h₁

theorem Steps.of_append {l' : List α} (h : Steps step P s (l ++ l'))
    (hrun : run step s l = some s') : Steps step P s' l' := by
  intro pre a post s₁ hl h₁
  refine h (l ++ pre) a post s₁ (by rw [hl, List.append_assoc]) ?_
  rw [run_append, hrun]
  exact h₁

/-- The last state of a run. -/
theorem Always.last (h : Always step Q s l) (hrun : run step s l = some s') : Q s' :=
  h l [] s' (by simp) hrun

/-- A run that comes to its end takes every step. -/
theorem exists_next {pre post : List α} {s₁ : σ} (hrun : run step s l = some s')
    (hl : l = pre ++ a :: post) (hpre : run step s pre = some s₁) : ∃ s₂, step s₁ a = some s₂ := by
  rw [hl, run_append, hpre, Option.bind_some, run_cons] at hrun
  obtain ⟨s₂, hs₂, -⟩ := Option.bind_eq_some_iff.1 hrun
  exact ⟨s₂, hs₂⟩

/-- **The rule for what only grows**: a preorder that every step from an invariant goes up in
relates every state of a run to the last one. -/
theorem always_le {R : σ → σ → Prop} (hrefl : ∀ s, R s s)
    (htrans : ∀ s₁ s₂ s₃, R s₁ s₂ → R s₂ s₃ → R s₁ s₃)
    (hstep : ∀ s₁ a s₂, Q s₁ → P s₁ a → step s₁ a = some s₂ → R s₁ s₂) (hQ : Always step Q s l)
    (hP : Steps step P s l) (hrun : run step s l = some s') :
    Always step (fun s₁ => R s₁ s') s l := by
  induction l using List.reverseRecOn generalizing s' with
  | nil =>
    cases hrun
    exact always_nil.2 (hrefl s)
  | append_singleton l a ih =>
    obtain ⟨s₁, h₁, h₂⟩ := run_concat_eq_some.1 hrun
    obtain ⟨hl, ha⟩ := steps_concat.1 hP
    have hQl := (always_concat.1 hQ).1
    have hlast : R s₁ s' := hstep s₁ a s' (hQl.last h₁) (ha s₁ h₁) h₂
    refine always_concat.2 ⟨(ih hQl hl h₁).imp fun s₂ h => htrans _ _ _ h hlast, ?_⟩
    rintro s₂ hs₂
    rw [hrun] at hs₂
    cases hs₂
    exact hrefl s'

/-- A property that every step from an invariant of it keeps exactly under a condition holds
throughout a run exactly if every step meets the condition.  The steps of the run may be assumed to
be of the kind `P'`. -/
theorem always_iff_steps {I : σ → Prop} (hs : I s) (hI : ∀ s, I s → Q s)
    (hstep : ∀ s₁ a s₂, I s₁ → P' s₁ a → step s₁ a = some s₂ →
      (Q s₂ ↔ P s₁ a) ∧ (Q s₂ → I s₂))
    (hl : Steps step P' s l) (hrun : run step s l = some s') :
    Always step Q s l ↔ Steps step P s l := by
  suffices H : (Always step Q s l ↔ Steps step P s l) ∧ (Always step Q s l → I s') from H.1
  induction l using List.reverseRecOn generalizing s' with
  | nil =>
    cases hrun
    exact ⟨iff_of_true (always_nil.2 (hI s hs)) steps_nil, fun _ => hs⟩
  | append_singleton l a ih =>
    obtain ⟨s₁, h₁, h₂⟩ := run_concat_eq_some.1 hrun
    obtain ⟨hl', ha⟩ := steps_concat.1 hl
    obtain ⟨hiff, hinv⟩ := ih hl' h₁
    rw [always_concat, steps_concat, ← hiff, hrun, h₁]
    simp only [Option.some_inj, forall_eq']
    refine ⟨and_congr_right fun hQ => ?_, fun h => ?_⟩
    · exact (hstep s₁ a s' (hinv hQ) (ha s₁ h₁) h₂).1
    · exact (hstep s₁ a s' (hinv h.1) (ha s₁ h₁) h₂).2 h.2

/-- **The rule for what is lost for good**: a property that a step from an invariant keeps exactly
under a condition, and that no step brings back, holds at the end of a run exactly if every step
meets the condition. -/
theorem steps_iff_last {I : σ → Prop} (hs : I s) (hQ : Q s)
    (hstep : ∀ s₁ a s₂, I s₁ → step s₁ a = some s₂ → I s₂ ∧ (Q s₂ ↔ Q s₁ ∧ P s₁ a))
    (hrun : run step s l = some s') : I s' ∧ (Q s' ↔ Steps step P s l) := by
  refine run_induct (motive := fun l s' => I s' ∧ (Q s' ↔ Steps step P s l))
    ⟨hs, iff_of_true hQ steps_nil⟩ (fun l s₁ a s₂ h₁ ih h₂ => ?_) l s' hrun
  obtain ⟨hI, hiff⟩ := hstep s₁ a s₂ ih.1 h₂
  refine ⟨hI, ?_⟩
  rw [hiff, ih.2, steps_concat, h₁]
  simp only [Option.some_inj, forall_eq']

/-- **The simulation rule**: if every step of one function that meets a condition is matched by a
step of another one, so is every run. -/
theorem exists_run_of_sim {τ : Type*} {step' : τ → α → Option τ} {P : τ → α → Prop}
    {R : σ → τ → Prop} {t : τ}
    (hstep : ∀ s t a, R s t → P t a →
      ∃ s' t', step s a = some s' ∧ step' t a = some t' ∧ R s' t')
    (h : R s t) (hl : Steps step' P t l) :
    ∃ s' t', run step s l = some s' ∧ run step' t l = some t' ∧ R s' t' := by
  induction l using List.reverseRecOn with
  | nil => exact ⟨s, t, rfl, rfl, h⟩
  | append_singleton l a ih =>
    obtain ⟨hl, ha⟩ := steps_concat.1 hl
    obtain ⟨s₁, t₁, hs₁, ht₁, h₁⟩ := ih hl
    obtain ⟨s', t', hs', ht', h'⟩ := hstep s₁ t₁ a h₁ (ha t₁ ht₁)
    exact ⟨s', t', run_concat_eq_some.2 ⟨s₁, hs₁, hs'⟩, run_concat_eq_some.2 ⟨t₁, ht₁, ht'⟩, h'⟩

/-! ### Evaluation -/

theorem always_cons : Always step Q s (a :: l) ↔
    Q s ∧ ∀ s', step s a = some s' → Always step Q s' l := by
  constructor
  · refine fun h => ⟨h [] (a :: l) s rfl rfl, fun s' hs' => ?_⟩
    exact h.of_append (l := [a]) (by rw [run_cons, hs']; rfl)
  · rintro ⟨hs, hl⟩ pre post s₁ heq hpre
    cases pre with
    | nil => cases hpre; exact hs
    | cons b pre =>
      obtain ⟨rfl, rfl⟩ := List.cons.inj heq
      rw [run_cons] at hpre
      obtain ⟨s', hs', hpre⟩ := Option.bind_eq_some_iff.1 hpre
      exact hl s' hs' pre post s₁ rfl hpre

theorem steps_cons : Steps step P s (a :: l) ↔
    P s a ∧ ∀ s', step s a = some s' → Steps step P s' l := by
  constructor
  · refine fun h => ⟨h [] a l s rfl rfl, fun s' hs' pre b post s₁ hl h₁ => ?_⟩
    exact h (a :: pre) b post s₁ (by rw [hl]; rfl) (by rw [run_cons, hs']; exact h₁)
  · rintro ⟨hs, hl⟩ pre b post s₁ heq hpre
    cases pre with
    | nil => cases hpre; obtain ⟨rfl, -⟩ := List.cons.inj heq; exact hs
    | cons c pre =>
      obtain ⟨rfl, rfl⟩ := List.cons.inj heq
      rw [run_cons] at hpre
      obtain ⟨s', hs', hpre⟩ := Option.bind_eq_some_iff.1 hpre
      exact hl s' hs' pre b post s₁ rfl hpre

/-- A property of the value of a computation that may fail. -/
def decidableForallEqSome (x : Option σ) (R : σ → Prop) [∀ s, Decidable (R s)] :
    Decidable (∀ s, x = some s → R s) :=
  match x with
  | none => isTrue nofun
  | some s => decidable_of_iff (R s) (by simp)

instance decidableAlways [DecidablePred Q] :
    ∀ (l : List α) (s : σ), Decidable (Always step Q s l)
  | [], s => decidable_of_iff (Q s) always_nil.symm
  | a :: l, s =>
      have := fun s' => decidableAlways l s'
      have := decidableForallEqSome (step s a) fun s' => Always step Q s' l
      decidable_of_iff (Q s ∧ ∀ s', step s a = some s' → Always step Q s' l) always_cons.symm

instance decidableSteps [∀ s a, Decidable (P s a)] :
    ∀ (l : List α) (s : σ), Decidable (Steps step P s l)
  | [], _ => isTrue steps_nil
  | a :: l, s =>
      have := fun s' => decidableSteps l s'
      have := decidableForallEqSome (step s a) fun s' => Steps step P s' l
      decidable_of_iff (P s a ∧ ∀ s', step s a = some s' → Steps step P s' l) steps_cons.symm

end Runs

import Mathlib.Tactic

/-!
# Bounded loops

A loop body `body : σ → σ ⊕ β` continues with a new state (`inl`) or leaves the loop with a
result (`inr`).  `iterate body n s` runs the body for at most `n` rounds; `none` says that the
loop has not been left by then.

* `exists_iterate_eq_some`: a variant bounds the number of rounds, so the loop is left;
* `iterate_spec`: an invariant of the body gives the postcondition of the loop;
* `iterate_map`: two loops with the same rounds have the same result;
* `iterate_of_fits`, `iterate_of_not_fits`: a loop that breaks off has the result of the loop that
  does not, if all states on the way fit;
* `run`: the result of a loop that is known to be left.
-/

namespace Loop

variable {σ β : Type*} {body : σ → σ ⊕ β}

/-- At most `n` rounds of the body from `s`. -/
def iterate (body : σ → σ ⊕ β) : ℕ → σ → Option β
  | 0, _ => none
  | n + 1, s =>
      match body s with
      | .inl s' => iterate body n s'
      | .inr b => some b

theorem iterate_succ_inl {n : ℕ} {s s' : σ} (h : body s = .inl s') :
    iterate body (n + 1) s = iterate body n s' := by
  simp only [iterate, h]

theorem iterate_succ_inr {n : ℕ} {s : σ} {b : β} (h : body s = .inr b) :
    iterate body (n + 1) s = some b := by
  simp only [iterate, h]

/-- Induction on the rounds: a property of "the loop from `s` has result `b`" holds when leaving
the loop establishes it and a round carries it back. -/
theorem iterate_induct {motive : σ → β → Prop}
    (hexit : ∀ s b, body s = .inr b → motive s b)
    (hround : ∀ s s' b, body s = .inl s' → motive s' b → motive s b) :
    ∀ n s b, iterate body n s = some b → motive s b := by
  intro n
  induction n with
  | zero => intro s b h; simp [iterate] at h
  | succ n ih =>
    intro s b h
    cases hb : body s with
    | inl s' =>
      rw [iterate_succ_inl hb] at h
      exact hround s s' b hb (ih s' b h)
    | inr b' =>
      rw [iterate_succ_inr hb] at h
      cases h
      exact hexit s b hb

/-- The invariant rule. -/
theorem iterate_spec {I : σ → Prop} {Q : β → Prop}
    (hround : ∀ s s', I s → body s = .inl s' → I s')
    (hexit : ∀ s b, I s → body s = .inr b → Q b)
    {n : ℕ} {s : σ} {b : β} (hs : I s) (h : iterate body n s = some b) : Q b :=
  iterate_induct (motive := fun s b => I s → Q b) (fun s b hb hI => hexit s b hI hb)
    (fun s s' _ hb ih hI => ih (hround s s' hI hb)) n s b h hs

/-- The variant rule: `V n s` says that at most `n` further rounds follow `s`. -/
theorem exists_iterate_eq_some {V : ℕ → σ → Prop}
    (hround : ∀ n s s', V n s → body s = .inl s' → ∃ m < n, V m s') :
    ∀ n s fuel, V n s → n < fuel → ∃ b, iterate body fuel s = some b := by
  intro n
  induction n using Nat.strong_induction_on with
  | _ n ih =>
    intro s fuel hV hn
    obtain ⟨fuel, rfl⟩ : ∃ f, fuel = f + 1 := ⟨fuel - 1, by omega⟩
    cases hb : body s with
    | inl s' =>
      obtain ⟨m, hm, hV'⟩ := hround n s s' hV hb
      rw [iterate_succ_inl hb]
      exact ih m hm s' fuel hV' (by omega)
    | inr b => exact ⟨b, iterate_succ_inr hb⟩

/-- A loop with a decreasing measure is left. -/
theorem exists_iterate_of_measure {μ : σ → ℕ} (hμ : ∀ s s', body s = .inl s' → μ s' < μ s)
    (s : σ) : ∃ b, iterate body (μ s + 1) s = some b :=
  exists_iterate_eq_some (V := fun n s => μ s = n)
    (fun _ s s' hV hb => ⟨μ s', hV ▸ hμ s s' hb, rfl⟩) (μ s) s _ rfl (Nat.lt_succ_self _)

/-- The simulation rule: loops whose bodies agree as long as an invariant of the first holds. -/
theorem iterate_map {γ : Type*} {body' : σ → σ ⊕ γ} {f : β → γ} {I : σ → Prop}
    (hround : ∀ s s', I s → body s = .inl s' → I s')
    (hbody : ∀ s, I s → body' s = (body s).map id f) :
    ∀ n s, I s → iterate body' n s = (iterate body n s).map f := by
  intro n
  induction n with
  | zero => exact fun s _ => rfl
  | succ n ih =>
    intro s hs
    have hb' := hbody s hs
    cases hb : body s with
    | inl s' =>
      rw [hb] at hb'
      rw [iterate_succ_inl hb, iterate_succ_inl hb']
      exact ih s' (hround s s' hs hb)
    | inr b =>
      rw [hb] at hb'
      rw [iterate_succ_inr hb, iterate_succ_inr hb']
      rfl

/-! ### Loops that break off -/

/-- The states that the loop comes to. -/
def Reaches (body : σ → σ ⊕ β) : σ → σ → Prop :=
  Relation.ReflTransGen fun s s' => body s = .inl s'

section BreakOff

variable {γ : Type*} {body' : σ → σ ⊕ Option γ} {f : β → γ} {Fits : σ → Prop} {n : ℕ} {s s' : σ}

/-- All states on the way fit. -/
theorem iterate_of_fits (hfits : ∀ s, Fits s → body' s = (body s).map id fun b => some (f b))
    (h : ∀ s', Reaches body s s' → Fits s') :
    iterate body' n s = (iterate body n s).map fun b => some (f b) :=
  iterate_map (I := fun s => ∀ s', Reaches body s s' → Fits s')
    (fun _ _ hs hb _ hreach => hs _ (.head hb hreach)) (fun s hs => hfits s (hs s .refl)) n s h

/-- A state on the way does not fit. -/
theorem iterate_of_not_fits (hfits : ∀ s, Fits s → body' s = (body s).map id fun b => some (f b))
    (hbreak : ∀ s, ¬ Fits s → body' s = .inr none) (h : Reaches body s s') (hno : ¬ Fits s') :
    (iterate body' n s).join = none := by
  induction h using Relation.ReflTransGen.head_induction_on generalizing n with
  | refl =>
    cases n with
    | zero => rfl
    | succ n => rw [iterate_succ_inr (hbreak _ hno)]; rfl
  | @head s s₁ hb _ ih =>
    cases n with
    | zero => rfl
    | succ n =>
      by_cases hs : Fits s
      · have hb' : body' s = .inl s₁ := by rw [hfits s hs, hb]; rfl
        rw [iterate_succ_inl hb']
        exact ih
      · rw [iterate_succ_inr (hbreak s hs)]; rfl

end BreakOff

/-- The result of a loop that is left. -/
def run (body : σ → σ ⊕ β) (n : ℕ) (s : σ) (h : ∃ b, iterate body n s = some b) : β :=
  (iterate body n s).get (Option.isSome_iff_exists.2 h)

theorem iterate_eq_some_run {n : ℕ} {s : σ} (h : ∃ b, iterate body n s = some b) :
    iterate body n s = some (run body n s h) := (Option.some_get _).symm

/-- The invariant rule for a loop that is left. -/
theorem run_spec {I : σ → Prop} {Q : β → Prop}
    (hround : ∀ s s', I s → body s = .inl s' → I s')
    (hexit : ∀ s b, I s → body s = .inr b → Q b)
    {n : ℕ} {s : σ} (h : ∃ b, iterate body n s = some b) (hs : I s) : Q (run body n s h) :=
  iterate_spec hround hexit hs (iterate_eq_some_run h)

end Loop

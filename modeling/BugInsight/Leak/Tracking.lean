import BugInsight.Leak.Hooks

/-!
# The repository tracks the live blocks

Outside of the hooks, the keys of the repository are the addresses of the live blocks.  Inside, a
block of `malloc` is live before it is added, a block of `free` is erased before it is released, and
the old block of `realloc` is erased only after the real function has released it: `Pc.stale`.

* `Inv`: the invariant, with `Keyed` for the live blocks that are in the repository;
* `Inv.move`: what a step has to do that changes one block only;
* `repository_tracks`: the result for whole runs.  It fails if another thread gets the old address
  of a `realloc` and adds it before it is erased.
-/

namespace BugInsight

/-- An address that may be null. -/
def nonNull (p : ℕ) : Option ℕ := if p = nullptr then none else some p

theorem nonNull_eq_some {p a : ℕ} : nonNull p = some a ↔ a = p ∧ p ≠ nullptr := by
  unfold nonNull
  split_ifs with h <;> simp [h, eq_comm]

namespace Pc

/-- The live block that a hook works on. -/
def block : Pc → Option ℕ
  | .reallocLookup p _ | .freeLookup p | .freeErase p | .add p _ _ => some p
  | .reallocReal p _ _ | .reallocErase _ p _ | .freeReal p => nonNull p
  | .idle | .mallocReal _ => none

/-- The block of the hook is in the repository. -/
def keyed : Pc → Bool
  | .reallocLookup _ _ | .reallocReal _ _ _ | .freeLookup _ | .freeErase _ => true
  | _ => false

/-- The old pointer of `realloc`, which the real function has released, while it is still in the
repository. -/
def stale : Pc → Option ℕ
  | .reallocErase p _ _ => some p
  | _ => none

/-- The block that is about to be added. -/
def added : Pc → Option ℕ
  | .add p _ _ => some p
  | _ => none

end Pc

namespace LeakState

variable {s s' : LeakState} {o : UserOptions} {t p : ℕ} {x : Pc}

/-- A live block that is in the repository. -/
def Keyed (s : LeakState) (a : ℕ) : Prop :=
  match s.blocks a with
  | none => False
  | some (.app _) => True
  | some (.hook t) => (s.pc t).keyed = true

theorem keyed_none (h : s.blocks p = none) : ¬ s.Keyed p := by
  unfold Keyed
  rw [h]
  exact not_false

theorem keyed_app (h : s.blocks p = some (.app t)) : s.Keyed p := by
  unfold Keyed
  rw [h]
  trivial

theorem keyed_hook (h : s.blocks p = some (.hook t)) : s.Keyed p ↔ (s.pc t).keyed = true := by
  unfold Keyed
  rw [h]

theorem keyed_congr {a : ℕ} (hb : s'.blocks a = s.blocks a)
    (hpc : ∀ u, s.blocks a = some (.hook u) → (s'.pc u).keyed = (s.pc u).keyed) :
    s'.Keyed a ↔ s.Keyed a := by
  unfold Keyed
  rw [hb]
  cases hholder : s.blocks a with
  | none => rfl
  | some holder =>
    cases holder with
    | app u => rfl
    | hook u =>
      show (s'.pc u).keyed = true ↔ (s.pc u).keyed = true
      rw [hpc u hholder]

/-- **The invariant.** -/
structure Inv (s : LeakState) : Prop where
  block : ∀ t a, (s.pc t).block = some a ↔ s.blocks a = some (.hook t)
  key : ∀ a, (0, a) ∈ s.repo ↔ s.Keyed a ∨ ∃ t, (s.pc t).stale = some a
  stale : ∀ t a, (s.pc t).stale = some a → ¬ s.Keyed a ∧ ∀ u, (s.pc u).stale = some a → t = u
  null : s.blocks nullptr = none
  found : ∀ t m size f, s.pc t = .reallocReal m size f → (f = true ↔ m ≠ nullptr)
  heap : ∀ k ∈ s.repo, k.1 = 0

theorem inv_init : Inv init where
  block := fun t a => by simp [init, Pc.block]
  key := fun a => by simp [init, Keyed, Pc.stale]
  stale := fun t a ha => by cases ha
  null := rfl
  found := fun t m size f h => by cases h
  heap := fun k hk => absurd hk (AList.notMem_empty k)

/-! ### One block -/

/-- A step of a thread that changes one block only. -/
structure Moves (s s' : LeakState) (t p : ℕ) : Prop where
  pc : ∀ u, u ≠ t → s'.pc u = s.pc u
  blocks : ∀ a, a ≠ p → s'.blocks a = s.blocks a
  before : ∀ a, (s.pc t).block = some a → a = p
  after : ∀ a, (s'.pc t).block = some a ↔ a = p ∧ s'.blocks p = some (.hook t)
  other : ∀ u, u ≠ t → s.blocks p ≠ some (.hook u) ∧ s'.blocks p ≠ some (.hook u)

theorem Moves.block (hm : Moves s s' t p) (h : Inv s) (u a : ℕ) :
    (s'.pc u).block = some a ↔ s'.blocks a = some (.hook u) := by
  by_cases hu : u = t
  · subst hu
    rw [hm.after]
    by_cases ha : a = p
    · rw [ha, and_iff_right rfl]
    · rw [hm.blocks a ha, ← h.block]
      exact iff_of_false (fun hc => ha hc.1) fun hc => ha (hm.before a hc)
  · rw [hm.pc u hu, h.block]
    by_cases ha : a = p
    · rw [ha]
      exact iff_of_false (hm.other u hu).1 (hm.other u hu).2
    · rw [hm.blocks a ha]

/-- The other blocks stay in the repository, or outside of it. -/
theorem Moves.keyed (hm : Moves s s' t p) (h : Inv s) {a : ℕ} (ha : a ≠ p) :
    s'.Keyed a ↔ s.Keyed a := by
  refine keyed_congr (hm.blocks a ha) fun u hb => ?_
  have hu : u ≠ t := by
    rintro rfl
    exact ha (hm.before a ((h.block u a).2 hb))
  rw [hm.pc u hu]

theorem Moves.stale (hm : Moves s s' t p)
    (hstale : ∀ a, a ≠ p → ((s'.pc t).stale = some a ↔ (s.pc t).stale = some a)) {a : ℕ}
    (ha : a ≠ p) (u : ℕ) : (s'.pc u).stale = some a ↔ (s.pc u).stale = some a := by
  by_cases hu : u = t
  · rw [hu]
    exact hstale a ha
  · rw [hm.pc u hu]

/-- **A step that changes one block** keeps the invariant if it is right about this block. -/
theorem Inv.move (h : Inv s) (hm : Moves s s' t p)
    (hstale : ∀ a, a ≠ p → ((s'.pc t).stale = some a ↔ (s.pc t).stale = some a))
    (hrepo : ∀ k, k ≠ (0, p) → (k ∈ s'.repo ↔ k ∈ s.repo))
    (hkey : (0, p) ∈ s'.repo ↔ s'.Keyed p ∨ ∃ u, (s'.pc u).stale = some p)
    (hkeyed : ∀ u, (s'.pc u).stale = some p →
      ¬ s'.Keyed p ∧ ∀ v, (s'.pc v).stale = some p → u = v)
    (hnull : s'.blocks nullptr = none)
    (hfound : ∀ m size f, s'.pc t = .reallocReal m size f → (f = true ↔ m ≠ nullptr)) :
    Inv s' where
  block := hm.block h
  key := fun a => by
    by_cases ha : a = p
    · rw [ha]
      exact hkey
    · rw [hrepo _ (fun hc => ha (Prod.mk.inj hc).2), h.key, hm.keyed h ha]
      simp only [hm.stale hstale ha]
  stale := fun u a hu => by
    by_cases ha : a = p
    · rw [ha] at hu ⊢
      exact hkeyed u hu
    · simp only [hm.stale hstale ha] at hu ⊢
      rw [hm.keyed h ha]
      exact h.stale u a hu
  null := hnull
  found := fun u m size f hu => by
    by_cases hut : u = t
    · exact hfound m size f (hut ▸ hu)
    · exact h.found u m size f (hm.pc u hut ▸ hu)
  heap := fun k hk => by
    by_cases hkp : k = (0, p)
    · rw [hkp]
    · exact h.heap k ((hrepo k hkp).1 hk)

/-- A step that leaves the repository alone, and its block in or outside of it. -/
theorem Inv.move_same (h : Inv s) (hm : Moves s s' t p)
    (hstale : (s'.pc t).stale = (s.pc t).stale) (hrepo : s'.repo = s.repo)
    (hkeyed : s'.Keyed p ↔ s.Keyed p) (hnull : s'.blocks nullptr = none)
    (hfound : ∀ m size f, s'.pc t = .reallocReal m size f → (f = true ↔ m ≠ nullptr)) :
    Inv s' := by
  have hstale' : ∀ u a, (s'.pc u).stale = some a ↔ (s.pc u).stale = some a := fun u a => by
    by_cases hu : u = t
    · rw [hu, hstale]
    · rw [hm.pc u hu]
  refine h.move hm (fun a _ => hstale' t a) (fun k _ => by rw [hrepo]) ?_ ?_ hnull hfound
  · simp only [hrepo, h.key, hkeyed, hstale']
  · simp only [hkeyed, hstale']
    exact fun u hu => h.stale u p hu

/-! ### The steps of the hooks -/

theorem pc_goto (s : LeakState) (t : ℕ) (x : Pc) : (s.goto t x).pc t = x := Function.update_self ..

theorem blocks_setBlock (s : LeakState) (p : ℕ) (b : Option Holder) (t : ℕ) (x : Pc) :
    ((s.setBlock p b).goto t x).blocks p = b := Function.update_self ..

/-- A thread goes on, and one block changes hands. -/
theorem moves_setBlock {b : Option Holder} (hbefore : ∀ a, (s.pc t).block = some a → a = p)
    (hafter : ∀ a, x.block = some a ↔ a = p ∧ b = some (.hook t))
    (hother : ∀ u, u ≠ t → s.blocks p ≠ some (.hook u) ∧ b ≠ some (.hook u)) :
    Moves s ((s.setBlock p b).goto t x) t p where
  pc := fun u hu => Function.update_of_ne hu _ _
  blocks := fun a ha => Function.update_of_ne ha _ _
  before := hbefore
  after := fun a => by
    rw [pc_goto, blocks_setBlock]
    exact hafter a
  other := fun u hu => by
    rw [blocks_setBlock]
    exact hother u hu

theorem Inv.null_setBlock (h : Inv s) (hp : p ≠ nullptr) (b : Option Holder) (t : ℕ) (x : Pc) :
    ((s.setBlock p b).goto t x).blocks nullptr = none :=
  (Function.update_of_ne hp.symm _ _).trans h.null

theorem Inv.ne_null (h : Inv s) {b : Holder} (hp : s.blocks p = some b) : p ≠ nullptr := by
  rintro rfl
  rw [h.null] at hp
  cases hp

/-- No block is lost or added on the way. -/
theorem Inv.keep (h : Inv s) (hbefore : ∀ a, (s.pc t).block = some a ↔ a = p ∧ p ≠ nullptr)
    (hafter : ∀ a, x.block = some a ↔ a = p ∧ p ≠ nullptr)
    (hkeyed : p ≠ nullptr → x.keyed = (s.pc t).keyed) (hstale : x.stale = (s.pc t).stale)
    (hfound : ∀ m size f, x = .reallocReal m size f → (f = true ↔ m ≠ nullptr)) :
    Inv (s.goto t x) := by
  have hsame : s.goto t x = (s.setBlock p (s.blocks p)).goto t x := by
    unfold setBlock
    rw [Function.update_eq_self]
  have hown : p ≠ nullptr ↔ s.blocks p = some (.hook t) := by
    rw [← h.block, hbefore, and_iff_right rfl]
  rw [hsame]
  have hm : Moves s ((s.setBlock p (s.blocks p)).goto t x) t p := by
    refine moves_setBlock (fun a ha => ((hbefore a).1 ha).1) (fun a => by rw [hafter, hown])
      fun u hu => ?_
    rw [and_self]
    intro hc
    have hpu := hown.1 (h.ne_null hc)
    rw [hc] at hpu
    exact hu (Holder.hook.inj (Option.some_inj.1 hpu))
  refine h.move_same hm ((congrArg _ (pc_goto _ t x)).trans hstale) rfl ?_ ?_ fun m size f hx => ?_
  · by_cases hp : p = nullptr
    · refine iff_of_false (keyed_none ?_) (keyed_none (hp ▸ h.null))
      rw [blocks_setBlock, hp, h.null]
    · have hpt := hown.1 hp
      rw [keyed_hook hpt, keyed_hook ((blocks_setBlock ..).trans hpt), pc_goto, hkeyed hp]
  · rw [← hsame]
    exact h.null
  · exact hfound m size f ((pc_goto _ t x).symm.trans hx)

/-- A block of the application is given to a hook. -/
theorem Inv.take (h : Inv s) (hidle : s.pc t = .idle) (hp : s.blocks p = some (.app t))
    (hblock : x.block = some p) (hkeyed : x.keyed = true) (hstale : x.stale = none)
    (hfound : ∀ m size f, x ≠ .reallocReal m size f) :
    Inv ((s.setBlock p (some (.hook t))).goto t x) := by
  have hm : Moves s ((s.setBlock p (some (.hook t))).goto t x) t p := by
    refine moves_setBlock (fun a ha => ?_) (fun a => by simp [hblock, eq_comm]) fun u hu => ?_
    · rw [hidle] at ha
      cases ha
    · rw [hp]
      exact ⟨by simp, by simpa using Ne.symm hu⟩
  refine h.move_same hm ?_ rfl ?_ (h.null_setBlock (h.ne_null hp) ..) fun m size f hx => ?_
  · rw [pc_goto, hstale, hidle]
    rfl
  · rw [keyed_hook (blocks_setBlock ..), pc_goto]
    exact iff_of_true hkeyed (keyed_app hp)
  · exact absurd ((pc_goto _ t x).symm.trans hx) (hfound m size f)

/-- The real allocator returns a new block. -/
theorem Inv.alloc (h : Inv s) (hfree : s.blocks p = none) (hp : p ≠ nullptr)
    (hbefore : (s.pc t).block = none) (hblock : x.block = some p) (hkeyed : x.keyed = false)
    (hstale : x.stale = (s.pc t).stale) (hfound : ∀ m size f, x ≠ .reallocReal m size f) :
    Inv ((s.setBlock p (some (.hook t))).goto t x) := by
  have hm : Moves s ((s.setBlock p (some (.hook t))).goto t x) t p := by
    refine moves_setBlock (fun a ha => ?_) (fun a => by simp [hblock, eq_comm]) fun u hu => ?_
    · rw [hbefore] at ha
      cases ha
    · rw [hfree]
      exact ⟨by simp, by simpa using Ne.symm hu⟩
  refine h.move_same hm ((congrArg _ (pc_goto _ t x)).trans hstale) rfl ?_
    (h.null_setBlock hp ..) fun m size f hx => ?_
  · rw [keyed_hook (blocks_setBlock ..), pc_goto, hkeyed]
    exact iff_of_false Bool.false_ne_true (keyed_none hfree)
  · exact absurd ((pc_goto _ t x).symm.trans hx) (hfound m size f)

/-- The block of a hook is released, and it was not in the repository any more. -/
theorem Inv.release (h : Inv s) (hp : s.blocks p = some (.hook t))
    (hkeyed : (s.pc t).keyed = false) (hblock : x.block = none) (hstale : x.stale = (s.pc t).stale)
    (hfound : ∀ m size f, x ≠ .reallocReal m size f) :
    Inv ((s.setBlock p none).goto t x) := by
  have hpc := (h.block t p).2 hp
  have hm : Moves s ((s.setBlock p none).goto t x) t p := by
    refine moves_setBlock (fun a ha => ?_) (fun a => by simp [hblock]) fun u hu => ?_
    · rw [hpc] at ha
      exact (Option.some_inj.1 ha).symm
    · rw [hp]
      exact ⟨by simpa using Ne.symm hu, by simp⟩
  refine h.move_same hm ((congrArg _ (pc_goto _ t x)).trans hstale) rfl ?_
    (h.null_setBlock (h.ne_null hp) ..) fun m size f hx => ?_
  · rw [keyed_hook hp, hkeyed]
    exact iff_of_false (keyed_none (blocks_setBlock ..)) Bool.false_ne_true
  · exact absurd ((pc_goto _ t x).symm.trans hx) (hfound m size f)

/-- The real `realloc` releases the old block, which is still in the repository. -/
theorem Inv.releaseOld (h : Inv s) {q size : ℕ} (hp : s.blocks p = some (.hook t))
    (hkeyed : (s.pc t).keyed = true) (hstale : (s.pc t).stale = none) (hq : nonNull q = none) :
    Inv ((s.setBlock p none).goto t (.reallocErase p q size)) := by
  have hpc := (h.block t p).2 hp
  have hpin : s.Keyed p := (keyed_hook hp).2 hkeyed
  have hother : ∀ u, u ≠ t → (s.pc u).stale ≠ some p := fun u _ hc => (h.stale u p hc).1 hpin
  have hm : Moves s ((s.setBlock p none).goto t (.reallocErase p q size)) t p := by
    refine moves_setBlock (fun a ha => ?_) (fun a => by simp [Pc.block, hq]) fun u hu => ?_
    · rw [hpc] at ha
      exact (Option.some_inj.1 ha).symm
    · rw [hp]
      exact ⟨by simpa using Ne.symm hu, by simp⟩
  have hown : (((s.setBlock p none).goto t (.reallocErase p q size)).pc t).stale = some p := by
    rw [pc_goto]
    rfl
  have hstales : ∀ u, (((s.setBlock p none).goto t (.reallocErase p q size)).pc u).stale = some p →
      u = t := fun u hu => by
    by_contra hne
    rw [hm.pc u hne] at hu
    exact hother u hne hu
  refine h.move hm (fun a ha => ?_) (fun _ _ => Iff.rfl) ?_ (fun u hu => ?_)
    (h.null_setBlock (h.ne_null hp) ..) fun m size f hx => ?_
  · rw [hown, hstale]
    simp [Ne.symm ha]
  · exact iff_of_true ((h.key p).2 (Or.inl hpin)) (Or.inr ⟨t, hown⟩)
  · exact ⟨keyed_none (blocks_setBlock ..), fun v hv => (hstales u hu).trans (hstales v hv).symm⟩
  · rw [pc_goto] at hx
    cases hx

/-- A block goes back to the application. -/
theorem Inv.giveBack (h : Inv s) (hp : s.blocks p = some (.hook t))
    (hkeyed : (s.pc t).keyed = true) (hstale : (s.pc t).stale = none) :
    Inv ((s.setBlock p (some (.app t))).goto t .idle) := by
  have hpc := (h.block t p).2 hp
  have hm : Moves s ((s.setBlock p (some (.app t))).goto t .idle) t p := by
    refine moves_setBlock (fun a ha => ?_) (fun a => by simp [Pc.block]) fun u hu => ?_
    · rw [hpc] at ha
      exact (Option.some_inj.1 ha).symm
    · rw [hp]
      exact ⟨by simpa using Ne.symm hu, by simp⟩
  refine h.move_same hm ?_ rfl ?_ (h.null_setBlock (h.ne_null hp) ..) fun m size f hx => ?_
  · rw [pc_goto, hstale]
    rfl
  · exact iff_of_true (keyed_app (blocks_setBlock ..)) ((keyed_hook hp).2 hkeyed)
  · rw [pc_goto] at hx
    cases hx

/-- A block is added that has no entry yet. -/
theorem Inv.add (h : Inv s) {size : ℕ} {function : ApiFunction}
    (hpc : s.pc t = .add p size function) (hnew : (0, p) ∉ s.repo) :
    Inv (({ s with repo := s.repo.add p size .malloc function }.setBlock p (some (.app t))).goto t
      .idle) := by
  have hblock : (s.pc t).block = some p := by rw [hpc]; rfl
  have hp := (h.block t p).1 hblock
  have hm : Moves s (({ s with repo := s.repo.add p size .malloc function }.setBlock p
      (some (.app t))).goto t .idle) t p := by
    obtain ⟨h₁, h₂, h₃, h₄, h₅⟩ := moves_setBlock (s := s) (t := t) (p := p) (x := .idle)
      (b := some (.app t)) (fun a ha => Option.some_inj.1 (ha.symm.trans hblock))
      (fun a => by simp [Pc.block])
      (fun u hu => by rw [hp]; exact ⟨by simpa using Ne.symm hu, by simp⟩)
    exact ⟨h₁, h₂, h₃, h₄, h₅⟩
  have hnone : ∀ u, (s.pc u).stale ≠ some p := fun u hc => hnew ((h.key p).2 (Or.inr ⟨u, hc⟩))
  refine h.move hm (fun a _ => ?_) (fun k hk => ?_) ?_ (fun u hu => ?_)
    ((Function.update_of_ne (h.ne_null hp).symm _ _).trans h.null) fun m size f hx => ?_
  · rw [pc_goto, hpc]
    rfl
  · exact (s.repo.mem_emplace _ _ _).trans (or_iff_right hk)
  · refine iff_of_true ((s.repo.mem_emplace _ _ _).2 (Or.inl rfl)) (Or.inl ?_)
    exact keyed_app (blocks_setBlock ..)
  · by_cases hut : u = t
    · rw [hut, pc_goto] at hu
      cases hu
    · rw [hm.pc u hut] at hu
      exact absurd hu (hnone u)
  · rw [pc_goto] at hx
    cases hx

/-- The hook of `free` erases its block. -/
theorem Inv.eraseBlock (h : Inv s) (hpc : s.pc t = .freeErase p) :
    Inv ({ s with repo := s.repo.erase (0, p) }.goto t (.freeReal p)) := by
  have hblock : (s.pc t).block = some p := by rw [hpc]; rfl
  have hp := (h.block t p).1 hblock
  have hin : s.Keyed p := (keyed_hook hp).2 (by rw [hpc]; rfl)
  have hnone : ∀ u, (s.pc u).stale ≠ some p := fun u hc => (h.stale u p hc).1 hin
  have hm : Moves s ({ s with repo := s.repo.erase (0, p) }.goto t (.freeReal p)) t p := by
    refine ⟨fun u hu => Function.update_of_ne hu _ _, fun _ _ => rfl,
      fun a ha => Option.some_inj.1 (ha.symm.trans hblock), fun a => ?_, fun u hu => ?_⟩
    · rw [pc_goto]
      exact nonNull_eq_some.trans (and_congr_right fun _ => iff_of_true (h.ne_null hp) hp)
    · have : s.blocks p ≠ some (.hook u) := by
        rw [hp]
        simpa using Ne.symm hu
      exact ⟨this, this⟩
  have hstale : ∀ u, (({ s with repo := s.repo.erase (0, p) }.goto t (.freeReal p)).pc u).stale ≠
      some p := fun u hc => by
    by_cases hut : u = t
    · rw [hut, pc_goto] at hc
      cases hc
    · rw [hm.pc u hut] at hc
      exact hnone u hc
  refine h.move hm (fun a _ => ?_) (fun k hk => ?_) ?_ (fun u hu => absurd hu (hstale u)) h.null
    fun m size f hx => ?_
  · rw [pc_goto, hpc]
    rfl
  · exact AList.mem_erase.trans (and_iff_right hk)
  · refine iff_of_false (fun hc => (AList.mem_erase.1 hc).1 rfl) ?_
    rintro (hc | ⟨u, hu⟩)
    · have := (keyed_hook (s := { s with repo := s.repo.erase (0, p) }.goto t (.freeReal p)) hp).1 hc
      rw [pc_goto] at this
      cases this
    · exact hstale u hu
  · rw [pc_goto] at hx
    cases hx

/-- The hook of `realloc` erases the old pointer. -/
theorem Inv.eraseOld (h : Inv s) {m q size : ℕ} (hpc : s.pc t = .reallocErase m q size)
    (hrepo : s'.repo = s.repo.erase (0, m)) (hblocks : s'.blocks = s.blocks)
    (hother : ∀ u, u ≠ t → s'.pc u = s.pc u) (hblock : (s'.pc t).block = nonNull q)
    (hkeyed : (s'.pc t).keyed = false) (hstale : (s'.pc t).stale = none)
    (hfound : ∀ m size f, s'.pc t ≠ .reallocReal m size f) : Inv s' := by
  have hold : (s.pc t).stale = some m := by rw [hpc]; rfl
  obtain ⟨hout, hunique⟩ := h.stale t m hold
  have hstales : ∀ u a, (s'.pc u).stale = some a → a ≠ m ∧ (s.pc u).stale = some a := by
    intro u a hu
    have hut : u ≠ t := by
      rintro rfl
      rw [hstale] at hu
      cases hu
    rw [hother u hut] at hu
    refine ⟨?_, hu⟩
    rintro rfl
    exact hut (hunique u hu).symm
  have hkeyed' : ∀ a, s'.Keyed a ↔ s.Keyed a := fun a => by
    refine keyed_congr (by rw [hblocks]) fun u _ => ?_
    by_cases hut : u = t
    · rw [hut, hkeyed, hpc]
      rfl
    · rw [hother u hut]
  refine ⟨fun u a => ?_, fun a => ?_, fun u a hu => ?_, ?_, fun u n size f hu => ?_, fun k hk => ?_⟩
  · rw [hblocks, ← h.block]
    by_cases hut : u = t
    · rw [hut, hblock, hpc]
      rfl
    · rw [hother u hut]
  · rw [hkeyed', hrepo, AList.mem_erase, h.key]
    by_cases ha : a = m
    · subst ha
      refine iff_of_false (fun hc => hc.1 rfl) ?_
      rintro (hc | ⟨u, hu⟩)
      · exact hout hc
      · exact (hstales u a hu).1 rfl
    · rw [and_iff_right fun hc => ha (Prod.mk.inj hc).2]
      refine or_congr_right ⟨fun ⟨u, hu⟩ => ⟨u, ?_⟩, fun ⟨u, hu⟩ => ⟨u, (hstales u a hu).2⟩⟩
      have hut : u ≠ t := by
        rintro rfl
        rw [hold] at hu
        exact ha (Option.some_inj.1 hu).symm
      rwa [hother u hut]
  · rw [hkeyed']
    obtain ⟨hka, hua⟩ := h.stale u a (hstales u a hu).2
    exact ⟨hka, fun v hv => hua v (hstales v a hv).2⟩
  · rw [hblocks]
    exact h.null
  · by_cases hut : u = t
    · exact absurd (hut ▸ hu) (hfound n size f)
    · exact h.found u n size f (hother u hut ▸ hu)
  · rw [hrepo, AList.mem_erase] at hk
    exact h.heap k hk.2

/-- A block is handed to another thread. -/
theorem Inv.give (h : Inv s) {t' : ℕ} (hp : s.blocks p = some (.app t)) :
    Inv (s.setBlock p (some (.app t'))) := by
  have hne := h.ne_null hp
  have hother : ∀ a, a ≠ p → (s.setBlock p (some (.app t'))).blocks a = s.blocks a :=
    fun a ha => Function.update_of_ne ha _ _
  have hself : (s.setBlock p (some (.app t'))).blocks p = some (.app t') := Function.update_self ..
  have hkeyed : ∀ a, (s.setBlock p (some (.app t'))).Keyed a ↔ s.Keyed a := fun a => by
    by_cases ha : a = p
    · rw [ha]
      exact iff_of_true (keyed_app hself) (keyed_app hp)
    · exact keyed_congr (hother a ha) fun _ _ => rfl
  refine ⟨fun u a => ?_, fun a => ?_, fun u a hu => ?_, ?_, h.found, h.heap⟩
  · by_cases ha : a = p
    · rw [ha, hself]
      refine iff_of_false (fun hc => ?_) (by simp)
      cases hp.symm.trans ((h.block u p).1 hc)
    · rw [hother a ha]
      exact h.block u a
  · rw [hkeyed]
    exact h.key a
  · rw [hkeyed]
    exact h.stale u a hu
  · rw [hother _ hne.symm]
    exact h.null

/-! ### Runs -/

/-- A block that is added has no entry yet: `add` asserts this. -/
def AddsNew (s : LeakState) : LeakCall → Prop
  | .next t _ => ∀ p, (s.pc t).added = some p → (0, p) ∉ s.repo
  | _ => True

instance (s : LeakState) : ∀ c, Decidable (AddsNew s c)
  | .next _ _ => Runs.decidableForallEqSome _ _
  | .call _ _ | .give _ _ _ => isTrue trivial

/-- What a lookup does. -/
theorem lookup_eq {block : ℕ} {function : ApiFunction} {pc : Bool → Pc}
    (hl : s.lookup o t block function pc = some s') :
    ∃ found log, (found = true ↔ (0, block) ∈ s.repo) ∧
      s' = { s with log := log }.goto t (pc found) := by
  have hfound := logOrAbort_found s.repo t block .malloc function
  unfold lookup at hl
  split at hl
  · rename_i found r hcheck
    rw [hcheck] at hfound
    obtain ⟨log, -, rfl⟩ := Option.map_eq_some_iff.1 hl
    exact ⟨found, log, hfound, rfl⟩
  · rename_i found hcheck
    rw [hcheck] at hfound
    cases hl
    exact ⟨found, s.log, hfound, rfl⟩

theorem Inv.setLog (h : Inv s) (log : List Report) : Inv { s with log := log } :=
  ⟨h.block, h.key, h.stale, h.null, h.found, h.heap⟩

/-- The block of a lookup is found. -/
theorem Inv.lookup {block : ℕ} {function : ApiFunction} {pc : Bool → Pc} (h : Inv s)
    (hblock : (s.pc t).block = some block) (hkeyed : (s.pc t).keyed = true)
    (hstale : (s.pc t).stale = none) (hpc : (pc true).block = nonNull block)
    (hpc' : (pc true).keyed = true) (hpc'' : (pc true).stale = none)
    (hfound : ∀ m size f, pc true = .reallocReal m size f → (f = true ↔ m ≠ nullptr))
    (hl : s.lookup o t block function pc = some s') : Inv s' := by
  obtain ⟨found, log, hiff, rfl⟩ := lookup_eq hl
  have hp := (h.block t block).1 hblock
  obtain rfl := hiff.2 ((h.key block).2 (Or.inl ((keyed_hook hp).2 hkeyed)))
  have hne := h.ne_null hp
  refine (h.setLog log).keep (p := block) (fun a => ?_) (fun a => ?_) (fun _ => ?_) ?_ hfound
  · show (s.pc t).block = some a ↔ _
    rw [hblock, Option.some_inj, eq_comm]
    exact (and_iff_left hne).symm
  · rw [hpc, nonNull_eq_some]
  · exact hpc'.trans hkeyed.symm
  · exact hpc''.trans hstale.symm

/-- A hook that works on no block goes on without one. -/
theorem Inv.goOn (h : Inv s) {x : Pc} (hblock : (s.pc t).block = none)
    (hstale : (s.pc t).stale = none) (hblock' : x.block = none) (hstale' : x.stale = none)
    (hfound : ∀ m size f, x = .reallocReal m size f → (f = true ↔ m ≠ nullptr)) :
    Inv (s.goto t x) := by
  refine h.keep (p := nullptr) (fun a => ?_) (fun a => ?_) (fun hc => absurd rfl hc) ?_ hfound
  · rw [hblock]
    simp
  · rw [hblock']
    simp
  · rw [hstale, hstale']

/-- The real allocator returns a block to a hook that works on none. -/
theorem Inv.allocated (h : Inv s) {x : Pc} (hblock : (s.pc t).block = none)
    (hstale : x.stale = (s.pc t).stale) (hblock' : x.block = some p) (hkeyed : x.keyed = false)
    (hfound : ∀ m size f, x ≠ .reallocReal m size f) (hp : p ≠ nullptr)
    (ha : s.alloc t p x = some s') : Inv s' := by
  unfold LeakState.alloc at ha
  split_ifs at ha with hfree
  cases ha
  exact h.alloc hfree hp hblock hblock' hkeyed hstale hfound

/-- **Every call of a hook** keeps the invariant. -/
theorem inv_call {c : HookCall} (h : Inv s) (hidle : s.pc t = .idle)
    (hc : s.call t c = some s') : Inv s' := by
  have hblock : (s.pc t).block = none := by rw [hidle]; rfl
  have hstale : (s.pc t).stale = none := by rw [hidle]; rfl
  cases c with
  | malloc size =>
    cases hc
    exact h.goOn hblock hstale rfl rfl nofun
  | realloc memblock size =>
    simp only [call] at hc
    split_ifs at hc with hnull
    · cases hc
      refine h.goOn hblock hstale rfl rfl fun m size f hc => ?_
      cases hc
      exact iff_of_false Bool.false_ne_true fun hc => hc rfl
    · unfold LeakState.take at hc
      split_ifs at hc with hp
      cases hc
      exact h.take hidle hp rfl rfl rfl nofun
  | free pUser =>
    simp only [call] at hc
    split_ifs at hc with hnull
    · cases hc
      exact h.goOn hblock hstale rfl rfl nofun
    · unfold LeakState.take at hc
      split_ifs at hc with hp
      cases hc
      exact h.take hidle hp rfl rfl rfl nofun

/-- The real `realloc` of no block. -/
theorem inv_reallocNull {size result : ℕ} {found : Bool} (h : Inv s)
    (hpc : s.pc t = .reallocReal nullptr size found) (hstep : s.next o t result = some s') :
    Inv s' := by
  obtain rfl : found = false :=
    Bool.eq_false_iff.2 fun hc => (h.found t nullptr size found hpc).1 hc rfl
  have hblock : (s.pc t).block = none := by rw [hpc]; rfl
  simp only [next, hpc, ne_eq, not_true_eq_false, false_and, if_false, if_true, Bool.false_eq_true]
    at hstep
  split_ifs at hstep with hnull
  · cases hstep
    exact h.goOn hblock (by rw [hpc]; rfl) rfl rfl fun _ _ _ hc => by cases hc
  · exact h.allocated hblock (by rw [hpc]; rfl) rfl rfl (fun _ _ _ hc => by cases hc) hnull hstep

/-- The real `realloc` of a block, which has been found. -/
theorem inv_reallocReal {m size result : ℕ} {found : Bool} (h : Inv s) (hm : m ≠ nullptr)
    (hpc : s.pc t = .reallocReal m size found) (hstep : s.next o t result = some s') : Inv s' := by
  obtain rfl : found = true := (h.found t m size found hpc).2 hm
  have hp : s.blocks m = some (.hook t) := by
    refine (h.block t m).1 ?_
    rw [hpc]
    exact nonNull_eq_some.2 ⟨rfl, hm⟩
  have hold : Inv ((s.setBlock m none).goto t (.reallocErase m nullptr size)) :=
    h.releaseOld hp (by rw [hpc]; rfl) (by rw [hpc]; rfl) rfl
  simp only [next, hpc, hm, ne_eq, not_false_eq_true, true_and, if_false, if_true] at hstep
  split_ifs at hstep with hnull hsize
  · cases hstep
    exact hold
  · cases hstep
    exact h.giveBack hp (by rw [hpc]; rfl) (by rw [hpc]; rfl)
  · -- the old block is released and a new one is returned
    unfold LeakState.alloc at hstep
    split_ifs at hstep with hfree
    cases hstep
    have hnew := hold.alloc (t := t) (x := .reallocErase m result size) hfree hnull
      (by rw [pc_goto]; rfl) (nonNull_eq_some.2 ⟨rfl, hnull⟩) rfl (by rw [pc_goto]; rfl) nofun
    unfold goto setBlock at hnew ⊢
    dsimp only at hnew ⊢
    rwa [Function.update_idem] at hnew

/-- **Every step inside a hook** keeps the invariant, if it adds no block that has an entry. -/
theorem inv_next {result : ℕ} (h : Inv s) (hadd : AddsNew s (.next t result))
    (hstep : s.next o t result = some s') : Inv s' := by
  cases hpc : s.pc t with
  | idle =>
    unfold next at hstep
    rw [hpc] at hstep
    cases hstep
  | mallocReal size =>
    unfold next at hstep
    rw [hpc] at hstep
    dsimp only at hstep
    have hblock : (s.pc t).block = none := by rw [hpc]; rfl
    split_ifs at hstep with hnull
    · cases hstep
      exact h.goOn hblock (by rw [hpc]; rfl) rfl rfl fun _ _ _ hc => by cases hc
    · exact h.allocated hblock (by rw [hpc]; rfl) rfl rfl (fun _ _ _ hc => by cases hc) hnull hstep
  | reallocLookup m size =>
    unfold next at hstep
    rw [hpc] at hstep
    refine h.lookup (by rw [hpc]; rfl) (by rw [hpc]; rfl) (by rw [hpc]; rfl) rfl rfl rfl ?_ hstep
    intro m' size' f hc
    cases hc
    exact iff_of_true rfl (h.ne_null ((h.block t m).1 (by rw [hpc]; rfl)))
  | reallocReal m size found =>
    by_cases hm : m = nullptr
    · subst hm
      exact inv_reallocNull h hpc hstep
    · exact inv_reallocReal h hm hpc hstep
  | reallocErase m q size =>
    unfold next at hstep
    rw [hpc] at hstep
    cases hstep
    by_cases hq : q = nullptr
    · rw [if_pos hq]
      exact h.eraseOld hpc rfl rfl (fun u hu => Function.update_of_ne hu _ _)
        (by rw [pc_goto, hq]; rfl) (by rw [pc_goto]; rfl) (by rw [pc_goto]; rfl)
        (by rw [pc_goto]; exact nofun)
    · rw [if_neg hq]
      exact h.eraseOld hpc rfl rfl (fun u hu => Function.update_of_ne hu _ _)
        (by rw [pc_goto]; exact (nonNull_eq_some.2 ⟨rfl, hq⟩).symm) (by rw [pc_goto]; rfl)
        (by rw [pc_goto]; rfl) (by rw [pc_goto]; exact nofun)
  | add p size function =>
    unfold next at hstep
    rw [hpc] at hstep
    cases hstep
    exact h.add hpc (hadd p (by rw [hpc]; rfl))
  | freeLookup p =>
    unfold next at hstep
    rw [hpc] at hstep
    have hp := h.ne_null ((h.block t p).1 (by rw [hpc]; rfl))
    refine h.lookup (by rw [hpc]; rfl) (by rw [hpc]; rfl) (by rw [hpc]; rfl) ?_ rfl rfl ?_ hstep
    · exact (nonNull_eq_some.2 ⟨rfl, hp⟩).symm
    · exact fun _ _ _ hc => by cases hc
  | freeErase p =>
    unfold next at hstep
    rw [hpc] at hstep
    cases hstep
    exact h.eraseBlock hpc
  | freeReal p =>
    unfold next at hstep
    rw [hpc] at hstep
    dsimp only at hstep
    cases hstep
    split_ifs with hnull
    · exact h.goOn (by rw [hpc, hnull]; rfl) (by rw [hpc]; rfl) rfl rfl fun _ _ _ hc => by cases hc
    · have hp := (h.block t p).1 (by rw [hpc]; exact nonNull_eq_some.2 ⟨rfl, hnull⟩)
      exact h.release hp (by rw [hpc]; rfl) rfl (by rw [hpc]; rfl) nofun

/-- **Every step** keeps the invariant, if it adds no block that has an entry. -/
theorem inv_step {c : LeakCall} (h : Inv s) (hadd : AddsNew s c) (hstep : s.step o c = some s') :
    Inv s' := by
  cases c with
  | call t c =>
    simp only [step] at hstep
    split_ifs at hstep with hidle
    exact inv_call h hidle hstep
  | give t t' p =>
    simp only [step] at hstep
    split_ifs at hstep with hp
    cases hstep
    exact h.give hp
  | next t result => exact inv_next h hadd hstep

/-- Whenever no hook is in progress, the keys are the addresses of the live blocks. -/
def Tracks (s : LeakState) : Prop :=
  (∀ t, s.pc t = .idle) → ∀ k, k ∈ s.repo ↔ ∃ a, k = (0, a) ∧ s.blocks a ≠ none

theorem Inv.tracks (h : Inv s) : Tracks s := by
  intro hidle k
  have hkeyed : ∀ a, s.Keyed a ↔ s.blocks a ≠ none := fun a => by
    cases hb : s.blocks a with
    | none => exact iff_of_false (keyed_none hb) fun hc => hc rfl
    | some holder =>
      refine iff_of_true ?_ (Option.some_ne_none _)
      cases holder with
      | app t => exact keyed_app hb
      | hook t =>
        have hblock := (h.block t a).2 hb
        rw [hidle t] at hblock
        cases hblock
  have hkey : ∀ a, (0, a) ∈ s.repo ↔ s.blocks a ≠ none := fun a => by
    rw [h.key, hkeyed, or_iff_left]
    rintro ⟨t, ht⟩
    rw [hidle t] at ht
    cases ht
  constructor
  · intro hk
    have hk' : k = (0, k.2) := Prod.ext (h.heap k hk) rfl
    exact ⟨k.2, hk', (hkey k.2).1 (hk' ▸ hk)⟩
  · rintro ⟨a, rfl, ha⟩
    exact (hkey a).2 ha

end LeakState

/-- **The repository tracks the live blocks** in every run in which every block that is added has no
entry yet. -/
theorem repository_tracks (o : UserOptions) (calls : List LeakCall)
    (hadd : Runs.Steps (LeakState.step o) LeakState.AddsNew .init calls) :
    Runs.Always (LeakState.step o) LeakState.Tracks .init calls :=
  (Runs.always_of_steps LeakState.inv_init
    (fun _ _ _ h hadd hstep => LeakState.inv_step h hadd hstep) hadd).imp fun _ h => h.tracks

namespace LeakState

variable {s s' : LeakState} {o : UserOptions} {t u : ℕ}

/-- A thread in no call of a run is in no hook. -/
theorem pc_call {c : HookCall} (hu : u ≠ t) (hc : s.call t c = some s') : s'.pc u = s.pc u := by
  cases c with
  | malloc size =>
    cases hc
    exact Function.update_of_ne hu _ _
  | realloc memblock size | free pUser =>
    simp only [call, take] at hc
    split_ifs at hc <;> cases hc <;> exact Function.update_of_ne hu _ _

theorem pc_next {result : ℕ} (hu : u ≠ t) (hn : s.next o t result = some s') :
    s'.pc u = s.pc u := by
  have hother : ∀ (s₁ : LeakState) (x : Pc), s₁.pc = s.pc → (s₁.goto t x).pc u = s.pc u :=
    fun s₁ x h => (Function.update_of_ne hu _ _).trans (congrFun h u)
  unfold next at hn
  split at hn
  · cases hn
  · unfold alloc at hn
    split_ifs at hn <;> cases hn <;> exact hother _ _ rfl
  · obtain ⟨found, log, -, rfl⟩ := lookup_eq hn
    exact hother _ _ rfl
  · unfold alloc at hn
    split_ifs at hn <;> cases hn <;> exact hother _ _ rfl
  · cases hn
    exact hother _ _ rfl
  · cases hn
    exact hother _ _ rfl
  · obtain ⟨found, log, -, rfl⟩ := lookup_eq hn
    exact hother _ _ rfl
  · cases hn
    exact hother _ _ rfl
  · cases hn
    split_ifs <;> exact hother _ _ rfl

/-- The thread that makes a call. -/
def thread : LeakCall → ℕ
  | .call t _ | .next t _ | .give t _ _ => t

/-- A thread that makes no call stays in no hook. -/
theorem idle_of_not_mem {calls : List LeakCall} (hrun : Runs.run (step o) init calls = some s)
    (hu : ∀ c ∈ calls, thread c ≠ u) : s.pc u = .idle := by
  refine Runs.run_induct
    (motive := fun calls s => (∀ c ∈ calls, thread c ≠ u) → s.pc u = .idle)
    (fun _ => rfl) (fun l s₁ c s₂ _ ih hstep hu => ?_) calls s hrun hu
  have hidle := ih fun c hc => hu c (List.mem_append_left _ hc)
  have hne := hu c (by simp)
  rw [← hidle]
  cases c with
  | call t c =>
    simp only [step] at hstep
    split_ifs at hstep
    exact pc_call hne.symm hstep
  | next t result => exact pc_next hne.symm hstep
  | give t t' p =>
    simp only [step] at hstep
    split_ifs at hstep
    cases hstep
    rfl

end LeakState

/-- Thread 2 frees its block and gets another one while thread 1 enlarges its own: between the real
`realloc` and the erasure of the old pointer. -/
theorem repository_tracks_interleaved :
    Runs.Always (LeakState.step {}) LeakState.Tracks .init
      [.call 1 (.malloc 8), .call 2 (.malloc 24), .next 2 48, .next 1 16, .next 1 0, .next 2 0,
        .call 1 (.realloc 16 80), .next 1 0, .call 2 (.free 48), .next 1 32, .next 2 0, .next 2 0,
        .next 2 0, .call 2 (.malloc 40), .next 2 64, .next 1 0, .next 2 0, .next 1 0,
        .call 1 (.free 32), .next 1 0, .next 1 0, .next 1 0] := by
  refine repository_tracks {} _ ?_
  decide +kernel

/-- While thread 1 enlarges its block `16`, the allocator gives the address to thread 2, which adds
it before thread 1 erases the old pointer. -/
def reusedAddress : List LeakCall :=
  [.call 1 (.malloc 8), .next 1 16, .next 1 0, .call 1 (.realloc 16 80), .next 1 0, .next 1 32,
    .call 2 (.malloc 8), .next 2 16, .next 2 0, .next 1 0, .next 1 0]

/-- In the end the block of thread 2 is live, but not in the repository. -/
theorem repository_loses_block :
    ∃ s, Runs.run (LeakState.step {}) .init reusedAddress = some s ∧ (∀ t, s.pc t = .idle) ∧
      s.blocks 16 = some (.app 2) ∧ (0, 16) ∉ s.repo := by
  have heval : (Runs.run (LeakState.step {}) .init reusedAddress).any (fun s =>
      decide (s.pc 1 = .idle ∧ s.pc 2 = .idle ∧ s.blocks 16 = some (.app 2) ∧
        (0, 16) ∉ s.repo)) = true := by decide +kernel
  obtain ⟨s, hs, heval⟩ := (Option.any_eq_true _ _).1 heval
  obtain ⟨h₁, h₂, hlive, hout⟩ := of_decide_eq_true heval
  refine ⟨s, hs, fun t => ?_, hlive, hout⟩
  by_cases ht₁ : t = 1
  · rw [ht₁, h₁]
  by_cases ht₂ : t = 2
  · rw [ht₂, h₂]
  refine LeakState.idle_of_not_mem hs fun c hc => ?_
  simp only [reusedAddress, List.mem_cons, List.not_mem_nil, or_false] at hc
  rcases hc with rfl | rfl | rfl | rfl | rfl | rfl | rfl | rfl | rfl | rfl | rfl <;>
    simp only [LeakState.thread] <;> omega

end BugInsight

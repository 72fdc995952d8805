import BugInsight.Monitor.Invariant
import BugInsight.Monitor.Reports

/-!
# Lock-order inversions

* `deadlock_not_missed`: if the orders in which the threads of a run acquire locks contain a cycle,
  a potential deadlock was found;
* `recursive_lock_iff`: the acquisition of a lock that the thread holds already causes no edge
  exactly if the lock is the first entry of the list, or the call is skipped or refused.
-/

open Relation

namespace BugInsight

open BugInsight.Rep

variable {N : ℕ} {o : UserOptions} {dbg : Bool} {K : Set ℕ} {m m' : ℕ → Option ℕ}

/-- In a run, some thread that holds `h` and not `mu` calls `before_lock(mu)`, and the call is
neither skipped nor refused. -/
def Nested (N : ℕ) (o : UserOptions) (dbg : Bool) (calls : List Call) (h mu : ℕ) : Prop :=
  ∃ pre t e post, ∃ w : World N, calls = pre ++ .beforeLock t mu e :: post ∧
    Runs.run (World.step o dbg) (.init N) pre = some w ∧
    w.monitor.ignoreLock t = 0 ∧ (w.monitor.held t).n < N ∧
    (∃ l ∈ (w.monitor.held t).entries, l.mu = h) ∧ ∀ l ∈ (w.monitor.held t).entries, l.mu ≠ mu

theorem nested_concat {calls : List Call} {c : Call} {h mu : ℕ} {w : World N}
    (hrun : Runs.run (World.step o dbg) (.init N) calls = some w)
    (hnested : Nested N o dbg (calls ++ [c]) h mu) :
    Nested N o dbg calls h mu ∨ ∃ t e, c = .beforeLock t mu e ∧
      w.monitor.ignoreLock t = 0 ∧ (w.monitor.held t).n < N ∧
      (∃ l ∈ (w.monitor.held t).entries, l.mu = h) ∧
      ∀ l ∈ (w.monitor.held t).entries, l.mu ≠ mu := by
  obtain ⟨pre, t, e, post, w', heq, hpre, hrest⟩ := hnested
  rcases List.eq_nil_or_concat post with rfl | ⟨post', c', rfl⟩
  · obtain ⟨rfl, hc⟩ := List.append_inj' heq rfl
    cases hc
    cases hrun.symm.trans hpre
    exact Or.inr ⟨t, e, rfl, hrest⟩
  · rw [List.concat_eq_append, ← List.cons_append, ← List.append_assoc] at heq
    exact Or.inl ⟨pre, t, e, post', w', (List.append_inj' heq rfl).1, hpre, hrest⟩

namespace World

variable {w w' : World N} {c : Call}

/-- The orders of a run between the locks of `K` are edges, unless a potential deadlock was
found. -/
def OrdersKept (K : Set ℕ) (P : ℕ → ℕ → Prop) (w : World N) (m : ℕ → Option ℕ) : Prop :=
  w.monitor.potentialDeadlocksFound = true ∨
    ∀ h ∈ K, ∀ k ∈ K, P h k → LockEdge w.monitor.graph m h k

/-- A call of `before_lock` adds the edges of the orders it makes, and no call loses one. -/
theorem ordersKept_step {P P' : ℕ → ℕ → Prop} (hinv : Inv K w m) (hK : K ⊆ c.kept)
    (h : OrdersKept K P w m) (hstep : w.step o dbg c = some w')
    (hP : ∀ h k, P' h k → P h k ∨ ∃ t e, c = .beforeLock t k e ∧
      w.monitor.ignoreLock t = 0 ∧ (w.monitor.held t).n < N ∧
      (∃ l ∈ (w.monitor.held t).entries, l.mu = h) ∧
      ∀ l ∈ (w.monitor.held t).entries, l.mu ≠ k) :
    ∃ m', Inv K w' m' ∧ OrdersKept K P' w' m' := by
  rcases h with hfound | hedges
  · obtain ⟨m', hinv', -⟩ := inv_step hinv hK hstep
    exact ⟨m', hinv', Or.inl (potentialDeadlocksFound_step hstep hfound)⟩
  by_cases hc : ∃ t k e, c = .beforeLock t k e
  · obtain ⟨t, k, e, rfl⟩ := hc
    cases stepped hstep with
    | @beforeLock _ _ id _ M' _ hmu hcall =>
      obtain ⟨m', hinv', hev, hnew⟩ := inv_beforeLock hinv hmu hcall
      refine ⟨m', hinv', ?_⟩
      by_cases hfound : M'.potentialDeadlocksFound = true
      · exact Or.inl hfound
      refine Or.inr fun a ha b hb hab => ?_
      rcases hP a b hab with hab | ⟨t', e', heq, hign, hn, ⟨l, hl, rfl⟩, hne⟩
      · exact hev.edge a ha b hb (hedges a ha b hb hab)
      · cases heq
        -- the id of a lock that is not deleted is current
        have hcur := ((hinv.held t).entry l hl).2.2.current ha
        exact (hnew hign hn hne).resolve_left hfound l hl hcur
  · obtain ⟨m', hinv', hev⟩ := inv_step hinv hK hstep
    refine ⟨m', hinv', Or.inr fun a ha b hb hab => ?_⟩
    rcases hP a b hab with hab | ⟨t, e, heq, -⟩
    · exact hev.edge a ha b hb (hedges a ha b hb hab)
    · exact absurd ⟨t, b, e, heq⟩ hc

/-- After a run the orders between the locks it does not delete are edges, unless a potential
deadlock was found. -/
theorem ordersKept_run {calls : List Call}
    (hrun : Runs.run (step o dbg) (init N) calls = some w) :
    ∃ m, Inv (kept calls) w m ∧ OrdersKept (kept calls) (Nested N o dbg calls) w m := by
  suffices H : ∀ K ⊆ kept calls, ∃ m, Inv K w m ∧ OrdersKept K (Nested N o dbg calls) w m from
    H _ subset_rfl
  refine Runs.run_induct (motive := fun calls w =>
    ∀ K ⊆ kept calls, ∃ m, Inv K w m ∧ OrdersKept K (Nested N o dbg calls) w m) ?_ ?_ calls w hrun
  · refine fun K _ => ⟨_, inv_init, Or.inr ?_⟩
    rintro a - b - ⟨pre, t, e, post, w', heq, -⟩
    simp at heq
  · intro l w₁ c w₂ hl ih hstep K hK
    rw [kept_concat, Set.subset_inter_iff] at hK
    obtain ⟨m, hinv, hkept⟩ := ih K hK.1
    exact ordersKept_step hinv hK.2 hkept hstep fun a b => nested_concat hl

end World

/-- **No lock-order inversion is missed**: if the orders in which the threads of a run acquire the
locks that it does not delete contain a cycle, a potential deadlock was found. -/
theorem deadlock_not_missed (N : ℕ) (o : UserOptions) (dbg : Bool) (calls : List Call) (w : World N)
    (mu : ℕ) (hrun : Runs.run (World.step o dbg) (.init N) calls = some w)
    (hcycle : TransGen (fun h k => Nested N o dbg calls h k ∧
      h ∈ World.kept calls ∧ k ∈ World.kept calls) mu mu) :
    w.monitor.potentialDeadlocksFound = true := by
  obtain ⟨m, hinv, hfound | hedges⟩ := World.ordersKept_run hrun
  · exact hfound
  · refine absurd (TransGen.mono (fun a b hab => ?_) mu mu hcycle)
      (LockEdge.acyclic hinv.graph mu)
    exact hedges a hab.2.1 b hab.2.2 hab.1

/-- Two threads lock `16` and `32` in different orders. -/
def inversion : List Call :=
  [.beforeLock 1 16 ⟨1, [], Nat.one_pos⟩, .lockAcquired 1 16, .beforeLock 1 32 ⟨1, [], Nat.one_pos⟩,
    .lockAcquired 1 32, .afterLock 1 32, .afterLock 1 16,
    .beforeLock 2 32 ⟨1, [], Nat.one_pos⟩, .lockAcquired 2 32,
    .beforeLock 2 16 ⟨1, [], Nat.one_pos⟩]

theorem deadlock_not_missed_inversion :
    ∃ w, Runs.run (World.step {} false) (.init 20) inversion = some w ∧
      w.monitor.potentialDeadlocksFound = true := by
  obtain ⟨w, hw⟩ := Option.isSome_iff_exists.1 (show (Runs.run (World.step {} false) (.init 20)
    inversion).isSome = true by decide +kernel)
  have hkept : ∀ mu, mu ∈ World.kept inversion := by
    intro mu c hc t
    simp only [inversion, List.mem_cons, List.not_mem_nil, or_false] at hc
    rcases hc with rfl | rfl | rfl | rfl | rfl | rfl | rfl | rfl | rfl <;> exact nofun
  have h₁ : Nested 20 {} false inversion 16 32 :=
    ⟨inversion.take 2, 1, ⟨1, [], Nat.one_pos⟩, inversion.drop 3,
      (Runs.run (World.step {} false) (.init 20) (inversion.take 2)).get (by decide +kernel), rfl,
      (Option.some_get _).symm, by decide +kernel, by decide +kernel, by decide +kernel,
      by decide +kernel⟩
  have h₂ : Nested 20 {} false inversion 32 16 :=
    ⟨inversion.take 8, 2, ⟨1, [], Nat.one_pos⟩, inversion.drop 9,
      (Runs.run (World.step {} false) (.init 20) (inversion.take 8)).get (by decide +kernel), rfl,
      (Option.some_get _).symm, by decide +kernel, by decide +kernel, by decide +kernel,
      by decide +kernel⟩
  exact ⟨w, hw, deadlock_not_missed 20 {} false inversion w 16 hw
    (.tail (.single ⟨h₁, hkept 16, hkept 32⟩) ⟨h₂, hkept 32, hkept 16⟩)⟩

/-! ### Recursive acquisition -/

/-- A call reports no potential deadlock, and it neither attempts nor adds an edge. -/
structure Harmless (M M' : Monitor N) : Prop where
  potentialDeadlocksFound : M'.potentialDeadlocksFound = M.potentialDeadlocksFound
  reports : M'.log.filter Report.isDeadlock = M.log.filter Report.isDeadlock
  insertCalls : M'.insertCalls = M.insertCalls
  edge : ∀ v w, M'.graph.Edge v w ↔ M.graph.Edge v w

/-- A call of `before_lock` is skipped or refused, or the lock is the first one that its loop comes
to. -/
def LoopSkipped (M : Monitor N) (t mu : ℕ) : Prop :=
  0 < M.ignoreLock t ∨ N ≤ (M.held t).n ∨ ((M.held t).lock 0).mu = mu

/-- The loop never takes back a call of `InsertEdge`. -/
theorem checkHeld_insertCalls {t mu id : ℕ} {ls : List Lock} {M M' : Monitor N}
    (h : Monitor.checkHeld o t mu id ls M = some M') : M.insertCalls <+: M'.insertCalls := by
  induction ls generalizing M with
  | nil =>
    cases h
    exact List.prefix_rfl
  | cons l ls ih =>
    unfold Monitor.checkHeld at h
    dsimp only at h
    split_ifs at h
    · exact ih h
    · cases h
      exact List.prefix_rfl
    · exact (List.prefix_append _ _).trans (ih h)
    · obtain ⟨M₁, hM₁, rfl⟩ := Option.map_eq_some_iff.1 h
      obtain ⟨-, rfl⟩ := Monitor.report_eq_some.1 hM₁
      exact List.prefix_append _ _

/-- The loop stops at the first entry if it is for the lock, and otherwise it calls `InsertEdge`. -/
theorem checkHeld_cons {t mu id : ℕ} {l : Lock} {ls : List Lock} {M M' : Monitor N}
    (hptr : M.graph.ptr l.id ≠ nullptr)
    (h : Monitor.checkHeld o t mu id (l :: ls) M = some M') :
    l.id = id ∧ M' = M ∨ l.id ≠ id ∧ M.insertCalls.length < M'.insertCalls.length := by
  unfold Monitor.checkHeld at h
  dsimp only at h
  rw [if_neg hptr] at h
  split_ifs at h with hself hinserted
  · cases h
    exact Or.inl ⟨hself, rfl⟩
  · have hle := (checkHeld_insertCalls h).length_le
    simp only [List.length_append, List.length_singleton] at hle
    exact Or.inr ⟨hself, hle⟩
  · obtain ⟨M₁, hM₁, rfl⟩ := Option.map_eq_some_iff.1 h
    obtain ⟨-, rfl⟩ := Monitor.report_eq_some.1 hM₁
    exact Or.inr ⟨hself, by simp⟩

/-- The first entry of a list that is not empty. -/
theorem entries_eq_cons {h : SynchLocksHeld N} (hn : h.n ≠ 0) :
    ∃ ls, h.entries = h.lock 0 :: ls := by
  have hget := h.getElem?_entries (Nat.pos_of_ne_zero hn)
  cases hls : h.entries with
  | nil => rw [hls] at hget; cases hget
  | cons l ls =>
    rw [hls] at hget
    exact ⟨ls, by rw [Option.some_inj.1 hget]⟩

/-- A call of `before_lock` for a lock of the list, if all the locks of the list have nodes. -/
theorem recursive_call {e : Env} {t mu id : ℕ} {M M' : Monitor N} (hinv : Rep.Inv M.graph m)
    (hheld : EntriesInv Set.univ M.graph m (M.held t))
    (hmem : ∃ l ∈ (M.held t).entries, l.mu = mu)
    (hcall : M.dlcDeadlockCheckBeforeLock o e t mu = some (M', id)) :
    Harmless M M' ↔ LoopSkipped M t mu := by
  obtain ⟨watchdog, held, heq, -⟩ := Monitor.synchGetAllLocks_eq o t M true
  rcases Monitor.beforeLock_cases hcall with ⟨hign, -, rfl⟩ | ⟨hign, M₁, hM₁, hcases⟩
  · exact iff_of_true ⟨rfl, rfl, rfl, fun _ _ => Iff.rfl⟩ (Or.inl hign)
  rw [heq] at hM₁
  subst hM₁
  rcases hcases with ⟨hfull, -, rfl⟩ | ⟨hn, g, hg, M₂, hM₂, hcases⟩
  · refine iff_of_true ⟨rfl, ?_, rfl, fun _ _ => Iff.rfl⟩ (Or.inr (Or.inl hfull))
    simp [Report.isDeadlock]
  obtain ⟨l, hl, rfl⟩ := hmem
  have hpos : (M.held t).n ≠ 0 := fun hzero => by
    rw [(M.held t).n_eq_zero_iff.1 hzero] at hl
    cases hl
  -- the lock has a node, which `GetId` finds
  have hcur := (hheld.entry l hl).2.2.current (Set.mem_univ _)
  obtain ⟨i, hi, hid⟩ := hcur
  obtain ⟨rfl, rfl⟩ := Prod.mk.inj (Option.some_inj.1 ((getId_known hinv hi).symm.trans hg))
  rw [← hid] at hcases hM₂
  obtain ⟨ls, hls⟩ := entries_eq_cons hpos
  obtain ⟨hmu₀, -, hknown₀⟩ := hheld.entry _ (hls ▸ List.mem_cons_self)
  have hcur₀ := hknown₀.current (Set.mem_univ _)
  have hev : Evolves Set.univ M.graph m M₂.graph m := by
    rw [hM₂]
    exact updateStackTrace_evolves hinv _ _ _ _ _ _
  have hptr : M₂.graph.ptr ((M.held t).lock 0).id ≠ nullptr := by
    rw [((hev.issued _ _ hknown₀.issued).ptr hev.inv.toNodesInv).1
      (hev.current (Set.mem_univ _) hcur₀)]
    exact hmu₀
  rcases hcases with ⟨hzero, -⟩ | ⟨-, hcheck⟩
  · exact absurd hzero hpos
  rw [hls] at hcheck
  rcases checkHeld_cons hptr hcheck with ⟨hself, rfl⟩ | ⟨hself, hlt⟩
  · refine iff_of_true ⟨?_, ?_, ?_, ?_⟩ (Or.inr (Or.inr ?_))
    · rw [hM₂]
    · rw [hM₂]
    · rw [hM₂]
    · rw [hM₂]
      exact fun v w => edge_updateStackTrace ..
    · exact hknown₀.issued.eq_of_current hinv.toNodesInv (hself ▸ ⟨i, hi, hid⟩)
  · rw [hM₂] at hlt
    refine iff_of_false (fun h => hlt.ne (congrArg _ h.insertCalls.symm)) ?_
    rintro (h | h | h)
    · omega
    · omega
    · exact hself (Current.unique (h ▸ hcur₀) ⟨i, hi, hid⟩)

/-- A call of `before_lock` whose loop is skipped returns, unless the process is terminated because
the list is full. -/
theorem recursive_returns {e : Env} {t mu : ℕ} {M : Monitor N} (hinv : Rep.Inv M.graph m)
    (hheld : EntriesInv Set.univ M.graph m (M.held t))
    (hmem : ∃ l ∈ (M.held t).entries, l.mu = mu) (hskipped : LoopSkipped M t mu)
    (hcall : M.dlcDeadlockCheckBeforeLock o e t mu = none) :
    o.onError = .fail ∧ M.ignoreLock t = 0 ∧ N ≤ (M.held t).n := by
  obtain ⟨watchdog, held, heq, hsame⟩ := Monitor.synchGetAllLocks_eq o t M true
  obtain ⟨l, hl, rfl⟩ := hmem
  obtain ⟨i, hi, hid⟩ := (hheld.entry l hl).2.2.current (Set.mem_univ _)
  have hpos : (M.held t).n ≠ 0 := fun hzero => by
    rw [(M.held t).n_eq_zero_iff.1 hzero] at hl
    cases hl
  obtain ⟨ls, hls⟩ := entries_eq_cons hpos
  obtain ⟨hmu₀, -, hknown₀⟩ := hheld.entry _ (hls ▸ List.mem_cons_self)
  have hcur₀ := hknown₀.current (Set.mem_univ _)
  unfold Monitor.dlcDeadlockCheckBeforeLock at hcall
  rw [heq] at hcall
  dsimp only at hcall
  rw [(hsame t).1.n, (hsame t).1.entries, getId_known hinv hi, ← hid] at hcall
  split_ifs at hcall with hign hfull
  · refine ⟨?_, Nat.eq_zero_of_not_pos hign, hfull⟩
    by_contra hfail
    rw [Option.map_eq_none_iff] at hcall
    exact Option.some_ne_none _ ((Monitor.report_eq_some.2 ⟨hfail, rfl⟩).symm.trans hcall)
  · -- the first entry is for the lock, where the loop ends
    have hfirst : ((M.held t).lock 0).mu = l.mu :=
      (hskipped.resolve_left hign).resolve_left hfull
    have hself : ((M.held t).lock 0).id = l.id := Current.unique (hfirst ▸ hcur₀) ⟨i, hi, hid⟩
    have hev := updateStackTrace_evolves (K := Set.univ) hinv o.collectCallstacks l.id t
      (M.held t).n (held t).locks e.frames
    have hptr := ((hev.issued _ _ hknown₀.issued).ptr hev.inv.toNodesInv).1
      (hev.current (Set.mem_univ _) hcur₀)
    rw [hself, hfirst] at hptr
    rw [hfirst] at hmu₀
    simp [hls, Monitor.checkHeld, hptr, hmu₀, hself] at hcall

/-- **Recursive acquisition** in a state that is reached without deleting a lock: the call reports
no potential deadlock and leaves the edges alone exactly if it is skipped or refused or the lock is
the first entry of the list.  Such a call returns, unless the process is terminated because the
list is full. -/
theorem recursive_lock_iff (N : ℕ) (o : UserOptions) (dbg : Bool) (calls : List Call) (w : World N)
    (t mu : ℕ) (e : Env) (hrun : Runs.run (World.step o dbg) (.init N) calls = some w)
    (hkept : ∀ s p, Call.deleteLock s p ∉ calls)
    (hheld : ∃ l ∈ (w.monitor.held t).entries, l.mu = mu) :
    (∀ M' id, w.monitor.dlcDeadlockCheckBeforeLock o e t mu = some (M', id) →
        (Harmless w.monitor M' ↔ LoopSkipped w.monitor t mu)) ∧
      (LoopSkipped w.monitor t mu → w.monitor.dlcDeadlockCheckBeforeLock o e t mu = none →
        o.onError = .fail ∧ w.monitor.ignoreLock t = 0 ∧ N ≤ (w.monitor.held t).n) := by
  obtain ⟨m, hinv⟩ := World.inv_run hrun
  have huniv : World.kept calls = Set.univ :=
    Set.eq_univ_of_forall fun p c hc s heq => hkept s p (heq ▸ hc)
  rw [huniv] at hinv
  exact ⟨fun M' id => recursive_call hinv.graph (hinv.held t) hheld,
    recursive_returns hinv.graph (hinv.held t) hheld⟩

instance (M : Monitor N) (t mu : ℕ) : Decidable (LoopSkipped M t mu) :=
  inferInstanceAs (Decidable (_ ∨ _ ∨ _))

/-- A thread that holds `16` locks it again. -/
theorem recursive_lock_iff_twice :
    ∃ w M' id, Runs.run (World.step {} false) (.init 20)
        [.beforeLock 1 16 ⟨1, [], Nat.one_pos⟩, .lockAcquired 1 16] = some w ∧
      w.monitor.dlcDeadlockCheckBeforeLock {} ⟨2, [], Nat.two_pos⟩ 1 16 = some (M', id) ∧
      Harmless w.monitor M' := by
  let w := (Runs.run (World.step {} false) (.init 20)
    [.beforeLock 1 16 ⟨1, [], Nat.one_pos⟩, .lockAcquired 1 16]).get (by decide +kernel)
  let M' := (w.monitor.dlcDeadlockCheckBeforeLock {} ⟨2, [], Nat.two_pos⟩ 1 16).get
    (by decide +kernel)
  have hw : Runs.run (World.step {} false) (.init 20)
      [.beforeLock 1 16 ⟨1, [], Nat.one_pos⟩, .lockAcquired 1 16] = some w :=
    (Option.some_get _).symm
  have hcall : w.monitor.dlcDeadlockCheckBeforeLock {} ⟨2, [], Nat.two_pos⟩ 1 16 =
      some (M'.1, M'.2) := (Option.some_get _).symm
  refine ⟨w, M'.1, M'.2, hw, hcall, ?_⟩
  have hiff := (recursive_lock_iff 20 {} false _ w 1 16 ⟨2, [], Nat.two_pos⟩ hw (by simp)
    (by decide +kernel)).1 M'.1 M'.2 hcall
  exact hiff.2 (by decide +kernel)

/-- A thread locks `16`, `32` and `48` and releases `16`, so that the entry of `48` comes before
that of `32`. -/
def reordered : List Call :=
  [.beforeLock 1 16 ⟨1, [], Nat.one_pos⟩, .lockAcquired 1 16,
    .beforeLock 1 32 ⟨1, [], Nat.one_pos⟩, .lockAcquired 1 32,
    .beforeLock 1 48 ⟨1, [], Nat.one_pos⟩, .lockAcquired 1 48, .afterLock 1 16]

/-- Then locking `32` again is reported as a potential deadlock. -/
theorem recursive_lock_reported :
    ∃ w M' id, Runs.run (World.step {} false) (.init 20) reordered = some w ∧
      (∀ s p, Call.deleteLock s p ∉ reordered) ∧
      (∃ l ∈ (w.monitor.held 1).entries, l.mu = 32) ∧
      w.monitor.dlcDeadlockCheckBeforeLock {} ⟨2, [], Nat.two_pos⟩ 1 32 = some (M', id) ∧
      w.monitor.potentialDeadlocksFound = false ∧ M'.potentialDeadlocksFound = true ∧
      w.monitor.insertCalls ≠ M'.insertCalls := by
  have heval : (Runs.run (World.step {} false) (.init 20) reordered).any (fun w =>
      (w.monitor.dlcDeadlockCheckBeforeLock {} ⟨2, [], Nat.two_pos⟩ 1 32).any fun r =>
        decide ((∃ l ∈ (w.monitor.held 1).entries, l.mu = 32) ∧
          w.monitor.potentialDeadlocksFound = false ∧ r.1.potentialDeadlocksFound = true ∧
          w.monitor.insertCalls ≠ r.1.insertCalls)) = true := by decide +kernel
  obtain ⟨w, hw, heval⟩ := (Option.any_eq_true _ _).1 heval
  obtain ⟨⟨M', id⟩, hcall, heval⟩ := (Option.any_eq_true _ _).1 heval
  obtain ⟨hmem, hfacts⟩ := of_decide_eq_true heval
  exact ⟨w, M', id, hw, by simp [reordered], hmem, hcall, hfacts⟩

end BugInsight

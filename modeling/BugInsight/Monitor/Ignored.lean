import BugInsight.Monitor.Invariant
import BugInsight.Monitor.Threads

/-!
# Ignored acquisitions and releases

`buginsight/set/lock++` asks for the next acquisition of a thread to be ignored, and
`buginsight/set/unlock++` for the next release.  `before_lock` returns when such a request is
pending, and the id `0` tells the hook to record nothing.  `before_try_lock` counts the request
down and goes on.

* `step_lockAcquired_entries`: when the acquisition itself leaves the list alone;
* `ignored_acquisition`: when an acquisition with a pending request is invisible;
* `run_bracket`: an ignored pair of an acquisition and a release.
-/

namespace BugInsight

open BugInsight.Rep

variable {N : ℕ} {o : UserOptions} {dbg : Bool}

/-- The call that a hook of an acquisition makes first. -/
def Call.before (tryLock : Bool) (threadId mu : ℕ) (e : Env) : Call :=
  if tryLock then .beforeTryLock threadId mu e else .beforeLock threadId mu e

/-- An acquisition and a release with `lock++` and `unlock++`: the requests are made together, or
each one in front of the call it is for. -/
def Call.bracket (together tryLock : Bool) (threadId mu : ℕ) (e : Env) : List Call :=
  let unlocks := [Call.increaseIgnoreCounter threadId 0 1]
  .increaseIgnoreCounter threadId 1 0 :: (if together then unlocks else []) ++
    [.before tryLock threadId mu e, .lockAcquired threadId mu] ++
    (if together then [] else unlocks) ++ [.afterLock threadId mu]

namespace World

variable {w w' w₁ w₂ w₃ : World N} {t mu : ℕ} {e : Env} {tryLock : Bool} {K : Set ℕ}
  {m : ℕ → Option ℕ}

/-- Nothing is recorded: the list of the thread, its start time and the graph are the same. -/
structure NothingRecorded (w w' : World N) (t : ℕ) : Prop where
  entries : (w'.monitor.held t).entries = (w.monitor.held t).entries
  start : w'.monitor.starts t = w.monitor.starts t
  graph : w'.monitor.graph = w.monitor.graph

/-- An acquisition of the lock would leave no trace in any case: it has a node already, and the
list of the thread is full and has no entry for it. -/
structure NoRoomFor (w : World N) (t mu : ℕ) : Prop where
  known : ∃ i, w.monitor.graph.find mu = some (some i)
  full : N ≤ (w.monitor.held t).n
  absent : ∀ l ∈ (w.monitor.held t).entries, w.monitor.graph.ptr l.id ≠ mu

/-! ### The parts of an acquisition -/

/-- An acquisition is not entered into the list, if the list is full and has no entry for it. -/
theorem entries_inLock_iff (mu id : ℕ) (h : SynchLocksHeld N) :
    (updateLockHistoryInLock mu id h).entries = h.entries ↔
      N ≤ h.n ∧ ∀ l ∈ h.entries, l.id ≠ id := by
  rcases inLock_cases mu id h with ⟨hne, ⟨hn, heq⟩ | ⟨hn, heq⟩⟩ | ⟨i, l, hi, hid, heq⟩
  · refine iff_of_false (fun hc => ?_) fun hc => absurd hc.1 (not_le.2 hn)
    rw [heq, h.entries_push] at hc
    simp at hc
  · exact iff_of_true (by rw [heq]) ⟨hn.ge, hne⟩
  · refine iff_of_false (fun hc => ?_) fun hc => hc.2 l (List.mem_of_getElem? hi) hid
    rw [heq, h.entries_setLock] at hc
    have hget := congrArg (·[i]?) hc
    have hlt := (List.getElem?_eq_some_iff.1 hi).1
    simp only [List.getElem?_set_self hlt, hi] at hget
    have hcount := congrArg Lock.count (Option.some_inj.1 hget)
    dsimp only at hcount
    omega

/-- In that case the list is not touched at all. -/
theorem inLock_eq_self {mu id : ℕ} {h : SynchLocksHeld N} (hn : N ≤ h.n)
    (hne : ∀ l ∈ h.entries, l.id ≠ id) : updateLockHistoryInLock mu id h = h := by
  rcases inLock_cases mu id h with ⟨-, ⟨hlt, -⟩ | ⟨-, heq⟩⟩ | ⟨i, l, hi, hid, -⟩
  · exact absurd hn (not_le.2 hlt)
  · exact heq
  · exact absurd hid (hne l (List.mem_of_getElem? hi))

/-- The real function returns with the lock: what is recorded. -/
theorem nothingRecorded_acquire {p : Pending} :
    NothingRecorded w (w.acquire t p) t ↔
      p.id = invalidGraphId ∨
        N ≤ (w.monitor.held t).n ∧ ∀ l ∈ (w.monitor.held t).entries, l.id ≠ p.id := by
  by_cases hid : p.id = invalidGraphId
  · refine iff_of_true ?_ (Or.inl hid)
    have hmonitor : (w.acquire t p).monitor = w.monitor := monitor_acquire_refused hid
    exact ⟨by rw [hmonitor], by rw [hmonitor], by rw [hmonitor]⟩
  · have hmonitor := monitor_acquire (w := w) (t := t) hid
    have hheld := held_acquire (w := w) (t := t) hid
    rw [or_iff_right hid, ← entries_inLock_iff p.mu p.id]
    constructor
    · exact fun h => hheld ▸ h.entries
    · refine fun h => ⟨hheld.symm ▸ h, ?_, by rw [hmonitor]; rfl⟩
      rw [Monitor.starts, hheld, start_inLock]
      rfl

/-- The calls of other threads leave a thread alone. -/
theorem run_sameThread {others : List Call} (hothers : ∀ c ∈ others, c.thread ≠ some t)
    (hrun : Runs.run (step o dbg) w others = some w') : SameThread w w' t := by
  refine Runs.run_induct (motive := fun l w' => (∀ c ∈ l, c.thread ≠ some t) → SameThread w w' t)
    (fun _ => ⟨rfl, .rfl _, rfl, rfl⟩) (fun l w₁ c w₂ _ ih hstep hl => ?_) others w' hrun hothers
  have h := ih fun c hc => hl c (List.mem_append_left _ hc)
  have h' := step_sameThread hstep (hl c (by simp))
  exact ⟨h'.pending.trans h.pending, h.locks.trans h'.locks, h'.start.trans h.start,
    h'.owned.trans h.owned⟩

/-- A thread goes into the hook of an acquisition. -/
theorem before_cases (hstep : w.step o dbg (.before tryLock t mu e) = some w₁) :
    mu ≠ nullptr ∧ w.Idle t ∧ ∃ M id, w₁ = w.wait t ⟨mu, id, tryLock⟩ M ∧
      (tryLock = false ∧ w.monitor.dlcDeadlockCheckBeforeLock o e t mu = some (M, id) ∨
        tryLock = true ∧ w.monitor.dlcDeadlockCheckBeforeTryLock o e t mu = some (M, id)) := by
  cases tryLock with
  | false =>
    cases stepped hstep with
    | beforeLock hidle hmu hcall => exact ⟨hmu, hidle, _, _, rfl, Or.inl ⟨rfl, hcall⟩⟩
  | true =>
    cases stepped hstep with
    | beforeTryLock hidle hmu hcall => exact ⟨hmu, hidle, _, _, rfl, Or.inr ⟨rfl, hcall⟩⟩

/-- A request is counted down, whatever becomes of it. -/
theorem counters_before (hstep : w.step o dbg (.before tryLock t mu e) = some w₁) :
    w₁.monitor.ignoreLock = Function.update w.monitor.ignoreLock t (w.monitor.ignoreLock t - 1) ∧
      w₁.monitor.ignoreUnlock = w.monitor.ignoreUnlock := by
  obtain ⟨-, -, M, id, rfl, ⟨-, hcall⟩ | ⟨-, hcall⟩⟩ := before_cases hstep
  · exact Monitor.beforeLock_counters hcall
  · exact Monitor.beforeTryLock_counters hcall

theorem counters_acquired (hstep : w.step o dbg (.lockAcquired t mu) = some w₁) :
    w₁.monitor.ignoreLock = w.monitor.ignoreLock ∧
      w₁.monitor.ignoreUnlock = w.monitor.ignoreUnlock := by
  cases stepped hstep
  exact ⟨ignoreLock_acquire .., ignoreUnlock_acquire ..⟩

/-- `before_lock` returns when a request is pending. -/
theorem ignored_beforeLock (hign : 0 < w.monitor.ignoreLock t)
    (hstep : w.step o dbg (.before false t mu e) = some w₁) :
    w₁ = w.wait t ⟨mu, invalidGraphId, false⟩ { w.monitor with
      ignoreLock := Function.update w.monitor.ignoreLock t (w.monitor.ignoreLock t - 1) } := by
  obtain ⟨-, -, M, id, rfl, ⟨-, hcall⟩ | ⟨hc, -⟩⟩ := before_cases hstep
  · rcases Monitor.beforeLock_cases hcall with ⟨-, rfl, rfl⟩ | ⟨hzero, -⟩
    · rfl
    · exact absurd hzero hign.ne'
  · cases hc

/-- `before_try_lock` leaves the list alone, and the start time unless the list is empty; it leaves
the graph alone if the lock has a node. -/
theorem before_tryLock (hinv : Inv K w m)
    (hstep : w.step o dbg (.before true t mu e) = some w₁) :
    ∃ id, w₁.pending t = some ⟨mu, id, true⟩ ∧ id ≠ invalidGraphId ∧
      (w.monitor.held t).SameLocks (w₁.monitor.held t) ∧
      ((w.monitor.held t).n ≠ 0 → w₁.monitor.starts t = w.monitor.starts t) ∧
      (w₁.monitor.graph = w.monitor.graph ↔ ∃ i, w.monitor.graph.find mu = some (some i)) ∧
      ((∀ l ∈ (w.monitor.held t).entries, l.id ≠ id) ↔
        ∀ l ∈ (w.monitor.held t).entries, w.monitor.graph.ptr l.id ≠ mu) := by
  obtain ⟨hmu, -, M, id, rfl, ⟨hc, -⟩ | ⟨-, hcall⟩⟩ := before_cases hstep
  · cases hc
  have hg := Monitor.beforeTryLock_graph hcall
  obtain ⟨hlocks, hstart⟩ := Monitor.beforeTryLock_held hcall
  refine ⟨id, Function.update_self .., getId_ne_invalid hinv.graph hg, hlocks t, fun hn => ?_, ?_,
    ?_⟩
  · exact (hstart t).trans (if_neg fun hc => hn hc.2)
  · exact getId_same_iff hinv.graph hg
  · refine forall₂_congr fun l hl => not_congr ?_
    exact (ptr_eq_iff_getId hinv.graph hg hmu ((hinv.held t).entry l hl).2.2.issued).symm

/-- **An acquisition with a pending request is invisible**, if it blocks; if it is a try, only when
it would leave no trace without the request. -/
theorem ignored_acquisition (hN : 0 < N) (hinv : Inv K w m) (hign : 0 < w.monitor.ignoreLock t)
    (hstep : w.step o dbg (.before tryLock t mu e) = some w₁) (hsame : SameThread w₁ w₂ t)
    (hacq : w₂.step o dbg (.lockAcquired t mu) = some w₃) :
    (NothingRecorded w w₁ t ∧ NothingRecorded w₂ w₃ t ↔ (tryLock = true → NoRoomFor w t mu)) := by
  obtain ⟨p, hp, hw₃⟩ : ∃ p, w₂.pending t = some p ∧ w₃ = w₂.acquire t p := by
    cases stepped hacq with
    | lockAcquired hp => exact ⟨_, hp, rfl⟩
  rw [hw₃, nothingRecorded_acquire, hsame.locks.n, hsame.locks.entries]
  rw [hsame.pending] at hp
  cases tryLock with
  | false =>
    refine iff_of_true ?_ fun hc => by cases hc
    have heq := ignored_beforeLock hign hstep
    have hpending : w₁.pending t = some ⟨mu, invalidGraphId, false⟩ := by
      rw [heq]
      exact Function.update_self ..
    cases hp.symm.trans hpending
    rw [heq]
    exact ⟨⟨rfl, rfl, rfl⟩, Or.inl rfl⟩
  | true =>
    obtain ⟨id, hpending, hid, hlocks, hstart, hgraph, habsent⟩ := before_tryLock hinv hstep
    cases hp.symm.trans hpending
    rw [or_iff_right hid, hlocks.n, hlocks.entries, habsent]
    constructor
    · exact fun h _ => ⟨hgraph.1 h.1.graph, h.2.1, h.2.2⟩
    · intro h
      obtain ⟨hknown, hfull, habs⟩ := h rfl
      exact ⟨⟨hlocks.entries, hstart (hN.trans_le hfull).ne', hgraph.2 hknown⟩, hfull, habs⟩

/-! ### The whole state -/

/-- What is not recorded is not entered into the list either. -/
theorem acquire_monitor {p : Pending} (h : NothingRecorded w (w.acquire t p) t) :
    (w.acquire t p).monitor = w.monitor := by
  by_cases hid : p.id = invalidGraphId
  · exact monitor_acquire_refused hid
  · obtain ⟨hn, hne⟩ := (nothingRecorded_acquire.1 h).resolve_left hid
    rw [monitor_acquire hid]
    unfold Monitor.dlcDeadlockCheckInLock Monitor.setHeld
    rw [inLock_eq_self hn hne, Function.update_eq_self]

theorem active_synchGetAllLocks (M : Monitor N) :
    ((M.synchGetAllLocks o t true).held t).threadMonitorActive = true := by
  unfold Monitor.synchGetAllLocks
  split_ifs with hc
  · unfold Monitor.setHeld
    dsimp only
    rw [Function.update_self]
    rfl
  · simpa using hc

/-- A try registers the thread with the watchdog. -/
theorem active_before_tryLock (hstep : w.step o dbg (.before true t mu e) = some w₁) :
    (w₁.monitor.held t).threadMonitorActive = true := by
  obtain ⟨-, -, M, id, rfl, ⟨hc, -⟩ | ⟨-, hcall⟩⟩ := before_cases hstep
  · cases hc
  show (M.held t).threadMonitorActive = true
  obtain ⟨g, M₁, -, hM₁, hcases⟩ := Monitor.beforeTryLock_cases hcall
  have hactive : (M₁.held t).threadMonitorActive = true := hM₁ ▸ active_synchGetAllLocks _
  rcases hcases with ⟨-, rfl⟩ | ⟨-, rfl⟩
  · unfold Monitor.setHeld
    dsimp only
    rw [Function.update_self]
    exact hactive
  · exact hactive

/-- A try of a thread that is registered and holds locks changes the counter, if the lock has a
node. -/
theorem monitor_before_tryLock (hinv : Inv K w m)
    (hknown : ∃ i, w.monitor.graph.find mu = some (some i)) (hn : (w.monitor.held t).n ≠ 0)
    (hactive : (w.monitor.held t).threadMonitorActive = true)
    (hstep : w.step o dbg (.before true t mu e) = some w₁) :
    w₁.monitor = { w.monitor with
      ignoreLock := Function.update w.monitor.ignoreLock t (w.monitor.ignoreLock t - 1) } := by
  obtain ⟨-, -, M, id, rfl, ⟨hc, -⟩ | ⟨-, hcall⟩⟩ := before_cases hstep
  · cases hc
  obtain ⟨g, M₁, hg, hM₁, ⟨hzero, -⟩ | ⟨-, rfl⟩⟩ := Monitor.beforeTryLock_cases hcall
  · exact absurd hzero hn
  rw [(getId_same_iff hinv.graph hg).2 hknown] at hM₁
  unfold Monitor.synchGetAllLocks at hM₁
  rw [if_neg (by simp [hactive])] at hM₁
  exact hM₁

/-- **The state after an ignored acquisition** differs in the counter only: a blocking one always
leaves it so, a try if it would leave no trace and the thread is registered with the watchdog. -/
theorem ignored_monitor (hN : 0 < N) (hinv : Inv K w m) (hign : 0 < w.monitor.ignoreLock t)
    (hstep : w.step o dbg (.before tryLock t mu e) = some w₁)
    (hacq : w₁.step o dbg (.lockAcquired t mu) = some w₃) :
    w₃.monitor = { w.monitor with
        ignoreLock := Function.update w.monitor.ignoreLock t (w.monitor.ignoreLock t - 1) } ↔
      (tryLock = true → NoRoomFor w t mu ∧ (w.monitor.held t).threadMonitorActive = true) := by
  have hsame : SameThread w₁ w₁ t := ⟨rfl, .rfl _, rfl, rfl⟩
  have hiff := ignored_acquisition hN hinv hign hstep hsame hacq
  obtain ⟨p, rfl⟩ : ∃ p, w₃ = w₁.acquire t p := by
    cases stepped hacq with
    | lockAcquired hp => exact ⟨_, rfl⟩
  constructor
  · rintro heq rfl
    obtain ⟨id, -, -, hlocks, -, -, -⟩ := before_tryLock hinv hstep
    -- the acquisition keeps the graph and the start time of the state before it
    have hgraph := graph_acquire w₁ t p
    have hstart : (w₁.acquire t p).monitor.starts t = w₁.monitor.starts t := by
      by_cases hid : p.id = invalidGraphId
      · rw [monitor_acquire_refused hid]
      · rw [Monitor.starts, held_acquire hid, start_inLock]
        rfl
    have hentries : ((w₁.acquire t p).monitor.held t).entries = (w.monitor.held t).entries := by
      rw [heq]
    have hrec : NothingRecorded w₁ (w₁.acquire t p) t :=
      ⟨hentries.trans hlocks.entries.symm, hstart, hgraph⟩
    have hbefore : NothingRecorded w w₁ t := by
      refine ⟨hlocks.entries, ?_, ?_⟩
      · rw [← hstart, heq]
        rfl
      · rw [← hgraph, heq]
    refine ⟨hiff.1 ⟨hbefore, hrec⟩ rfl, ?_⟩
    have hactive := active_before_tryLock hstep
    rw [← acquire_monitor hrec, heq] at hactive
    exact hactive
  · intro h
    obtain ⟨-, hrec⟩ := hiff.2 fun htry => (h htry).1
    rw [acquire_monitor hrec]
    cases tryLock with
    | false =>
      rw [ignored_beforeLock hign hstep]
      rfl
    | true =>
      obtain ⟨hroom, hactive⟩ := h rfl
      exact monitor_before_tryLock hinv hroom.known (hN.trans_le hroom.full).ne' hactive hstep

/-! ### An ignored pair -/

/-- A counter that a request was added to. -/
def counted (f : ℕ → ℕ) (t : ℕ) : ℕ → ℕ := Function.update f t ((f t + 1) % 2 ^ 32)

theorem counted_pred_iff (f : ℕ → ℕ) (t : ℕ) :
    Function.update (counted f t) t (counted f t t - 1) = f ↔ f t + 1 < 2 ^ 32 := by
  unfold counted
  rw [Function.update_self, Function.update_idem]
  constructor
  · intro h
    have ht := congrFun h t
    rw [Function.update_self] at ht
    omega
  · intro h
    rw [Nat.mod_eq_of_lt h, Nat.add_sub_cancel, Function.update_eq_self]

/-- The counters of a thread are 32-bit numbers. -/
def CountersLt (w : World N) (t : ℕ) : Prop :=
  w.monitor.ignoreLock t < 2 ^ 32 ∧ w.monitor.ignoreUnlock t < 2 ^ 32

theorem countersLt_step {c : Call} (h : CountersLt w t) (hstep : w.step o dbg c = some w') :
    CountersLt w' t := by
  unfold CountersLt at *
  by_cases ht : c.thread = some t
  · cases stepped hstep with
    | beforeLock _ _ hcall =>
      cases ht
      obtain ⟨hlock, hunlock⟩ := Monitor.beforeLock_counters hcall
      unfold wait
      rw [hlock, hunlock, Function.update_self]
      omega
    | beforeTryLock _ _ hcall =>
      cases ht
      obtain ⟨hlock, hunlock⟩ := Monitor.beforeTryLock_counters hcall
      unfold wait
      rw [hlock, hunlock, Function.update_self]
      omega
    | @lockAcquired s p hp =>
      rw [ignoreLock_acquire, ignoreUnlock_acquire]
      exact h
    | lockFailed =>
      rw [ignoreLock_enter, ignoreUnlock_enter]
      exact h
    | afterLock _ _ hcall =>
      cases ht
      obtain ⟨hlock, hunlock⟩ := Monitor.afterLock_counters hcall
      unfold own
      rw [hlock, hunlock, Function.update_self]
      omega
    | increaseIgnoreCounter =>
      cases ht
      unfold Monitor.increaseIgnoreCounter
      dsimp only
      rw [Function.update_self, Function.update_self]
      exact ⟨Nat.mod_lt _ (by decide), Nat.mod_lt _ (by decide)⟩
    | threadExit =>
      cases ht
      unfold Monitor.onThreadDelete
      dsimp only
      rw [Function.update_self, Function.update_self]
      exact ⟨Nat.two_pow_pos 32, Nat.two_pow_pos 32⟩
    | tryLockFailed | cndWait => exact h
    | deleteLock | timerExpired | watchdogScan | callbackEnd => cases ht
  · rw [(step_counters hstep ht).1, (step_counters hstep ht).2]
    exact h

theorem countersLt_run {calls : List Call}
    (hrun : Runs.run (step o dbg) (init N) calls = some w) (t : ℕ) : CountersLt w t :=
  Runs.run_induct (motive := fun _ w => CountersLt w t) ⟨Nat.two_pow_pos 32, Nat.two_pow_pos 32⟩
    (fun _ _ _ _ _ ih hstep => countersLt_step ih hstep) calls w hrun

/-- `lock++` and `unlock++`. -/
theorem step_request {locks unlocks : ℕ}
    (hstep : w.step o dbg (.increaseIgnoreCounter t locks unlocks) = some w') :
    w' = { w with monitor := w.monitor.increaseIgnoreCounter t locks unlocks } := by
  cases stepped hstep
  rfl

theorem update_mod {f : ℕ → ℕ} (h : f t < 2 ^ 32) :
    Function.update f t ((f t + 0) % 2 ^ 32) = f := by
  rw [Nat.add_zero, Nat.mod_eq_of_lt h, Function.update_eq_self]

theorem request_lock {M : Monitor N} (h : M.ignoreUnlock t < 2 ^ 32) :
    M.increaseIgnoreCounter t 1 0 = { M with ignoreLock := counted M.ignoreLock t } := by
  unfold Monitor.increaseIgnoreCounter
  rw [update_mod h]
  rfl

theorem request_unlock {M : Monitor N} (h : M.ignoreLock t < 2 ^ 32) :
    M.increaseIgnoreCounter t 0 1 = { M with ignoreUnlock := counted M.ignoreUnlock t } := by
  unfold Monitor.increaseIgnoreCounter
  rw [update_mod h]
  rfl

theorem counted_lt (f : ℕ → ℕ) (t : ℕ) : counted f t t < 2 ^ 32 := by
  unfold counted
  rw [Function.update_self]
  exact Nat.mod_lt _ (by decide)

/-- An acquisition and a release, with the two requests in front of them. -/
theorem bracket_parts {together : Bool} (hlt : CountersLt w t)
    (hrun : Runs.run (step o dbg) w (Call.bracket together tryLock t mu e) = some w') :
    ∃ (unlocks : ℕ → ℕ) (wb w₁ w₃ w₄ : World N),
      wb.monitor = { w.monitor with
        ignoreLock := counted w.monitor.ignoreLock t, ignoreUnlock := unlocks } ∧
      wb.pending = w.pending ∧
      wb.step o dbg (.before tryLock t mu e) = some w₁ ∧
      w₁.step o dbg (.lockAcquired t mu) = some w₃ ∧
      w₄.monitor = { w₃.monitor with ignoreUnlock := counted w.monitor.ignoreUnlock t } ∧
      w₄.step o dbg (.afterLock t mu) = some w' := by
  obtain ⟨hl, hu⟩ := hlt
  have hpairs : ∀ {l : List Call} {c : Call} {s s' : World N},
      Runs.run (step o dbg) s (c :: l) = some s' →
        ∃ s₁, s.step o dbg c = some s₁ ∧ Runs.run (step o dbg) s₁ l = some s' := fun h =>
    Option.bind_eq_some_iff.1 (Runs.run_cons.symm.trans h)
  cases together with
  | true =>
    obtain ⟨wa, ha, hrun⟩ := hpairs hrun
    obtain ⟨wb, hb, hrun⟩ := hpairs hrun
    obtain ⟨w₁, h₁, hrun⟩ := hpairs hrun
    obtain ⟨w₃, h₃, hrun⟩ := hpairs hrun
    obtain ⟨w₄, h₄, hrun⟩ := hpairs hrun
    cases hrun
    have hwb : wb.monitor = { w.monitor with
        ignoreLock := counted w.monitor.ignoreLock t
        ignoreUnlock := counted w.monitor.ignoreUnlock t } := by
      rw [step_request hb, step_request ha]
      dsimp only
      rw [request_lock hu, request_unlock (counted_lt _ t)]
    have hunlock : w₃.monitor.ignoreUnlock = counted w.monitor.ignoreUnlock t := by
      rw [(counters_acquired h₃).2, (counters_before h₁).2, hwb]
    refine ⟨_, wb, w₁, w₃, w₃, hwb, ?_, h₁, h₃, by rw [← hunlock], h₄⟩
    rw [step_request hb, step_request ha]
  | false =>
    obtain ⟨wb, hb, hrun⟩ := hpairs hrun
    obtain ⟨w₁, h₁, hrun⟩ := hpairs hrun
    obtain ⟨w₃, h₃, hrun⟩ := hpairs hrun
    obtain ⟨w₄, h₄, hrun⟩ := hpairs hrun
    obtain ⟨w₅, h₅, hrun⟩ := hpairs hrun
    cases hrun
    have hwb : wb.monitor = { w.monitor with
        ignoreLock := counted w.monitor.ignoreLock t
        ignoreUnlock := w.monitor.ignoreUnlock } := by
      rw [step_request hb]
      exact request_lock hu
    have hunlock : w₃.monitor.ignoreUnlock = w.monitor.ignoreUnlock := by
      rw [(counters_acquired h₃).2, (counters_before h₁).2, hwb]
    have hlock : w₃.monitor.ignoreLock t < 2 ^ 32 := by
      have := counted_lt w.monitor.ignoreLock t
      rw [(counters_acquired h₃).1, (counters_before h₁).1, hwb, Function.update_self]
      exact (Nat.sub_le _ _).trans_lt this
    refine ⟨_, wb, w₁, w₃, w₄, hwb, by rw [step_request hb], h₁, h₃, ?_, h₅⟩
    rw [step_request h₄]
    dsimp only
    rw [request_unlock hlock, hunlock]

/-- **An ignored pair of an acquisition and a release** leaves the monitor as it was, if there is
room for the requests and a try would have left no trace. -/
theorem run_bracket (hN : 0 < N) (hinv : Inv K w m) (hlt : CountersLt w t) {together : Bool}
    (hrun : Runs.run (step o dbg) w (Call.bracket together tryLock t mu e) = some w') :
    w'.monitor = w.monitor ↔
      w.monitor.ignoreLock t + 1 < 2 ^ 32 ∧ w.monitor.ignoreUnlock t + 1 < 2 ^ 32 ∧
        (tryLock = true →
          NoRoomFor w t mu ∧ (w.monitor.held t).threadMonitorActive = true) := by
  obtain ⟨unlocks, wb, w₁, w₃, w₄, hwb, hpending, h₁, h₃, hw₄, h₅⟩ := bracket_parts hlt hrun
  obtain ⟨M, hM, rfl⟩ : ∃ M, w₄.monitor.dlcDeadlockCheckAfterLock o t mu = some M ∧
      w' = { w₄ with monitor := M }.own t mu (· - 1) := by
    cases stepped h₅ with
    | afterLock _ _ hcall => exact ⟨_, hcall, rfl⟩
  show M = w.monitor ↔ _
  obtain ⟨hMlock, hMunlock⟩ := Monitor.afterLock_counters hM
  have hw₃unlock : w₃.monitor.ignoreUnlock = unlocks := by
    rw [(counters_acquired h₃).2, (counters_before h₁).2, hwb]
  have hw₃lock : w₃.monitor.ignoreLock = Function.update (counted w.monitor.ignoreLock t) t
      (counted w.monitor.ignoreLock t t - 1) := by
    rw [(counters_acquired h₃).1, (counters_before h₁).1, hwb]
  rw [hw₄] at hMlock hMunlock
  have hroom : w.monitor.ignoreLock t + 1 < 2 ^ 32 → w.monitor.ignoreUnlock t + 1 < 2 ^ 32 →
      (M = w.monitor ↔ (tryLock = true →
        NoRoomFor w t mu ∧ (w.monitor.held t).threadMonitorActive = true)) := by
    intro hl hu
    have hgraph : wb.monitor.graph = w.monitor.graph := by rw [hwb]
    obtain ⟨m', hinv', -⟩ := hinv.of_same_graph hgraph (fun s => by rw [hwb])
      fun s p hp => hpending ▸ hp
    have hcount : ∀ (f : ℕ → ℕ), f t + 1 < 2 ^ 32 → counted f t t = f t + 1 := fun f hf => by
      unfold counted
      rw [Function.update_self, Nat.mod_eq_of_lt hf]
    have hignored := ignored_monitor hN hinv' (by
      rw [hwb]
      show 0 < counted w.monitor.ignoreLock t t
      rw [hcount _ hl]
      exact Nat.succ_pos _) h₁ h₃
    have hM' : M = { w₃.monitor with ignoreUnlock := w.monitor.ignoreUnlock } := by
      rcases Monitor.afterLock_eq hM with ⟨-, heq⟩ | ⟨hzero, -⟩
      · rw [heq, hw₄]
        dsimp only
        rw [(counted_pred_iff _ t).2 hu]
      · rw [hw₄] at hzero
        dsimp only at hzero
        rw [hcount _ hu] at hzero
        cases hzero
    have hroomFor : NoRoomFor wb t mu ↔ NoRoomFor w t mu := by
      constructor
      · exact fun h => ⟨by have := h.known; rwa [hwb] at this,
          by have := h.full; rwa [hwb] at this, by have := h.absent; rwa [hwb] at this⟩
      · exact fun h => ⟨by rw [hwb]; exact h.known, by rw [hwb]; exact h.full,
          by rw [hwb]; exact h.absent⟩
    have hactive : (wb.monitor.held t).threadMonitorActive =
        (w.monitor.held t).threadMonitorActive := by rw [hwb]
    rw [← hroomFor, ← hactive, ← hignored, hM', hwb]
    dsimp only
    rw [(counted_pred_iff _ t).2 hl]
    constructor
    · intro h
      calc w₃.monitor
          = { ({ w₃.monitor with ignoreUnlock := w.monitor.ignoreUnlock } : Monitor N) with
              ignoreUnlock := unlocks } := by rw [← hw₃unlock]
        _ = { w.monitor with ignoreUnlock := unlocks } := by rw [h]
    · intro h
      rw [h]
  constructor
  · intro h
    have hl : w.monitor.ignoreLock t + 1 < 2 ^ 32 := by
      rw [← counted_pred_iff, ← hw₃lock, ← hMlock, h]
    have hu : w.monitor.ignoreUnlock t + 1 < 2 ^ 32 := by
      rw [← counted_pred_iff, ← hMunlock, h]
    exact ⟨hl, hu, (hroom hl hu).1 h⟩
  · rintro ⟨hl, hu, h⟩
    exact (hroom hl hu).2 h

theorem run_counters {others : List Call} (hothers : ∀ c ∈ others, c.thread ≠ some t)
    (hrun : Runs.run (step o dbg) w others = some w') :
    w'.monitor.ignoreLock t = w.monitor.ignoreLock t := by
  refine Runs.run_induct (motive := fun l w' => (∀ c ∈ l, c.thread ≠ some t) →
      w'.monitor.ignoreLock t = w.monitor.ignoreLock t)
    (fun _ => rfl) (fun l w₁ c w₂ _ ih hstep hl => ?_) others w' hrun hothers
  rw [(step_counters hstep (hl c (by simp))).1]
  exact ih fun c hc => hl c (List.mem_append_left _ hc)

end World

/-- **`lock++` makes the next acquisition invisible** if it blocks, and a try only if nothing would
be recorded without the request either; `unlock++` makes the next release invisible.  Hence a pair
of an acquisition and a release with the two requests restores the monitor if it blocks and the
counters have room. -/
theorem ignored_calls (hN : 0 < N) (o : UserOptions) (dbg : Bool) (calls : List Call) (w : World N)
    (hrun : Runs.run (World.step o dbg) (.init N) calls = some w) (t : ℕ) :
    (∀ tryLock mu e w₁ others w₂ w₃, 0 < w.monitor.ignoreLock t →
      w.step o dbg (.before tryLock t mu e) = some w₁ → (∀ c ∈ others, c.thread ≠ some t) →
      Runs.run (World.step o dbg) w₁ others = some w₂ →
      w₂.step o dbg (.lockAcquired t mu) = some w₃ →
      (World.NothingRecorded w w₁ t ∧ World.NothingRecorded w₂ w₃ t ∧
          w₃.monitor.ignoreLock t = w.monitor.ignoreLock t - 1 ↔
        (tryLock = true → World.NoRoomFor w t mu))) ∧
    (∀ mu w', 0 < w.monitor.ignoreUnlock t → w.step o dbg (.afterLock t mu) = some w' →
      w'.monitor = { w.monitor with
        ignoreUnlock :=
          Function.update w.monitor.ignoreUnlock t (w.monitor.ignoreUnlock t - 1) }) ∧
    ∀ together tryLock mu e w',
      Runs.run (World.step o dbg) w (Call.bracket together tryLock t mu e) = some w' →
      (w'.monitor = w.monitor ↔
        w.monitor.ignoreLock t + 1 < 2 ^ 32 ∧ w.monitor.ignoreUnlock t + 1 < 2 ^ 32 ∧
          (tryLock = true →
            World.NoRoomFor w t mu ∧ (w.monitor.held t).threadMonitorActive = true)) := by
  obtain ⟨m, hinv⟩ := World.inv_run hrun
  refine ⟨fun tryLock mu e w₁ others w₂ w₃ hign h₁ hothers h₂ h₃ => ?_, fun mu w' hign h => ?_,
    fun together tryLock mu e w' h => World.run_bracket hN hinv (World.countersLt_run hrun t) h⟩
  · have hcount : w₃.monitor.ignoreLock t = w.monitor.ignoreLock t - 1 := by
      rw [(World.counters_acquired h₃).1, World.run_counters hothers h₂,
        (World.counters_before h₁).1, Function.update_self]
    rw [← World.ignored_acquisition hN hinv hign h₁ (World.run_sameThread hothers h₂) h₃]
    exact and_congr_right fun _ => and_iff_left hcount
  · cases World.stepped h with
    | afterLock _ _ hcall =>
      rcases Monitor.afterLock_eq hcall with ⟨-, rfl⟩ | ⟨hzero, -⟩
      · rfl
      · exact absurd hzero hign.ne'

/-- A blocking pair at the start of the application. -/
theorem ignored_calls_blocking :
    ∃ w, Runs.run (World.step {} false) (.init 20)
        (Call.bracket true false 1 16 ⟨1, [], Nat.one_pos⟩) = some w ∧
      w.monitor = (World.init 20).monitor := by
  obtain ⟨w, hw⟩ := Option.isSome_iff_exists.1 (show (Runs.run (World.step {} false) (.init 20)
    (Call.bracket true false 1 16 ⟨1, [], Nat.one_pos⟩)).isSome = true by decide +kernel)
  refine ⟨w, hw, ?_⟩
  refine ((ignored_calls (by decide) {} false [] (.init 20) rfl 1).2.2 true false 16 _ w hw).2 ?_
  exact ⟨by decide, by decide, fun hc => by cases hc⟩

/-- A try with a pending request is recorded, and it stays in the list after the ignored release. -/
theorem ignored_try_recorded :
    ∃ w w₁ w₃ w₄, Runs.run (World.step {} false) (.init 20) [.increaseIgnoreCounter 1 1 0] = some w ∧
      w.monitor.ignoreLock 1 = 1 ∧
      w.step {} false (.before true 1 16 ⟨1, [], Nat.one_pos⟩) = some w₁ ∧
      w₁.step {} false (.lockAcquired 1 16) = some w₃ ∧
      ¬ (World.NothingRecorded w w₁ 1 ∧ World.NothingRecorded w₁ w₃ 1) ∧
      Runs.run (World.step {} false) (.init 20)
        (Call.bracket true true 1 16 ⟨1, [], Nat.one_pos⟩) = some w₄ ∧
      w₄.monitor ≠ (World.init 20).monitor ∧ (w₄.monitor.held 1).n = 1 := by
  have heval : (Runs.run (World.step {} false) (.init 20)
      [.increaseIgnoreCounter 1 1 0]).any (fun w => w.monitor.ignoreLock 1 = 1 ∧
        (w.monitor.held 1).n = 0 ∧
        (w.step {} false (.before true 1 16 ⟨1, [], Nat.one_pos⟩)).any fun w₁ =>
          (w₁.step {} false (.lockAcquired 1 16)).any fun w₃ => (w₃.monitor.held 1).n = 1) = true := by
    decide +kernel
  have hpair : (Runs.run (World.step {} false) (.init 20)
      (Call.bracket true true 1 16 ⟨1, [], Nat.one_pos⟩)).any
        (fun w₄ => (w₄.monitor.held 1).n = 1) = true := by
    decide +kernel
  obtain ⟨w, hw, heval⟩ := (Option.any_eq_true _ _).1 heval
  obtain ⟨hlock, hn, heval⟩ := of_decide_eq_true heval
  obtain ⟨w₁, h₁, heval⟩ := (Option.any_eq_true _ _).1 heval
  obtain ⟨w₃, h₃, hn₃⟩ := (Option.any_eq_true _ _).1 heval
  obtain ⟨w₄, h₄, hn₄⟩ := (Option.any_eq_true _ _).1 hpair
  replace hn₃ := of_decide_eq_true hn₃
  replace hn₄ := of_decide_eq_true hn₄
  refine ⟨w, w₁, w₃, w₄, hw, hlock, h₁, h₃, fun ⟨hrec, hrec'⟩ => ?_, h₄, fun hc => ?_, hn₄⟩
  · have hentries := congrArg List.length (hrec'.entries.trans hrec.entries)
    rw [SynchLocksHeld.length_entries, SynchLocksHeld.length_entries, hn₃, hn] at hentries
    cases hentries
  · rw [hc] at hn₄
    cases hn₄

end BugInsight

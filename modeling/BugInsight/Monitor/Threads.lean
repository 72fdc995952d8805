import BugInsight.Monitor.Calls
import BugInsight.Runs

/-!
# The variables of one thread

A call changes the thread-local variables of at most one thread.

* `step_sameThread`: the other threads keep their held-lock lists, their hooks and their locks;
* `nothingIgnored_step`: the counters of a thread stay zero if it does not set them.
-/

namespace BugInsight

variable {N : ℕ} {o : UserOptions} {dbg : Bool}

/-- The thread whose variables a call changes. -/
def Call.thread : Call → Option ℕ
  | .beforeLock t _ _ | .beforeTryLock t _ _ | .lockAcquired t _ | .lockFailed t _
  | .tryLockFailed t _ | .afterLock t _ | .cndWait t _ | .increaseIgnoreCounter t _ _
  | .threadExit t => some t
  | .deleteLock _ _ | .timerExpired _ | .watchdogScan _ | .callbackEnd => none

namespace World

variable {w w' : World N} {c : Call} {t : ℕ}

/-- A thread has the same hook, list, start time and locks in two states. -/
structure SameThread (w w' : World N) (t : ℕ) : Prop where
  pending : w'.pending t = w.pending t
  locks : (w.monitor.held t).SameLocks (w'.monitor.held t)
  start : w'.monitor.starts t = w.monitor.starts t
  owned : w'.owned t = w.owned t

/-- The list of another thread is assigned. -/
theorem held_of_ne {s : ℕ} (hs : t ≠ s) (held : ℕ → SynchLocksHeld N) (h : SynchLocksHeld N) :
    (held t).SameLocks (Function.update held s h t) ∧
      (Function.update held s h t).lockStartTimePoint = (held t).lockStartTimePoint := by
  rw [Function.update_of_ne hs]
  exact ⟨.rfl _, rfl⟩

/-- The end of a hook of another thread. -/
theorem enter_sameThread {s : ℕ} (hs : t ≠ s) (p : Pending) : SameThread w (w.enter s p) t := by
  have hheld := held_of_ne hs w.monitor.held
    (updateLockHistoryInLock p.mu p.id (w.monitor.held s))
  unfold enter
  split_ifs
  · exact ⟨Function.update_of_ne hs _ _, .rfl _, rfl, rfl⟩
  · exact ⟨Function.update_of_ne hs _ _, hheld.1, hheld.2, rfl⟩

/-- **A call leaves the other threads alone.** -/
theorem step_sameThread (hstep : w.step o dbg c = some w') (ht : c.thread ≠ some t) :
    SameThread w w' t := by
  cases stepped hstep with
  | @beforeLock s mu id e M' hidle hmu hcall =>
    have hts : t ≠ s := fun hc => ht (congrArg some hc.symm)
    obtain ⟨hlocks, hstart⟩ := Monitor.beforeLock_held hcall
    refine ⟨Function.update_of_ne hts _ _, hlocks t, ?_, rfl⟩
    rcases hstart with ⟨-, -, hstart⟩ | ⟨-, -, -, hstart⟩
    · exact hstart t
    · exact (hstart t).trans (if_neg fun hc => hts hc.1)
  | @beforeTryLock s mu id e M' hidle hmu hcall =>
    have hts : t ≠ s := fun hc => ht (congrArg some hc.symm)
    obtain ⟨hlocks, hstart⟩ := Monitor.beforeTryLock_held hcall
    exact ⟨Function.update_of_ne hts _ _, hlocks t, (hstart t).trans (if_neg fun hc => hts hc.1),
      rfl⟩
  | @lockAcquired s p hp =>
    have hts : t ≠ s := fun hc => ht (congrArg some hc.symm)
    have h := enter_sameThread (w := w) hts p
    exact ⟨h.pending, h.locks, h.start, Function.update_of_ne hts _ _⟩
  | lockFailed =>
    exact enter_sameThread (fun hc => ht (congrArg some hc.symm)) _
  | @tryLockFailed s p hp htry =>
    have hts : t ≠ s := fun hc => ht (congrArg some hc.symm)
    exact ⟨Function.update_of_ne hts _ _, .rfl _, rfl, rfl⟩
  | @afterLock s mu M' hidle hmu hcall =>
    have hts : t ≠ s := fun hc => ht (congrArg some hc.symm)
    have howned := Function.update_of_ne hts
      (Function.update (w.owned s) mu (w.owned s mu - 1)) w.owned
    rcases Monitor.afterLock_eq hcall with ⟨-, rfl⟩ | ⟨-, g, id, -, l, ok, error, -, rfl⟩
    · exact ⟨rfl, .rfl _, rfl, howned⟩
    · have hheld := held_of_ne hts w.monitor.held l.clearStart
      exact ⟨rfl, hheld.1, hheld.2, howned⟩
  | @cndWait s mu hidle hmu =>
    have hts : t ≠ s := fun hc => ht (congrArg some hc.symm)
    have hheld := held_of_ne hts w.monitor.held ((w.monitor.held s).setStart condWaitMark)
    exact ⟨rfl, hheld.1, hheld.2, rfl⟩
  | @threadExit s hidle =>
    have hts : t ≠ s := fun hc => ht (congrArg some hc.symm)
    have hheld := held_of_ne hts w.monitor.held (.new N s)
    exact ⟨rfl, hheld.1, hheld.2, Function.update_of_ne hts _ _⟩
  | deleteLock _ _ hcall =>
    obtain ⟨g, -, ⟨-, rfl⟩ | ⟨-, rfl⟩⟩ := Monitor.deleteLock_cases hcall
    · exact ⟨rfl, .rfl _, rfl, rfl⟩
    · exact ⟨rfl, .rfl _, rfl, rfl⟩
  | watchdogScan _ hcall =>
    obtain ⟨found, -, ⟨-, rfl⟩ | ⟨s, ms, -, rfl⟩⟩ := Monitor.watchdogScan_cases hcall
    · exact ⟨rfl, .rfl _, rfl, rfl⟩
    · exact ⟨rfl, .rfl _, rfl, rfl⟩
  | increaseIgnoreCounter | timerExpired | callbackEnd => exact ⟨rfl, .rfl _, rfl, rfl⟩

/-! ### The ignore counters -/

/-- The thread has not asked for calls to be ignored. -/
def NothingIgnored (w : World N) (t : ℕ) : Prop :=
  w.monitor.ignoreLock t = 0 ∧ w.monitor.ignoreUnlock t = 0

/-- A counter of some thread is counted down. -/
theorem update_pred_eq_zero {f : ℕ → ℕ} (s : ℕ) (hf : f t = 0) :
    Function.update f s (f s - 1) t = 0 := by
  by_cases hts : t = s
  · rw [← hts, Function.update_self, hf]
  · rw [Function.update_of_ne hts, hf]

/-- The counters of a thread are its own. -/
theorem step_counters (hstep : w.step o dbg c = some w') (ht : c.thread ≠ some t) :
    w'.monitor.ignoreLock t = w.monitor.ignoreLock t ∧
      w'.monitor.ignoreUnlock t = w.monitor.ignoreUnlock t := by
  have hne : ∀ {s : ℕ}, c.thread = some s → t ≠ s := fun hs hts => ht (hts ▸ hs)
  cases stepped hstep with
  | beforeLock _ _ hcall =>
    obtain ⟨hlock, hunlock⟩ := Monitor.beforeLock_counters hcall
    exact ⟨(congrFun hlock t).trans (Function.update_of_ne (hne rfl) _ _), congrFun hunlock t⟩
  | beforeTryLock _ _ hcall =>
    obtain ⟨hlock, hunlock⟩ := Monitor.beforeTryLock_counters hcall
    exact ⟨(congrFun hlock t).trans (Function.update_of_ne (hne rfl) _ _), congrFun hunlock t⟩
  | @lockAcquired s p hp =>
    rw [ignoreLock_acquire, ignoreUnlock_acquire]
    exact ⟨rfl, rfl⟩
  | lockFailed =>
    rw [ignoreLock_enter, ignoreUnlock_enter]
    exact ⟨rfl, rfl⟩
  | afterLock _ _ hcall =>
    obtain ⟨hlock, hunlock⟩ := Monitor.afterLock_counters hcall
    exact ⟨congrFun hlock t, (congrFun hunlock t).trans (Function.update_of_ne (hne rfl) _ _)⟩
  | deleteLock _ _ hcall =>
    obtain ⟨g, -, ⟨-, rfl⟩ | ⟨-, rfl⟩⟩ := Monitor.deleteLock_cases hcall
    · exact ⟨rfl, rfl⟩
    · exact ⟨rfl, rfl⟩
  | increaseIgnoreCounter | threadExit =>
    exact ⟨Function.update_of_ne (hne rfl) _ _, Function.update_of_ne (hne rfl) _ _⟩
  | watchdogScan _ hcall =>
    obtain ⟨found, -, ⟨-, rfl⟩ | ⟨s, ms, -, rfl⟩⟩ := Monitor.watchdogScan_cases hcall
    · exact ⟨rfl, rfl⟩
    · exact ⟨rfl, rfl⟩
  | tryLockFailed | cndWait | timerExpired | callbackEnd => exact ⟨rfl, rfl⟩

/-- The counters of a thread stay zero if it does not set them. -/
theorem nothingIgnored_step (h : NothingIgnored w t)
    (hc : ∀ locks unlocks, c ≠ .increaseIgnoreCounter t locks unlocks)
    (hstep : w.step o dbg c = some w') : NothingIgnored w' t := by
  cases stepped hstep with
  | @beforeLock s mu id e M' hidle hmu hcall =>
    obtain ⟨hlock, hunlock⟩ := Monitor.beforeLock_counters hcall
    exact ⟨(congrFun hlock t).trans (update_pred_eq_zero s h.1), (congrFun hunlock t).trans h.2⟩
  | @beforeTryLock s mu id e M' hidle hmu hcall =>
    obtain ⟨hlock, hunlock⟩ := Monitor.beforeTryLock_counters hcall
    exact ⟨(congrFun hlock t).trans (update_pred_eq_zero s h.1), (congrFun hunlock t).trans h.2⟩
  | @lockAcquired s p hp =>
    rw [NothingIgnored, ignoreLock_acquire, ignoreUnlock_acquire]
    exact h
  | lockFailed =>
    rw [NothingIgnored, ignoreLock_enter, ignoreUnlock_enter]
    exact h
  | @afterLock s mu M' hidle hmu hcall =>
    obtain ⟨hlock, hunlock⟩ := Monitor.afterLock_counters hcall
    exact ⟨(congrFun hlock t).trans h.1, (congrFun hunlock t).trans (update_pred_eq_zero s h.2)⟩
  | deleteLock _ _ hcall =>
    obtain ⟨g, -, ⟨-, rfl⟩ | ⟨-, rfl⟩⟩ := Monitor.deleteLock_cases hcall
    · exact h
    · exact h
  | @increaseIgnoreCounter s locks unlocks hidle =>
    have hts : t ≠ s := fun hts => hc locks unlocks (by rw [hts])
    refine ⟨?_, ?_⟩
    · exact (Function.update_of_ne hts _ _).trans h.1
    · exact (Function.update_of_ne hts _ _).trans h.2
  | @threadExit s hidle =>
    by_cases hts : t = s
    · subst hts
      exact ⟨Function.update_self .., Function.update_self ..⟩
    · exact ⟨(Function.update_of_ne hts _ _).trans h.1, (Function.update_of_ne hts _ _).trans h.2⟩
  | watchdogScan _ hcall =>
    obtain ⟨found, -, ⟨-, rfl⟩ | ⟨s, ms, -, rfl⟩⟩ := Monitor.watchdogScan_cases hcall
    · exact h
    · exact h
  | tryLockFailed | cndWait | timerExpired | callbackEnd => exact h

end World

end BugInsight

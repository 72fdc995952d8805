import BugInsight.Monitor.Invariant
import BugInsight.Monitor.Threads

/-!
# The start time of a hold

`m_lock_start_time_point` is zero exactly while the held-lock list is empty, if no try-lock fails
and no condition wait begins while the list is empty: `before_try_lock` takes the time before the
real function is called, and nothing takes it back when that fails.

* `clock_step`: what a call does to this, for the thread that makes it;
* `hold_time_iff`: the result for whole runs.

The build sets `MAX_LOCKS_PER_THREAD` to 20 unless it is given another number that is not 0.
-/

namespace BugInsight

open BugInsight.Rep

namespace World

variable {N : ℕ} {o : UserOptions} {dbg : Bool} {w w' : World N} {c : Call} {t : ℕ}

/-- Outside of the hooks, the start time is zero exactly while the list is empty. -/
def Clock (w : World N) (t : ℕ) : Prop :=
  w.Idle t → (w.monitor.starts t = 0 ↔ (w.monitor.held t).n = 0)

/-- Inside of a hook, the time was taken unless the call was refused or skipped. -/
def ClockInHook (w : World N) (t : ℕ) : Prop :=
  ∀ p, w.pending t = some p →
    if p.id = invalidGraphId then
      p.tryLock = false ∧ (w.monitor.starts t = 0 ↔ (w.monitor.held t).n = 0)
    else w.monitor.starts t ≠ 0

/-- No try-lock fails and no condition wait begins while the thread holds no lock. -/
def ClockKept (w : World N) : Call → Prop
  | .tryLockFailed t _ => (w.monitor.held t).n ≠ 0
  | .cndWait t _ => (w.monitor.held t).n ≠ 0
  | _ => True

theorem SameThread.clock (h : SameThread w w' t) : Clock w' t ↔ Clock w t := by
  unfold Clock Idle
  rw [h.pending, h.start, h.locks.n]

theorem SameThread.clockInHook (h : SameThread w w' t) : ClockInHook w' t ↔ ClockInHook w t := by
  unfold ClockInHook
  rw [h.pending, h.start, h.locks.n]

variable {K : Set ℕ} {m : ℕ → Option ℕ}

/-- A thread enters a hook. -/
theorem clock_wait {p : Pending} {M : Monitor N}
    (hp : if p.id = invalidGraphId then
        p.tryLock = false ∧ (M.starts t = 0 ↔ (M.held t).n = 0)
      else M.starts t ≠ 0) :
    Clock (w.wait t p M) t ∧ ClockInHook (w.wait t p M) t := by
  have hpending : (w.wait t p M).pending t = some p := Function.update_self ..
  refine ⟨fun hidle => ?_, fun q hq => ?_⟩
  · cases hpending.symm.trans hidle
  · cases hpending.symm.trans hq
    exact hp

/-- A thread that is in no hook after a call. -/
theorem clockInHook_of_idle (hidle : w.Idle t) : ClockInHook w t := fun p hp => by
  cases hidle.symm.trans hp

theorem clock_of_idle (hidle : w.Idle t) :
    Clock w t ↔ (w.monitor.starts t = 0 ↔ (w.monitor.held t).n = 0) :=
  ⟨fun h => h hidle, fun h _ => h⟩

/-- A blocking call takes the time, unless it is refused or skipped or the list is not empty. -/
theorem clock_beforeLock (hinv : Inv K w m) (hclock : Clock w t) (hidle : w.Idle t) {mu id : ℕ}
    {e : Env} {M' : Monitor N}
    (hcall : w.monitor.dlcDeadlockCheckBeforeLock o e t mu = some (M', id)) :
    Clock (w.wait t ⟨mu, id, false⟩ M') t ∧ ClockInHook (w.wait t ⟨mu, id, false⟩ M') t := by
  have hclock := (clock_of_idle hidle).1 hclock
  obtain ⟨hlocks, hstart⟩ := Monitor.beforeLock_held hcall
  refine clock_wait ?_
  rcases hstart with ⟨hid, -, hstart⟩ | ⟨-, -, ⟨g, hg⟩, hstart⟩
  · rw [if_pos hid, hstart t, (hlocks t).n]
    exact ⟨rfl, hclock⟩
  · rw [if_neg (getId_ne_invalid hinv.graph hg), hstart t]
    split_ifs with hn
    · exact e.ticks_pos.ne'
    · exact fun hc => hn ⟨rfl, hclock.1 hc⟩

/-- A try-lock takes the time, unless the list is not empty. -/
theorem clock_beforeTryLock (hinv : Inv K w m) (hclock : Clock w t) (hidle : w.Idle t) {mu id : ℕ}
    {e : Env} {M' : Monitor N}
    (hcall : w.monitor.dlcDeadlockCheckBeforeTryLock o e t mu = some (M', id)) :
    Clock (w.wait t ⟨mu, id, true⟩ M') t ∧ ClockInHook (w.wait t ⟨mu, id, true⟩ M') t := by
  have hclock := (clock_of_idle hidle).1 hclock
  obtain ⟨hlocks, hstart⟩ := Monitor.beforeTryLock_held hcall
  have hg := Monitor.beforeTryLock_graph hcall
  refine clock_wait ?_
  rw [if_neg (getId_ne_invalid hinv.graph hg), hstart t]
  split_ifs with hn
  · exact e.ticks_pos.ne'
  · exact fun hc => hn ⟨rfl, hclock.1 hc⟩

/-- At the end of a hook the lock is in the list, unless the call was refused or skipped. -/
theorem clock_enter (hN : 0 < N) (hhook : ClockInHook w t) {p : Pending}
    (hp : w.pending t = some p) : Clock (w.enter t p) t := by
  rw [clock_of_idle (idle_enter w t p)]
  have hhook := hhook p hp
  split_ifs at hhook with hid
  · rw [monitor_enter_refused hid]
    exact hhook.2
  · -- the lock is in the list now, and the time was taken
    rw [Monitor.starts, held_enter hid, start_inLock]
    exact iff_of_false hhook (n_inLock_pos _ _ _ hN).ne'

/-- A release clears the time with the last entry. -/
theorem clock_afterLock (hclock : Clock w t) (hidle : w.Idle t) {mu : ℕ} {M' : Monitor N}
    (hcall : w.monitor.dlcDeadlockCheckAfterLock o t mu = some M') :
    M'.starts t = 0 ↔ (M'.held t).n = 0 := by
  have hclock := (clock_of_idle hidle).1 hclock
  rcases Monitor.afterLock_eq hcall with ⟨-, rfl⟩ | ⟨-, g, id, -, l, ok, error, hl, rfl⟩
  · exact hclock
  · have hself : Function.update w.monitor.held t l.clearStart t = l.clearStart :=
      Function.update_self ..
    show (Function.update w.monitor.held t l.clearStart t).lockStartTimePoint = 0 ↔
      (Function.update w.monitor.held t l.clearStart t).n = 0
    have hle := n_afterLock_le t mu id (w.monitor.held t)
    have hstart := start_afterLock t mu id (w.monitor.held t)
    rw [hl] at hle hstart
    rw [hself, l.start_clearStart, l.sameLocks_clearStart.n, hstart]
    split_ifs with hn
    · exact iff_of_true rfl hn
    · exact iff_of_false (fun hc => hn (Nat.le_zero.1 (hclock.1 hc ▸ hle))) hn

/-- A condition wait marks the time, whether the list is empty or not. -/
theorem clock_cndWait (hidle : w.Idle t) :
    Clock ({ w with monitor := w.monitor.buginsightCndWait t } : World N) t ↔
      (w.monitor.held t).n ≠ 0 := by
  obtain ⟨hsame, hstart⟩ := Monitor.held_setStart w.monitor.held t condWaitMark t
  rw [if_pos rfl] at hstart
  have hmark : (w.monitor.buginsightCndWait t).starts t ≠ 0 := by
    refine hstart.trans_ne ?_
    unfold condWaitMark
    omega
  have hidle' : ({ w with monitor := w.monitor.buginsightCndWait t } : World N).Idle t := hidle
  rw [clock_of_idle hidle']
  exact ⟨fun h hn => hmark (h.2 (hsame.n.trans hn)),
    fun hn => iff_of_false hmark fun hc => hn (hsame.n.symm.trans hc)⟩

/-- **A call of the thread** keeps the start time and the list in step exactly if it is neither a
failed try-lock nor a condition wait with an empty list. -/
theorem clock_step (hN : 0 < N) (hinv : Inv K w m) (hclock : Clock w t) (hhook : ClockInHook w t)
    (ht : c.thread = some t) (hstep : w.step o dbg c = some w') :
    (Clock w' t ↔ ClockKept w c) ∧ ClockInHook w' t := by
  cases stepped hstep with
  | @beforeLock s mu id e M' hidle hmu hcall =>
    cases ht
    obtain ⟨h, h'⟩ := clock_beforeLock hinv hclock hidle hcall
    exact ⟨iff_of_true h trivial, h'⟩
  | @beforeTryLock s mu id e M' hidle hmu hcall =>
    cases ht
    obtain ⟨h, h'⟩ := clock_beforeTryLock hinv hclock hidle hcall
    exact ⟨iff_of_true h trivial, h'⟩
  | @lockAcquired s p hp =>
    cases ht
    exact ⟨iff_of_true (clock_enter hN hhook hp) trivial,
      clockInHook_of_idle (Function.update_self ..)⟩
  | lockFailed hp =>
    cases ht
    exact ⟨iff_of_true (clock_enter hN hhook hp) trivial, clockInHook_of_idle (idle_enter w t _)⟩
  | @tryLockFailed s p hp htry =>
    cases ht
    have hidle : ({ w with pending := Function.update w.pending t none } : World N).Idle t :=
      Function.update_self ..
    refine ⟨?_, clockInHook_of_idle hidle⟩
    have hhook := hhook p hp
    split_ifs at hhook with hid
    · rw [htry] at hhook
      exact absurd hhook.1 nofun
    · rw [clock_of_idle hidle]
      exact ⟨fun h hn => hhook (h.2 hn), fun hn => iff_of_false hhook hn⟩
  | @afterLock s mu M' hidle hmu hcall =>
    cases ht
    exact ⟨iff_of_true (fun _ => clock_afterLock hclock hidle hcall) trivial,
      clockInHook_of_idle hidle⟩
  | @cndWait s mu hidle hmu =>
    cases ht
    exact ⟨clock_cndWait hidle, clockInHook_of_idle hidle⟩
  | @increaseIgnoreCounter s locks unlocks hidle =>
    cases ht
    exact ⟨iff_of_true hclock trivial, hhook⟩
  | @threadExit s hidle =>
    cases ht
    refine ⟨iff_of_true (fun _ => ?_) trivial, clockInHook_of_idle hidle⟩
    show (Function.update w.monitor.held t (.new N t) t).lockStartTimePoint = 0 ↔
      (Function.update w.monitor.held t (.new N t) t).n = 0
    rw [Function.update_self]
    exact iff_of_true rfl rfl
  | deleteLock | timerExpired | watchdogScan | callbackEnd => cases ht

/-- **A call** keeps the start times and the lists of all threads in step exactly if it is neither a
failed try-lock nor a condition wait with an empty list. -/
theorem clocks_step (hN : 0 < N) (hinv : Inv K w m) (h : ∀ t, Clock w t ∧ ClockInHook w t)
    (hstep : w.step o dbg c = some w') :
    ((∀ t, Clock w' t) ↔ ClockKept w c) ∧ ∀ t, ClockInHook w' t := by
  have hother : ∀ t, c.thread ≠ some t → Clock w' t ∧ ClockInHook w' t := fun t ht => by
    have hsame := step_sameThread hstep ht
    exact ⟨hsame.clock.2 (h t).1, hsame.clockInHook.2 (h t).2⟩
  cases ht : c.thread with
  | none =>
    rw [ht] at hother
    refine ⟨iff_of_true (fun t => (hother t nofun).1) ?_, fun t => (hother t nofun).2⟩
    cases c <;> trivial
  | some s =>
    rw [ht] at hother
    obtain ⟨hiff, hhook⟩ := clock_step hN hinv (h s).1 (h s).2 ht hstep
    refine ⟨⟨fun hall => hiff.1 (hall s), fun hkept t => ?_⟩, fun t => ?_⟩
    · by_cases hts : t = s
      · exact hts ▸ hiff.2 hkept
      · exact (hother t fun hc => hts (Option.some_inj.1 hc).symm).1
    · by_cases hts : t = s
      · exact hts ▸ hhook
      · exact (hother t fun hc => hts (Option.some_inj.1 hc).symm).2

end World

/-- **The watchdog clock**: in a run, the start time of every thread that is in no hook is zero
exactly while its list is empty, if and only if no try-lock fails and no condition wait begins
while the list of the thread is empty.  The assertions of `before_lock` and `before_try_lock` are
one direction of this. -/
theorem hold_time_iff (N : ℕ) (hN : 0 < N) (o : UserOptions) (dbg : Bool) (calls : List Call)
    (w : World N) (hrun : Runs.run (World.step o dbg) (.init N) calls = some w) :
    Runs.Always (World.step o dbg) (fun w => ∀ t, w.Idle t →
        (w.monitor.starts t = 0 ↔ (w.monitor.held t).n = 0)) (.init N) calls ↔
      Runs.Steps (World.step o dbg) World.ClockKept (.init N) calls := by
  refine Runs.always_iff_steps (I := fun w => (∃ m, World.Inv ∅ w m) ∧
    ∀ t, w.Clock t ∧ w.ClockInHook t) ⟨⟨_, World.inv_init⟩, fun t => ⟨fun _ => ?_, ?_⟩⟩
    (fun w h t => (h.2 t).1) (fun w₁ c w₂ h _ hstep => ?_) Runs.steps_mem hrun
  · exact iff_of_true rfl rfl
  · exact World.clockInHook_of_idle rfl
  · obtain ⟨⟨m, hinv⟩, hclock⟩ := h
    obtain ⟨m', hinv', -⟩ := World.inv_step hinv (Set.empty_subset _) hstep
    obtain ⟨hiff, hhook⟩ := World.clocks_step hN hinv hclock hstep
    exact ⟨hiff, fun h => ⟨⟨m', hinv'⟩, fun t => ⟨h t, hhook t⟩⟩⟩

/-- A thread that locks and unlocks. -/
theorem hold_time_iff_once :
    ∃ w, Runs.run (World.step {} false) (.init 20)
        [.beforeLock 1 16 ⟨1, [], Nat.one_pos⟩, .lockAcquired 1 16, .afterLock 1 16] = some w ∧
      Runs.Always (World.step {} false) (fun w => ∀ t, w.Idle t →
          (w.monitor.starts t = 0 ↔ (w.monitor.held t).n = 0)) (.init 20)
        [.beforeLock 1 16 ⟨1, [], Nat.one_pos⟩, .lockAcquired 1 16, .afterLock 1 16] := by
  obtain ⟨w, hw⟩ := Option.isSome_iff_exists.1 (show (Runs.run (World.step {} false) (.init 20)
    [.beforeLock 1 16 ⟨1, [], Nat.one_pos⟩, .lockAcquired 1 16, .afterLock 1 16]).isSome = true
    by decide +kernel)
  refine ⟨w, hw, (hold_time_iff 20 (by decide) {} false _ w hw).2 fun pre c post s heq _ => ?_⟩
  have hc : c ∈ pre ++ c :: post := by simp
  rw [← heq] at hc
  simp only [List.mem_cons, List.not_mem_nil, or_false] at hc
  rcases hc with rfl | rfl | rfl <;> trivial

/-- After a failed try-lock the start time is not zero although the thread holds nothing. -/
theorem hold_time_tryLockFailed :
    ∃ w : World 20, Runs.run (World.step {} false) (.init 20)
        [.beforeTryLock 1 16 ⟨1, [], Nat.one_pos⟩, .tryLockFailed 1 16] = some w ∧
      w.Idle 1 ∧ w.monitor.starts 1 ≠ 0 ∧ (w.monitor.held 1).n = 0 := by
  have heval : (Runs.run (World.step {} false) (.init 20)
      [.beforeTryLock 1 16 ⟨1, [], Nat.one_pos⟩, .tryLockFailed 1 16]).any (fun w =>
        decide (w.Idle 1 ∧ w.monitor.starts 1 ≠ 0 ∧ (w.monitor.held 1).n = 0)) = true := by
    decide +kernel
  obtain ⟨w, hw, heval⟩ := (Option.any_eq_true _ _).1 heval
  exact ⟨w, hw, of_decide_eq_true heval⟩

end BugInsight

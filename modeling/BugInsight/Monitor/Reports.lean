import BugInsight.Monitor.Calls
import BugInsight.Runs

/-!
# What a call reports

`step_reports` says once which errors a call can report and which of the two flags of the monitor
remembers each of them.
-/

namespace BugInsight

variable {N : ℕ} {o : UserOptions} {dbg : Bool}

/-- The errors that set `m_potential_deadlocks_found`. -/
def Report.isDeadlock : Report → Bool
  | .deadlockCircle .. => true
  | _ => false

/-- The errors that set `m_other_errors_found`. -/
def Report.isOtherError : Report → Bool
  | .maxLocksPerThreadReached .. => true
  | .releaseLockNotHeld .. => true
  | .releaseLockDeletedByOtherThread .. => true
  | .watchdogError .. => true
  | _ => false

/-- The reports of a step, and the flags it sets. -/
structure Reported (M M' : Monitor N) (reports : List Report) : Prop where
  log : M'.log = M.log ++ reports
  potentialDeadlocksFound :
    M'.potentialDeadlocksFound = (M.potentialDeadlocksFound || reports.any Report.isDeadlock)
  otherErrorsFound : M'.otherErrorsFound = (M.otherErrorsFound || reports.any Report.isOtherError)

namespace Reported

variable {M M' : Monitor N}

theorem none (hlog : M'.log = M.log)
    (hdeadlock : M'.potentialDeadlocksFound = M.potentialDeadlocksFound)
    (hother : M'.otherErrorsFound = M.otherErrorsFound) : Reported M M' [] :=
  ⟨by rw [hlog, List.append_nil], by simp [hdeadlock], by simp [hother]⟩

theorem one {r : Report} (hlog : M'.log = M.log ++ [r])
    (hdeadlock : M'.potentialDeadlocksFound = (M.potentialDeadlocksFound || r.isDeadlock))
    (hother : M'.otherErrorsFound = (M.otherErrorsFound || r.isOtherError)) :
    Reported M M' [r] :=
  ⟨hlog, by simp [hdeadlock], by simp [hother]⟩

end Reported

namespace World

variable {w w' : World N} {c : Call}

theorem beforeLock_reports {e : Env} {t mu id : ℕ} {M M' : Monitor N}
    (h : M.dlcDeadlockCheckBeforeLock o e t mu = some (M', id)) :
    ∃ reports, Reported M M' reports := by
  obtain ⟨watchdog, held, heq, -⟩ := Monitor.synchGetAllLocks_eq o t M true
  rcases Monitor.beforeLock_cases h with ⟨-, -, rfl⟩ | ⟨-, M₁, hM₁, hcases⟩
  · exact ⟨[], .none rfl rfl rfl⟩
  rw [heq] at hM₁
  subst hM₁
  rcases hcases with ⟨-, -, rfl⟩ | ⟨-, g, -, M₂, rfl, ⟨-, rfl⟩ | ⟨-, hcheck⟩⟩
  · exact ⟨_, .one rfl (Bool.or_false _).symm (Bool.or_true _).symm⟩
  · exact ⟨[], .none rfl rfl rfl⟩
  · obtain ⟨g', calls, rfl | ⟨path, rfl⟩⟩ := Monitor.checkHeld_frame hcheck
    · exact ⟨[], .none rfl rfl rfl⟩
    · exact ⟨_, .one rfl (Bool.or_true _).symm (Bool.or_false _).symm⟩

theorem beforeTryLock_reports {e : Env} {t mu id : ℕ} {M M' : Monitor N}
    (h : M.dlcDeadlockCheckBeforeTryLock o e t mu = some (M', id)) : Reported M M' [] := by
  obtain ⟨g, M₁, -, hM₁, hcases⟩ := Monitor.beforeTryLock_cases h
  obtain ⟨watchdog, held, heq, -⟩ := Monitor.synchGetAllLocks_eq o t ({ M with
    graph := g
    ignoreLock := Function.update M.ignoreLock t (M.ignoreLock t - 1) } : Monitor N) true
  rw [heq] at hM₁
  subst hM₁
  rcases hcases with ⟨-, rfl⟩ | ⟨-, rfl⟩
  · exact .none rfl rfl rfl
  · exact .none rfl rfl rfl

theorem afterLock_reports {t mu : ℕ} {M M' : Monitor N}
    (h : M.dlcDeadlockCheckAfterLock o t mu = some M') : ∃ reports, Reported M M' reports := by
  rcases Monitor.afterLock_eq h with ⟨-, rfl⟩ | ⟨-, g, id, -, l, ok, error, hl, rfl⟩
  · exact ⟨[], .none rfl rfl rfl⟩
  · rcases afterLock_cases t mu id (M.held t) with
      ⟨-, r, hr, rfl | rfl⟩ | ⟨i, x, -, -, ⟨-, hr⟩ | ⟨-, hr⟩⟩
    all_goals
      rw [hr] at hl
      cases hl
    · exact ⟨_, .one rfl (Bool.or_false _).symm rfl⟩
    · exact ⟨_, .one rfl (Bool.or_false _).symm rfl⟩
    · exact ⟨[], .none (List.append_nil _) rfl (Bool.or_false _)⟩
    · exact ⟨[], .none (List.append_nil _) rfl (Bool.or_false _)⟩

/-- **Every call** reports some errors, and the flags remember those of two kinds. -/
theorem step_reports (hstep : w.step o dbg c = some w') :
    ∃ reports, Reported w.monitor w'.monitor reports := by
  cases stepped hstep with
  | beforeLock _ _ hcall => exact beforeLock_reports hcall
  | beforeTryLock _ _ hcall => exact ⟨[], beforeTryLock_reports hcall⟩
  | @lockAcquired t p hp | @lockFailed t p hp =>
    refine ⟨[], ?_⟩
    show Reported w.monitor (w.enter t p).monitor []
    rw [enter_frame]
    exact .none rfl rfl rfl
  | afterLock _ _ hcall => exact afterLock_reports hcall
  | deleteLock _ _ hcall =>
    obtain ⟨g, -, ⟨-, rfl⟩ | ⟨-, rfl⟩⟩ := Monitor.deleteLock_cases hcall
    · exact ⟨[], .none rfl rfl rfl⟩
    · exact ⟨_, .one rfl (Bool.or_false _).symm (Bool.or_false _).symm⟩
  | watchdogScan _ hcall =>
    obtain ⟨found, -, ⟨-, rfl⟩ | ⟨t, ms, -, rfl⟩⟩ := Monitor.watchdogScan_cases hcall
    · exact ⟨[], .none rfl rfl rfl⟩
    · exact ⟨_, .one rfl (Bool.or_false _).symm (Bool.or_true _).symm⟩
  | tryLockFailed | cndWait | increaseIgnoreCounter | threadExit | timerExpired | callbackEnd =>
    exact ⟨[], .none rfl rfl rfl⟩

/-- The flag for deadlocks is never cleared. -/
theorem potentialDeadlocksFound_step (hstep : w.step o dbg c = some w')
    (h : w.monitor.potentialDeadlocksFound = true) :
    w'.monitor.potentialDeadlocksFound = true := by
  obtain ⟨reports, hrep⟩ := step_reports hstep
  rw [hrep.potentialDeadlocksFound, h, Bool.true_or]

end World

end BugInsight

import BugInsight.Held

/-!
# Options and error reports

The options of `shared_settings.hpp` that the monitors read, and the errors they report.  A
`Report` carries what the `build_…` function of `log_helper.cpp` for this error is given;
`process_error` logs it, and with `on_error=fail` it terminates the process.
-/

namespace BugInsight

/-- `on_error_option_t`. -/
inductive OnError
  | continue_
  | fail
  | failOnExit
  deriving DecidableEq

/-- `user_options_t`, as far as the monitors read it. -/
structure UserOptions where
  onError : OnError := .failOnExit
  threadWatchdogEnabled : Bool := true
  threadWatchdogMaxDurationSec : ℕ := 30
  exitCode : ℤ := 66
  collectCallstacks : Bool := true

/-- `api_family_t`. -/
inductive ApiFamily
  | unknow
  | malloc
  | alignedMalloc
  | heapApi
  | localAlloc
  | globalAlloc
  deriving DecidableEq

/-- `api_functions_t`. -/
inductive ApiFunction
  | unknown | heapCreate | heapDestroy | heapAlloc | heapReAlloc | heapFree
  | malloc | mallocDbg | realloc | reallocDbg | calloc | callocDbg | recalloc | recallocDbg
  | strdup | strdupDbg | wcsdup | wcsdupDbg | expand | expandDbg | free | freeDbg
  | getcwd | getcwdDbg | wgetcwd | wgetcwdDbg | getdcwd | getdcwdDbg | wgetdcwd | wgetdcwdDbg
  | tempnam | tempnamDbg | wtempnam | wtempnamDbg | dupenvS | dupenvSDbg | wdupenvS | wdupenvSDbg
  | fullpath | fullpathDbg | wfullpath | wfullpathDbg
  | alignedMalloc | alignedMallocDbg | alignedOffsetMalloc | alignedOffsetMallocDbg
  | alignedOffsetRealloc | alignedOffsetReallocDbg | alignedOffsetRecalloc
  | alignedOffsetRecallocDbg | alignedRealloc | alignedReallocDbg | alignedRecalloc
  | alignedRecallocDbg | alignedFree | alignedFreeDbg
  | localAlloc | localRealloc | localFree | globalAlloc | globRealloc | globalFree
  | formatMessageA | formatMessageW | commandLineToArgvW
  | convertSidToStringSidW | convertSidToStringSidA | convertStringSidToSidW
  | convertStringSidToSidA | cryptProtectData | cryptUnprotectData
  | getNamedSecurityInfoW | getNamedSecurityInfoA | setEntriesInAclA | setEntriesInAclW
  | allocateAndInitializeSid | freeSid | getSecurityInfo | strDupA | strDupW
  deriving DecidableEq

/-- An error, with the data its text is built from. -/
inductive Report
  /-- `build_max_locks_per_thread_reached_text` -/
  | maxLocksPerThreadReached (lockCount threadId mu : ℕ)
  /-- `build_deadlock_circle_log_text`, with the path between the two locks if call stacks are
  collected -/
  | deadlockCircle (mu threadId : ℕ) (path : Option (ℕ × List ℕ))
  /-- `build_release_lock_which_thread_does_hold_log_text` -/
  | releaseLockNotHeld (threadId mu : ℕ)
  /-- `build_release_locked_deleted_by_other_thread_log_text` -/
  | releaseLockDeletedByOtherThread (threadId mu : ℕ)
  /-- `build_delete_locked_lock_log_text` -/
  | deleteLockedLock (threadId mu : ℕ)
  /-- `build_watchdog_error` -/
  | watchdogError (threadId : ℕ) (inLock : Bool) (holdDurationSec : ℕ)
  /-- `build_unknown_memory_address_text` -/
  | unknownMemoryAddress (threadId : ℕ) (function : ApiFunction) (address : ℕ)
  /-- `build_wrong_api_family_text` -/
  | wrongApiFamily (threadId : ℕ) (function : ApiFunction) (expected family : ApiFamily)
      (address : ℕ)
  /-- `build_heap_check_failed_text` -/
  | heapCheckFailed (threadId : ℕ) (functionName : String)
  deriving DecidableEq

/-- `process_error`: the reports after a further one, `none` if the process is terminated. -/
def processError (o : UserOptions) (log : List Report) (report : Report) : Option (List Report) :=
  if o.onError = .fail then none else some (log ++ [report])

theorem processError_eq_some {o : UserOptions} {log log' : List Report} {report : Report} :
    processError o log report = some log' ↔ o.onError ≠ .fail ∧ log' = log ++ [report] := by
  unfold processError
  split_ifs with h <;> simp [h, eq_comm]

end BugInsight

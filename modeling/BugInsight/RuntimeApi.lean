import BugInsight.Leak.Freeable
import BugInsight.Monitor.Threads
import BugInsight.Strings

/-!
# The runtime API

The application asks and tells BugInsight something at run time by `GetEnvironmentVariableA`:
`buginsight_getenvironmentvariablea` answers for the names that begin with `buginsight/`.  Here the
lock monitor and the leak repository stand side by side, and a call of the API may come between any
two steps of the hooks.

* `getenvironmentvariablea_get`, `getenvironmentvariablea_enabled`: what a query changes;
* `queries_invisible`: queries do not influence a run, `get/enabled` apart.
-/

namespace BugInsight

open Programs

/-! ### Allocated bytes -/

/-- The names of `api_function_string_to_enum`. -/
def apiFunctionNames : List (String × ApiFunction) :=
  [("heapcreate", .heapCreate), ("heapdestroy", .heapDestroy), ("heapalloc", .heapAlloc),
    ("heaprealloc", .heapReAlloc), ("heapfree", .heapFree), ("malloc", .malloc),
    ("_malloc_dbg", .mallocDbg), ("realloc", .realloc), ("_realloc_dbg", .reallocDbg),
    ("calloc", .calloc), ("_calloc_dbg", .callocDbg), ("_recalloc", .recalloc),
    ("_recalloc_dbg", .recallocDbg), ("strdup", .strdup), ("_strdup", .strdup),
    ("_strdup_dbg", .strdupDbg), ("wcsdup", .wcsdup), ("_wcsdup", .wcsdup),
    ("_wcsdup_dbg", .wcsdupDbg), ("_expand", .expand), ("_expand_dbg", .expandDbg),
    ("free", .free), ("_free_dbg", .freeDbg), ("_getcwd", .getcwd), ("_getcwd_dbg", .getcwdDbg),
    ("_wgetcwd", .wgetcwd), ("_wgetcwd_dbg", .wgetcwdDbg), ("_getdcwd", .getdcwd),
    ("_getdcwd_dbg", .getdcwdDbg), ("_wgetdcwd", .wgetdcwd), ("_wgetdcwd_dbg", .wgetdcwdDbg),
    ("_tempnam", .tempnam), ("_tempnam_dbg", .tempnamDbg), ("_wtempnam", .wtempnam),
    ("_wtempnam_dbg", .wtempnamDbg), ("_aligned_malloc", .alignedMalloc),
    ("_aligned_malloc_dbg", .alignedMallocDbg), ("_aligned_offset_malloc", .alignedOffsetMalloc),
    ("_aligned_offset_malloc_dbg", .alignedOffsetMallocDbg),
    ("_aligned_offset_realloc", .alignedOffsetRealloc),
    ("_aligned_offset_realloc_dbg", .alignedOffsetReallocDbg),
    ("_aligned_offset_recalloc", .alignedOffsetRecalloc),
    ("_aligned_offset_recalloc_dbg", .alignedOffsetRecallocDbg),
    ("_aligned_realloc", .alignedRealloc), ("_aligned_realloc_dbg", .alignedReallocDbg),
    ("_aligned_recalloc", .alignedRecalloc), ("_aligned_recalloc_dbg", .alignedRecallocDbg),
    ("_aligned_free", .alignedFree), ("_aligned_free_dbg", .alignedFreeDbg),
    ("localalloc", .localAlloc), ("localfree", .localFree), ("localrealloc", .localRealloc),
    ("globalalloc", .globalAlloc), ("globalfree", .globalFree), ("globalrealloc", .globRealloc),
    ("formatmessagea", .formatMessageA), ("formatmessagew", .formatMessageW),
    ("commandlinetoargvw", .commandLineToArgvW),
    ("convertsidtostringsidw", .convertSidToStringSidW),
    ("convertsidtostringsida", .convertSidToStringSidA),
    ("convertstringsidtosidw", .convertStringSidToSidW),
    ("convertstringsidtosida", .convertStringSidToSidA), ("cryptprotectdata", .cryptProtectData),
    ("cryptunprotectdata", .cryptUnprotectData),
    ("getnamedsecurityinfow", .getNamedSecurityInfoW),
    ("getnamedsecurityinfoa", .getNamedSecurityInfoA), ("setentriesinacla", .setEntriesInAclA),
    ("setentriesinaclw", .setEntriesInAclW),
    ("allocateandinitializesid", .allocateAndInitializeSid), ("freesid", .freeSid),
    ("getsecurityinfo", .getSecurityInfo), ("strdupa", .strDupA), ("strdupw", .strDupW)]

/-- `api_function_string_to_enum`. -/
def apiFunctionStringToEnum (str : NarrowString) : ApiFunction :=
  match apiFunctionNames.find? fun n => bytes n.1 = toLowerCopy str with
  | some n => n.2
  | none => .unknown

/-- `buginsight_internal_get_allocated_bytes`. -/
def MemoryLeakRepository.buginsightInternalGetAllocatedBytes (r : MemoryLeakRepository)
    (function : NarrowString) : ℕ :=
  let apiFunction :=
    if function ≠ bytes "*" then apiFunctionStringToEnum function else .unknown
  r.entries.foldl (fun sum x =>
    if apiFunction ≠ .unknown ∧ x.2.apiFunction ≠ apiFunction then sum
    else (sum + x.2.size) % 2 ^ 64) 0

/-! ### The hook of `GetEnvironmentVariableA` -/

/-- The lock monitor and the leak repository, with the hooks that the threads are in. -/
structure System (N : ℕ) where
  locks : World N
  leaks : Threads LeakOp LeakOp.Res (ℕ × ApiResult) Monitored

/-- What the hook of `GetEnvironmentVariableA` returns. -/
inductive GetEnvResult
  /-- what the real function returns -/
  | real
  /-- a number, and what is written to the buffer -/
  | value (n : ℕ) (buffer : Option ℕ)

/-- `buginsight_env`. -/
def buginsightEnv : NarrowString := bytes "buginsight/"

/-- `set_increase_lock_ignore_counter`. -/
def setIncreaseLockIgnoreCounter : NarrowString := buginsightEnv ++ bytes "set/lock++"

/-- `set_increase_unlock_ignore_counter`. -/
def setIncreaseUnlockIgnoreCounter : NarrowString := buginsightEnv ++ bytes "set/unlock++"

/-- `get_buginsight_enabled`. -/
def getBuginsightEnabled : NarrowString := buginsightEnv ++ bytes "get/enabled"

/-- `get_internal_allocated_bytes`. -/
def getInternalAllocatedBytes : NarrowString := buginsightEnv ++ bytes "get/mem/"

/-- `get_internal_rest_all_allocated`. -/
def getInternalRestAllAllocated : NarrowString := buginsightEnv ++ bytes "set/mem/reset_all"

namespace System

variable {N : ℕ} (o : UserOptions) (debuggerPresent : Bool) (s : System N)

/-- The start of the application. -/
def start (N : ℕ) : System N := ⟨.init N, HookAction.start⟩

/-- A call of `increase_ignore_counter`. -/
def increaseIgnoreCounter (threadId lockCounter unlocksCounter : ℕ) : System N :=
  { s with locks := { s.locks with
      monitor := s.locks.monitor.increaseIgnoreCounter threadId lockCounter unlocksCounter } }

/-- A call of `internal_reset_all_allocations`. -/
def resetAllAllocations : System N :=
  { s with leaks := { s.leaks with state := { s.leaks.state with
      repo := MemoryLeakRepository.internalResetAllAllocations } } }

/-- `buginsight_getenvironmentvariablea`, called by the thread `threadId` with a buffer for the
answer. -/
def buginsightGetenvironmentvariablea (threadId : ℕ) (lpName : Option NarrowString) :
    System N × GetEnvResult :=
  match lpName with
  | none => (s, .real)
  | some name =>
      if !buginsightEnv.isPrefixOf name then (s, .real)
      else if name = setIncreaseLockIgnoreCounter then
        (s.increaseIgnoreCounter threadId 1 0, .value 1 none)
      else if name = setIncreaseUnlockIgnoreCounter then
        (s.increaseIgnoreCounter threadId 0 1, .value 1 none)
      else if name = getBuginsightEnabled then
        (s.increaseIgnoreCounter threadId 0 1, .value 1 none)
      else if getInternalAllocatedBytes.isPrefixOf name then
        let functionName := name.drop getInternalAllocatedBytes.length
        (s, .value 1 (some
          (s.leaks.state.repo.buginsightInternalGetAllocatedBytes functionName)))
      else if name = getInternalRestAllAllocated then (s.resetAllAllocations, .value 1 none)
      else (s, .value 0 none)

end System

/-- A call of a lock hook or a step of it, a step of a leak hook, or a call of
`GetEnvironmentVariableA`. -/
inductive SystemAction
  | lock (c : Call)
  | leak (a : HookAction)
  | getEnv (threadId : ℕ) (lpName : Option NarrowString)

/-- The names `buginsight/get/...`. -/
def SystemAction.isQuery : SystemAction → Bool
  | getEnv _ (some name) => (buginsightEnv ++ bytes "get/").isPrefixOf name
  | _ => false

namespace System

variable {N : ℕ} {o : UserOptions} {debuggerPresent : Bool} {s s' : System N}

/-- One step.  A thread calls `GetEnvironmentVariableA` while it is in no hook. -/
def step (o : UserOptions) (debuggerPresent : Bool) (s : System N) :
    SystemAction → Option (System N)
  | .lock c => (s.locks.step o debuggerPresent c).map fun locks => { s with locks := locks }
  | .leak a => (HookAction.step s.leaks a.action).map fun leaks => { s with leaks := leaks }
  | .getEnv t lpName =>
      if s.locks.Idle t ∧ (s.leaks.program t).isNone then
        some (s.buginsightGetenvironmentvariablea t lpName).1
      else none

/-! ### Queries -/

/-- A query changes nothing, `get/enabled` apart. -/
theorem getenvironmentvariablea_get {t : ℕ} {name : NarrowString}
    (hquery : (SystemAction.getEnv t (some name)).isQuery = true)
    (hne : name ≠ getBuginsightEnabled) :
    (s.buginsightGetenvironmentvariablea t (some name)).1 = s := by
  have hget : (buginsightEnv ++ bytes "get/").isPrefixOf name = true := hquery
  -- the names of the other commands go on with an `s`
  have hset : ∀ rest : NarrowString, rest.head? = some 115 → name ≠ buginsightEnv ++ rest := by
    rintro rest hs rfl
    cases rest with
    | nil => cases hs
    | cons c cs =>
      cases Option.some_inj.1 hs
      rw [List.isPrefixOf_iff_prefix, List.prefix_append_right_inj] at hget
      obtain ⟨hc, -⟩ := List.cons_prefix_cons.1 hget
      exact absurd hc (by decide)
  have hlock : name ≠ setIncreaseLockIgnoreCounter := hset _ rfl
  have hunlock : name ≠ setIncreaseUnlockIgnoreCounter := hset _ rfl
  have hreset : name ≠ getInternalRestAllAllocated := hset _ rfl
  unfold buginsightGetenvironmentvariablea
  dsimp only
  rw [if_neg hlock, if_neg hunlock, if_neg hne, if_neg hreset]
  split_ifs
  · rfl
  · rfl
  · rfl

/-- `get/enabled` asks for a release to be ignored. -/
theorem getenvironmentvariablea_enabled (t : ℕ) :
    (s.buginsightGetenvironmentvariablea t (some getBuginsightEnabled)).1 =
      s.increaseIgnoreCounter t 0 1 := by
  unfold buginsightGetenvironmentvariablea
  dsimp only
  rw [if_neg (by decide), if_neg (by decide), if_neg (by decide), if_pos rfl]

/-- Which is not what it was before. -/
theorem increaseIgnoreCounter_ne (t : ℕ) : s.increaseIgnoreCounter t 0 1 ≠ s := by
  intro h
  have hcount := congrArg (fun s : System N => s.locks.monitor.ignoreUnlock t) h
  unfold increaseIgnoreCounter Monitor.increaseIgnoreCounter at hcount
  dsimp only at hcount
  rw [Function.update_self] at hcount
  omega

theorem step_getEnv {t : ℕ} {lpName : Option NarrowString}
    (h : s.step o debuggerPresent (.getEnv t lpName) = some s') :
    s' = (s.buginsightGetenvironmentvariablea t lpName).1 := by
  simp only [step] at h
  split_ifs at h
  exact (Option.some_inj.1 h).symm

end System

/-- **Queries do not influence a run**: every state of it is the state of the run without the
queries, if and only if none of them is `get/enabled`. -/
theorem queries_invisible (N : ℕ) (o : UserOptions) (dbg : Bool) (l : List SystemAction)
    (s : System N) (hrun : Runs.run (System.step o dbg) (System.start N) l = some s) :
    (∀ pre post, l = pre ++ post →
        Runs.run (System.step o dbg) (System.start N) pre =
          Runs.run (System.step o dbg) (System.start N) (pre.filter fun a => !a.isQuery)) ↔
      ∀ t, SystemAction.getEnv t (some getBuginsightEnabled) ∉ l := by
  constructor
  · intro h t ht
    obtain ⟨pre, post, rfl⟩ := List.append_of_mem ht
    have hquery : (SystemAction.getEnv t (some getBuginsightEnabled)).isQuery = true := rfl
    have hbefore := h pre _ rfl
    have hafter := h (pre ++ [.getEnv t (some getBuginsightEnabled)]) post (by simp)
    rw [List.filter_append, List.filter_cons_of_neg (by simp [hquery]), List.filter_nil,
      List.append_nil, ← hbefore] at hafter
    rw [Runs.run_append] at hrun
    obtain ⟨s₁, hs₁, hrest⟩ := Option.bind_eq_some_iff.1 hrun
    obtain ⟨s₂, hs₂, -⟩ := Option.bind_eq_some_iff.1 (Runs.run_cons.symm.trans hrest)
    rw [Runs.run_concat, hs₁, Option.bind_some, hs₂] at hafter
    have hstep := System.step_getEnv hs₂
    rw [System.getenvironmentvariablea_enabled, Option.some_inj.1 hafter] at hstep
    exact System.increaseIgnoreCounter_ne t hstep.symm
  · rintro h pre post rfl
    rw [Runs.run_append] at hrun
    obtain ⟨s₁, hs₁, -⟩ := Option.bind_eq_some_iff.1 hrun
    rw [hs₁]
    refine (Runs.run_filter (fun a ha hq s₂ s₃ hstep => ?_) hs₁).symm
    rw [Bool.not_eq_false'] at hq
    match a, hq with
    | .getEnv t (some name), hq =>
      rw [System.step_getEnv hstep, System.getenvironmentvariablea_get hq]
      rintro rfl
      exact h t (List.mem_append_left _ ha)

/-- A thread asks for the bytes allocated while it holds a lock. -/
def memRun : List SystemAction :=
  [.lock (.beforeLock 1 16 ⟨1, [], Nat.one_pos⟩), .lock (.lockAcquired 1 16),
    .getEnv 1 (some (bytes "buginsight/get/mem/malloc")), .lock (.afterLock 1 16)]

theorem queries_invisible_mem :
    Runs.run (System.step {} false) (System.start 20) memRun =
      Runs.run (System.step {} false) (System.start 20) (memRun.filter fun a => !a.isQuery) := by
  obtain ⟨s, hs⟩ := Option.isSome_iff_exists.1 (show
    (Runs.run (System.step {} false) (System.start 20) memRun).isSome = true by decide +kernel)
  refine (queries_invisible 20 {} false memRun s hs).2 (fun t ht => ?_) memRun [] (by simp)
  simp only [memRun, List.mem_cons, reduceCtorEq, SystemAction.getEnv.injEq, Option.some_inj,
    List.not_mem_nil, or_false, false_or] at ht
  exact absurd ht.2 (by decide)

/-- A thread asks whether BugInsight is there, and then two threads take two locks, none of which is
held while the same thread takes the other one in the other order. -/
def enabledRun : List SystemAction :=
  .getEnv 1 (some (bytes "buginsight/get/enabled")) ::
    [Call.beforeLock 1 16 ⟨1, [], Nat.one_pos⟩, .lockAcquired 1 16, .afterLock 1 16,
      .beforeLock 1 32 ⟨1, [], Nat.one_pos⟩, .lockAcquired 1 32, .afterLock 1 32,
      .beforeLock 2 32 ⟨1, [], Nat.one_pos⟩, .lockAcquired 2 32,
      .beforeLock 2 16 ⟨1, [], Nat.one_pos⟩].map SystemAction.lock

/-- The release of the first lock is not recorded, and a deadlock is reported. -/
theorem enabled_reports_deadlock :
    ∃ s s', Runs.run (System.step {} false) (System.start 20) enabledRun = some s ∧
      Runs.run (System.step {} false) (System.start 20)
        (enabledRun.filter fun a => !a.isQuery) = some s' ∧
      s'.locks.monitor.log = [] ∧ s.locks.monitor.log.length = 1 ∧
      (s'.locks.monitor.held 1).n = 0 ∧ (s.locks.monitor.held 1).n = 1 := by
  have heval : (Runs.run (System.step {} false) (System.start 20) enabledRun).any (fun s =>
      decide (s.locks.monitor.log.length = 1 ∧ (s.locks.monitor.held 1).n = 1)) = true := by
    decide +kernel
  have heval' : (Runs.run (System.step {} false) (System.start 20)
      (enabledRun.filter fun a => !a.isQuery)).any (fun s' =>
        decide (s'.locks.monitor.log = [] ∧ (s'.locks.monitor.held 1).n = 0)) = true := by
    decide +kernel
  obtain ⟨s, hs, h⟩ := (Option.any_eq_true _ _).1 heval
  obtain ⟨s', hs', h'⟩ := (Option.any_eq_true _ _).1 heval'
  obtain ⟨hlog, hn⟩ := of_decide_eq_true h
  obtain ⟨hlog', hn'⟩ := of_decide_eq_true h'
  exact ⟨s, s', hs, hs', hlog', hlog, hn', hn⟩

end BugInsight

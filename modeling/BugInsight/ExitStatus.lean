import BugInsight.Leak.Tracking
import BugInsight.Monitor.Reports

/-!
# The exit status

The monitored application as a whole: the lock monitor with the watchdog, the allocation monitors
with the leak repository, and the heap check.  A hook of an allocation monitor counts the call and
then checks, erases and adds addresses; other threads may come in between, so each of these is a
step of its own.

* `App.remembers_run`: the flags of the lock monitor remember the errors of two kinds, no others;
* `exit_status_iff`: `loader_t::~loader_t` terminates a process that has reported an error exactly
  if one of these was reported, or there are leaks, or no call was counted;
* `App.leak_run_simulated`: the hooks of `malloc`, `realloc` and `free` make such steps.
-/

namespace BugInsight

/-- Where a thread is in `check_heap_periodic`. -/
inductive HeapCheckPc
  | idle
  /-- the check is due, the lock is tried next -/
  | due
  | heapchk
  | heapValidate
  | setNext
  deriving DecidableEq

/-- The process under test. -/
structure App (N : ℕ) where
  world : World N
  repo : MemoryLeakRepository
  /-- `g_monitored_api_calls` -/
  monitoredApiCalls : ℕ
  /-- `g_next_heap_cheak_ticks` -/
  nextHeapCheckTicks : ℕ
  /-- `lock_` of `check_heap_periodic` -/
  heapCheckLock : Bool
  heapCheckPc : ℕ → HeapCheckPc
  /-- the errors that the allocation monitors and the heap check have reported -/
  log : List Report

/-- What the threads, the timer and the heap do. -/
inductive AppCall
  /-- a step of the lock monitor -/
  | lock (c : Call)
  /-- another hook is entered -/
  | hook
  | checkAddress (threadId block : ℕ) (family : ApiFamily) (function : ApiFunction)
  | checkHeapAddress (threadId heap block : ℕ) (function : ApiFunction)
  | add (key size : ℕ) (family : ApiFamily) (function : ApiFunction)
  | addHeap (heap mem size : ℕ) (function : ApiFunction)
  | erase (heap key : ℕ)
  | resetAll
  /-- the next step of `check_heap_periodic`, with the result of `GetTickCount64`, or of `_heapchk`
  or `HeapValidate` -/
  | checkHeapPeriodic (threadId ticks : ℕ) (ok : Bool)

/-- The steps of the lock monitor that begin a hook. -/
def Call.isHook : Call → Bool
  | .beforeLock _ _ _ | .beforeTryLock _ _ _ | .afterLock _ _ | .deleteLock _ _ | .cndWait _ _ => true
  | _ => false

namespace App

variable {N : ℕ} (o : UserOptions) (dbg : Bool) (processStartTicks : ℕ) (app : App N)

/-- The start of the application. -/
def init (N processStartTicks : ℕ) : App N where
  world := .init N
  repo := ∅
  monitoredApiCalls := 0
  nextHeapCheckTicks := processStartTicks + 1000 * 5
  heapCheckLock := false
  heapCheckPc := fun _ => .idle
  log := []

/-- `++g_monitored_api_calls`. -/
def countCall : App N := { app with monitoredApiCalls := (app.monitoredApiCalls + 1) % 2 ^ 64 }

/-- The calls of `process_error` in an allocation monitor, in order. -/
def report (errors : List Report) : Option (App N) :=
  (errors.foldlM (processError o) app.log).map fun log => { app with log := log }

/-- A thread goes on in `check_heap_periodic`. -/
def heapCheckGoto (threadId : ℕ) (pc : HeapCheckPc) : App N :=
  { app with heapCheckPc := Function.update app.heapCheckPc threadId pc }

@[simp] theorem world_heapCheckGoto (threadId : ℕ) (pc : HeapCheckPc) :
    (app.heapCheckGoto threadId pc).world = app.world := rfl

@[simp] theorem log_heapCheckGoto (threadId : ℕ) (pc : HeapCheckPc) :
    (app.heapCheckGoto threadId pc).log = app.log := rfl

/-- The error of a heap check that failed. -/
def heapErrors (threadId : ℕ) (functionName : String) (ok : Bool) : List Report :=
  if ok then [] else [.heapCheckFailed threadId functionName]

/-- When the next heap check is due, if one ends at `ticks`. -/
def nextHeapCheck (processStartTicks ticks : ℕ) : ℕ :=
  let msSinceProcessStart := (ticks + 2 ^ 64 - processStartTicks) % 2 ^ 64
  ticks + if msSinceProcessStart < 60 * 1000 then 1000 * 10 else 1000 * 60 * 5

/-- The next step of `check_heap_periodic`. -/
def checkHeapPeriodic (threadId ticks : ℕ) (ok : Bool) : Option (App N) :=
  match app.heapCheckPc threadId with
  | .idle =>
      some (if ticks < app.nextHeapCheckTicks then app else app.heapCheckGoto threadId .due)
  | .due =>
      some (if app.heapCheckLock then app.heapCheckGoto threadId .idle
        else { app with heapCheckLock := true }.heapCheckGoto threadId .heapchk)
  | .heapchk =>
      (app.heapCheckGoto threadId .heapValidate).report o (heapErrors threadId "_heapchk" ok)
  | .heapValidate =>
      (app.heapCheckGoto threadId .setNext).report o (heapErrors threadId "HeapValidate" ok)
  | .setNext =>
      some ({ app with
        nextHeapCheckTicks := nextHeapCheck processStartTicks ticks
        heapCheckLock := false }.heapCheckGoto threadId .idle)

/-- One step; `none` if it is not possible, does not return, or terminates the process. -/
def step : AppCall → Option (App N)
  | .lock c =>
      (app.world.step o dbg c).map fun w =>
        { if c.isHook then app.countCall else app with world := w }
  | .hook => some app.countCall
  | .checkAddress threadId block family function =>
      app.report o (logOrAbortIfMemoryAddressIsUnknown app.repo threadId block family
        function).2.toList
  | .checkHeapAddress threadId heap block function =>
      app.report o (logOrAbortIfHeapallocMemoryAddressIsUnknown app.repo threadId heap block
        function).2.toList
  | .add key size family function =>
      some { app with repo := app.repo.add key size family function }
  | .addHeap heap mem size function =>
      some { app with repo := app.repo.addHeap heap mem size function }
  | .erase heap key => some { app with repo := app.repo.erase (heap, key) }
  | .resetAll => some { app with repo := MemoryLeakRepository.internalResetAllAllocations }
  | .checkHeapPeriodic threadId ticks ok =>
      app.checkHeapPeriodic o processStartTicks threadId ticks ok

/-- `loader_t::~loader_t`: the exit code that the process is terminated with, if it is. -/
def destructor : Option ℤ :=
  let abort := app.world.monitor.potentialDeadlocksFound || app.world.monitor.otherErrorsFound ||
    decide (0 < app.repo.leakCount) || app.monitoredApiCalls == 0
  if abort && o.onError ≠ .continue_ then some o.exitCode else none

theorem destructor_eq_some {o : UserOptions} {app : App N} (ho : o.onError = .failOnExit) :
    app.destructor o = some o.exitCode ↔
      (app.world.monitor.potentialDeadlocksFound || app.world.monitor.otherErrorsFound) = true ∨
        0 < app.repo.leakCount ∨ app.monitoredApiCalls = 0 := by
  have hcontinue : o.onError ≠ .continue_ := by
    rw [ho]
    decide
  have habort : ∀ b : Bool, (if b && o.onError ≠ .continue_ then some o.exitCode else none) =
      some o.exitCode ↔ b = true := fun b => by
    cases b <;> simp [hcontinue]
  unfold destructor
  rw [habort]
  simp only [Bool.or_eq_true, decide_eq_true_eq, beq_iff_eq, or_assoc]

/-- All the errors that were reported. -/
def reports : List Report := app.world.monitor.log ++ app.log

/-! ### What is remembered -/

variable {o dbg processStartTicks} {app} {app' : App N}

theorem foldlM_processError {errors log log' : List Report}
    (h : errors.foldlM (processError o) log = some log') : log' = log ++ errors := by
  induction errors generalizing log with
  | nil =>
    cases h
    exact (List.append_nil _).symm
  | cons r errors ih =>
    rw [List.foldlM_cons] at h
    obtain ⟨log₁, h₁, h⟩ := Option.bind_eq_some_iff.1 h
    obtain ⟨-, rfl⟩ := processError_eq_some.1 h₁
    rw [ih h, List.append_assoc, List.singleton_append]

theorem report_eq_some {errors : List Report} (h : app.report o errors = some app') :
    app' = { app with log := app.log ++ errors } := by
  obtain ⟨log, hlog, rfl⟩ := Option.map_eq_some_iff.1 h
  rw [foldlM_processError hlog]

/-- The flags remember the errors of two kinds, which only the lock monitor reports. -/
structure Remembers (app : App N) : Prop where
  potentialDeadlocksFound : app.world.monitor.potentialDeadlocksFound =
    app.world.monitor.log.any Report.isDeadlock
  otherErrorsFound : app.world.monitor.otherErrorsFound =
    app.world.monitor.log.any Report.isOtherError
  log : ∀ r ∈ app.log, r.isDeadlock = false ∧ r.isOtherError = false

theorem remembers_init (N processStartTicks : ℕ) : Remembers (init N processStartTicks) :=
  ⟨rfl, rfl, List.forall_mem_nil _⟩

/-- An allocation monitor or the heap check reports errors that no flag remembers. -/
theorem Remembers.report {errors : List Report} (h : Remembers app)
    (herrors : ∀ r ∈ errors, r.isDeadlock = false ∧ r.isOtherError = false)
    (hreport : app.report o errors = some app') : Remembers app' := by
  rw [report_eq_some hreport]
  refine ⟨h.potentialDeadlocksFound, h.otherErrorsFound, fun r hr => ?_⟩
  rcases List.mem_append.1 hr with hr | hr
  · exact h.log r hr
  · exact herrors r hr

theorem checkAddress_errors (r : MemoryLeakRepository) (threadId block : ℕ) (family : ApiFamily)
    (function : ApiFunction) :
    ∀ e ∈ (logOrAbortIfMemoryAddressIsUnknown r threadId block family function).2.toList,
      e.isDeadlock = false ∧ e.isOtherError = false := by
  unfold logOrAbortIfMemoryAddressIsUnknown
  cases r.getData (0, block) with
  | none => simp [Report.isDeadlock, Report.isOtherError]
  | some d =>
    dsimp only
    split_ifs
    · simp [Report.isDeadlock, Report.isOtherError]
    · simp

theorem checkHeapAddress_errors (r : MemoryLeakRepository) (threadId heap block : ℕ)
    (function : ApiFunction) :
    ∀ e ∈ (logOrAbortIfHeapallocMemoryAddressIsUnknown r threadId heap block function).2.toList,
      e.isDeadlock = false ∧ e.isOtherError = false := by
  unfold logOrAbortIfHeapallocMemoryAddressIsUnknown
  cases r.getData (heap, block) <;> simp [Report.isDeadlock, Report.isOtherError]

theorem heapErrors_kinds (threadId : ℕ) (functionName : String) (ok : Bool) :
    ∀ e ∈ heapErrors threadId functionName ok, e.isDeadlock = false ∧ e.isOtherError = false := by
  unfold heapErrors
  cases ok <;> simp [Report.isDeadlock, Report.isOtherError]

/-- A step that reports nothing and leaves the lock monitor alone. -/
theorem Remembers.congr (h : Remembers app) (hworld : app'.world = app.world)
    (hlog : app'.log = app.log) : Remembers app' where
  potentialDeadlocksFound := by rw [hworld, h.potentialDeadlocksFound]
  otherErrorsFound := by rw [hworld, h.otherErrorsFound]
  log := hlog ▸ h.log

/-- **The heap check** sets no flag. -/
theorem Remembers.checkHeapPeriodic {threadId ticks : ℕ} {ok : Bool} (h : Remembers app)
    (hstep : app.checkHeapPeriodic o processStartTicks threadId ticks ok = some app') :
    Remembers app' := by
  have hgo : ∀ pc, Remembers (app.heapCheckGoto threadId pc) := fun pc =>
    h.congr (app.world_heapCheckGoto threadId pc) (app.log_heapCheckGoto threadId pc)
  unfold App.checkHeapPeriodic at hstep
  cases hpc : app.heapCheckPc threadId with
  | idle =>
    rw [hpc] at hstep
    cases hstep
    split_ifs
    · exact h
    · exact hgo .due
  | due =>
    rw [hpc] at hstep
    cases hstep
    split_ifs
    · exact hgo .idle
    · exact h.congr (world_heapCheckGoto ..) (log_heapCheckGoto ..)
  | heapchk =>
    rw [hpc] at hstep
    exact (hgo .heapValidate).report (heapErrors_kinds threadId _ ok) hstep
  | heapValidate =>
    rw [hpc] at hstep
    exact (hgo .setNext).report (heapErrors_kinds threadId _ ok) hstep
  | setNext =>
    rw [hpc] at hstep
    cases hstep
    exact h.congr (world_heapCheckGoto ..) (log_heapCheckGoto ..)

/-- **Every step** keeps the flags right. -/
theorem remembers_step {c : AppCall} (h : Remembers app)
    (hstep : app.step o dbg processStartTicks c = some app') : Remembers app' := by
  cases c with
  | lock c =>
    obtain ⟨w, hw, rfl⟩ := Option.map_eq_some_iff.1 hstep
    obtain ⟨reports, hrep⟩ := World.step_reports hw
    have hlog : ({ if c.isHook then app.countCall else app with world := w } : App N).log =
        app.log := by
      dsimp only
      split_ifs <;> rfl
    refine ⟨?_, ?_, hlog ▸ h.log⟩
    · show w.monitor.potentialDeadlocksFound = w.monitor.log.any Report.isDeadlock
      rw [hrep.potentialDeadlocksFound, hrep.log, List.any_append, h.potentialDeadlocksFound]
    · show w.monitor.otherErrorsFound = w.monitor.log.any Report.isOtherError
      rw [hrep.otherErrorsFound, hrep.log, List.any_append, h.otherErrorsFound]
  | checkAddress threadId block family function =>
    exact h.report (checkAddress_errors _ _ _ _ _) hstep
  | checkHeapAddress threadId heap block function =>
    exact h.report (checkHeapAddress_errors _ _ _ _ _) hstep
  | checkHeapPeriodic threadId ticks ok => exact h.checkHeapPeriodic hstep
  | hook | add | addHeap | erase | resetAll =>
    cases hstep
    exact h.congr rfl rfl

/-- **The flags after a run**. -/
theorem remembers_run {calls : List AppCall}
    (hrun : Runs.run (step o dbg processStartTicks) (init N processStartTicks) calls = some app) :
    Remembers app :=
  Runs.run_induct (motive := fun _ app => Remembers app) (remembers_init N processStartTicks)
    (fun _ _ _ _ _ h hstep => remembers_step h hstep) calls app hrun

end App

/-- **The exit status**: with `on_error=fail_on_exit`, a run in which an error was reported is
terminated with the exit code in the end exactly if a potential deadlock or an error of the lock
monitor other than the deletion of a held lock was reported, or there are leaks, or no call was
counted. -/
theorem exit_status_iff (N : ℕ) (o : UserOptions) (dbg : Bool) (processStartTicks : ℕ)
    (calls : List AppCall) (app : App N) (ho : o.onError = .failOnExit)
    (hrun : Runs.run (App.step o dbg processStartTicks) (.init N processStartTicks) calls =
      some app) :
    (app.reports ≠ [] → app.destructor o = some o.exitCode) ↔
      app.reports = [] ∨ (∃ r ∈ app.reports, r.isDeadlock = true ∨ r.isOtherError = true) ∨
        0 < app.repo.leakCount ∨ app.monitoredApiCalls = 0 := by
  have h := App.remembers_run hrun
  have hkinds : (app.world.monitor.potentialDeadlocksFound ||
      app.world.monitor.otherErrorsFound) = true ↔
      ∃ r ∈ app.reports, r.isDeadlock = true ∨ r.isOtherError = true := by
    rw [h.potentialDeadlocksFound, h.otherErrorsFound, Bool.or_eq_true, List.any_eq_true,
      List.any_eq_true, ← exists_or]
    refine exists_congr fun r => ?_
    rw [← and_or_left]
    refine and_congr_left fun hr => ?_
    rw [App.reports, List.mem_append, or_iff_left fun hlog => ?_]
    obtain ⟨hdeadlock, hother⟩ := h.log r hlog
    rw [hdeadlock, hother] at hr
    exact absurd hr (by decide)
  have hdestructor : app.destructor o = some o.exitCode ↔
      (∃ r ∈ app.reports, r.isDeadlock = true ∨ r.isOtherError = true) ∨
        0 < app.repo.leakCount ∨ app.monitoredApiCalls = 0 := by
    rw [← hkinds, App.destructor_eq_some ho]
  rw [hdestructor]
  by_cases hnil : app.reports = []
  · exact iff_of_true (fun hc => absurd hnil hc) (Or.inl hnil)
  · rw [or_iff_right hnil, imp_iff_right hnil]

/-- A release of a lock that is not held is remembered. -/
theorem exit_status_iff_release :
    ∃ app, Runs.run (App.step {} false 0) (.init 20 0) [.lock (.afterLock 1 16)] = some app ∧
      app.reports ≠ [] ∧ app.destructor {} = some 66 := by
  have heval : (Runs.run (App.step {} false 0) (.init 20 0) [.lock (.afterLock 1 16)]).any
      (fun app => decide (app.reports ≠ [] ∧
        app.reports.any (fun r => r.isDeadlock || r.isOtherError) = true)) = true := by
    decide +kernel
  obtain ⟨app, hrun, heval⟩ := (Option.any_eq_true _ _).1 heval
  obtain ⟨hne, hany⟩ := of_decide_eq_true heval
  obtain ⟨r, hr, hkind⟩ := List.any_eq_true.1 hany
  refine ⟨app, hrun, hne, (exit_status_iff 20 {} false 0 _ app rfl hrun).2 ?_ hne⟩
  exact Or.inr (Or.inl ⟨r, hr, Bool.or_eq_true_iff.1 hkind⟩)

/-- A block is freed twice. -/
def doubleFree : List AppCall :=
  [.hook, .add 16 8 .malloc .malloc, .hook, .checkAddress 1 16 .malloc .free, .erase 0 16,
    .hook, .checkAddress 1 16 .malloc .free]

/-- The second `free` is reported, but the process ends as if nothing had happened. -/
theorem exit_status_doubleFree :
    ∃ app, Runs.run (App.step {} false 0) (.init 20 0) doubleFree = some app ∧
      app.reports ≠ [] ∧ app.destructor {} = none := by
  have heval : (Runs.run (App.step {} false 0) (.init 20 0) doubleFree).any
      (fun app => decide (app.reports ≠ [] ∧ app.destructor {} = none)) = true := by
    decide +kernel
  obtain ⟨app, hrun, heval⟩ := (Option.any_eq_true _ _).1 heval
  exact ⟨app, hrun, of_decide_eq_true heval⟩

/-! ### The hooks of `malloc`, `realloc` and `free` -/

namespace App

variable {N : ℕ} {o : UserOptions} {dbg : Bool} {processStartTicks : ℕ} {app app' : App N}
  {s s' : LeakState}

/-- The repository and the errors of the allocation monitors. -/
structure SameLeaks (s : LeakState) (app : App N) : Prop where
  repo : app.repo = s.repo
  log : app.log = s.log

/-- The steps that a step of a hook consists of. -/
def Simulates (o : UserOptions) (dbg : Bool) (processStartTicks : ℕ) (app : App N)
    (s' : LeakState) : Prop :=
  ∃ calls app', Runs.run (step o dbg processStartTicks) app calls = some app' ∧ SameLeaks s' app'

theorem SameLeaks.simulates (h : SameLeaks s app) (hrepo : s'.repo = s.repo)
    (hlog : s'.log = s.log) : Simulates o dbg processStartTicks app s' :=
  ⟨[], app, rfl, h.repo.trans hrepo.symm, h.log.trans hlog.symm⟩

theorem simulates_one (c : AppCall) (h : app.step o dbg processStartTicks c = some app')
    (hsame : SameLeaks s' app') : Simulates o dbg processStartTicks app s' :=
  ⟨[c], app', by rw [Runs.run_cons, h]; rfl, hsame⟩

theorem call_frame {t : ℕ} {c : HookCall} (h : s.call t c = some s') :
    s'.repo = s.repo ∧ s'.log = s.log := by
  cases c with
  | malloc size =>
    cases h
    exact ⟨rfl, rfl⟩
  | realloc memblock size | free pUser =>
    simp only [LeakState.call, LeakState.take] at h
    split_ifs at h <;> cases h <;> exact ⟨rfl, rfl⟩

theorem alloc_frame {t p : ℕ} {pc : Pc} (h : s.alloc t p pc = some s') :
    s'.repo = s.repo ∧ s'.log = s.log := by
  unfold LeakState.alloc at h
  split_ifs at h
  cases h
  exact ⟨rfl, rfl⟩

/-- A lookup is a check of the address. -/
theorem SameLeaks.lookup (h : SameLeaks s app) {t block : ℕ} {function : ApiFunction}
    {pc : Bool → Pc} (hl : s.lookup o t block function pc = some s') :
    Simulates o dbg processStartTicks app s' := by
  unfold LeakState.lookup at hl
  obtain ⟨⟨found, error⟩, hcheck⟩ : ∃ r,
      logOrAbortIfMemoryAddressIsUnknown s.repo t block .malloc function = r := ⟨_, rfl⟩
  rw [hcheck] at hl
  cases error with
  | none =>
    cases hl
    exact h.simulates rfl rfl
  | some r =>
    obtain ⟨log, hlog, rfl⟩ := Option.map_eq_some_iff.1 hl
    have hsame : SameLeaks ({ s with log := log }.goto t (pc found)) { app with log := log } :=
      ⟨h.repo, rfl⟩
    refine simulates_one (.checkAddress t block .malloc function) ?_ hsame
    show app.report o (logOrAbortIfMemoryAddressIsUnknown app.repo t block .malloc
      function).2.toList = _
    unfold report
    rw [h.repo, hcheck, Option.toList_some, List.foldlM_cons, h.log, hlog]
    rfl

/-- **One step** of a hook. -/
theorem SameLeaks.next (h : SameLeaks s app) {t result : ℕ} (hn : s.next o t result = some s') :
    Simulates o dbg processStartTicks app s' := by
  unfold LeakState.next at hn
  cases hpc : s.pc t with
  | idle => rw [hpc] at hn; cases hn
  | mallocReal size =>
    rw [hpc] at hn
    dsimp only at hn
    split_ifs at hn
    · cases hn
      exact h.simulates rfl rfl
    · exact h.simulates (alloc_frame hn).1 (alloc_frame hn).2
  | reallocLookup memblock size | freeLookup pUser =>
    rw [hpc] at hn
    exact h.lookup hn
  | reallocReal memblock size found =>
    rw [hpc] at hn
    dsimp only at hn
    split_ifs at hn
    all_goals first
      | (cases hn; exact h.simulates rfl rfl)
      | exact h.simulates (alloc_frame hn).1 (alloc_frame hn).2
  | reallocErase memblock p size =>
    rw [hpc] at hn
    cases hn
    refine simulates_one (.erase 0 memblock) rfl ⟨?_, h.log⟩
    exact congrArg (fun r : MemoryLeakRepository => r.erase (0, memblock)) h.repo
  | freeErase pUser =>
    rw [hpc] at hn
    cases hn
    refine simulates_one (.erase 0 pUser) rfl ⟨?_, h.log⟩
    exact congrArg (fun r : MemoryLeakRepository => r.erase (0, pUser)) h.repo
  | add p size function =>
    rw [hpc] at hn
    cases hn
    refine simulates_one (.add p size .malloc function) rfl ⟨?_, h.log⟩
    exact congrArg (fun r : MemoryLeakRepository => r.add p size .malloc function) h.repo
  | freeReal pUser =>
    rw [hpc] at hn
    cases hn
    split_ifs <;> exact h.simulates rfl rfl

theorem SameLeaks.step (h : SameLeaks s app) {c : LeakCall} (hstep : s.step o c = some s') :
    Simulates o dbg processStartTicks app s' := by
  cases c with
  | call t c =>
    simp only [LeakState.step] at hstep
    split_ifs at hstep
    obtain ⟨hrepo, hlog⟩ := call_frame hstep
    exact simulates_one .hook rfl ⟨h.repo.trans hrepo.symm, h.log.trans hlog.symm⟩
  | next t result => exact h.next hstep
  | give t t' p =>
    simp only [LeakState.step] at hstep
    split_ifs at hstep
    cases hstep
    exact h.simulates rfl rfl

/-- **Every run of the hooks** is a run of the application. -/
theorem leak_run_simulated {calls : List LeakCall}
    (hrun : Runs.run (LeakState.step o) .init calls = some s) :
    ∃ appCalls app, Runs.run (App.step o dbg processStartTicks) (.init N processStartTicks)
      appCalls = some app ∧ SameLeaks s app := by
  refine Runs.run_induct (motive := fun _ s => ∃ appCalls app, Runs.run
    (App.step o dbg processStartTicks) (.init N processStartTicks) appCalls = some app ∧
      SameLeaks s app) ⟨[], _, rfl, rfl, rfl⟩ ?_ calls s hrun
  rintro l s₁ c s₂ - ⟨appCalls, app, happ, hsame⟩ hstep
  obtain ⟨calls', app', happ', hsame'⟩ : Simulates o dbg processStartTicks app s₂ :=
    hsame.step hstep
  refine ⟨appCalls ++ calls', app', ?_, hsame'⟩
  rw [Runs.run_append, happ]
  exact happ'

end App

end BugInsight

import BugInsight.GraphCycles.Graph
import BugInsight.ThreadHistory
import BugInsight.Watchdog

/-!
# The lock monitor

`deadlock_monitor_t` with the thread-local variables of all threads, and the hooks around the lock
functions of the application.  A hook calls the monitor, then the real function, and after an
acquisition the monitor again, whatever a blocking function has returned; other threads may run in
between.  Every access to the
graph is under `m_deadlock_graph_mutex`, so one call of the monitor is one step.

A call of type `Option` may fail to return: `GetId` may have to allocate a node that does not fit
into the vector any more, and with `on_error=fail` the first error terminates the process.
-/

namespace BugInsight

/-- What a call reads from its surroundings. -/
structure Env where
  /-- `timer::get_ms_tick_counts`, the milliseconds since the system was started -/
  ticks : ℕ
  /-- the return addresses that `GetStackFrames` finds -/
  frames : List ℕ := []
  ticks_pos : 0 < ticks

/-- `deadlock_monitor_t` and the thread-local variables beside it. -/
structure Monitor (N : ℕ) where
  graph : Rep
  potentialDeadlocksFound : Bool
  otherErrorsFound : Bool
  watchdog : Watchdog
  /-- `g_sync_locks_held` of a thread -/
  held : ℕ → SynchLocksHeld N
  /-- `g_ignore_counter_lock` of a thread -/
  ignoreLock : ℕ → ℕ
  /-- `g_ignore_counter_unlock` of a thread -/
  ignoreUnlock : ℕ → ℕ
  /-- the errors reported so far -/
  log : List Report
  /-- the pairs of ids that `InsertEdge` was called with so far -/
  insertCalls : List (ℕ × ℕ)

namespace Monitor

variable {N : ℕ}

/-- The monitor when the library is loaded. -/
def new (N : ℕ) : Monitor N where
  graph := .empty
  potentialDeadlocksFound := false
  otherErrorsFound := false
  watchdog := {}
  held := SynchLocksHeld.new N
  ignoreLock := fun _ => 0
  ignoreUnlock := fun _ => 0
  log := []
  insertCalls := []

variable (o : UserOptions) (e : Env) (threadId mu id : ℕ) (m : Monitor N)

/-- A call of `process_error`. -/
def report (r : Report) : Option (Monitor N) :=
  (processError o m.log r).map fun log => { m with log := log }

/-- Assignment to the held-lock list of a thread. -/
def setHeld (h : SynchLocksHeld N) : Monitor N :=
  { m with held := Function.update m.held threadId h }

/-- `increase_ignore_counter`. -/
def increaseIgnoreCounter (lockCounter unlocksCounter : ℕ) : Monitor N :=
  { m with
    ignoreLock := Function.update m.ignoreLock threadId
      ((m.ignoreLock threadId + lockCounter) % 2 ^ 32)
    ignoreUnlock := Function.update m.ignoreUnlock threadId
      ((m.ignoreUnlock threadId + unlocksCounter) % 2 ^ 32) }

/-- `Synch_GetAllLocks`, for its effect: a thread to be monitored is registered once. -/
def synchGetAllLocks (monitorThread : Bool) : Monitor N :=
  if monitorThread && !(m.held threadId).threadMonitorActive then
    { m with watchdog := m.watchdog.addThread o threadId }.setHeld threadId
      (m.held threadId).activate
  else m

/-- The path that `build_deadlock_circle_log_text` prints. -/
def deadlockPath (otherNodeId : ℕ) : Option (ℕ × List ℕ) :=
  if o.collectCallstacks then some (m.graph.findPath id otherNodeId 10 (List.replicate 10 0))
  else none

/-- The loop of `dlc_deadlock_check_before_lock` over the locks that the thread holds. -/
def checkHeld : List Lock → Monitor N → Option (Monitor N)
  | [], m => some m
  | l :: ls, m =>
      if m.graph.ptr l.id = nullptr then checkHeld ls m
      else if l.id = id then some m
      else
        let inserted := m.graph.insertEdge l.id id
        let m := { m with graph := inserted.1, insertCalls := m.insertCalls ++ [(l.id, id)] }
        if inserted.2 then checkHeld ls m
        else
          (m.report o (.deadlockCircle mu threadId (m.deadlockPath o id l.id))).map fun m =>
            { m with potentialDeadlocksFound := true }

/-- `dlc_deadlock_check_before_lock`, with the graph id it returns. -/
def dlcDeadlockCheckBeforeLock : Option (Monitor N × ℕ) :=
  if 0 < m.ignoreLock threadId then
    some ({ m with
      ignoreLock := Function.update m.ignoreLock threadId (m.ignoreLock threadId - 1) }, 0)
  else
    let m := m.synchGetAllLocks o threadId true
    let h := m.held threadId
    if N ≤ h.n then
      (m.report o (.maxLocksPerThreadReached h.n threadId mu)).map fun m =>
        ({ m with otherErrorsFound := true }, 0)
    else
      (m.graph.getId threadId mu).bind fun (graph, id) =>
        let m := { m with
          graph := graph.updateStackTrace o.collectCallstacks id threadId h.n h.locks e.frames }
        if h.n = 0 then some (m.setHeld threadId (h.setStart e.ticks), id)
        else (checkHeld o threadId mu id h.entries m).map fun m => (m, id)

/-- `dlc_deadlock_check_in_lock`. -/
def dlcDeadlockCheckInLock : Monitor N :=
  m.setHeld threadId (updateLockHistoryInLock mu id (m.held threadId))

/-- `dlc_deadlock_check_after_lock`. -/
def dlcDeadlockCheckAfterLock : Option (Monitor N) :=
  if 0 < m.ignoreUnlock threadId then
    some { m with
      ignoreUnlock := Function.update m.ignoreUnlock threadId (m.ignoreUnlock threadId - 1) }
  else
    (m.graph.getId threadId mu).bind fun (graph, id) =>
      let m := { m with graph := graph }
      match updateLockHistoryAfterLock threadId mu id (m.held threadId) with
      | (h, ok, error) =>
          let reported := match error with
            | some r => m.report o r
            | none => some m
          reported.map fun m =>
            let m := if ok then m else { m with otherErrorsFound := true }
            m.setHeld threadId h.clearStart

/-- `dlc_deadlock_check_before_try_lock`, with the graph id it returns. -/
def dlcDeadlockCheckBeforeTryLock : Option (Monitor N × ℕ) :=
  -- decremented if it is positive
  let m := { m with
    ignoreLock := Function.update m.ignoreLock threadId (m.ignoreLock threadId - 1) }
  (m.graph.getId threadId mu).map fun (graph, id) =>
    let m := { m with graph := graph }.synchGetAllLocks o threadId true
    let h := m.held threadId
    (if h.n = 0 then m.setHeld threadId (h.setStart e.ticks) else m, id)

/-- `dlc_deadlock_delete_lock`. -/
def dlcDeadlockDeleteLock : Option (Monitor N) :=
  (m.graph.removeNode mu).bind fun graph =>
    let m := { m with graph := graph }
    let h := m.held threadId
    if h.findEntry (·.mu = mu) = h.n then some m
    else m.report o (.deleteLockedLock threadId mu)

/-- `buginsight_cnd_wait`. -/
def buginsightCndWait : Monitor N :=
  m.setHeld threadId ((m.held threadId).setStart condWaitMark)

/-- `process_watchdog_error`. -/
def processWatchdogError (holdDurationSec : ℕ) : Option (Monitor N) :=
  let h := m.held threadId
  { m with otherErrorsFound := true }.report o (.watchdogError h.id (0 < h.n) holdDurationSec)

/-- The first sections of `one_shot_timer_callback`: the scan and the report. -/
def watchdogScan (debuggerPresent : Bool) (now : ℕ) : Option (Monitor N) :=
  let found := m.watchdog.scan o debuggerPresent now fun t => (m.held t).lockStartTimePoint
  let m := { m with watchdog := found.1 }
  match found.2 with
  | some (threadId, elapsedMs) => m.processWatchdogError o threadId (elapsedMs / 1000)
  | none => some m

/-- The end of a thread: its thread-local variables are destroyed, and it is not watched any
more. -/
def onThreadDelete : Monitor N :=
  { m with
    watchdog := if (m.held threadId).threadMonitorActive then m.watchdog.removeThread o threadId
      else m.watchdog
    held := Function.update m.held threadId (SynchLocksHeld.new N threadId)
    ignoreLock := Function.update m.ignoreLock threadId 0
    ignoreUnlock := Function.update m.ignoreUnlock threadId 0 }

/-! ### What the calls do -/

section Cases

variable {o : UserOptions} {e : Env} {threadId mu id : ℕ} {m m' : Monitor N}

theorem report_eq_some {r : Report} : m.report o r = some m' ↔
    o.onError ≠ .fail ∧ m' = { m with log := m.log ++ [r] } := by
  unfold report
  rw [Option.map_eq_some_iff]
  constructor
  · rintro ⟨log, hlog, rfl⟩
    obtain ⟨ho, rfl⟩ := processError_eq_some.1 hlog
    exact ⟨ho, rfl⟩
  · rintro ⟨ho, rfl⟩
    exact ⟨_, processError_eq_some.2 ⟨ho, rfl⟩, rfl⟩

/-- The `m_lock_start_time_point` of the threads. -/
def starts (m : Monitor N) (t : ℕ) : ℕ := (m.held t).lockStartTimePoint

/-- `Synch_GetAllLocks` registers a thread, or does nothing. -/
theorem synchGetAllLocks_eq (o : UserOptions) (threadId : ℕ) (m : Monitor N) (b : Bool) :
    ∃ watchdog held, m.synchGetAllLocks o threadId b =
        { m with watchdog := watchdog, held := held } ∧
      ∀ t, (m.held t).SameLocks (held t) ∧
        (held t).lockStartTimePoint = (m.held t).lockStartTimePoint := by
  unfold synchGetAllLocks
  split_ifs
  · refine ⟨_, _, rfl, fun t => ?_⟩
    dsimp only
    by_cases ht : t = threadId
    · rw [ht, Function.update_self]
      exact ⟨⟨rfl, rfl⟩, rfl⟩
    · rw [Function.update_of_ne ht]
      exact ⟨.rfl _, rfl⟩
  · exact ⟨_, _, rfl, fun t => ⟨.rfl _, rfl⟩⟩

/-- A thread takes the time. -/
theorem held_setStart (held : ℕ → SynchLocksHeld N) (threadId ticks t : ℕ) :
    (held t).SameLocks (Function.update held threadId ((held threadId).setStart ticks) t) ∧
      (Function.update held threadId ((held threadId).setStart ticks) t).lockStartTimePoint =
        if t = threadId then ticks else (held t).lockStartTimePoint := by
  by_cases ht : t = threadId
  · rw [ht, Function.update_self, if_pos rfl]
    exact ⟨⟨rfl, rfl⟩, rfl⟩
  · rw [Function.update_of_ne ht, if_neg ht]
    exact ⟨.rfl _, rfl⟩

/-- The loop over the locks held changes the graph, and it may end with a report. -/
theorem checkHeld_frame {ls : List Lock} (h : checkHeld o threadId mu id ls m = some m') :
    ∃ g calls, m' = { m with graph := g, insertCalls := calls } ∨
      ∃ path, m' = { m with
        graph := g
        insertCalls := calls
        log := m.log ++ [.deadlockCircle mu threadId path]
        potentialDeadlocksFound := true } := by
  induction ls generalizing m with
  | nil =>
    cases h
    exact ⟨m'.graph, m'.insertCalls, Or.inl rfl⟩
  | cons l ls ih =>
    unfold checkHeld at h
    dsimp only at h
    split_ifs at h with hptr hid hinserted
    · exact ih h
    · cases h
      exact ⟨m'.graph, m'.insertCalls, Or.inl rfl⟩
    · obtain ⟨g, calls, hm'⟩ := ih h
      exact ⟨g, calls, hm'⟩
    · obtain ⟨m₁, hm₁, rfl⟩ := Option.map_eq_some_iff.1 h
      obtain ⟨-, rfl⟩ := report_eq_some.1 hm₁
      exact ⟨_, _, Or.inr ⟨_, rfl⟩⟩

/-- **`dlc_deadlock_check_before_lock`** skips the call, refuses it, or looks up the id and goes on
to the locks held. -/
theorem beforeLock_cases (h : m.dlcDeadlockCheckBeforeLock o e threadId mu = some (m', id)) :
    0 < m.ignoreLock threadId ∧ id = 0 ∧
        m' = { m with ignoreLock :=
          Function.update m.ignoreLock threadId (m.ignoreLock threadId - 1) } ∨
      m.ignoreLock threadId = 0 ∧ ∃ m₁, m₁ = m.synchGetAllLocks o threadId true ∧
        (N ≤ (m.held threadId).n ∧ id = 0 ∧
            m' = { m₁ with
              log := m.log ++ [.maxLocksPerThreadReached (m.held threadId).n threadId mu]
              otherErrorsFound := true } ∨
          (m.held threadId).n < N ∧ ∃ g, m.graph.getId threadId mu = some (g, id) ∧
            ∃ m₂, m₂ = { m₁ with
                graph := g.updateStackTrace o.collectCallstacks id threadId (m₁.held threadId).n
                  (m₁.held threadId).locks e.frames } ∧
              ((m.held threadId).n = 0 ∧
                  m' = m₂.setHeld threadId ((m₁.held threadId).setStart e.ticks) ∨
                (m.held threadId).n ≠ 0 ∧
                  checkHeld o threadId mu id (m.held threadId).entries m₂ = some m')) := by
  unfold dlcDeadlockCheckBeforeLock at h
  split_ifs at h with hign
  · cases h
    exact Or.inl ⟨hign, rfl, rfl⟩
  · refine Or.inr ⟨Nat.eq_zero_of_not_pos hign, _, rfl, ?_⟩
    obtain ⟨watchdog, held, heq, hheld⟩ := synchGetAllLocks_eq o threadId m true
    have hsame := (hheld threadId).1
    rw [heq] at h ⊢
    dsimp only at h ⊢
    rw [hsame.n, hsame.entries] at h
    rw [hsame.n]
    split_ifs at h with hfull hzero
    · obtain ⟨m₂, hrep, heq'⟩ := Option.map_eq_some_iff.1 h
      obtain ⟨-, rfl⟩ := report_eq_some.1 hrep
      cases heq'
      exact Or.inl ⟨hfull, rfl, rfl⟩
    · obtain ⟨⟨g, id'⟩, hg, heq'⟩ := Option.bind_eq_some_iff.1 h
      cases heq'
      exact Or.inr ⟨not_le.1 hfull, g, hg, _, rfl, Or.inl ⟨hzero, rfl⟩⟩
    · obtain ⟨⟨g, id'⟩, hg, heq'⟩ := Option.bind_eq_some_iff.1 h
      obtain ⟨m₂, hcheck, heq'⟩ := Option.map_eq_some_iff.1 heq'
      cases heq'
      exact Or.inr ⟨not_le.1 hfull, g, hg, _, rfl, Or.inr ⟨hzero, hcheck⟩⟩

/-- **`dlc_deadlock_check_before_lock`** counts a request to ignore a lock down. -/
theorem beforeLock_counters (h : m.dlcDeadlockCheckBeforeLock o e threadId mu = some (m', id)) :
    m'.ignoreLock = Function.update m.ignoreLock threadId (m.ignoreLock threadId - 1) ∧
      m'.ignoreUnlock = m.ignoreUnlock := by
  obtain ⟨watchdog, held, heq, -⟩ := synchGetAllLocks_eq o threadId m true
  rcases beforeLock_cases h with ⟨-, -, rfl⟩ | ⟨hzero, m₁, hm₁, hcases⟩
  · exact ⟨rfl, rfl⟩
  have hsame : Function.update m.ignoreLock threadId (m.ignoreLock threadId - 1) = m.ignoreLock := by
    rw [hzero, Nat.zero_sub, ← hzero, Function.update_eq_self]
  rw [hsame]
  rw [heq] at hm₁
  subst hm₁
  rcases hcases with ⟨-, -, rfl⟩ | ⟨-, g, -, m₂, rfl, ⟨-, rfl⟩ | ⟨-, hcheck⟩⟩
  · exact ⟨rfl, rfl⟩
  · exact ⟨rfl, rfl⟩
  · obtain ⟨g', calls, rfl | ⟨path, rfl⟩⟩ := checkHeld_frame hcheck
    · exact ⟨rfl, rfl⟩
    · exact ⟨rfl, rfl⟩

/-- The lists after `before_lock`: a thread that holds nothing takes the time, unless the call is
skipped or refused. -/
theorem beforeLock_held (h : m.dlcDeadlockCheckBeforeLock o e threadId mu = some (m', id)) :
    (∀ t, (m.held t).SameLocks (m'.held t)) ∧
      (id = invalidGraphId ∧ (0 < m.ignoreLock threadId ∨ N ≤ (m.held threadId).n) ∧
          (∀ t, m'.starts t = m.starts t) ∨
        m.ignoreLock threadId = 0 ∧ (m.held threadId).n < N ∧
          (∃ g, m.graph.getId threadId mu = some (g, id)) ∧
          ∀ t, m'.starts t =
            if t = threadId ∧ (m.held threadId).n = 0 then e.ticks else m.starts t) := by
  obtain ⟨watchdog, held, heq, hheld⟩ := synchGetAllLocks_eq o threadId m true
  rcases beforeLock_cases h with ⟨hign, rfl, rfl⟩ | ⟨hign, m₁, hm₁, hcases⟩
  · exact ⟨fun t => .rfl _, Or.inl ⟨rfl, Or.inl hign, fun t => rfl⟩⟩
  rw [heq] at hm₁
  subst hm₁
  rcases hcases with ⟨hfull, rfl, rfl⟩ | ⟨hn, g, hg, m₂, rfl, ⟨hzero, rfl⟩ | ⟨hpos, hcheck⟩⟩
  · exact ⟨fun t => (hheld t).1, Or.inl ⟨rfl, Or.inr hfull, fun t => (hheld t).2⟩⟩
  · refine ⟨fun t => (hheld t).1.trans (held_setStart held threadId e.ticks t).1,
      Or.inr ⟨hign, hn, ⟨g, hg⟩, fun t => ?_⟩⟩
    simp only [hzero, and_true]
    exact (held_setStart held threadId e.ticks t).2.trans (if_congr Iff.rfl rfl (hheld t).2)
  · have hsame : m'.held = held := by
      obtain ⟨g', calls, rfl | ⟨path, rfl⟩⟩ := checkHeld_frame hcheck <;> rfl
    refine ⟨fun t => hsame ▸ (hheld t).1, Or.inr ⟨hign, hn, ⟨g, hg⟩, fun t => ?_⟩⟩
    rw [if_neg fun hc => hpos hc.2, starts, hsame]
    exact (hheld t).2

/-- **`dlc_deadlock_check_before_try_lock`** looks up the id, and takes the time if the thread holds
no lock. -/
theorem beforeTryLock_cases
    (h : m.dlcDeadlockCheckBeforeTryLock o e threadId mu = some (m', id)) :
    ∃ g m₁, m.graph.getId threadId mu = some (g, id) ∧
      m₁ = ({ m with
        graph := g
        ignoreLock := Function.update m.ignoreLock threadId (m.ignoreLock threadId - 1) } :
          Monitor N).synchGetAllLocks o threadId true ∧
      ((m.held threadId).n = 0 ∧
          m' = m₁.setHeld threadId ((m₁.held threadId).setStart e.ticks) ∨
        (m.held threadId).n ≠ 0 ∧ m' = m₁) := by
  unfold dlcDeadlockCheckBeforeTryLock at h
  obtain ⟨⟨g, id'⟩, hg, heq⟩ := Option.map_eq_some_iff.1 h
  dsimp only at hg heq
  obtain ⟨watchdog, held, hsync, hheld⟩ := synchGetAllLocks_eq o threadId ({ m with
    graph := g
    ignoreLock := Function.update m.ignoreLock threadId (m.ignoreLock threadId - 1) } :
      Monitor N) true
  have hn := (hheld threadId).1.n
  rw [hsync] at heq
  dsimp only at heq hn
  rw [hn] at heq
  obtain ⟨hm, rfl⟩ := Prod.mk.inj heq
  refine ⟨g, _, hg, rfl, ?_⟩
  rw [hsync]
  split_ifs at hm with hzero
  · exact Or.inl ⟨hzero, hm.symm⟩
  · exact Or.inr ⟨hzero, hm.symm⟩

/-- **`dlc_deadlock_check_before_try_lock`** counts a request to ignore a lock down. -/
theorem beforeTryLock_counters
    (h : m.dlcDeadlockCheckBeforeTryLock o e threadId mu = some (m', id)) :
    m'.ignoreLock = Function.update m.ignoreLock threadId (m.ignoreLock threadId - 1) ∧
      m'.ignoreUnlock = m.ignoreUnlock := by
  obtain ⟨g, m₁, -, hm₁, hcases⟩ := beforeTryLock_cases h
  obtain ⟨watchdog, held, heq, -⟩ := synchGetAllLocks_eq o threadId ({ m with
    graph := g
    ignoreLock := Function.update m.ignoreLock threadId (m.ignoreLock threadId - 1) } :
      Monitor N) true
  rw [heq] at hm₁
  subst hm₁
  rcases hcases with ⟨-, rfl⟩ | ⟨-, rfl⟩
  · exact ⟨rfl, rfl⟩
  · exact ⟨rfl, rfl⟩

/-- The graph after `before_try_lock` is the one that `GetId` left. -/
theorem beforeTryLock_graph
    (h : m.dlcDeadlockCheckBeforeTryLock o e threadId mu = some (m', id)) :
    m.graph.getId threadId mu = some (m'.graph, id) := by
  obtain ⟨g, m₁, hg, hm₁, hcases⟩ := beforeTryLock_cases h
  obtain ⟨watchdog, held, heq, -⟩ := synchGetAllLocks_eq o threadId ({ m with
    graph := g
    ignoreLock := Function.update m.ignoreLock threadId (m.ignoreLock threadId - 1) } :
      Monitor N) true
  rw [heq] at hm₁
  subst hm₁
  rcases hcases with ⟨-, rfl⟩ | ⟨-, rfl⟩
  · exact hg
  · exact hg

/-- The lists after `before_try_lock`. -/
theorem beforeTryLock_held
    (h : m.dlcDeadlockCheckBeforeTryLock o e threadId mu = some (m', id)) :
    (∀ t, (m.held t).SameLocks (m'.held t)) ∧
      ∀ t, m'.starts t =
        if t = threadId ∧ (m.held threadId).n = 0 then e.ticks else m.starts t := by
  obtain ⟨g, m₁, -, hm₁, hcases⟩ := beforeTryLock_cases h
  obtain ⟨watchdog, held, heq, hheld⟩ := synchGetAllLocks_eq o threadId ({ m with
    graph := g
    ignoreLock := Function.update m.ignoreLock threadId (m.ignoreLock threadId - 1) } :
      Monitor N) true
  rw [heq] at hm₁
  subst hm₁
  rcases hcases with ⟨hzero, rfl⟩ | ⟨hpos, rfl⟩
  · refine ⟨fun t => (hheld t).1.trans (held_setStart held threadId e.ticks t).1, fun t => ?_⟩
    simp only [hzero, and_true]
    exact (held_setStart held threadId e.ticks t).2.trans (if_congr Iff.rfl rfl (hheld t).2)
  · refine ⟨fun t => (hheld t).1, fun t => ?_⟩
    rw [if_neg fun hc => hpos hc.2]
    exact (hheld t).2

/-- **`dlc_deadlock_check_after_lock`** skips the call, or updates the list and reports what is
wrong with it. -/
theorem afterLock_eq (h : m.dlcDeadlockCheckAfterLock o threadId mu = some m') :
    0 < m.ignoreUnlock threadId ∧
        m' = { m with ignoreUnlock :=
          Function.update m.ignoreUnlock threadId (m.ignoreUnlock threadId - 1) } ∨
      m.ignoreUnlock threadId = 0 ∧ ∃ g id, m.graph.getId threadId mu = some (g, id) ∧
        ∃ l ok error,
          updateLockHistoryAfterLock threadId mu id (m.held threadId) = (l, ok, error) ∧
          m' = ({ m with
            graph := g
            log := m.log ++ error.toList
            otherErrorsFound := m.otherErrorsFound || !ok } : Monitor N).setHeld threadId
          l.clearStart := by
  unfold dlcDeadlockCheckAfterLock at h
  split_ifs at h with hign
  · cases h
    exact Or.inl ⟨hign, rfl⟩
  · refine Or.inr ⟨Nat.eq_zero_of_not_pos hign, ?_⟩
    obtain ⟨⟨g, id'⟩, hg, heq⟩ := Option.bind_eq_some_iff.1 h
    refine ⟨g, id', hg, ?_⟩
    dsimp only at heq
    obtain ⟨⟨l, ok, error⟩, hl⟩ : ∃ r,
        updateLockHistoryAfterLock threadId mu id' (m.held threadId) = r := ⟨_, rfl⟩
    rw [hl] at heq
    refine ⟨l, ok, error, hl, ?_⟩
    obtain ⟨m₁, hm₁, rfl⟩ := Option.map_eq_some_iff.1 heq
    have hlog : m₁ = { m with graph := g, log := m.log ++ error.toList } := by
      cases error with
      | none =>
        cases hm₁
        simp
      | some r => exact (report_eq_some.1 hm₁).2
    subst hlog
    cases ok <;> simp

/-- **`dlc_deadlock_check_after_lock`** counts a request to ignore a release down. -/
theorem afterLock_counters (h : m.dlcDeadlockCheckAfterLock o threadId mu = some m') :
    m'.ignoreLock = m.ignoreLock ∧
      m'.ignoreUnlock =
        Function.update m.ignoreUnlock threadId (m.ignoreUnlock threadId - 1) := by
  rcases afterLock_eq h with ⟨-, rfl⟩ | ⟨hzero, g, id, -, l, ok, error, -, rfl⟩
  · exact ⟨rfl, rfl⟩
  · refine ⟨rfl, ?_⟩
    rw [hzero, Nat.zero_sub, ← hzero, Function.update_eq_self]
    rfl

/-- **`dlc_deadlock_delete_lock`** removes the node, and reports a lock that the thread holds. -/
theorem deleteLock_cases (h : m.dlcDeadlockDeleteLock o threadId mu = some m') :
    ∃ g, m.graph.removeNode mu = some g ∧
      ((∀ l ∈ (m.held threadId).entries, l.mu ≠ mu) ∧ m' = { m with graph := g } ∨
        (∃ l ∈ (m.held threadId).entries, l.mu = mu) ∧
          m' = { m with graph := g, log := m.log ++ [.deleteLockedLock threadId mu] }) := by
  unfold dlcDeadlockDeleteLock at h
  obtain ⟨g, hg, heq⟩ := Option.bind_eq_some_iff.1 h
  refine ⟨g, hg, ?_⟩
  dsimp only at heq
  split_ifs at heq with hfind
  · cases heq
    refine Or.inl ⟨fun l hl => ?_, rfl⟩
    exact of_decide_eq_false ((m.held threadId).findEntry_eq_n_iff.1 hfind l hl)
  · obtain ⟨-, hp, hmem⟩ := (m.held threadId).findEntry_spec hfind
    exact Or.inr ⟨⟨_, hmem, of_decide_eq_true hp⟩, (report_eq_some.1 heq).2⟩

/-- **The callback of the timer** marks the thread it reports. -/
theorem watchdogScan_cases {debuggerPresent : Bool} {now : ℕ}
    (h : m.watchdogScan o debuggerPresent now = some m') :
    ∃ found, found = m.watchdog.scan o debuggerPresent now
        (fun t => (m.held t).lockStartTimePoint) ∧
      (found.2 = none ∧ m' = { m with watchdog := found.1 } ∨
        ∃ t elapsedMs, found.2 = some (t, elapsedMs) ∧
          m' = { m with
            watchdog := found.1
            otherErrorsFound := true
            log := m.log ++
              [.watchdogError (m.held t).id (0 < (m.held t).n) (elapsedMs / 1000)] }) := by
  unfold watchdogScan at h
  refine ⟨_, rfl, ?_⟩
  dsimp only at h
  cases hfound : (m.watchdog.scan o debuggerPresent now
    fun t => (m.held t).lockStartTimePoint).2 with
  | none =>
    rw [hfound] at h
    cases h
    exact Or.inl ⟨rfl, rfl⟩
  | some p =>
    rw [hfound] at h
    exact Or.inr ⟨p.1, p.2, rfl, (report_eq_some.1 h).2⟩

end Cases

end Monitor

/-! ### The hooks -/

/-- The local variables of a hook between the two calls of the monitor. -/
structure Pending where
  mu : ℕ
  id : ℕ
  tryLock : Bool

/-- The monitor and the application. -/
structure World (N : ℕ) where
  monitor : Monitor N
  /-- the acquisition that a thread is waiting for -/
  pending : ℕ → Option Pending
  /-- how often a thread holds a lock -/
  owned : ℕ → ℕ → ℕ

/-- What threads and the timer do. -/
inductive Call
  /-- a hook of a blocking acquisition calls the monitor -/
  | beforeLock (threadId mu : ℕ) (e : Env)
  | beforeTryLock (threadId mu : ℕ) (e : Env)
  /-- the real function returns with the lock -/
  | lockAcquired (threadId mu : ℕ)
  /-- a blocking function returns an error, as `_Mtx_lock` does for a mutex that the thread owns -/
  | lockFailed (threadId mu : ℕ)
  | tryLockFailed (threadId mu : ℕ)
  /-- the lock is released -/
  | afterLock (threadId mu : ℕ)
  | deleteLock (threadId mu : ℕ)
  | cndWait (threadId mu : ℕ)
  | increaseIgnoreCounter (threadId lockCounter unlocksCounter : ℕ)
  | threadExit (threadId : ℕ)
  | timerExpired (i : ℕ)
  | watchdogScan (now : ℕ)
  | callbackEnd

namespace World

variable {N : ℕ} (o : UserOptions) (debuggerPresent : Bool)

/-- The start of the application. -/
def init (N : ℕ) : World N where
  monitor := .new N
  pending := fun _ => none
  owned := fun _ _ => 0

/-- The thread is in no hook. -/
def Idle (w : World N) (threadId : ℕ) : Prop := w.pending threadId = none

instance (w : World N) (threadId : ℕ) : Decidable (w.Idle threadId) :=
  decidable_of_iff ((w.pending threadId).isNone = true) Option.isNone_iff_eq_none

/-- A thread waits for an acquisition. -/
def wait (w : World N) (threadId : ℕ) (p : Pending) (m : Monitor N) : World N :=
  { w with monitor := m, pending := Function.update w.pending threadId (some p) }

/-- How often a thread holds a lock is changed. -/
def own (w : World N) (threadId mu : ℕ) (f : ℕ → ℕ) : World N :=
  { w with
    owned := Function.update w.owned threadId
      (Function.update (w.owned threadId) mu (f (w.owned threadId mu))) }

/-- The hook goes on after the real function. -/
def enter (w : World N) (threadId : ℕ) (p : Pending) : World N :=
  { w with
    monitor := if p.id = invalidGraphId then w.monitor
      else w.monitor.dlcDeadlockCheckInLock threadId p.mu p.id
    pending := Function.update w.pending threadId none }

/-- The real function has returned with the lock. -/
def acquire (w : World N) (threadId : ℕ) (p : Pending) : World N :=
  (w.enter threadId p).own threadId p.mu (· + 1)

/-- One call; `none` if it is not possible, does not return, or terminates the process. -/
def step (w : World N) : Call → Option (World N)
  | .beforeLock t mu e =>
      if w.Idle t ∧ mu ≠ nullptr then
        (w.monitor.dlcDeadlockCheckBeforeLock o e t mu).map fun (m, id) =>
          w.wait t ⟨mu, id, false⟩ m
      else none
  | .beforeTryLock t mu e =>
      if w.Idle t ∧ mu ≠ nullptr then
        (w.monitor.dlcDeadlockCheckBeforeTryLock o e t mu).map fun (m, id) =>
          w.wait t ⟨mu, id, true⟩ m
      else none
  | .lockAcquired t mu =>
      match w.pending t with
      | some p =>
          if p.mu = mu then some (w.acquire t p) else none
      | none => none
  | .lockFailed t mu =>
      match w.pending t with
      | some p =>
          -- `bi_mtx_lock` does not look at the result before it calls the monitor again
          if p.mu = mu ∧ p.tryLock = false then some (w.enter t p) else none
      | none => none
  | .tryLockFailed t mu =>
      match w.pending t with
      | some p =>
          if p.mu = mu ∧ p.tryLock then
            some { w with pending := Function.update w.pending t none }
          else none
      | none => none
  | .afterLock t mu =>
      if w.Idle t ∧ mu ≠ nullptr then
        (w.monitor.dlcDeadlockCheckAfterLock o t mu).map fun m =>
          { w with monitor := m }.own t mu (· - 1)
      else none
  | .deleteLock t mu =>
      if w.Idle t ∧ mu ≠ nullptr then
        (w.monitor.dlcDeadlockDeleteLock o t mu).map fun m => { w with monitor := m }
      else none
  | .cndWait t mu =>
      if w.Idle t ∧ mu ≠ nullptr then some { w with monitor := w.monitor.buginsightCndWait t }
      else none
  | .increaseIgnoreCounter t locks unlocks =>
      if w.Idle t then
        some { w with monitor := w.monitor.increaseIgnoreCounter t locks unlocks }
      else none
  | .threadExit t =>
      if w.Idle t then
        some { w with
          monitor := w.monitor.onThreadDelete o t
          owned := Function.update w.owned t fun _ => 0 }
      else none
  | .timerExpired i =>
      (w.monitor.watchdog.timerExpired i).map fun watchdog =>
        { w with monitor := { w.monitor with watchdog := watchdog } }
  | .watchdogScan now =>
      if 0 < w.monitor.watchdog.entered then
        (w.monitor.watchdogScan o debuggerPresent now).map fun m => { w with monitor := m }
      else none
  | .callbackEnd =>
      (w.monitor.watchdog.callbackEnd o).map fun watchdog =>
        { w with monitor := { w.monitor with watchdog := watchdog } }

/-- What a step can do, case by case. -/
inductive Stepped (o : UserOptions) (debuggerPresent : Bool) (w : World N) : Call → World N → Prop
  | beforeLock {t mu id : ℕ} {e : Env} {m : Monitor N} (hidle : w.Idle t) (hmu : mu ≠ nullptr)
      (hcall : w.monitor.dlcDeadlockCheckBeforeLock o e t mu = some (m, id)) :
      Stepped o debuggerPresent w (.beforeLock t mu e) (w.wait t ⟨mu, id, false⟩ m)
  | beforeTryLock {t mu id : ℕ} {e : Env} {m : Monitor N} (hidle : w.Idle t) (hmu : mu ≠ nullptr)
      (hcall : w.monitor.dlcDeadlockCheckBeforeTryLock o e t mu = some (m, id)) :
      Stepped o debuggerPresent w (.beforeTryLock t mu e) (w.wait t ⟨mu, id, true⟩ m)
  | lockAcquired {t : ℕ} {p : Pending} (hp : w.pending t = some p) :
      Stepped o debuggerPresent w (.lockAcquired t p.mu) (w.acquire t p)
  | lockFailed {t : ℕ} {p : Pending} (hp : w.pending t = some p) (hblock : p.tryLock = false) :
      Stepped o debuggerPresent w (.lockFailed t p.mu) (w.enter t p)
  | tryLockFailed {t : ℕ} {p : Pending} (hp : w.pending t = some p) (htry : p.tryLock = true) :
      Stepped o debuggerPresent w (.tryLockFailed t p.mu)
        { w with pending := Function.update w.pending t none }
  | afterLock {t mu : ℕ} {m : Monitor N} (hidle : w.Idle t) (hmu : mu ≠ nullptr)
      (hcall : w.monitor.dlcDeadlockCheckAfterLock o t mu = some m) :
      Stepped o debuggerPresent w (.afterLock t mu) ({ w with monitor := m }.own t mu (· - 1))
  | deleteLock {t mu : ℕ} {m : Monitor N} (hidle : w.Idle t) (hmu : mu ≠ nullptr)
      (hcall : w.monitor.dlcDeadlockDeleteLock o t mu = some m) :
      Stepped o debuggerPresent w (.deleteLock t mu) { w with monitor := m }
  | cndWait {t mu : ℕ} (hidle : w.Idle t) (hmu : mu ≠ nullptr) :
      Stepped o debuggerPresent w (.cndWait t mu)
        { w with monitor := w.monitor.buginsightCndWait t }
  | increaseIgnoreCounter {t locks unlocks : ℕ} (hidle : w.Idle t) :
      Stepped o debuggerPresent w (.increaseIgnoreCounter t locks unlocks)
        { w with monitor := w.monitor.increaseIgnoreCounter t locks unlocks }
  | threadExit {t : ℕ} (hidle : w.Idle t) :
      Stepped o debuggerPresent w (.threadExit t)
        { w with
          monitor := w.monitor.onThreadDelete o t
          owned := Function.update w.owned t fun _ => 0 }
  | timerExpired {i : ℕ} {watchdog : Watchdog}
      (hcall : w.monitor.watchdog.timerExpired i = some watchdog) :
      Stepped o debuggerPresent w (.timerExpired i)
        { w with monitor := { w.monitor with watchdog := watchdog } }
  | watchdogScan {now : ℕ} {m : Monitor N} (hentered : 0 < w.monitor.watchdog.entered)
      (hcall : w.monitor.watchdogScan o debuggerPresent now = some m) :
      Stepped o debuggerPresent w (.watchdogScan now) { w with monitor := m }
  | callbackEnd {watchdog : Watchdog} (hcall : w.monitor.watchdog.callbackEnd o = some watchdog) :
      Stepped o debuggerPresent w .callbackEnd
        { w with monitor := { w.monitor with watchdog := watchdog } }

variable {o debuggerPresent}

theorem stepped {w w' : World N} {c : Call} (h : w.step o debuggerPresent c = some w') :
    Stepped o debuggerPresent w c w' := by
  cases c with
  | beforeLock t mu e =>
    simp only [step] at h
    split_ifs at h with hguard
    obtain ⟨⟨m, id⟩, hcall, rfl⟩ := Option.map_eq_some_iff.1 h
    exact .beforeLock hguard.1 hguard.2 hcall
  | beforeTryLock t mu e =>
    simp only [step] at h
    split_ifs at h with hguard
    obtain ⟨⟨m, id⟩, hcall, rfl⟩ := Option.map_eq_some_iff.1 h
    exact .beforeTryLock hguard.1 hguard.2 hcall
  | lockAcquired t mu =>
    simp only [step] at h
    cases hp : w.pending t with
    | none => rw [hp] at h; cases h
    | some p =>
      rw [hp] at h
      dsimp only at h
      split_ifs at h with hmu
      cases h
      exact hmu ▸ .lockAcquired hp
  | lockFailed t mu =>
    simp only [step] at h
    cases hp : w.pending t with
    | none => rw [hp] at h; cases h
    | some p =>
      rw [hp] at h
      dsimp only at h
      split_ifs at h with hguard
      cases h
      exact hguard.1 ▸ .lockFailed hp hguard.2
  | tryLockFailed t mu =>
    simp only [step] at h
    cases hp : w.pending t with
    | none => rw [hp] at h; cases h
    | some p =>
      rw [hp] at h
      dsimp only at h
      split_ifs at h with hguard
      cases h
      exact hguard.1 ▸ .tryLockFailed hp hguard.2
  | afterLock t mu =>
    simp only [step] at h
    split_ifs at h with hguard
    obtain ⟨m, hcall, rfl⟩ := Option.map_eq_some_iff.1 h
    exact .afterLock hguard.1 hguard.2 hcall
  | deleteLock t mu =>
    simp only [step] at h
    split_ifs at h with hguard
    obtain ⟨m, hcall, rfl⟩ := Option.map_eq_some_iff.1 h
    exact .deleteLock hguard.1 hguard.2 hcall
  | cndWait t mu =>
    simp only [step] at h
    split_ifs at h with hguard
    cases h
    exact .cndWait hguard.1 hguard.2
  | increaseIgnoreCounter t a b =>
    simp only [step] at h
    split_ifs at h with hguard
    cases h
    exact .increaseIgnoreCounter hguard
  | threadExit t =>
    simp only [step] at h
    split_ifs at h with hguard
    cases h
    exact .threadExit hguard
  | timerExpired i =>
    obtain ⟨watchdog, hcall, rfl⟩ := Option.map_eq_some_iff.1 h
    exact .timerExpired hcall
  | watchdogScan now =>
    simp only [step] at h
    split_ifs at h with hguard
    obtain ⟨m, hcall, rfl⟩ := Option.map_eq_some_iff.1 h
    exact .watchdogScan hguard hcall
  | callbackEnd =>
    obtain ⟨watchdog, hcall, rfl⟩ := Option.map_eq_some_iff.1 h
    exact .callbackEnd hcall

/-! ### What the end of a hook changes -/

section Acquire

variable (w : World N) (t : ℕ) (p : Pending)

theorem idle_enter : (w.enter t p).Idle t := Function.update_self ..

theorem owned_acquire : (w.acquire t p).owned t =
    Function.update (w.owned t) p.mu (w.owned t p.mu + 1) := Function.update_self ..

variable {w t p}

/-- An acquisition whose request was refused is not entered. -/
theorem monitor_enter_refused (hid : p.id = invalidGraphId) :
    (w.enter t p).monitor = w.monitor := if_pos hid

theorem monitor_enter (hid : p.id ≠ invalidGraphId) :
    (w.enter t p).monitor = w.monitor.dlcDeadlockCheckInLock t p.mu p.id := if_neg hid

theorem held_enter (hid : p.id ≠ invalidGraphId) : (w.enter t p).monitor.held t =
    updateLockHistoryInLock p.mu p.id (w.monitor.held t) := by
  rw [monitor_enter hid]
  exact Function.update_self ..

theorem monitor_acquire_refused (hid : p.id = invalidGraphId) :
    (w.acquire t p).monitor = w.monitor := monitor_enter_refused hid

theorem monitor_acquire (hid : p.id ≠ invalidGraphId) :
    (w.acquire t p).monitor = w.monitor.dlcDeadlockCheckInLock t p.mu p.id := monitor_enter hid

theorem held_acquire (hid : p.id ≠ invalidGraphId) : (w.acquire t p).monitor.held t =
    updateLockHistoryInLock p.mu p.id (w.monitor.held t) := held_enter hid

variable (w t p)

/-- Of the monitor only the list of held locks changes. -/
theorem enter_frame : (w.enter t p).monitor =
    { w.monitor with held := (w.enter t p).monitor.held } := by
  by_cases hid : p.id = invalidGraphId
  · rw [monitor_enter_refused hid]
  · rw [monitor_enter hid]
    rfl

@[simp] theorem graph_enter : (w.enter t p).monitor.graph = w.monitor.graph := by
  rw [enter_frame]

@[simp] theorem log_enter : (w.enter t p).monitor.log = w.monitor.log := by
  rw [enter_frame]

@[simp] theorem ignoreLock_enter :
    (w.enter t p).monitor.ignoreLock = w.monitor.ignoreLock := by
  rw [enter_frame]

@[simp] theorem ignoreUnlock_enter :
    (w.enter t p).monitor.ignoreUnlock = w.monitor.ignoreUnlock := by
  rw [enter_frame]

@[simp] theorem graph_acquire : (w.acquire t p).monitor.graph = w.monitor.graph :=
  graph_enter w t p

@[simp] theorem log_acquire : (w.acquire t p).monitor.log = w.monitor.log := log_enter w t p

@[simp] theorem ignoreLock_acquire :
    (w.acquire t p).monitor.ignoreLock = w.monitor.ignoreLock := ignoreLock_enter w t p

@[simp] theorem ignoreUnlock_acquire :
    (w.acquire t p).monitor.ignoreUnlock = w.monitor.ignoreUnlock := ignoreUnlock_enter w t p

end Acquire

end World

end BugInsight

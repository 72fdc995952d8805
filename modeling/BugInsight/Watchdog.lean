import BugInsight.Report
import BugInsight.Runs

/-!
# The thread watchdog

`thread_watchdog_t` and the one-shot timers it arms.  The list of threads is scanned in the
callback of a timer; the callback consists of two sections under `m_thread_list_mutex`, `scan` and
`callbackEnd`, between which other threads may add and remove entries.

* `scan_spec`: what one scan does to the entries, and what it reports;
* `timer_chain_iff`: the timers form one chain exactly if no thread is added to the empty list
  while a timer is armed or a callback is in progress.
-/

namespace BugInsight

/-- `thread_info_t`.  The thread id stands for `m_sync_ptr`, the held-lock list of this thread. -/
structure ThreadInfo where
  threadId : ℕ
  alreadyLogged : Bool := false
  deriving DecidableEq, Inhabited

/-- `thread_watchdog_t`. -/
structure Watchdog where
  threads : List ThreadInfo := []
  /-- armed timers, by their durations in seconds -/
  armed : List ℕ := []
  /-- callbacks that have not scanned the list yet -/
  entered : ℕ := 0
  /-- callbacks that have -/
  scanned : ℕ := 0
  deriving DecidableEq

namespace Watchdog

variable (o : UserOptions) (w : Watchdog)

/-- `one_shot_timer_t::start`: one more timer of the timer queue. -/
def start (durationSec : ℕ) : Watchdog := { w with armed := w.armed ++ [durationSec] }

/-- The duration that `add_thread` and the callback start the timer with. -/
def timerDurationSec : ℕ := if 10 ≤ o.threadWatchdogMaxDurationSec then 5 else 1

/-- `add_thread`. -/
def addThread (threadId : ℕ) : Watchdog :=
  if o.threadWatchdogEnabled then
    let w := { w with threads := w.threads ++ [{ threadId := threadId }] }
    if w.threads.length = 1 then w.start (timerDurationSec o) else w
  else w

/-- `remove_thread`: the last entry takes the place of the removed one. -/
def removeThread (threadId : ℕ) : Watchdog :=
  if o.threadWatchdogEnabled then
    let i := w.threads.findIdx (·.threadId = threadId)
    if i = w.threads.length then w
    else { w with threads := (w.threads.set i (w.threads.getLastD default)).dropLast }
  else w

/-- A timer fires: its callback begins. -/
def timerExpired (i : ℕ) : Option Watchdog :=
  if i < w.armed.length then
    some { w with armed := w.armed.eraseIdx i, entered := w.entered + 1 }
  else none

/-- The limit in effect: it is longer under a debugger. -/
def maxDurationSec (debuggerPresent : Bool) : ℕ :=
  if o.threadWatchdogMaxDurationSec ≤ 120 ∧ debuggerPresent then 120
  else o.threadWatchdogMaxDurationSec

/-- The loop of the callback over the entries.  `start` is the `m_lock_start_time_point` of a
thread, and the result names the thread to report and for how many milliseconds it holds. -/
def scanThreads (maxMs now : ℕ) (start : ℕ → ℕ) : List ThreadInfo →
    List ThreadInfo × Option (ℕ × ℕ)
  | [] => ([], none)
  | t :: ts =>
      let rest := scanThreads maxMs now start ts
      if start t.threadId = 0 ∨ now ≤ start t.threadId then
        ({ t with alreadyLogged := false } :: rest.1, rest.2)
      else if t.alreadyLogged then (t :: rest.1, rest.2)
      else if maxMs ≤ now - start t.threadId then
        ({ t with alreadyLogged := true } :: ts, some (t.threadId, now - start t.threadId))
      else (t :: rest.1, rest.2)

/-- The first section of the callback. -/
def scan (debuggerPresent : Bool) (now : ℕ) (start : ℕ → ℕ) : Watchdog × Option (ℕ × ℕ) :=
  let found := scanThreads (maxDurationSec o debuggerPresent * 1000) now start w.threads
  ({ w with threads := found.1, entered := w.entered - 1, scanned := w.scanned + 1 }, found.2)

/-- The last section of the callback. -/
def callbackEnd : Option Watchdog :=
  if 0 < w.scanned then
    let w := { w with scanned := w.scanned - 1 }
    some (if w.threads ≠ [] then w.start (timerDurationSec o) else w)
  else none

/-! ### The entries -/

variable {o w} {maxMs now threadId : ℕ} {start : ℕ → ℕ}

/-- The threads that are registered. -/
def Registered (w : Watchdog) (threadId : ℕ) : Prop :=
  threadId ∈ w.threads.map ThreadInfo.threadId

instance (w : Watchdog) (threadId : ℕ) : Decidable (w.Registered threadId) :=
  inferInstanceAs (Decidable (_ ∈ _))

theorem threads_addThread (h : o.threadWatchdogEnabled = true) :
    (w.addThread o threadId).threads = w.threads ++ [{ threadId := threadId }] := by
  unfold addThread
  rw [if_pos h]
  dsimp only
  split_ifs <;> rfl

theorem addThread_disabled (h : o.threadWatchdogEnabled = false) : w.addThread o threadId = w := by
  simp [addThread, h]

/-- Removing an entry, up to the order of the others. -/
theorem threads_removeThread (h : o.threadWatchdogEnabled = true) :
    (w.removeThread o threadId).threads.Perm (w.threads.eraseP (·.threadId = threadId)) := by
  unfold removeThread
  rw [if_pos h]
  dsimp only
  rw [List.eraseP_eq_eraseIdx]
  split_ifs with hi
  · rw [List.findIdx?_eq_none_iff_findIdx_eq.2 hi]
  · have hlt : w.threads.findIdx (·.threadId = threadId) < w.threads.length :=
      lt_of_le_of_ne List.findIdx_le_length hi
    rw [List.findIdx?_eq_some_iff_findIdx_eq.2 ⟨hlt, rfl⟩]
    exact dropLast_set_perm _ _ hlt

theorem removeThread_disabled (h : o.threadWatchdogEnabled = false) :
    w.removeThread o threadId = w := by
  simp [removeThread, h]

/-- `remove_thread` leaves the timers and the callbacks alone. -/
theorem timers_removeThread (o : UserOptions) (w : Watchdog) (threadId : ℕ) :
    (w.removeThread o threadId).armed = w.armed ∧
      (w.removeThread o threadId).entered = w.entered ∧
      (w.removeThread o threadId).scanned = w.scanned := by
  unfold removeThread
  dsimp only
  split_ifs <;> exact ⟨rfl, rfl, rfl⟩

/-! ### One scan -/

/-- A thread is over the limit: it has held or waited for a lock for too long. -/
def Overlong (maxMs now : ℕ) (start : ℕ → ℕ) (threadId : ℕ) : Prop :=
  start threadId ≠ 0 ∧ start threadId < now ∧ maxMs ≤ now - start threadId

instance : Decidable (Overlong maxMs now start threadId) :=
  inferInstanceAs (Decidable (_ ∧ _))

/-- The ids of the entries do not change. -/
theorem scanThreads_ids (maxMs now : ℕ) (start : ℕ → ℕ) (ts : List ThreadInfo) :
    (scanThreads maxMs now start ts).1.map ThreadInfo.threadId =
      ts.map ThreadInfo.threadId := by
  induction ts with
  | nil => rfl
  | cons t ts ih =>
    unfold scanThreads
    dsimp only
    split_ifs <;> simp [ih]

/-- The thread that is reported was not marked, is over the limit, and is marked now. -/
theorem scanThreads_found {ts : List ThreadInfo} {d : ℕ}
    (h : (scanThreads maxMs now start ts).2 = some (threadId, d)) :
    ⟨threadId, false⟩ ∈ ts ∧ Overlong maxMs now start threadId ∧ d = now - start threadId ∧
      ⟨threadId, true⟩ ∈ (scanThreads maxMs now start ts).1 := by
  induction ts with
  | nil => cases h
  | cons t ts ih =>
    unfold scanThreads at h ⊢
    dsimp only at h ⊢
    split_ifs at h ⊢ with hidle hlogged hlong
    · obtain ⟨hmem, hover, hd, hmem'⟩ := ih h
      exact ⟨List.mem_cons_of_mem _ hmem, hover, hd, List.mem_cons_of_mem _ hmem'⟩
    · obtain ⟨hmem, hover, hd, hmem'⟩ := ih h
      exact ⟨List.mem_cons_of_mem _ hmem, hover, hd, List.mem_cons_of_mem _ hmem'⟩
    · cases h
      rw [not_or, not_le] at hidle
      refine ⟨?_, ⟨hidle.1, hidle.2, hlong⟩, rfl, List.mem_cons_self⟩
      have hfalse : t.alreadyLogged = false := by simpa using hlogged
      rw [← hfalse]
      exact List.mem_cons_self
    · obtain ⟨hmem, hover, hd, hmem'⟩ := ih h
      exact ⟨List.mem_cons_of_mem _ hmem, hover, hd, List.mem_cons_of_mem _ hmem'⟩

/-- If a thread that is not marked is over the limit, some thread is reported. -/
theorem scanThreads_isSome {ts : List ThreadInfo} (hmem : ⟨threadId, false⟩ ∈ ts)
    (hover : Overlong maxMs now start threadId) :
    (scanThreads maxMs now start ts).2.isSome = true := by
  induction ts with
  | nil => cases hmem
  | cons t ts ih =>
    unfold scanThreads
    dsimp only
    rcases List.mem_cons.1 hmem with rfl | hmem
    · rw [if_neg (not_or.2 ⟨hover.1, not_le.2 hover.2.1⟩), if_neg Bool.false_ne_true,
        if_pos hover.2.2]
      rfl
    · split_ifs <;> first | exact ih hmem | rfl

/-- A mark stays while the thread keeps holding. -/
theorem scanThreads_keeps {ts : List ThreadInfo} (hmem : ⟨threadId, true⟩ ∈ ts)
    (hstart : start threadId ≠ 0) (hnow : start threadId < now) :
    ⟨threadId, true⟩ ∈ (scanThreads maxMs now start ts).1 := by
  induction ts with
  | nil => cases hmem
  | cons t ts ih =>
    unfold scanThreads
    dsimp only
    rcases List.mem_cons.1 hmem with rfl | hmem
    · rw [if_neg (not_or.2 ⟨hstart, not_le.2 hnow⟩), if_pos rfl]
      exact List.mem_cons_self
    · split_ifs
      · exact List.mem_cons_of_mem _ (ih hmem)
      · exact List.mem_cons_of_mem _ (ih hmem)
      · exact List.mem_cons_of_mem _ hmem
      · exact List.mem_cons_of_mem _ (ih hmem)

/-- A thread that is marked now was marked before or is reported. -/
theorem scanThreads_marked {ts : List ThreadInfo}
    (hmem : ⟨threadId, true⟩ ∈ (scanThreads maxMs now start ts).1) :
    ⟨threadId, true⟩ ∈ ts ∨
      (scanThreads maxMs now start ts).2 = some (threadId, now - start threadId) := by
  induction ts with
  | nil => cases hmem
  | cons t ts ih =>
    unfold scanThreads at hmem ⊢
    dsimp only at hmem ⊢
    split_ifs at hmem ⊢ with hidle hlogged hlong
    · rcases List.mem_cons.1 hmem with heq | hmem
      · cases heq
      · exact (ih hmem).imp_left (List.mem_cons_of_mem _)
    · rcases List.mem_cons.1 hmem with rfl | hmem
      · exact Or.inl List.mem_cons_self
      · exact (ih hmem).imp_left (List.mem_cons_of_mem _)
    · rcases List.mem_cons.1 hmem with heq | hmem
      · cases heq
        exact Or.inr rfl
      · exact Or.inl (List.mem_cons_of_mem _ hmem)
    · rcases List.mem_cons.1 hmem with rfl | hmem
      · exact absurd rfl hlogged
      · exact (ih hmem).imp_left (List.mem_cons_of_mem _)

/-! ### The timer chain -/

/-- The steps of the timer chain: the threads register and leave, a timer fires, its callback
scans the list and ends. -/
inductive TimerCall
  | addThread (threadId : ℕ)
  | removeThread (threadId : ℕ)
  | timerExpired (i : ℕ)
  | scan (now : ℕ) (start : ℕ → ℕ)
  | callbackEnd

/-- One step of the timer chain. -/
def timerStep (o : UserOptions) (debuggerPresent : Bool) (w : Watchdog) :
    TimerCall → Option Watchdog
  | .addThread threadId => some (w.addThread o threadId)
  | .removeThread threadId => some (w.removeThread o threadId)
  | .timerExpired i => w.timerExpired i
  | .scan now start =>
      if 0 < w.entered then some (w.scan o debuggerPresent now start).1 else none
  | .callbackEnd => w.callbackEnd o

/-- The armed timers that have not fired and the callbacks in progress. -/
def chains (w : Watchdog) : ℕ := w.armed.length + w.entered + w.scanned

/-- One timer chain at most, and exactly one while threads are registered. -/
def OneChain (w : Watchdog) : Prop := w.chains ≤ 1 ∧ (w.threads ≠ [] → w.chains = 1)

/-- No thread is added to the empty list while a timer is armed or a callback is in progress. -/
def StartsOnce (o : UserOptions) (w : Watchdog) : TimerCall → Prop
  | .addThread _ => o.threadWatchdogEnabled = true → w.threads = [] → w.chains = 0
  | _ => True

theorem chains_addThread (w : Watchdog) (threadId : ℕ) (h : o.threadWatchdogEnabled = true) :
    (w.addThread o threadId).chains = w.chains + if w.threads = [] then 1 else 0 := by
  unfold addThread
  rw [if_pos h]
  dsimp only
  rw [List.length_append, List.length_singleton]
  by_cases hw : w.threads = []
  · simp only [hw, List.length_nil, Nat.zero_add, if_true, chains, Watchdog.start,
      List.length_append, List.length_singleton]
    omega
  · rw [if_neg hw, if_neg (by simpa using hw)]
    rfl

theorem threads_ne_nil_of_removeThread (h : (w.removeThread o threadId).threads ≠ []) :
    w.threads ≠ [] := by
  intro hw
  apply h
  unfold removeThread
  dsimp only
  split_ifs <;> simp [hw]

theorem threads_scan_eq_nil {debuggerPresent : Bool} :
    (w.scan o debuggerPresent now start).1.threads = [] ↔ w.threads = [] := by
  have hids := scanThreads_ids (maxDurationSec o debuggerPresent * 1000) now start w.threads
  constructor
  · intro h
    have h' : (scanThreads (maxDurationSec o debuggerPresent * 1000) now start w.threads).1 = [] :=
      h
    rw [h'] at hids
    exact List.map_eq_nil_iff.1 hids.symm
  · intro h
    simp [scan, h, scanThreads]

/-- A step of a single chain leaves a single chain exactly if it does not start a second timer. -/
theorem oneChain_step {debuggerPresent : Bool} {w' : Watchdog} {a : TimerCall}
    (h : w.OneChain) (hstep : timerStep o debuggerPresent w a = some w') :
    w'.OneChain ↔ StartsOnce o w a := by
  obtain ⟨hle, hone⟩ := h
  cases a with
  | addThread threadId =>
    cases hstep
    cases hen : o.threadWatchdogEnabled with
    | false =>
      rw [addThread_disabled hen]
      refine iff_of_true ⟨hle, hone⟩ fun h => ?_
      rw [hen] at h
      cases h
    | true =>
      have hchains := chains_addThread w threadId hen
      by_cases hw : w.threads = []
      · rw [if_pos hw] at hchains
        unfold OneChain StartsOnce
        simp only [hchains, hen, hw, forall_const]
        exact ⟨fun h => by omega, fun h => ⟨by omega, fun _ => by omega⟩⟩
      · rw [if_neg hw, Nat.add_zero] at hchains
        unfold OneChain StartsOnce
        simp only [hchains, hone hw, hw, IsEmpty.forall_iff, implies_true, le_refl, and_self]
  | removeThread threadId =>
    cases hstep
    obtain ⟨harmed, hentered, hscanned⟩ := timers_removeThread o w threadId
    refine iff_of_true ⟨?_, fun hne => ?_⟩ trivial
    · rw [chains, harmed, hentered, hscanned]
      exact hle
    · rw [chains, harmed, hentered, hscanned]
      exact hone (threads_ne_nil_of_removeThread hne)
  | timerExpired i =>
    simp only [timerStep, timerExpired] at hstep
    split_ifs at hstep with hi
    cases hstep
    refine iff_of_true ?_ trivial
    unfold OneChain chains at *
    simp only [List.length_eraseIdx, if_pos hi]
    exact ⟨by omega, fun hne => by have := hone hne; omega⟩
  | scan now start =>
    simp only [timerStep] at hstep
    split_ifs at hstep with hpos
    cases hstep
    refine iff_of_true ?_ trivial
    have hchains : (w.scan o debuggerPresent now start).1.chains = w.chains := by
      unfold chains scan
      dsimp only
      omega
    exact ⟨by rw [hchains]; exact hle,
      fun hne => by rw [hchains]; exact hone (mt threads_scan_eq_nil.2 hne)⟩
  | callbackEnd =>
    simp only [timerStep, callbackEnd] at hstep
    split_ifs at hstep with hpos hne
    · cases hstep
      refine iff_of_true ?_ trivial
      unfold OneChain chains at *
      simp only [Watchdog.start, List.length_append, List.length_singleton]
      exact ⟨by omega, fun _ => by omega⟩
    · cases hstep
      refine iff_of_true ?_ trivial
      unfold OneChain chains at *
      exact ⟨by dsimp only; omega, fun hne' => absurd hne' hne⟩

/-- **One timer chain.**  In a run there is never more than one armed timer or callback in
progress, and always one while threads are registered, exactly if no thread is added to the empty
list while a timer is armed or a callback is in progress. -/
theorem timer_chain_iff (o : UserOptions) (debuggerPresent : Bool) (calls : List TimerCall)
    (w : Watchdog) (hrun : Runs.run (timerStep o debuggerPresent) {} calls = some w) :
    Runs.Always (timerStep o debuggerPresent) OneChain {} calls ↔
      Runs.Steps (timerStep o debuggerPresent) (StartsOnce o) {} calls :=
  Runs.always_iff_steps ⟨Nat.zero_le 1, fun h => absurd rfl h⟩ (fun _ h => h)
    (fun _ _ _ h _ hstep => ⟨oneChain_step h hstep, fun h' => h'⟩) Runs.steps_mem hrun

/-- A thread registers and leaves before the timer fires; the next one starts a second timer. -/
theorem timer_chain_second_timer : ∃ w : Watchdog,
    Runs.run (timerStep {} false) {} [.addThread 1, .removeThread 1, .addThread 2] = some w ∧
      w.armed.length = 2 ∧ ¬ w.OneChain := by
  refine ⟨_, rfl, rfl, ?_⟩
  unfold OneChain
  decide

/-- A thread that registers, is scanned and leaves: one chain throughout. -/
theorem timer_chain_iff_single :
    Runs.Always (timerStep {} false) OneChain {} [.addThread 1, .timerExpired 0, .removeThread 1] ↔
      Runs.Steps (timerStep {} false) (StartsOnce {}) {}
        [.addThread 1, .timerExpired 0, .removeThread 1] :=
  timer_chain_iff {} false _ _ rfl

end Watchdog

end BugInsight

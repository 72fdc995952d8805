import BugInsight.Watchdog

/-!
# Every over-long hold is reported

The watchdog together with what it samples: the `m_lock_start_time_point` of the threads.  A hold
interval is a maximal period in which this value is the same, neither `0` nor the mark of a
condition wait; `interval` counts the intervals of a thread, and `reported` lists the reports.

* `holds_inv`: what holds after every run; an interval in progress that was reported is marked;
* `watchdog_reports`: no interval is reported twice, none before it is over the limit, and an
  unmarked one is reported within as many ticks as over-long intervals compete with it;
* `watchdog_marked`, `watchdog_starved`: an interval that begins marked, and one that others
  overtake, are not reported.
-/

namespace BugInsight

/-- A report of the watchdog: which interval of which thread, when it began and at which tick it
was reported. -/
structure HoldReport where
  threadId : ℕ
  interval : ℕ
  start : ℕ
  now : ℕ
  deriving DecidableEq

/-- The interval that a report is about. -/
def HoldReport.key (r : HoldReport) : ℕ × ℕ := (r.threadId, r.interval)

/-- The watchdog and the threads it watches. -/
structure Holds where
  watchdog : Watchdog := {}
  /-- `m_lock_start_time_point` of a thread -/
  start : ℕ → ℕ := fun _ => 0
  /-- the number of the last interval of a thread -/
  interval : ℕ → ℕ := fun _ => 0
  clock : ℕ := 0
  reported : List HoldReport := []

/-- What threads and the watchdog do. -/
inductive HoldEvent
  /-- a thread without locks takes the time -/
  | lockStart (threadId ticks : ℕ)
  /-- a thread gives its last lock back -/
  | lockEnd (threadId : ℕ)
  | condWait (threadId : ℕ)
  /-- a thread registers; it does so once -/
  | addThread (threadId : ℕ)
  /-- a thread ends, and its held-lock list with it -/
  | removeThread (threadId : ℕ)
  /-- the timer callback scans the threads -/
  | tick (now : ℕ)
  deriving DecidableEq

/-- The ticks. -/
def HoldEvent.isTick : HoldEvent → Bool
  | .tick _ => true
  | _ => false

namespace Holds

open Watchdog

variable (o : UserOptions) (dbg : Bool)

/-- A tick: the report that the scan makes, if any, is listed. -/
def tick (w : Holds) (now : ℕ) : Holds :=
  let found := w.watchdog.scan o dbg now w.start
  { w with
    watchdog := found.1
    clock := now
    reported := w.reported ++ match found.2 with
      | some (threadId, _) => [⟨threadId, w.interval threadId, w.start threadId, now⟩]
      | none => [] }

/-- One event.  The clock does not run backwards, and it fits 64 bits. -/
def step (w : Holds) : HoldEvent → Option Holds
  | .lockStart threadId ticks =>
      if 0 < ticks ∧ w.clock ≤ ticks then
        some { w with
          start := Function.update w.start threadId ticks
          interval := if w.start threadId = ticks then w.interval
            else Function.update w.interval threadId (w.interval threadId + 1)
          clock := ticks }
      else none
  | .lockEnd threadId => some { w with start := Function.update w.start threadId 0 }
  | .condWait threadId => some { w with start := Function.update w.start threadId condWaitMark }
  | .addThread threadId =>
      if w.watchdog.Registered threadId then none
      else some { w with watchdog := w.watchdog.addThread o threadId }
  | .removeThread threadId =>
      some { w with
        watchdog := w.watchdog.removeThread o threadId
        start := Function.update w.start threadId 0 }
  | .tick now => if w.clock ≤ now ∧ now ≤ condWaitMark then some (w.tick o dbg now)
      else none

/-- The limit in milliseconds. -/
def maxMs : ℕ := maxDurationSec o dbg * 1000

/-- The intervals of registered threads that are over the limit now. -/
def overlong (w : Holds) (now : ℕ) : List (ℕ × ℕ) :=
  ((w.watchdog.threads.map ThreadInfo.threadId).filter
    fun t => Overlong (maxMs o dbg) now w.start t).map fun t => (t, w.interval t)

/-- The states in which the ticks of a run find the threads, and the times of the ticks. -/
def samples (w : Holds) : List HoldEvent → List (Holds × ℕ)
  | [] => []
  | e :: es =>
      let rest := match w.step o dbg e with
        | some w' => samples w' es
        | none => []
      match e with
      | .tick now => (w, now) :: rest
      | _ => rest

/-- The intervals that some tick of a run finds over the limit. -/
def contenders (w : Holds) (events : List HoldEvent) : List (ℕ × ℕ) :=
  (w.samples o dbg events).flatMap fun s => s.1.overlong o dbg s.2

/-! ### What holds after every run -/

/-- The interval of a report is still in progress. -/
def InProgress (w : Holds) (r : HoldReport) : Prop :=
  r.interval = w.interval r.threadId ∧ w.start r.threadId ≠ 0 ∧
    w.start r.threadId ≠ condWaitMark

/-- What holds after every run. -/
structure Inv (w : Holds) : Prop where
  threads_nodup : (w.watchdog.threads.map ThreadInfo.threadId).Nodup
  reported_nodup : (w.reported.map HoldReport.key).Nodup
  interval_le : ∀ r ∈ w.reported, r.interval ≤ w.interval r.threadId
  marked : ∀ r ∈ w.reported, w.InProgress r →
    ⟨r.threadId, true⟩ ∈ w.watchdog.threads ∧ w.start r.threadId < w.clock
  overlong : ∀ r ∈ w.reported, r.start ≠ 0 ∧ r.start < r.now ∧
    maxMs o dbg ≤ r.now - r.start

variable {o dbg} {w w' : Holds} {now threadId : ℕ} {e : HoldEvent}

/-- A thread has one entry only. -/
theorem Inv.not_marked (h : Inv o dbg w)
    (hfalse : ⟨threadId, false⟩ ∈ w.watchdog.threads) :
    ⟨threadId, true⟩ ∉ w.watchdog.threads := fun htrue => by
  have := List.inj_on_of_nodup_map h.threads_nodup hfalse htrue rfl
  cases this

/-- **A tick** reports one unmarked over-long thread or none. -/
theorem tick_cases (o : UserOptions) (dbg : Bool) (w : Holds) (now : ℕ) :
    (scanThreads (maxMs o dbg) now w.start w.watchdog.threads).2 = none ∧
        (w.tick o dbg now).reported = w.reported ∨
      ∃ t, ⟨t, false⟩ ∈ w.watchdog.threads ∧ Overlong (maxMs o dbg) now w.start t ∧
        ⟨t, true⟩ ∈ (w.tick o dbg now).watchdog.threads ∧
        (scanThreads (maxMs o dbg) now w.start w.watchdog.threads).2 =
          some (t, now - w.start t) ∧
        (w.tick o dbg now).reported =
          w.reported ++ [⟨t, w.interval t, w.start t, now⟩] := by
  have hscan : (w.watchdog.scan o dbg now w.start).2 =
      (scanThreads (maxMs o dbg) now w.start w.watchdog.threads).2 := rfl
  unfold tick
  dsimp only
  rw [hscan]
  cases hfound : (scanThreads (maxMs o dbg) now w.start w.watchdog.threads).2 with
  | none => exact Or.inl ⟨rfl, List.append_nil _⟩
  | some p =>
    obtain ⟨t, d⟩ := p
    obtain ⟨hmem, hover, rfl, hmem'⟩ := scanThreads_found hfound
    exact Or.inr ⟨t, hmem, hover, hmem', rfl, rfl⟩

theorem inv_tick (h : Inv o dbg w) (hclock : w.clock ≤ now)
    (hnow : now ≤ condWaitMark) : Inv o dbg (w.tick o dbg now) := by
  have hids : ((w.tick o dbg now).watchdog.threads.map ThreadInfo.threadId).Nodup := by
    have := scanThreads_ids (maxMs o dbg) now w.start w.watchdog.threads
    exact this ▸ h.threads_nodup
  have hkeep : ∀ r ∈ w.reported, (w.tick o dbg now).InProgress r →
      ⟨r.threadId, true⟩ ∈ (w.tick o dbg now).watchdog.threads ∧
        w.start r.threadId < now := fun r hr hin => by
    obtain ⟨hmark, hlt⟩ := h.marked r hr hin
    have hlt' : w.start r.threadId < now := hlt.trans_le hclock
    exact ⟨scanThreads_keeps hmark hin.2.1 hlt', hlt'⟩
  rcases tick_cases o dbg w now with ⟨-, hrep⟩ | ⟨t, hmem, hover, hmem', -, hrep⟩
  · exact ⟨hids, hrep ▸ h.reported_nodup, hrep ▸ h.interval_le, hrep ▸ hkeep, hrep ▸ h.overlong⟩
  · have hin : ∀ r ∈ w.reported, r.key ≠ (t, w.interval t) := fun r hr heq => by
      obtain ⟨rfl, hint⟩ := Prod.mk.inj heq
      have hlt : w.start r.threadId < now := hover.2.1
      exact h.not_marked hmem (h.marked r hr ⟨hint, hover.1, by omega⟩).1
    refine ⟨hids, ?_, fun r hr => ?_, fun r hr hprog => ?_, fun r hr => ?_⟩
    · rw [hrep, List.map_append, List.map_singleton, List.nodup_append]
      refine ⟨h.reported_nodup, List.nodup_singleton _, ?_⟩
      rintro k hk _ hk' rfl
      obtain ⟨r, hr, rfl⟩ := List.mem_map.1 hk
      exact hin r hr (List.mem_singleton.1 hk')
    all_goals
      rw [hrep] at hr
      rcases List.mem_append.1 hr with hr | hr
    · exact h.interval_le r hr
    · rw [List.mem_singleton.1 hr]
      exact le_rfl
    · exact hkeep r hr hprog
    · rw [List.mem_singleton.1 hr]
      exact ⟨hmem', hover.2.1⟩
    · exact h.overlong r hr
    · rw [List.mem_singleton.1 hr]
      exact hover

/-- What the events other than a tick have to keep. -/
theorem Inv.of_same_reports (h : Inv o dbg w) (hrep : w'.reported = w.reported)
    (hids : (w'.watchdog.threads.map ThreadInfo.threadId).Nodup)
    (hint : ∀ t, w.interval t ≤ w'.interval t)
    (hin : ∀ r, r.interval ≤ w.interval r.threadId → w'.InProgress r →
      (w.InProgress r → w.start r.threadId < w.clock) →
      w.InProgress r ∧ w'.start r.threadId = w.start r.threadId ∧ w.clock ≤ w'.clock ∧
        (⟨r.threadId, true⟩ ∈ w.watchdog.threads → ⟨r.threadId, true⟩ ∈ w'.watchdog.threads)) :
    Inv o dbg w' where
  threads_nodup := hids
  reported_nodup := hrep ▸ h.reported_nodup
  interval_le := fun r hr => (h.interval_le r (hrep ▸ hr)).trans (hint _)
  marked := fun r hr hprog => by
    rw [hrep] at hr
    obtain ⟨hprog', hstart, hclock, hmark⟩ :=
      hin r (h.interval_le r hr) hprog fun hp => (h.marked r hr hp).2
    obtain ⟨hmem, hlt⟩ := h.marked r hr hprog'
    exact ⟨hmark hmem, by rw [hstart]; exact hlt.trans_le hclock⟩
  overlong := hrep ▸ h.overlong

/-- An interval that another thread has in progress is in progress after the start of thread `t`
was written. -/
theorem inProgress_update (w : Holds) {r : HoldReport} {t v : ℕ} (hprog : w'.InProgress r)
    (hr : r.threadId ≠ t) (hstart : w'.start = Function.update w.start t v)
    (hint : w'.interval r.threadId = w.interval r.threadId) :
    w.InProgress r ∧ w'.start r.threadId = w.start r.threadId := by
  have heq : w'.start r.threadId = w.start r.threadId := by
    rw [hstart, Function.update_of_ne hr]
  unfold InProgress at hprog ⊢
  rw [hint, heq] at hprog
  exact ⟨hprog, heq⟩

/-- An event that ends the interval of thread `t`. -/
theorem Inv.of_end (h : Inv o dbg w) {t v : ℕ} (hv : v = 0 ∨ v = condWaitMark)
    (hstart : w'.start = Function.update w.start t v) (hint : w'.interval = w.interval)
    (hclock : w'.clock = w.clock) (hrep : w'.reported = w.reported)
    (hids : (w'.watchdog.threads.map ThreadInfo.threadId).Nodup)
    (hmark : ∀ s, s ≠ t → ⟨s, true⟩ ∈ w.watchdog.threads → ⟨s, true⟩ ∈ w'.watchdog.threads) :
    Inv o dbg w' := by
  refine h.of_same_reports hrep hids (fun _ => hint ▸ le_rfl) fun r _ hprog _ => ?_
  by_cases hr : r.threadId = t
  · have hval : w'.start r.threadId = v := by rw [hstart, hr, Function.update_self]
    exact absurd hv (not_or.2 (hval ▸ hprog.2))
  · obtain ⟨hprog', heq⟩ := inProgress_update w hprog hr hstart (by rw [hint])
    exact ⟨hprog', heq, hclock.ge, hmark _ hr⟩

/-- **One event** keeps the invariant. -/
theorem inv_step (h : Inv o dbg w) (hstep : w.step o dbg e = some w') : Inv o dbg w' := by
  cases e with
  | lockStart t ticks =>
    simp only [step] at hstep
    split_ifs at hstep with hguard hsame
    all_goals cases hstep
    · refine h.of_same_reports rfl h.threads_nodup (fun _ => le_rfl) fun r _ hprog hlt => ?_
      by_cases hr : r.threadId = t
      · -- the interval goes on, so it was not marked: it would have begun before the last tick
        have hstart : w.start r.threadId = ticks := by rw [hr, hsame]
        have hupd : Function.update w.start t ticks r.threadId = ticks := by
          rw [hr, Function.update_self]
        have hprog' : w.InProgress r := by
          obtain ⟨hint, h0, hmark⟩ := hprog
          dsimp only at h0 hmark
          rw [hupd] at h0 hmark
          exact ⟨hint, hstart ▸ h0, hstart ▸ hmark⟩
        have := hlt hprog'
        omega
      · obtain ⟨hprog', heq⟩ := inProgress_update w hprog hr rfl rfl
        exact ⟨hprog', heq, hguard.2, id⟩
    · refine h.of_same_reports rfl h.threads_nodup (fun s => ?_) fun r hle hprog _ => ?_
      · dsimp only
        by_cases hs : s = t
        · subst hs
          rw [Function.update_self]
          exact Nat.le_succ _
        · rw [Function.update_of_ne hs]
      · by_cases hr : r.threadId = t
        · have hint : r.interval = Function.update w.interval t (w.interval t + 1) r.threadId :=
            hprog.1
          rw [hr, Function.update_self] at hint
          rw [hr] at hle
          omega
        · obtain ⟨hprog', heq⟩ := inProgress_update w hprog hr rfl (Function.update_of_ne hr _ _)
          exact ⟨hprog', heq, hguard.2, id⟩
  | lockEnd t =>
    cases hstep
    exact h.of_end (Or.inl rfl) rfl rfl rfl rfl h.threads_nodup fun _ _ => id
  | condWait t =>
    cases hstep
    exact h.of_end (Or.inr rfl) rfl rfl rfl rfl h.threads_nodup fun _ _ => id
  | addThread t =>
    simp only [step] at hstep
    split_ifs at hstep with hreg
    cases hstep
    refine h.of_same_reports rfl ?_ (fun _ => le_rfl) fun r _ hprog _ => ⟨hprog, rfl, le_rfl, ?_⟩
    · cases hen : o.threadWatchdogEnabled with
      | false => rw [addThread_disabled hen]; exact h.threads_nodup
      | true =>
        rw [threads_addThread hen, List.map_append, List.map_singleton, List.nodup_append]
        refine ⟨h.threads_nodup, List.nodup_singleton _, ?_⟩
        rintro a ha _ hb rfl
        rw [List.mem_singleton.1 hb] at ha
        exact hreg ha
    · cases hen : o.threadWatchdogEnabled with
      | false => rw [addThread_disabled hen]; exact id
      | true =>
        rw [threads_addThread hen]
        exact List.mem_append_left _
  | removeThread t =>
    cases hstep
    cases hen : o.threadWatchdogEnabled with
    | false =>
      rw [removeThread_disabled hen]
      exact h.of_end (Or.inl rfl) rfl rfl rfl rfl h.threads_nodup fun _ _ => id
    | true =>
      refine h.of_end (Or.inl rfl) rfl rfl rfl rfl ?_ fun s hs hmem => ?_
      · refine ((threads_removeThread hen).map _).nodup_iff.2 ?_
        exact h.threads_nodup.sublist ((List.eraseP_sublist).map _)
      · refine (threads_removeThread hen).mem_iff.2 ?_
        exact (List.mem_eraseP_of_neg (by simpa using hs)).2 hmem
  | tick now =>
    simp only [step] at hstep
    split_ifs at hstep with hguard
    cases hstep
    exact inv_tick h hguard.1 hguard.2

/-- **The invariant** holds after every run. -/
theorem holds_inv {events : List HoldEvent}
    (hrun : Runs.run (step o dbg) {} events = some w) : Inv o dbg w := by
  refine Runs.run_induct (motive := fun _ w => Inv o dbg w) ?_
    (fun _ _ _ _ _ h hstep => inv_step h hstep) events w hrun
  exact ⟨List.nodup_nil, List.nodup_nil, List.forall_mem_nil _, List.forall_mem_nil _,
    List.forall_mem_nil _⟩

/-! ### A sequence of ticks -/

/-- Only ticks report and mark. -/
theorem step_of_not_tick (he : e.isTick = false) (hstep : w.step o dbg e = some w') :
    w'.reported = w.reported ∧
      ∀ t, ⟨t, true⟩ ∈ w'.watchdog.threads → ⟨t, true⟩ ∈ w.watchdog.threads := by
  cases e with
  | lockStart t ticks =>
    simp only [step] at hstep
    split_ifs at hstep <;> cases hstep <;> exact ⟨rfl, fun _ => id⟩
  | lockEnd t => cases hstep; exact ⟨rfl, fun _ => id⟩
  | condWait t => cases hstep; exact ⟨rfl, fun _ => id⟩
  | addThread t =>
    simp only [step] at hstep
    split_ifs at hstep
    cases hstep
    refine ⟨rfl, fun s hmem => ?_⟩
    cases hen : o.threadWatchdogEnabled with
    | false => rwa [addThread_disabled hen] at hmem
    | true =>
      rw [threads_addThread hen] at hmem
      rcases List.mem_append.1 hmem with hmem | hmem
      · exact hmem
      · cases List.mem_singleton.1 hmem
  | removeThread t =>
    cases hstep
    refine ⟨rfl, fun s hmem => ?_⟩
    cases hen : o.threadWatchdogEnabled with
    | false => rwa [removeThread_disabled hen] at hmem
    | true => exact List.mem_of_mem_eraseP ((threads_removeThread hen).mem_iff.1 hmem)
  | tick now => cases he

theorem samples_cons_of_not_tick (events : List HoldEvent) (he : e.isTick = false)
    (hstep : w.step o dbg e = some w') :
    w.samples o dbg (e :: events) = w'.samples o dbg events := by
  cases e with
  | tick now => cases he
  | _ => simp [samples, hstep]

theorem samples_cons_tick (events : List HoldEvent)
    (hstep : w.step o dbg (.tick now) = some w') :
    w.samples o dbg (.tick now :: events) = (w, now) :: w'.samples o dbg events := by
  rw [samples, hstep]

theorem mem_overlong {x : ℕ × ℕ} : x ∈ w.overlong o dbg now ↔
    w.watchdog.Registered x.1 ∧ Overlong (maxMs o dbg) now w.start x.1 ∧
      x.2 = w.interval x.1 := by
  obtain ⟨t, i⟩ := x
  simp only [overlong, List.mem_map, List.mem_filter, decide_eq_true_eq, Prod.mk.injEq]
  constructor
  · rintro ⟨t', ⟨hreg, hover⟩, rfl, rfl⟩
    exact ⟨List.mem_map.2 hreg, hover, rfl⟩
  · rintro ⟨hreg, hover, rfl⟩
    exact ⟨t, ⟨List.mem_map.1 hreg, hover⟩, rfl, rfl⟩

/-- A registered thread has a marked or an unmarked entry. -/
theorem unmarked_of_registered {t : ℕ} (hreg : w.watchdog.Registered t)
    (hmark : ⟨t, true⟩ ∉ w.watchdog.threads) : ⟨t, false⟩ ∈ w.watchdog.threads := by
  unfold Registered at hreg
  obtain ⟨⟨t', b⟩, hmem, rfl⟩ := List.mem_map.1 hreg
  cases b with
  | true => exact absurd hmem hmark
  | false => exact hmem

/-- **What a sequence of ticks reports**: intervals that are over the limit at a tick; and as long
as an unmarked over-long interval is not reported, another one is at every tick. -/
theorem reported_run {events : List HoldEvent} (x : ℕ × ℕ)
    (hrun : Runs.run (step o dbg) w events = some w') :
    ∃ new, w'.reported = w.reported ++ new ∧
      (∀ r ∈ new, r.key ∈ w.contenders o dbg events) ∧
      (⟨x.1, true⟩ ∉ w.watchdog.threads →
        (∀ s ∈ w.samples o dbg events, x ∈ s.1.overlong o dbg s.2) →
        x ∈ new.map HoldReport.key ∨ new.length = (w.samples o dbg events).length) := by
  induction events generalizing w with
  | nil =>
    cases hrun
    exact ⟨[], (List.append_nil _).symm, List.forall_mem_nil _, fun _ _ => Or.inr rfl⟩
  | cons e es ih =>
    rw [Runs.run_cons] at hrun
    obtain ⟨w₁, hstep, hrun⟩ := Option.bind_eq_some_iff.1 hrun
    obtain ⟨new, hnew, hkeys, hx⟩ := ih hrun
    cases he : e.isTick with
    | false =>
      obtain ⟨hrep, hmarks⟩ := step_of_not_tick he hstep
      have hsamples := samples_cons_of_not_tick es he hstep
      refine ⟨new, hrep ▸ hnew, ?_, ?_⟩
      · unfold contenders at hkeys ⊢
        rwa [hsamples]
      · rw [hsamples]
        exact fun hmark => hx (mt (hmarks _) hmark)
    | true =>
      obtain ⟨now, rfl⟩ : ∃ now, e = .tick now := by
        cases e with
        | tick now => exact ⟨now, rfl⟩
        | _ => cases he
      have hsamples := samples_cons_tick es hstep
      have hsub : ∀ k ∈ w₁.contenders o dbg es, k ∈ w.contenders o dbg (.tick now :: es) :=
        fun k hk => by
          unfold contenders at hk ⊢
          rw [hsamples, List.flatMap_cons]
          exact List.mem_append_right _ hk
      have hhead : ∀ k ∈ w.overlong o dbg now, k ∈ w.contenders o dbg (.tick now :: es) :=
        fun k hk => by
          unfold contenders
          rw [hsamples, List.flatMap_cons]
          exact List.mem_append_left _ hk
      simp only [step] at hstep
      split_ifs at hstep
      cases hstep
      rcases tick_cases o dbg w now with ⟨hnone, hrep⟩ | ⟨t, hmem, hover, -, hfound, hrep⟩
      · rw [hrep] at hnew
        refine ⟨new, hnew, fun r hr => hsub _ (hkeys r hr), fun hmark hall => ?_⟩
        -- an unmarked over-long thread is there, so the scan would have found one
        obtain ⟨hreg, hover, -⟩ := mem_overlong.1 (hall (w, now) (hsamples ▸ List.mem_cons_self))
        have := scanThreads_isSome (unmarked_of_registered hreg hmark) hover
        rw [hnone] at this
        cases this
      · refine ⟨⟨t, w.interval t, w.start t, now⟩ :: new, ?_, ?_, fun hmark hall => ?_⟩
        · rw [hnew, hrep, List.append_assoc]
          rfl
        · intro r hr
          rcases List.mem_cons.1 hr with rfl | hr
          · exact hhead _ (mem_overlong.2 ⟨List.mem_map_of_mem hmem, hover, rfl⟩)
          · exact hsub _ (hkeys r hr)
        · obtain ⟨-, -, hint⟩ := mem_overlong.1 (hall (w, now) (hsamples ▸ List.mem_cons_self))
          by_cases ht : t = x.1
          · refine Or.inl (List.mem_cons.2 (Or.inl ?_))
            rw [HoldReport.key, ht, ← hint]
          · have hmark' : ⟨x.1, true⟩ ∉ (w.tick o dbg now).watchdog.threads := fun hc => by
              rcases scanThreads_marked hc with hc | hc
              · exact hmark hc
              · exact ht (Prod.mk.inj (Option.some_inj.1 (hfound.symm.trans hc))).1
            refine (hx hmark' fun s hs => hall s (hsamples ▸ List.mem_cons_of_mem _ hs)).imp
              (List.mem_cons_of_mem _) fun hlen => ?_
            rw [hsamples, List.length_cons, List.length_cons, hlen]

/-- An unmarked interval that the next tick finds over the limit was not reported yet. -/
theorem not_reported_of_unmarked {events : List HoldEvent} {x : ℕ × ℕ} (h : Inv o dbg w)
    (hrun : Runs.run (step o dbg) w events = some w')
    (hmark : ⟨x.1, true⟩ ∉ w.watchdog.threads) (hne : w.samples o dbg events ≠ [])
    (hall : ∀ s ∈ w.samples o dbg events, x ∈ s.1.overlong o dbg s.2) :
    x ∉ w.reported.map HoldReport.key := by
  induction events generalizing w with
  | nil => exact absurd rfl hne
  | cons e es ih =>
    rw [Runs.run_cons] at hrun
    obtain ⟨w₁, hstep, hrun⟩ := Option.bind_eq_some_iff.1 hrun
    cases he : e.isTick with
    | false =>
      obtain ⟨hrep, hmarks⟩ := step_of_not_tick he hstep
      rw [samples_cons_of_not_tick es he hstep] at hne hall
      rw [← hrep]
      exact ih (inv_step h hstep) hrun (mt (hmarks _) hmark) hne hall
    | true =>
      obtain ⟨now, rfl⟩ : ∃ now, e = .tick now := by
        cases e with
        | tick now => exact ⟨now, rfl⟩
        | _ => cases he
      intro hx
      obtain ⟨r, hr, rfl⟩ := List.mem_map.1 hx
      rw [samples_cons_tick es hstep] at hall
      obtain ⟨-, hover, hint⟩ := mem_overlong.1 (hall (w, now) List.mem_cons_self)
      simp only [step] at hstep
      split_ifs at hstep with hguard
      have hlt : w.start r.threadId < now := hover.2.1
      exact hmark (h.marked r hr ⟨hint, hover.1, by omega⟩).1

/-- **The reports of the watchdog.**  In every run no interval is reported twice, and none before
it is over the limit.  An interval that is over the limit at every tick of a window, and whose
thread is not marked when the window begins, is reported in the window, unless more intervals not
reported before are over the limit at these ticks than there are ticks. -/
theorem watchdog_reports (o : UserOptions) (dbg : Bool) (events : List HoldEvent) (w : Holds)
    (hrun : Runs.run (step o dbg) {} events = some w) :
    (w.reported.map HoldReport.key).Nodup ∧
      (∀ r ∈ w.reported, r.start ≠ 0 ∧ r.start < r.now ∧ maxMs o dbg ≤ r.now - r.start) ∧
      ∀ pre window post w₀ w₁ x, events = pre ++ window ++ post →
        Runs.run (step o dbg) {} pre = some w₀ → Runs.run (step o dbg) w₀ window = some w₁ →
        w₀.samples o dbg window ≠ [] →
        (∀ s ∈ w₀.samples o dbg window, x ∈ s.1.overlong o dbg s.2) →
        ⟨x.1, true⟩ ∉ w₀.watchdog.threads →
        ((w₀.contenders o dbg window).toFinset \ (w₀.reported.map HoldReport.key).toFinset).card ≤
          (w₀.samples o dbg window).length →
        x ∉ w₀.reported.map HoldReport.key ∧ x ∈ w₁.reported.map HoldReport.key := by
  have hinv := holds_inv hrun
  refine ⟨hinv.reported_nodup, hinv.overlong, ?_⟩
  intro pre window post w₀ w₁ x _ hpre hwindow hne hall hmark hcard
  have hinv₀ := holds_inv hpre
  have hnot := not_reported_of_unmarked hinv₀ hwindow hmark hne hall
  refine ⟨hnot, ?_⟩
  obtain ⟨new, hnew, hkeys, hx⟩ := reported_run x hwindow
  rcases hx hmark hall with hx | hlen
  · rw [hnew, List.map_append]
    exact List.mem_append_right _ hx
  · -- every tick reports an interval other than `x`, and they all compete with it
    by_contra hx
    have hrun₁ : Runs.run (step o dbg) {} (pre ++ window) = some w₁ := by
      rw [Runs.run_append, hpre]
      exact hwindow
    have hnodup := (holds_inv hrun₁).reported_nodup
    rw [hnew, List.map_append] at hnodup hx
    set D := (w₀.contenders o dbg window).toFinset \ (w₀.reported.map HoldReport.key).toFinset
    have hxD : x ∈ D := by
      obtain ⟨s, hs⟩ := List.exists_mem_of_ne_nil _ hne
      refine Finset.mem_sdiff.2 ⟨List.mem_toFinset.2 ?_, mt List.mem_toFinset.1 hnot⟩
      exact List.mem_flatMap.2 ⟨s, hs, hall s hs⟩
    have hsub : (new.map HoldReport.key).toFinset ⊆ D.erase x := fun k hk => by
      rw [List.mem_toFinset] at hk
      obtain ⟨r, hr, rfl⟩ := List.mem_map.1 hk
      refine Finset.mem_erase.2 ⟨?_, Finset.mem_sdiff.2 ⟨List.mem_toFinset.2 (hkeys r hr), ?_⟩⟩
      · rintro rfl
        exact hx (List.mem_append_right _ hk)
      · exact fun hc => (List.disjoint_of_nodup_append hnodup) (List.mem_toFinset.1 hc) hk
    have hle := Finset.card_le_card hsub
    rw [List.toFinset_card_of_nodup (List.nodup_append.1 hnodup).2.1, List.length_map, hlen,
      Finset.card_erase_of_mem hxD] at hle
    have hpos : 0 < D.card := Finset.card_pos.2 ⟨x, hxD⟩
    omega

/-- A thread that holds for 40 seconds is reported at the first tick. -/
theorem watchdog_reports_one : ∃ w,
    Runs.run (step {} false) {} [.addThread 1, .lockStart 1 1, .tick 40000] = some w ∧
      (1, 1) ∈ w.reported.map HoldReport.key :=
  ⟨_, rfl, ((watchdog_reports {} false [.addThread 1, .lockStart 1 1, .tick 40000] _ rfl).2.2
    [.addThread 1, .lockStart 1 1] [.tick 40000] [] _ _ (1, 1) rfl rfl rfl (by decide) (by decide)
    (by decide) (by decide)).2⟩

/-- A thread is reported, gives its lock back and takes another one before the next tick.  Its entry
stays marked: the only registered thread is over the limit at three ticks with its second interval,
and this interval is not reported. -/
theorem watchdog_marked :
    ∃ w₀ w₁, Runs.run (step { threadWatchdogMaxDurationSec := 1 } false) {}
        [.addThread 1, .lockStart 1 1, .tick 2000, .lockEnd 1, .lockStart 1 2001] = some w₀ ∧
      Runs.run (step { threadWatchdogMaxDurationSec := 1 } false) w₀
        [.tick 3001, .tick 4001, .tick 5001] = some w₁ ∧
      (w₀.samples { threadWatchdogMaxDurationSec := 1 } false
        [.tick 3001, .tick 4001, .tick 5001]).length = 3 ∧
      (∀ s ∈ w₀.samples { threadWatchdogMaxDurationSec := 1 } false
          [.tick 3001, .tick 4001, .tick 5001],
        s.1.watchdog.threads.length = 1 ∧
          (1, 2) ∈ s.1.overlong { threadWatchdogMaxDurationSec := 1 } false s.2) ∧
      (1, 2) ∉ w₁.reported.map HoldReport.key := by
  refine ⟨_, _, rfl, rfl, rfl, ?_, ?_⟩
  · decide
  · decide

/-- Three threads hold from time `1` on.  The first is reported and ends, whereupon the last entry
comes before that of the second thread, and so once more: at three ticks, with three threads
registered, the second thread is over the limit and is not reported. -/
theorem watchdog_starved :
    ∃ w₀ w₁, Runs.run (step { threadWatchdogMaxDurationSec := 1 } false) {}
        [.addThread 1, .lockStart 1 1, .addThread 2, .lockStart 2 1, .addThread 3,
          .lockStart 3 1] = some w₀ ∧
      Runs.run (step { threadWatchdogMaxDurationSec := 1 } false) w₀
        [.tick 2000, .removeThread 1, .addThread 4, .lockStart 4 2001, .tick 3001,
          .removeThread 3, .tick 4001] = some w₁ ∧
      (w₀.samples { threadWatchdogMaxDurationSec := 1 } false
        [.tick 2000, .removeThread 1, .addThread 4, .lockStart 4 2001, .tick 3001,
          .removeThread 3, .tick 4001]).length = 3 ∧
      (∀ s ∈ w₀.samples { threadWatchdogMaxDurationSec := 1 } false
          [.tick 2000, .removeThread 1, .addThread 4, .lockStart 4 2001, .tick 3001,
            .removeThread 3, .tick 4001],
        s.1.watchdog.threads.length ≤ 3 ∧
          (2, 1) ∈ s.1.overlong { threadWatchdogMaxDurationSec := 1 } false s.2) ∧
      (2, 1) ∉ w₁.reported.map HoldReport.key := by
  refine ⟨_, _, rfl, rfl, rfl, ?_, ?_⟩
  · decide
  · decide

end Holds

end BugInsight

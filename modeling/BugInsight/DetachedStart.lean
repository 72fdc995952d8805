import BugInsight.Options.Parser
import BugInsight.Runs

/-!
# Starting detached

With `start_detached`, BugInsight hands its options to the application under test in a shared memory
segment, waits until the library in the application has signalled an event, and exits.  The segment
and the event have the id of the new process in their names; a kernel object exists as long as there
is a handle of it, and an exit closes the handles of a process.  The steps of the two processes are
interleaved in any order.

* `DetachedStart.step`: the calls of `application_under_test.cpp` and of `loader_t::loader_t`;
* `Inv`, `inv_step`: which objects exist, and what has happened before;
* `detached_start_handshake`: the options arrive unless the wait has timed out, a wait that succeeds
  comes after the options have been read, and no signal is lost.
-/

namespace BugInsight

open Runs

/-- What BugInsight does next. -/
inductive LauncherPc
  | createProcess | saveUserOptions | initStartDetached | resumeThread | waitForSingleObject
  | closeHandle | exit | exited
  deriving DecidableEq

/-- What the application under test does next. -/
inductive ApplicationPc
  | notCreated | suspended | getUserOptions | createEvent | setEvent | closeHandle | main | exited
  deriving DecidableEq

/-- The two processes and the kernel objects. -/
structure DetachedStart where
  launcher : LauncherPc := .createProcess
  application : ApplicationPc := .notCreated
  /-- the shared memory segment -/
  segment : Option RuntimeOptions := none
  /-- the event, and whether it is signalled -/
  event : Option Bool := none
  /-- the handles of the event -/
  launcherHandle : Bool := false
  applicationHandle : Bool := false
  /-- whether the wait has returned `WAIT_OBJECT_0` -/
  waited : Option Bool := none
  /-- what the application has found in the segment; it may have found no segment -/
  received : Option (Option RuntimeOptions) := none
  signalled : Bool := false

inductive StartAction
  /-- the next call of BugInsight, which succeeds or fails; a wait fails at any time -/
  | launcher (ok : Bool)
  /-- the next call of the application -/
  | application (ok : Bool)
  /-- the application ends -/
  | terminate
  deriving DecidableEq

namespace DetachedStart

variable (options : RuntimeOptions) (s : DetachedStart)

/-- The handles of BugInsight are closed. -/
def exitLauncher : DetachedStart :=
  { s with
    launcher := .exited
    segment := none
    launcherHandle := false
    event := if s.applicationHandle then s.event else none }

/-- The handles of the application are closed. -/
def exitApplication : DetachedStart :=
  { s with
    application := .exited
    applicationHandle := false
    event := if s.launcherHandle then s.event else none }

/-- `start_application_under_test` with `start_detached`, and `detour_create_process_routinew`. -/
def launcherStep (ok : Bool) : Option DetachedStart :=
  match s.launcher with
  | .createProcess =>
      some (if ok then { s with launcher := .saveUserOptions, application := .suspended }
        else { s with launcher := .exit })
  | .saveUserOptions =>
      -- an exception of `save_user_options_to_shared_memory` ends BugInsight
      some (if ok then { s with launcher := .initStartDetached, segment := some options }
        else { s with launcher := .exit })
  | .initStartDetached =>
      some (if ok then
          { s with
            launcher := .resumeThread
            launcherHandle := true
            event := some (s.event.getD false) }
        else { s with launcher := .exit })
  | .resumeThread =>
      some (if ok then
          { s with
            launcher := .waitForSingleObject
            application :=
              if s.application = .suspended then .getUserOptions else s.application }
        else { s with launcher := .exit })
  | .waitForSingleObject =>
      -- the event resets itself
      if !ok then some { s with launcher := .closeHandle, waited := some false }
      else if s.event = some true then
        some { s with launcher := .closeHandle, waited := some true, event := some false }
      else none
  | .closeHandle =>
      some
        { s with
          launcher := .exit
          launcherHandle := false
          event := if s.applicationHandle then s.event else none }
  | .exit => some s.exitLauncher
  | .exited => none

/-- `loader_t::loader_t`, as far as it deals with BugInsight. -/
def applicationStep (ok : Bool) : Option DetachedStart :=
  match s.application with
  | .notCreated | .suspended | .main | .exited => none
  | .getUserOptions =>
      some (match s.segment with
        | none => { s.exitApplication with received := some none }
        | some o =>
          { s with
            application := if o.startDetached then .createEvent else .main
            received := some (some o) })
  | .createEvent =>
      some (if ok then
          { s with
            application := .setEvent
            applicationHandle := true
            event := some (s.event.getD false) }
        else s.exitApplication)
  | .setEvent =>
      some (if ok then
          { s with application := .closeHandle, event := some true, signalled := true }
        else s.exitApplication)
  | .closeHandle => some { s.exitApplication with application := .main }

/-- One step. -/
def step : StartAction → Option DetachedStart
  | .launcher ok => s.launcherStep options ok
  | .application ok => s.applicationStep ok
  | .terminate => if s.application = .notCreated then none else some s.exitApplication

/-- **The invariant** of the two processes. -/
structure Inv : Prop where
  /-- the thread is not resumed before the options are saved and the event exists -/
  suspended : s.launcher = .createProcess ∨ s.launcher = .saveUserOptions ∨
    s.launcher = .initStartDetached ∨ s.launcher = .resumeThread → s.received = none ∧
      (s.application = .notCreated ∨ s.application = .suspended ∨ s.application = .exited)
  segment : s.launcher = .initStartDetached ∨ s.launcher = .resumeThread ∨
    s.launcher = .waitForSingleObject ∨ s.launcher = .closeHandle ∨
    s.launcher = .exit ∧ s.waited.isSome → s.segment = some options
  segment_eq : s.segment = none ∨ s.segment = some options
  resumed : s.application = .getUserOptions → s.launcher = .waitForSingleObject ∨ s.waited.isSome
  waited : s.launcher = .closeHandle → s.waited.isSome
  notWaited : s.waited.isSome → s.launcher = .closeHandle ∨ s.launcher = .exit ∨
    s.launcher = .exited
  notReceived : s.application = .getUserOptions → s.received = none
  received : s.application = .createEvent ∨ s.application = .setEvent ∨
    s.application = .closeHandle ∨ s.application = .main → s.received = some (some options)
  lost : s.received = some none → s.waited = some false
  found : ∀ o, s.received = some (some o) → o = options
  sent : s.signalled → s.received = some (some options)
  signal : s.event = some true ∨ s.waited = some true → s.signalled
  main : s.application = .closeHandle ∨ s.application = .main ∧ options.startDetached →
    s.signalled
  handle : s.launcher = .waitForSingleObject →
    s.launcherHandle ∧ (s.signalled → s.event = some true)
  created : s.launcher = .resumeThread → s.launcherHandle

variable {options s} {s' : DetachedStart}

theorem inv_new : Inv options {} := by
  constructor <;> simp

/-- `CreateEvent` opens the event if it exists, and does not signal it. -/
theorem getD_eq_true {event : Option Bool} : event.getD false = true ↔ event = some true := by
  cases event <;> simp

theorem Inv.exitApplication (h : Inv options s) : Inv options s.exitApplication := by
  obtain ⟨hsuspended, hheld, heq, hresumed, hwaited, hnotWaited, hnotReceived, hreceived, hlost,
    hfound, hsent, hsignal, hmain, hhandle, hcreated⟩ := h
  constructor <;> grind [DetachedStart.exitApplication]

/-! ### The calls of BugInsight -/

theorem inv_createProcess (h : Inv options s) (hpc : s.launcher = .createProcess) :
    Inv options { s with launcher := .saveUserOptions, application := .suspended } := by
  obtain ⟨hsuspended, hheld, heq, hresumed, hwaited, hnotWaited, hnotReceived, hreceived, hlost,
    hfound, hsent, hsignal, hmain, hhandle, hcreated⟩ := h
  constructor <;> grind

/-- BugInsight gives up before the thread is resumed. -/
theorem inv_giveUp (h : Inv options s) (hpc : s.launcher = .createProcess ∨
    s.launcher = .saveUserOptions ∨ s.launcher = .initStartDetached ∨
    s.launcher = .resumeThread) :
    Inv options { s with launcher := .exit } := by
  obtain ⟨hsuspended, hheld, heq, hresumed, hwaited, hnotWaited, hnotReceived, hreceived, hlost,
    hfound, hsent, hsignal, hmain, hhandle, hcreated⟩ := h
  constructor <;> grind

theorem inv_saveUserOptions (h : Inv options s) (hpc : s.launcher = .saveUserOptions) :
    Inv options { s with launcher := .initStartDetached, segment := some options } := by
  obtain ⟨hsuspended, hheld, heq, hresumed, hwaited, hnotWaited, hnotReceived, hreceived, hlost,
    hfound, hsent, hsignal, hmain, hhandle, hcreated⟩ := h
  constructor <;> grind

theorem inv_initStartDetached (h : Inv options s) (hpc : s.launcher = .initStartDetached) :
    Inv options
      { s with
        launcher := .resumeThread
        launcherHandle := true
        event := some (s.event.getD false) } := by
  obtain ⟨hsuspended, hheld, heq, hresumed, hwaited, hnotWaited, hnotReceived, hreceived, hlost,
    hfound, hsent, hsignal, hmain, hhandle, hcreated⟩ := h
  constructor <;> grind [getD_eq_true]

theorem inv_resumeThread (h : Inv options s) (hpc : s.launcher = .resumeThread) :
    Inv options
      { s with
        launcher := .waitForSingleObject
        application := if s.application = .suspended then .getUserOptions else s.application } := by
  obtain ⟨hsuspended, hheld, heq, hresumed, hwaited, hnotWaited, hnotReceived, hreceived, hlost,
    hfound, hsent, hsignal, hmain, hhandle, hcreated⟩ := h
  constructor <;> grind

theorem inv_timeout (h : Inv options s) (hpc : s.launcher = .waitForSingleObject) :
    Inv options { s with launcher := .closeHandle, waited := some false } := by
  obtain ⟨hsuspended, hheld, heq, hresumed, hwaited, hnotWaited, hnotReceived, hreceived, hlost,
    hfound, hsent, hsignal, hmain, hhandle, hcreated⟩ := h
  constructor <;> grind

theorem inv_waitForSingleObject (h : Inv options s) (hpc : s.launcher = .waitForSingleObject)
    (hevent : s.event = some true) :
    Inv options { s with launcher := .closeHandle, waited := some true, event := some false } := by
  obtain ⟨hsuspended, hheld, heq, hresumed, hwaited, hnotWaited, hnotReceived, hreceived, hlost,
    hfound, hsent, hsignal, hmain, hhandle, hcreated⟩ := h
  constructor <;> grind

theorem inv_closeHandle (h : Inv options s) (hpc : s.launcher = .closeHandle) :
    Inv options
      { s with
        launcher := .exit
        launcherHandle := false
        event := if s.applicationHandle then s.event else none } := by
  obtain ⟨hsuspended, hheld, heq, hresumed, hwaited, hnotWaited, hnotReceived, hreceived, hlost,
    hfound, hsent, hsignal, hmain, hhandle, hcreated⟩ := h
  constructor <;> grind

theorem inv_exitLauncher (h : Inv options s) (hpc : s.launcher = .exit) :
    Inv options s.exitLauncher := by
  obtain ⟨hsuspended, hheld, heq, hresumed, hwaited, hnotWaited, hnotReceived, hreceived, hlost,
    hfound, hsent, hsignal, hmain, hhandle, hcreated⟩ := h
  constructor <;> grind [exitLauncher]

/-- **A call of BugInsight.** -/
theorem inv_launcher {ok : Bool} (h : Inv options s) (hs : s.launcherStep options ok = some s') :
    Inv options s' := by
  unfold launcherStep at hs
  cases hpc : s.launcher with
  | createProcess =>
    simp only [hpc, Option.some.injEq] at hs
    split_ifs at hs
    · exact hs ▸ inv_createProcess h hpc
    · exact hs ▸ inv_giveUp h (Or.inl hpc)
  | saveUserOptions =>
    simp only [hpc, Option.some.injEq] at hs
    split_ifs at hs
    · exact hs ▸ inv_saveUserOptions h hpc
    · exact hs ▸ inv_giveUp h (Or.inr (Or.inl hpc))
  | initStartDetached =>
    simp only [hpc, Option.some.injEq] at hs
    split_ifs at hs
    · exact hs ▸ inv_initStartDetached h hpc
    · exact hs ▸ inv_giveUp h (Or.inr (Or.inr (Or.inl hpc)))
  | resumeThread =>
    simp only [hpc, Option.some.injEq] at hs
    by_cases hok : ok = true
    · rw [if_pos hok] at hs
      exact hs ▸ inv_resumeThread h hpc
    · rw [if_neg hok] at hs
      exact hs ▸ inv_giveUp h (Or.inr (Or.inr (Or.inr hpc)))
  | waitForSingleObject =>
    simp only [hpc] at hs
    by_cases hok : (!ok) = true
    · rw [if_pos hok] at hs
      cases hs
      exact inv_timeout h hpc
    · rw [if_neg hok] at hs
      split_ifs at hs with hevent
      cases hs
      exact inv_waitForSingleObject h hpc hevent
  | closeHandle =>
    simp only [hpc, Option.some.injEq] at hs
    exact hs ▸ inv_closeHandle h hpc
  | exit =>
    simp only [hpc, Option.some.injEq] at hs
    exact hs ▸ inv_exitLauncher h hpc
  | exited =>
    simp only [hpc] at hs
    cases hs

/-! ### The calls of the application -/

/-- BugInsight has exited, and not because of a signal. -/
theorem inv_notFound (h : Inv options s) (hpc : s.application = .getUserOptions)
    (hsegment : s.segment = none) :
    Inv options { s.exitApplication with received := some none } := by
  obtain ⟨hsuspended, hheld, heq, hresumed, hwaited, hnotWaited, hnotReceived, hreceived, hlost,
    hfound, hsent, hsignal, hmain, hhandle, hcreated⟩ := h
  have hsome : s.waited.isSome := (hresumed hpc).resolve_left fun hwait => by
    rw [hheld (Or.inr (Or.inr (Or.inl hwait)))] at hsegment
    cases hsegment
  have htimeout : s.waited = some false := by
    obtain ⟨b, hb⟩ := Option.isSome_iff_exists.1 hsome
    cases b with
    | false => exact hb
    | true =>
      have hread := hsent (hsignal (Or.inr hb))
      rw [hnotReceived hpc] at hread
      cases hread
  simp only [DetachedStart.exitApplication]
  constructor <;> grind

theorem inv_getUserOptions {o : RuntimeOptions} (h : Inv options s)
    (hpc : s.application = .getUserOptions) (hsegment : s.segment = some o) :
    Inv options
      { s with
        application := if o.startDetached then .createEvent else .main
        received := some (some o) } := by
  obtain ⟨hsuspended, hheld, heq, hresumed, hwaited, hnotWaited, hnotReceived, hreceived, hlost,
    hfound, hsent, hsignal, hmain, hhandle, hcreated⟩ := h
  constructor <;> grind

theorem inv_createEvent (h : Inv options s) (hpc : s.application = .createEvent) :
    Inv options
      { s with
        application := .setEvent
        applicationHandle := true
        event := some (s.event.getD false) } := by
  obtain ⟨hsuspended, hheld, heq, hresumed, hwaited, hnotWaited, hnotReceived, hreceived, hlost,
    hfound, hsent, hsignal, hmain, hhandle, hcreated⟩ := h
  constructor <;> grind [getD_eq_true]

theorem inv_setEvent (h : Inv options s) (hpc : s.application = .setEvent) :
    Inv options
      { s with application := .closeHandle, event := some true, signalled := true } := by
  obtain ⟨hsuspended, hheld, heq, hresumed, hwaited, hnotWaited, hnotReceived, hreceived, hlost,
    hfound, hsent, hsignal, hmain, hhandle, hcreated⟩ := h
  constructor <;> grind

theorem inv_closeApplicationHandle (h : Inv options s) (hpc : s.application = .closeHandle) :
    Inv options { s.exitApplication with application := .main } := by
  obtain ⟨hsuspended, hheld, heq, hresumed, hwaited, hnotWaited, hnotReceived, hreceived, hlost,
    hfound, hsent, hsignal, hmain, hhandle, hcreated⟩ := h
  simp only [DetachedStart.exitApplication]
  constructor <;> grind

/-- **A call of the application.** -/
theorem inv_application {ok : Bool} (h : Inv options s) (hs : s.applicationStep ok = some s') :
    Inv options s' := by
  unfold applicationStep at hs
  cases hpc : s.application with
  | notCreated | suspended | main | exited =>
    simp only [hpc] at hs
    cases hs
  | getUserOptions =>
    cases hsegment : s.segment with
    | none =>
      simp only [hpc, hsegment, Option.some.injEq] at hs
      exact hs ▸ inv_notFound h hpc hsegment
    | some o =>
      simp only [hpc, hsegment, Option.some.injEq] at hs
      have hfound := inv_getUserOptions h hpc hsegment
      rw [hsegment] at hfound
      exact hs ▸ hfound
  | createEvent =>
    simp only [hpc, Option.some.injEq] at hs
    split_ifs at hs
    · exact hs ▸ inv_createEvent h hpc
    · exact hs ▸ h.exitApplication
  | setEvent =>
    simp only [hpc, Option.some.injEq] at hs
    split_ifs at hs
    · exact hs ▸ inv_setEvent h hpc
    · exact hs ▸ h.exitApplication
  | closeHandle =>
    simp only [hpc, Option.some.injEq] at hs
    exact hs ▸ inv_closeApplicationHandle h hpc

/-- **One step** keeps the invariant. -/
theorem inv_step {a : StartAction} (h : Inv options s) (hs : s.step options a = some s') :
    Inv options s' := by
  cases a with
  | launcher ok => exact inv_launcher h hs
  | application ok => exact inv_application h hs
  | terminate =>
    change (if _ then _ else _) = _ at hs
    split_ifs at hs
    cases hs
    exact h.exitApplication

theorem inv_run {l : List StartAction} (hrun : run (step options) {} l = some s) :
    Inv options s :=
  run_induct (motive := fun _ s => Inv options s) inv_new
    (fun _ _ _ _ _ hinv hs => inv_step hinv hs) l s hrun

end DetachedStart

open DetachedStart

/-- **The handshake of a detached start**, for every interleaving of the two processes:

* the application finds the options of BugInsight, unless the wait has timed out before;
* if the wait succeeds, the application has read the options and signalled the event;
* a wait that has not timed out succeeds once the event is signalled;
* the application is not at its own code before it has read the options and signalled the event. -/
theorem detached_start_handshake (options : RuntimeOptions) (l : List StartAction)
    {s : DetachedStart} (hrun : run (step options) {} l = some s) :
    (∀ found, s.received = some found →
      found = some options ∨ found = none ∧ s.waited = some false) ∧
    (s.waited = some true → s.received = some (some options) ∧ s.signalled) ∧
    (s.launcher = .waitForSingleObject → s.signalled →
      ∃ s', s.step options (.launcher true) = some s' ∧ s'.waited = some true) ∧
    (s.application = .main →
      s.received = some (some options) ∧ (options.startDetached → s.signalled)) := by
  have hinv := inv_run hrun
  refine ⟨fun found hfound => ?_, fun hwaited => ?_, fun hpc hsignalled => ?_, fun hmain => ?_⟩
  · cases found with
    | none => exact Or.inr ⟨rfl, hinv.lost hfound⟩
    | some o => exact Or.inl (congrArg some (hinv.found o hfound))
  · have hsignalled := hinv.signal (Or.inr hwaited)
    exact ⟨hinv.sent hsignalled, hsignalled⟩
  · have hevent := (hinv.handle hpc).2 hsignalled
    refine ⟨{ s with launcher := .closeHandle, waited := some true, event := some false }, ?_, rfl⟩
    simp [step, launcherStep, hpc, hevent]
  · exact ⟨hinv.received (Or.inr (Or.inr (Or.inr hmain))),
      fun hdetached => hinv.main (Or.inr ⟨hmain, hdetached⟩)⟩

/-- The application has closed its handle before BugInsight waits. -/
theorem detached_start_handshake_run : ∃ s,
    run (step { startDetached := true }) {}
      (List.replicate 4 (.launcher true) ++ List.replicate 4 (.application true)) = some s ∧
    ∃ s', s.step { startDetached := true } (.launcher true) = some s' ∧ s'.waited = some true :=
  ⟨_, rfl, (detached_start_handshake { startDetached := true }
    (List.replicate 4 (.launcher true) ++ List.replicate 4 (.application true)) rfl).2.2.1 rfl rfl⟩

/-- The wait times out, and BugInsight exits before the application looks for the options. -/
example : (run (step { startDetached := true }) {} (List.replicate 4 (.launcher true) ++
    [.launcher false, .launcher true, .launcher true, .application true])).map
      (fun s => s.received) = some (some none) := rfl

end BugInsight

import BugInsight.Options.CommandLineParser

/-!
# The two option parsers

The texts on the command line denote the values of the options by the rules of the manual, and the
two parsers read them by the rules of the code.

* `configure_iff`: the rules by which the two parsers read the command line;
* `layers_agree_iff`: where they are the rules of the manual.
-/

namespace BugInsight

/-! ### Rules -/

/-- The value of `log_to`. -/
structure LogTargets where
  stdout : Bool
  file : Option NarrowString

/-- The values of the options that are given. -/
structure OptionValues where
  onError : Option OnError
  ignoreModules : Option (List BlacklistInfo)
  callstacks : Option Bool
  logTo : Option LogTargets
  logToDebugOut : Option LogToDebugOut
  logLevel : Option LogLevel
  exitCode : Option ℤ
  startDetached : Option Bool
  threadWatchdogMaxDurationSec : Option ℕ
  threadWatchdog : Option Bool

/-- The options with the values that are given; the modules that are ignored are added to a list. -/
def RuntimeOptions.update (o : RuntimeOptions) (v : OptionValues) : RuntimeOptions :=
  { o with
    onError := v.onError.getD o.onError
    blacklistModulesDeadlocks := o.blacklistModulesDeadlocks ++
      (v.ignoreModules.getD []).filter fun info => info.ignoreLock
    blacklistModulesMemoryLeaks := o.blacklistModulesMemoryLeaks ++
      (v.ignoreModules.getD []).filter fun info => info.ignoreMemoryLeak
    collectCallstacks := v.callstacks.getD o.collectCallstacks
    logToStdout := (v.logTo.map LogTargets.stdout).getD o.logToStdout
    logToFile := (v.logTo.bind LogTargets.file).getD o.logToFile
    logToDebugOut := v.logToDebugOut.getD o.logToDebugOut
    logLevel := v.logLevel.getD o.logLevel
    exitCode := v.exitCode.getD o.exitCode
    startDetached := v.startDetached.getD o.startDetached
    threadWatchdogMaxDurationSec :=
      v.threadWatchdogMaxDurationSec.getD o.threadWatchdogMaxDurationSec
    threadWatchdogEnabled := v.threadWatchdog.getD o.threadWatchdogEnabled }

/-- What the values of the options denote. -/
structure Rules (B I : Type) where
  onError : NarrowString → OnError → Prop
  ignoreModules : NarrowString → List BlacklistInfo → Prop
  callstacks : B → Bool → Prop
  logTo : NarrowString → LogTargets → Prop
  logToDebugOut : NarrowString → LogToDebugOut → Prop
  logLevel : NarrowString → LogLevel → Prop
  exitCode : I → ℤ → Prop
  startDetached : B → Bool → Prop
  threadWatchdogMaxDurationSec : I → ℕ → Prop
  threadWatchdog : I → Bool → Prop

namespace Rules

variable {B I : Type} (R : Rules B I) (given : DeclaredOptions B I)

/-- The options that are given denote these values. -/
structure Fits (v : OptionValues) : Prop where
  onError : Option.Rel R.onError given.onError v.onError
  ignoreModules : Option.Rel R.ignoreModules given.ignoreModules v.ignoreModules
  callstacks : Option.Rel R.callstacks given.callstacks v.callstacks
  logTo : Option.Rel R.logTo given.logTo v.logTo
  logToDebugOut : Option.Rel R.logToDebugOut given.logToDebugOut v.logToDebugOut
  logLevel : Option.Rel R.logLevel given.logLevel v.logLevel
  exitCode : Option.Rel R.exitCode given.exitCode v.exitCode
  startDetached : Option.Rel R.startDetached given.startDetached v.startDetached
  threadWatchdogMaxDurationSec : Option.Rel R.threadWatchdogMaxDurationSec
    given.threadWatchdogMaxDurationSec v.threadWatchdogMaxDurationSec
  threadWatchdog : Option.Rel R.threadWatchdog given.threadWatchdog v.threadWatchdog

end Rules

/-! ### What the two parsers read -/

/-- The rules by which `parse_options` reads what `command_line_parser::parse` has rendered. -/
def parsedRules : Rules Bool Int32 where
  onError text x := text = x.text
  ignoreModules text infos := text ≠ [] ∧
    List.Forall₂ (fun x info => parseToBlacklistInfo x = .ok info) (text.splitOn (byte ',')) infos
  callstacks b x := b = x
  logTo text x := text ≠ [] ∧ (x.stdout = true ↔ bytes "stdout" ∈ text.splitOn (byte ',')) ∧
    x.file = ((text.splitOn (byte ',')).filter fun x => x ≠ bytes "stdout").getLast?
  logToDebugOut text x := text = x.text
  logLevel text x := text = x.text
  exitCode n x := n.toInt = x ∧ 0 ≤ x ∧ x ≤ 126
  startDetached b x := b = x
  threadWatchdogMaxDurationSec n x := n.toInt = x ∧ 2 ≤ x ∧ x ≤ 24 * 60 * 60
  threadWatchdog _ _ := False

theorem parseOptions_append {l₁ l₂ : List (NarrowString × NarrowString)} {o o' : RuntimeOptions} :
    parseOptions (l₁ ++ l₂) o = .ok o' ↔
      ∃ o₁, parseOptions l₁ o = .ok o₁ ∧ parseOptions l₂ o₁ = .ok o' := by
  unfold parseOptions
  rw [List.foldlM_append]
  cases hl : l₁.foldlM parseOption o with
  | error e => exact iff_of_false (fun h => by cases h) fun ⟨o₁, h, _⟩ => by cases h
  | ok o₁ =>
    constructor
    · exact fun h => ⟨o₁, rfl, h⟩
    · rintro ⟨_, h, h'⟩
      cases h
      exact h'

section Emit

variable {τ β : Type} {key : String} {render : τ → NarrowString} {R : τ → β → Prop}
  {o o' : RuntimeOptions}

/-- An option that is not given changes nothing. -/
theorem parseOptions_emit {set : Option β → RuntimeOptions} (hnone : set none = o)
    (hsome : ∀ t o', parseOption o (bytes key, render t) = .ok o' ↔ ∃ x, R t x ∧ o' = set (some x))
    (given : Option τ) : parseOptions (emit key (given.map render)) o = .ok o' ↔
      ∃ x, Option.Rel R given x ∧ o' = set x := by
  cases given with
  | none =>
    constructor
    · intro h
      cases h
      exact ⟨none, .none, hnone.symm⟩
    · rintro ⟨x, hx, rfl⟩
      cases hx
      rw [hnone]
      rfl
  | some t =>
    have hparse : parseOptions (emit key (some (render t))) o = parseOption o (bytes key, render t) :=
      bind_pure _
    rw [Option.map_some, hparse, hsome]
    constructor
    · rintro ⟨x, hx, rfl⟩
      exact ⟨some x, .some hx, rfl⟩
    · rintro ⟨x, hx, rfl⟩
      cases hx with
      | @some _ x hx => exact ⟨x, hx, rfl⟩

/-- An option of type `std::string`. -/
theorem parseOptions_emit_text {R : NarrowString → β → Prop} {set : Option β → RuntimeOptions}
    (hnone : set none = o)
    (hsome : ∀ t o', parseOption o (bytes key, t) = .ok o' ↔ ∃ x, R t x ∧ o' = set (some x))
    (given : Option NarrowString) : parseOptions (emit key given) o = .ok o' ↔
      ∃ x, Option.Rel R given x ∧ o' = set x := by
  have h := @parseOptions_emit _ _ key id R o o' set hnone hsome given
  rwa [Option.map_id] at h

end Emit

section Fields

variable {o o' : RuntimeOptions} {vm : VariablesMap}

theorem emit_callstacks : parseOptions (emit "callstacks" (vm.callstacks.map boolText)) o = .ok o' ↔
    ∃ x, Option.Rel parsedRules.callstacks vm.callstacks x ∧
      o' = { o with collectCallstacks := x.getD o.collectCallstacks } := by
  refine parseOptions_emit ?_ (fun b _ => parseOption_callstacks b) _
  rfl

theorem emit_logTo : parseOptions (emit "log_to" vm.logTo) o = .ok o' ↔
    ∃ x, Option.Rel parsedRules.logTo vm.logTo x ∧ o' =
      { o with
        logToStdout := (x.map LogTargets.stdout).getD o.logToStdout
        logToFile := (x.bind LogTargets.file).getD o.logToFile } := by
  refine parseOptions_emit_text ?_ (fun t o' => ?_) _
  · rfl
  rw [parseOption_logTo]
  constructor
  · rintro ⟨hne, rfl⟩
    exact ⟨⟨_, _⟩, ⟨hne, decide_eq_true_iff, rfl⟩, rfl⟩
  · rintro ⟨⟨stdout, file⟩, ⟨hne, hout, rfl⟩, rfl⟩
    obtain rfl : stdout = decide (bytes "stdout" ∈ t.splitOn (byte ',')) := by
      rw [Bool.eq_iff_iff, decide_eq_true_iff]
      exact hout
    exact ⟨hne, rfl⟩

theorem emit_logToDebugOut : parseOptions (emit "log_to_debug_out" vm.logToDebugOut) o = .ok o' ↔
    ∃ x, Option.Rel parsedRules.logToDebugOut vm.logToDebugOut x ∧
      o' = { o with logToDebugOut := x.getD o.logToDebugOut } := by
  refine parseOptions_emit_text ?_ (fun _ _ => parseOption_logToDebugOut) _
  rfl

theorem emit_logLevel : parseOptions (emit "log_level" vm.logLevel) o = .ok o' ↔
    ∃ x, Option.Rel parsedRules.logLevel vm.logLevel x ∧
      o' = { o with logLevel := x.getD o.logLevel } := by
  refine parseOptions_emit_text ?_ (fun _ _ => parseOption_logLevel) _
  rfl

theorem emit_onError : parseOptions (emit "on_error" vm.onError) o = .ok o' ↔
    ∃ x, Option.Rel parsedRules.onError vm.onError x ∧ o' = { o with onError := x.getD o.onError } := by
  refine parseOptions_emit_text ?_ (fun _ _ => parseOption_onError) _
  rfl

theorem emit_startDetached :
    parseOptions (emit "start_detached" (vm.startDetached.map boolText)) o = .ok o' ↔
      ∃ x, Option.Rel parsedRules.startDetached vm.startDetached x ∧
        o' = { o with startDetached := x.getD o.startDetached } := by
  refine parseOptions_emit ?_ (fun b _ => parseOption_startDetached b) _
  rfl

theorem emit_threadWatchdogMaxDurationSec :
    parseOptions (emit "thread_watchdog_max_duration_sec"
        (vm.threadWatchdogMaxDurationSec.map intText)) o = .ok o' ↔
      ∃ x, Option.Rel parsedRules.threadWatchdogMaxDurationSec vm.threadWatchdogMaxDurationSec x ∧
        o' = { o with threadWatchdogMaxDurationSec := x.getD o.threadWatchdogMaxDurationSec } := by
  refine parseOptions_emit ?_ (fun n _ => parseOption_threadWatchdogMaxDurationSec n) _
  rfl

theorem emit_threadWatchdog :
    parseOptions (emit "thread_watchdog" (vm.threadWatchdog.map intText)) o = .ok o' ↔
      ∃ x, Option.Rel parsedRules.threadWatchdog vm.threadWatchdog x ∧
        o' = { o with threadWatchdogEnabled := x.getD o.threadWatchdogEnabled } := by
  refine parseOptions_emit ?_ (fun n _ => parseOption_threadWatchdog n) _
  rfl

theorem emit_exitCode : parseOptions (emit "exit_code" (vm.exitCode.map intText)) o = .ok o' ↔
    ∃ x, Option.Rel parsedRules.exitCode vm.exitCode x ∧
      o' = { o with exitCode := x.getD o.exitCode } := by
  refine parseOptions_emit ?_ (fun n _ => parseOption_exitCode n) _
  rfl

theorem emit_ignoreModules : parseOptions (emit "ignore_modules" vm.ignoreModules) o = .ok o' ↔
    ∃ x, Option.Rel parsedRules.ignoreModules vm.ignoreModules x ∧ o' = o.ignoring (x.getD []) := by
  refine parseOptions_emit_text ?_ (fun _ _ => parseOption_ignoreModules) _
  exact o.ignoring_nil

/-- **The list that is rendered** is read back, option by option. -/
theorem parse_configurationList : parseOptions (configurationList vm) o = .ok o' ↔
    ∃ v, parsedRules.Fits vm v ∧ o' = o.update v := by
  unfold configurationList
  constructor
  · intro h
    obtain ⟨_, h, h₁₀⟩ := parseOptions_append.1 h
    obtain ⟨_, h, h₉⟩ := parseOptions_append.1 h
    obtain ⟨_, h, h₈⟩ := parseOptions_append.1 h
    obtain ⟨_, h, h₇⟩ := parseOptions_append.1 h
    obtain ⟨_, h, h₆⟩ := parseOptions_append.1 h
    obtain ⟨_, h, h₅⟩ := parseOptions_append.1 h
    obtain ⟨_, h, h₄⟩ := parseOptions_append.1 h
    obtain ⟨_, h, h₃⟩ := parseOptions_append.1 h
    obtain ⟨_, h₁, h₂⟩ := parseOptions_append.1 h
    obtain ⟨callstacks, hcallstacks, rfl⟩ := emit_callstacks.1 h₁
    obtain ⟨logTo, hlogTo, rfl⟩ := emit_logTo.1 h₂
    obtain ⟨logToDebugOut, hlogToDebugOut, rfl⟩ := emit_logToDebugOut.1 h₃
    obtain ⟨logLevel, hlogLevel, rfl⟩ := emit_logLevel.1 h₄
    obtain ⟨onError, honError, rfl⟩ := emit_onError.1 h₅
    obtain ⟨startDetached, hstartDetached, rfl⟩ := emit_startDetached.1 h₆
    obtain ⟨maxDuration, hmaxDuration, rfl⟩ := emit_threadWatchdogMaxDurationSec.1 h₇
    obtain ⟨threadWatchdog, hthreadWatchdog, rfl⟩ := emit_threadWatchdog.1 h₈
    obtain ⟨exitCode, hexitCode, rfl⟩ := emit_exitCode.1 h₉
    obtain ⟨ignoreModules, hignoreModules, rfl⟩ := emit_ignoreModules.1 h₁₀
    exact ⟨⟨onError, ignoreModules, callstacks, logTo, logToDebugOut, logLevel, exitCode,
      startDetached, maxDuration, threadWatchdog⟩, ⟨honError, hignoreModules, hcallstacks, hlogTo,
      hlogToDebugOut, hlogLevel, hexitCode, hstartDetached, hmaxDuration, hthreadWatchdog⟩, rfl⟩
  · rintro ⟨v, hv, rfl⟩
    have h₁ := (emit_callstacks (o := o)).2 ⟨_, hv.callstacks, rfl⟩
    have h₂ := parseOptions_append.2 ⟨_, h₁, emit_logTo.2 ⟨_, hv.logTo, rfl⟩⟩
    have h₃ := parseOptions_append.2 ⟨_, h₂, emit_logToDebugOut.2 ⟨_, hv.logToDebugOut, rfl⟩⟩
    have h₄ := parseOptions_append.2 ⟨_, h₃, emit_logLevel.2 ⟨_, hv.logLevel, rfl⟩⟩
    have h₅ := parseOptions_append.2 ⟨_, h₄, emit_onError.2 ⟨_, hv.onError, rfl⟩⟩
    have h₆ := parseOptions_append.2 ⟨_, h₅, emit_startDetached.2 ⟨_, hv.startDetached, rfl⟩⟩
    have h₇ := parseOptions_append.2
      ⟨_, h₆, emit_threadWatchdogMaxDurationSec.2 ⟨_, hv.threadWatchdogMaxDurationSec, rfl⟩⟩
    have h₈ := parseOptions_append.2 ⟨_, h₇, emit_threadWatchdog.2 ⟨_, hv.threadWatchdog, rfl⟩⟩
    have h₉ := parseOptions_append.2 ⟨_, h₈, emit_exitCode.2 ⟨_, hv.exitCode, rfl⟩⟩
    exact parseOptions_append.2 ⟨_, h₉, emit_ignoreModules.2 ⟨_, hv.ignoreModules, rfl⟩⟩

end Fields

/-! ### From the texts on -/

section Texts

variable (conv : Conversions)

/-- The rules for texts that are converted first. -/
def Rules.onTexts (R : Rules Bool Int32) : Rules NarrowString NarrowString where
  onError := R.onError
  ignoreModules := R.ignoreModules
  callstacks text x := ∃ b, conv.toBool text = some b ∧ R.callstacks b x
  logTo := R.logTo
  logToDebugOut := R.logToDebugOut
  logLevel := R.logLevel
  exitCode text x := ∃ n, conv.toInt text = some n ∧ R.exitCode n x
  startDetached text x := ∃ b, conv.toBool text = some b ∧ R.startDetached b x
  threadWatchdogMaxDurationSec text x :=
    ∃ n, conv.toInt text = some n ∧ R.threadWatchdogMaxDurationSec n x
  threadWatchdog text x := ∃ n, conv.toInt text = some n ∧ R.threadWatchdog n x

variable {conv}

/-- A value that is converted and then read. -/
theorem rel_mapM {τ σ β : Type} {f : τ → Option σ} {R : σ → β → Prop} {given : Option τ}
    {x : Option β} : Option.Rel (fun t y => ∃ b, f t = some b ∧ R b y) given x ↔
      ∃ w, given.mapM f = some w ∧ Option.Rel R w x := by
  cases given with
  | none =>
    constructor
    · intro h
      cases h
      exact ⟨none, rfl, .none⟩
    · rintro ⟨w, hw, hR⟩
      cases hw
      cases hR
      exact .none
  | some t =>
    constructor
    · intro h
      cases h with
      | some h =>
        obtain ⟨b, hb, hR⟩ := h
        exact ⟨some b, by simp [hb], .some hR⟩
    · rintro ⟨w, hw, hR⟩
      obtain ⟨b, hb, rfl⟩ : ∃ b, f t = some b ∧ some b = w := by simpa using hw
      cases hR with
      | some hR => exact .some ⟨b, hb, hR⟩

variable {given : GivenOptions} {vm : VariablesMap} {o o' : RuntimeOptions}

theorem store_eq_some : store conv given = some vm ↔
    given.callstacks.mapM conv.toBool = some vm.callstacks ∧
    given.exitCode.mapM conv.toInt = some vm.exitCode ∧
    given.startDetached.mapM conv.toBool = some vm.startDetached ∧
    given.threadWatchdogMaxDurationSec.mapM conv.toInt = some vm.threadWatchdogMaxDurationSec ∧
    given.threadWatchdog.mapM conv.toInt = some vm.threadWatchdog ∧
    given.onError = vm.onError ∧ given.ignoreModules = vm.ignoreModules ∧ given.logTo = vm.logTo ∧
    given.logToDebugOut = vm.logToDebugOut ∧ given.logLevel = vm.logLevel := by
  obtain ⟨onError, ignoreModules, callstacks, logTo, logToDebugOut, logLevel, exitCode, startDetached,
    maxDuration, threadWatchdog⟩ := vm
  unfold store
  simp only [Option.bind_eq_bind, Option.bind_eq_some_iff, Option.pure_def, Option.some.injEq,
    DeclaredOptions.mk.injEq]
  constructor
  · rintro ⟨_, h₁, _, h₂, _, h₃, _, h₄, _, h₅, h₆, h₇, rfl, h₈, h₉, h₁₀, rfl, rfl, rfl, rfl⟩
    exact ⟨h₁, h₂, h₃, h₄, h₅, h₆, h₇, h₈, h₉, h₁₀⟩
  · rintro ⟨h₁, h₂, h₃, h₄, h₅, h₆, h₇, h₈, h₉, h₁₀⟩
    exact ⟨_, h₁, _, h₂, _, h₃, _, h₄, _, h₅, h₆, h₇, rfl, h₈, h₉, h₁₀, rfl, rfl, rfl, rfl⟩

theorem fits_onTexts {R : Rules Bool Int32} {v : OptionValues} :
    (R.onTexts conv).Fits given v ↔ ∃ vm, store conv given = some vm ∧ R.Fits vm v := by
  constructor
  · intro h
    obtain ⟨callstacks, h₁, h₁'⟩ := rel_mapM.1 h.callstacks
    obtain ⟨exitCode, h₂, h₂'⟩ := rel_mapM.1 h.exitCode
    obtain ⟨startDetached, h₃, h₃'⟩ := rel_mapM.1 h.startDetached
    obtain ⟨maxDuration, h₄, h₄'⟩ := rel_mapM.1 h.threadWatchdogMaxDurationSec
    obtain ⟨threadWatchdog, h₅, h₅'⟩ := rel_mapM.1 h.threadWatchdog
    exact ⟨⟨given.onError, given.ignoreModules, callstacks, given.logTo, given.logToDebugOut,
      given.logLevel, exitCode, startDetached, maxDuration, threadWatchdog⟩,
      store_eq_some.2 ⟨h₁, h₂, h₃, h₄, h₅, rfl, rfl, rfl, rfl, rfl⟩,
      ⟨h.onError, h.ignoreModules, h₁', h.logTo, h.logToDebugOut, h.logLevel, h₂', h₃', h₄', h₅'⟩⟩
  · rintro ⟨vm, hvm, h⟩
    obtain ⟨h₁, h₂, h₃, h₄, h₅, honError, hignoreModules, hlogTo, hlogToDebugOut, hlogLevel⟩ :=
      store_eq_some.1 hvm
    exact ⟨honError ▸ h.onError, hignoreModules ▸ h.ignoreModules,
      rel_mapM.2 ⟨_, h₁, h.callstacks⟩, hlogTo ▸ h.logTo, hlogToDebugOut ▸ h.logToDebugOut,
      hlogLevel ▸ h.logLevel, rel_mapM.2 ⟨_, h₂, h.exitCode⟩, rel_mapM.2 ⟨_, h₃, h.startDetached⟩,
      rel_mapM.2 ⟨_, h₄, h.threadWatchdogMaxDurationSec⟩, rel_mapM.2 ⟨_, h₅, h.threadWatchdog⟩⟩

/-- **What the two parsers make of a command line**: they accept it if the values fit to the rules
of the parsers, and nothing but these values is changed. -/
theorem configure_iff : configure conv given o = some o' ↔
    ∃ v, (parsedRules.onTexts conv).Fits given v ∧ o' = o.update v := by
  have hok : ∀ x : Except OptionsFailure RuntimeOptions, x.toOption = some o' ↔ x = .ok o' := by
    intro x
    cases x <;> simp [Except.toOption]
  unfold configure parseCommandLine
  simp only [Option.bind_map, Option.bind_eq_some_iff, Function.comp, hok, parse_configurationList,
    fits_onTexts]
  constructor
  · rintro ⟨vm, hvm, v, hv, rfl⟩
    exact ⟨v, ⟨vm, hvm, hv⟩, rfl⟩
  · rintro ⟨v, ⟨vm, hvm, hv⟩, rfl⟩
    exact ⟨vm, hvm, v, hv, rfl⟩

/-- Both copies of `start_detached` are the same. -/
theorem startDetached_eq {parsed : List (NarrowString × NarrowString) × Bool}
    (hparsed : parseCommandLine conv given = some parsed) (ho : o.startDetached = false)
    (h : configure conv given o = some o') : o'.startDetached = parsed.2 := by
  obtain ⟨v, hv, rfl⟩ := configure_iff.1 h
  obtain ⟨vm, hvm, hfits⟩ := fits_onTexts.1 hv
  unfold parseCommandLine at hparsed
  rw [hvm] at hparsed
  cases hparsed
  show v.startDetached.getD o.startDetached = vm.startDetached.getD false
  rw [ho]
  have hrel := hfits.startDetached
  generalize vm.startDetached = b, v.startDetached = x at hrel
  cases hrel with
  | none => rfl
  | some h => exact h.symm

end Texts

/-! ### The manual -/

/-- What an item of `ignore_modules` denotes. -/
def ItemDenotes (item : NarrowString) (info : BlacklistInfo) : Prop :=
  ∃ name, ModuleItem item name info.ignoreMemoryLeak info.ignoreLock ∧
    info.regexString = regexPattern (toLowerCopy name) ∧ info.originalString = toLowerCopy name

/-- The rules of the manual, and of the texts that `command_line_parser::parse` prints. -/
def documentedRules (conv : Conversions) : Rules NarrowString NarrowString where
  onError text x := text = x.text
  ignoreModules text infos :=
    text ≠ [] ∧ List.Forall₂ ItemDenotes (text.splitOn (byte ',')) infos
  callstacks text x := text = boolText x
  logTo text x := text ≠ [] ∧ (x.stdout = true ↔ bytes "stdout" ∈ text.splitOn (byte ',')) ∧
    ∀ file, x.file = some file ↔ file ∈ text.splitOn (byte ',') ∧ file ≠ bytes "stdout"
  logToDebugOut text x := text = x.text
  logLevel text x := text = x.text
  exitCode text x := ∃ n, conv.toInt text = some n ∧ n.toInt = x ∧ 1 ≤ x ∧ x ≤ 126
  startDetached text x := text = boolText x
  threadWatchdogMaxDurationSec text x :=
    ∃ n, conv.toInt text = some n ∧ n.toInt = x ∧ 2 ≤ x ∧ x ≤ 86400
  threadWatchdog text x := text = boolText x

/-- The parsers accept the command lines of the manual, and then the options hold the values. -/
structure LayersAgree (conv : Conversions) (given : GivenOptions) (o : RuntimeOptions) : Prop where
  accepted : (∃ o', configure conv given o = some o') ↔ ∃ v, (documentedRules conv).Fits given v
  stored : ∀ o', configure conv given o = some o' → ∀ v, (documentedRules conv).Fits given v →
    o' = o.update v

/-! ### Where the rules are the same -/

/-- The rules by which the parsers read what they read at all, and the one of the manual for
`thread_watchdog`. -/
def commonRules (conv : Conversions) : Rules NarrowString NarrowString :=
  { parsedRules.onTexts conv with threadWatchdog := fun text x => text = boolText x }

/-- The words are `true` or `false`, the exit code is not 0, no item of `ignore_modules` is misread,
and `log_to` names one file at most. -/
structure Sound (conv : Conversions) (given : GivenOptions) : Prop where
  callstacks : ∀ text ∈ given.callstacks, ∃ b, text = boolText b
  startDetached : ∀ text ∈ given.startDetached, ∃ b, text = boolText b
  exitCode : ∀ text ∈ given.exitCode, ∀ n, conv.toInt text = some n → n.toInt ≠ 0
  ignoreModules : ∀ text ∈ given.ignoreModules, ∀ item ∈ text.splitOn (byte ','), ¬ Misread item
  logTo : ∀ text ∈ given.logTo, ∀ x ∈ text.splitOn (byte ','), ∀ y ∈ text.splitOn (byte ','),
    x ≠ bytes "stdout" → y ≠ bytes "stdout" → x = y

section Agreement

variable {conv : Conversions} {given : GivenOptions} {v : OptionValues}

theorem rel_imp {τ β : Type} {R S : τ → β → Prop} {t : Option τ} {x : Option β}
    (h : Option.Rel R t x) (himp : ∀ a ∈ t, ∀ b, R a b → S a b) : Option.Rel S t x := by
  cases h with
  | none => exact .none
  | some h => exact .some (himp _ rfl _ h)

/-- Without `thread_watchdog` the common rules are those of the parsers. -/
theorem parsed_fits_of_common (hnone : given.threadWatchdog = none)
    (hv : (commonRules conv).Fits given v) : (parsedRules.onTexts conv).Fits given v := by
  refine { hv with threadWatchdog := rel_imp hv.threadWatchdog fun a ha => ?_ }
  rw [hnone] at ha
  cases ha

/-- With `thread_watchdog` nothing is accepted. -/
theorem parsed_fits_iff : (∃ v, (parsedRules.onTexts conv).Fits given v) ↔
    (∃ v, (commonRules conv).Fits given v) ∧ given.threadWatchdog = none := by
  constructor
  · rintro ⟨v, hv⟩
    have hnone : given.threadWatchdog = none := by
      have hrel := hv.threadWatchdog
      generalize given.threadWatchdog = t, v.threadWatchdog = x at hrel
      cases hrel with
      | none => rfl
      | some h => exact absurd h.choose_spec.2 id
    refine ⟨⟨v, { hv with threadWatchdog := rel_imp hv.threadWatchdog fun a ha => ?_ }⟩, hnone⟩
    rw [hnone] at ha
    cases ha
  · rintro ⟨⟨v, hv⟩, hnone⟩
    exact ⟨v, parsed_fits_of_common hnone hv⟩

/-- The items of `ignore_modules` that are not misread. -/
theorem forall₂_itemDenotes {items : List NarrowString} {infos : List BlacklistInfo}
    (hlen : ∀ item ∈ items, item.length < 2 ^ 64) : List.Forall₂ ItemDenotes items infos ↔
      (∀ item ∈ items, ¬ Misread item) ∧
        List.Forall₂ (fun x info => parseToBlacklistInfo x = .ok info) items infos := by
  have hitem : ∀ item info, item.length < 2 ^ 64 ∧ ItemDenotes item info ↔
      item.length < 2 ^ 64 ∧ ¬ Misread item ∧ parseToBlacklistInfo item = .ok info := by
    intro item info
    refine and_congr_right fun hlen => ⟨?_, fun ⟨hmis, h⟩ => moduleItem_of_parse hlen hmis h⟩
    rintro ⟨name, hmodule, hregex, horiginal⟩
    refine ⟨fun hmis => (hmis.accepted hlen).2 _ _ _ hmodule, ?_⟩
    rw [hmodule.parse hlen, ← hregex, ← horiginal]
  have hboth : List.Forall₂ (fun item info => item.length < 2 ^ 64 ∧ ItemDenotes item info) items
      infos ↔ List.Forall₂ (fun item info => item.length < 2 ^ 64 ∧ ¬ Misread item ∧
        parseToBlacklistInfo item = .ok info) items infos := by
    simp only [hitem]
  rw [List.forall₂_and_left, List.forall₂_and_left, List.forall₂_and_left, and_iff_right hlen,
    and_iff_right hlen] at hboth
  exact hboth

/-- One file is the last one. -/
theorem getLast?_eq_iff (files : List NarrowString) {x : Option NarrowString} :
    (∀ file, x = some file ↔ file ∈ files) ↔
      x = files.getLast? ∧ ∀ a ∈ files, ∀ b ∈ files, a = b := by
  constructor
  · intro h
    refine ⟨?_, fun a ha b hb => Option.some.inj (((h a).2 ha).symm.trans ((h b).2 hb))⟩
    cases hlast : files.getLast? with
    | none =>
      rw [List.getLast?_eq_none_iff] at hlast
      refine Option.eq_none_iff_forall_ne_some.2 fun file hfile => ?_
      have hmem := (h file).1 hfile
      rw [hlast] at hmem
      cases hmem
    | some file => exact (h file).2 (List.mem_of_getLast? hlast)
  · rintro ⟨rfl, hone⟩ file
    refine ⟨List.mem_of_getLast?, fun hfile => ?_⟩
    have hne : files ≠ [] := List.ne_nil_of_mem hfile
    rw [List.getLast?_eq_some_getLast hne, hone _ (List.getLast_mem hne) file hfile]

theorem logTo_iff {text : NarrowString} {x : LogTargets} :
    (documentedRules conv).logTo text x ↔
      (commonRules conv).logTo text x ∧ ∀ a ∈ text.splitOn (byte ','),
        ∀ b ∈ text.splitOn (byte ','), a ≠ bytes "stdout" → b ≠ bytes "stdout" → a = b := by
  have hfile := @getLast?_eq_iff ((text.splitOn (byte ',')).filter fun x => x ≠ bytes "stdout") x.file
  simp only [List.mem_filter, decide_eq_true_iff] at hfile
  show _ ∧ _ ∧ _ ↔ (_ ∧ _ ∧ _) ∧ _
  rw [hfile]
  constructor
  · rintro ⟨hne, hout, hlast, hone⟩
    exact ⟨⟨hne, hout, hlast⟩, fun a ha b hb ha' hb' => hone a ⟨ha, ha'⟩ b ⟨hb, hb'⟩⟩
  · rintro ⟨⟨hne, hout, hlast⟩, hone⟩
    exact ⟨hne, hout, hlast, fun a ha b hb => hone a ha.1 b hb.1 ha.2 hb.2⟩

theorem exitCode_iff {text : NarrowString} {x : ℤ} : (documentedRules conv).exitCode text x ↔
    (commonRules conv).exitCode text x ∧ ∀ n, conv.toInt text = some n → n.toInt ≠ 0 := by
  constructor
  · rintro ⟨n, hn, rfl, hle, hle'⟩
    refine ⟨⟨n, hn, rfl, by omega, hle'⟩, fun m hm => ?_⟩
    cases hn.symm.trans hm
    omega
  · rintro ⟨⟨n, hn, rfl, hle, hle'⟩, hne⟩
    have := hne n hn
    exact ⟨n, hn, rfl, by omega, hle'⟩

/-- The two words are among the texts that are read as a `bool`. -/
theorem boolText_iff (conv : Conversions) {text : NarrowString} {x : Bool} : text = boolText x ↔
    (∃ b, conv.toBool text = some b ∧ b = x) ∧ ∃ b, text = boolText b := by
  constructor
  · rintro rfl
    exact ⟨⟨x, conv.toBool_boolText x, rfl⟩, x, rfl⟩
  · rintro ⟨⟨b, hb, rfl⟩, b', rfl⟩
    rw [Option.some.inj ((conv.toBool_boolText b').symm.trans hb)]

/-- A rule that is another one under a condition. -/
theorem rel_and_iff {τ β : Type} {R S : τ → β → Prop} {P : τ → Prop} {t : Option τ} {x : Option β}
    (h : ∀ a ∈ t, ∀ b, R a b ↔ S a b ∧ P a) :
    Option.Rel R t x ↔ Option.Rel S t x ∧ ∀ a ∈ t, P a := by
  constructor
  · intro hrel
    refine ⟨rel_imp hrel fun a ha b hab => ((h a ha b).1 hab).1, fun a ha => ?_⟩
    cases hrel with
    | none => cases ha
    | some hab =>
      cases ha
      exact ((h _ rfl _).1 hab).2
  · exact fun ⟨hrel, hP⟩ => rel_imp hrel fun a ha b hab => (h a ha b).2 ⟨hab, hP a ha⟩

theorem documented_fits_iff (hlen : ∀ text ∈ given.ignoreModules, text.length < 2 ^ 64) :
    (documentedRules conv).Fits given v ↔ (commonRules conv).Fits given v ∧ Sound conv given := by
  have hignore : Option.Rel (documentedRules conv).ignoreModules given.ignoreModules v.ignoreModules ↔
      Option.Rel (commonRules conv).ignoreModules given.ignoreModules v.ignoreModules ∧
        ∀ text ∈ given.ignoreModules, ∀ item ∈ text.splitOn (byte ','), ¬ Misread item := by
    refine rel_and_iff fun text htext infos => ?_
    show _ ∧ _ ↔ (_ ∧ _) ∧ _
    rw [forall₂_itemDenotes fun item hitem =>
      (length_le_of_mem_splitOn hitem).trans_lt (hlen text htext), and_assoc]
    exact and_congr_right fun _ => and_comm
  have hcallstacks : Option.Rel (documentedRules conv).callstacks given.callstacks v.callstacks ↔ _ :=
    rel_and_iff fun _ _ _ => boolText_iff conv
  have hdetached :
      Option.Rel (documentedRules conv).startDetached given.startDetached v.startDetached ↔ _ :=
    rel_and_iff fun _ _ _ => boolText_iff conv
  have hexit : Option.Rel (documentedRules conv).exitCode given.exitCode v.exitCode ↔ _ :=
    rel_and_iff fun _ _ _ => exitCode_iff
  have hlogTo : Option.Rel (documentedRules conv).logTo given.logTo v.logTo ↔ _ :=
    rel_and_iff fun _ _ _ => logTo_iff
  constructor
  · intro h
    obtain ⟨h₁, h₁'⟩ := hignore.1 h.ignoreModules
    obtain ⟨h₂, h₂'⟩ := hexit.1 h.exitCode
    obtain ⟨h₃, h₃'⟩ := hlogTo.1 h.logTo
    obtain ⟨h₄, h₄'⟩ := hcallstacks.1 h.callstacks
    obtain ⟨h₅, h₅'⟩ := hdetached.1 h.startDetached
    exact ⟨⟨h.onError, h₁, h₄, h₃, h.logToDebugOut, h.logLevel, h₂, h₅,
      h.threadWatchdogMaxDurationSec, h.threadWatchdog⟩, ⟨h₄', h₅', h₂', h₁', h₃'⟩⟩
  · rintro ⟨h, hsound⟩
    exact ⟨h.onError, hignore.2 ⟨h.ignoreModules, hsound.ignoreModules⟩,
      hcallstacks.2 ⟨h.callstacks, hsound.callstacks⟩, hlogTo.2 ⟨h.logTo, hsound.logTo⟩,
      h.logToDebugOut, h.logLevel, hexit.2 ⟨h.exitCode, hsound.exitCode⟩,
      hdetached.2 ⟨h.startDetached, hsound.startDetached⟩, h.threadWatchdogMaxDurationSec,
      h.threadWatchdog⟩

/-- **Where the two layers agree**: as soon as every value can be read by one of them, they agree if
`thread_watchdog` is not given and the other values are sound, or it is given and they are not. -/
theorem layers_agree_iff {o : RuntimeOptions}
    (hlen : ∀ text ∈ given.ignoreModules, text.length < 2 ^ 64) :
    LayersAgree conv given o ↔
      ((∃ v, (commonRules conv).Fits given v) → (given.threadWatchdog = none ↔ Sound conv given)) := by
  have haccepted : (∃ o', configure conv given o = some o') ↔
      (∃ v, (commonRules conv).Fits given v) ∧ given.threadWatchdog = none := by
    rw [← parsed_fits_iff]
    constructor
    · rintro ⟨o', h⟩
      obtain ⟨v, hv, -⟩ := configure_iff.1 h
      exact ⟨v, hv⟩
    · rintro ⟨v, hv⟩
      exact ⟨_, configure_iff.2 ⟨v, hv, rfl⟩⟩
  have hdocumented : (∃ v, (documentedRules conv).Fits given v) ↔
      (∃ v, (commonRules conv).Fits given v) ∧ Sound conv given := by
    simp only [documented_fits_iff hlen, exists_and_right]
  constructor
  · intro h hcommon
    have hiff := h.accepted
    rw [haccepted, hdocumented] at hiff
    exact ⟨fun hnone => (hiff.1 ⟨hcommon, hnone⟩).2, fun hsound => (hiff.2 ⟨hcommon, hsound⟩).2⟩
  · intro h
    refine ⟨?_, fun o' ho v hv => ?_⟩
    · rw [haccepted, hdocumented]
      exact and_congr_right h
    · have hnone := (haccepted.1 ⟨o', ho⟩).2
      have hparsed := parsed_fits_of_common hnone ((documented_fits_iff hlen).1 hv).1
      exact Option.some.inj (ho.symm.trans (configure_iff.2 ⟨v, hparsed, rfl⟩))

/-- The conversions of the two words and of numerals without a sign. -/
def plainConversions : Conversions where
  toBool text :=
    if text = bytes "true" then some true else if text = bytes "false" then some false else none
  toInt text := if isdigit text then (stoi text).map Int32.ofInt else none
  toBool_boolText b := by cases b <;> rfl

theorem layers_agree_iff_fail :
    LayersAgree plainConversions
      { onError := some (bytes "fail")
        exitCode := some (bytes "70")
        logTo := some (bytes "stdout,a.txt") } {} := by
  refine (layers_agree_iff (by simp)).2 fun _ =>
    ⟨fun _ => ⟨by simp, by simp, ?_, by simp, ?_⟩, fun _ => rfl⟩
  · intro text htext n hn
    cases htext
    cases hn
    decide
  · intro text htext
    cases htext
    decide

/-- The word `true` is no value for `thread_watchdog`, but 0 is one for `exit_code`. -/
theorem layers_disagree :
    ¬ LayersAgree plainConversions { threadWatchdog := some (bytes "true") } {} ∧
      ¬ LayersAgree plainConversions { exitCode := some (bytes "0") } {} := by
  constructor
  · intro h
    have hfits : (documentedRules plainConversions).Fits { threadWatchdog := some (bytes "true") }
        ⟨none, none, none, none, none, none, none, none, none, some true⟩ :=
      ⟨.none, .none, .none, .none, .none, .none, .none, .none, .none, .some rfl⟩
    obtain ⟨o', ho⟩ := h.accepted.2 ⟨_, hfits⟩
    cases ho
  · intro h
    obtain ⟨v, hv⟩ := h.accepted.1 ⟨{ exitCode := 0 }, rfl⟩
    have hrel := hv.exitCode
    generalize v.exitCode = x at hrel
    cases hrel with
    | some hx =>
      obtain ⟨n, hn, rfl, hle, -⟩ := hx
      cases hn
      exact absurd hle (by decide)

end Agreement

end BugInsight

import BugInsight.Options.Parser

/-!
# The options on the command line

`command_line_parser::parse` converts the texts on the command line to the types that the options
are declared with, and renders the values as texts again, for `parse_options`.

* `configure`: both parsers, one after the other;
* `branch_iff` and the lemmas `parseOption_…`: what `parse_options` makes of a rendered value.
-/

namespace BugInsight

/-- The options that `command_line_parser::parse` declares; `B` and `I` are the types of the values
that are declared as `po::value<bool>` and `po::value<int>`. -/
structure DeclaredOptions (B I : Type) where
  onError : Option NarrowString := none
  ignoreModules : Option NarrowString := none
  callstacks : Option B := none
  logTo : Option NarrowString := none
  logToDebugOut : Option NarrowString := none
  logLevel : Option NarrowString := none
  exitCode : Option I := none
  startDetached : Option B := none
  threadWatchdogMaxDurationSec : Option I := none
  threadWatchdog : Option I := none

/-- The options as they stand on the command line. -/
abbrev GivenOptions := DeclaredOptions NarrowString NarrowString

/-- `po::variables_map`. -/
abbrev VariablesMap := DeclaredOptions Bool Int32

/-- The conversions of the program options library; `none` is an exception.  Other texts than `true`
and `false` may be read as a `bool` too. -/
structure Conversions where
  toBool : NarrowString → Option Bool
  toInt : NarrowString → Option Int32
  toBool_boolText : ∀ b, toBool (boolText b) = some b

/-- `store` and `notify`. -/
def store (conv : Conversions) (given : GivenOptions) : Option VariablesMap := do
  let callstacks ← given.callstacks.mapM conv.toBool
  let exitCode ← given.exitCode.mapM conv.toInt
  let startDetached ← given.startDetached.mapM conv.toBool
  let threadWatchdogMaxDurationSec ← given.threadWatchdogMaxDurationSec.mapM conv.toInt
  let threadWatchdog ← given.threadWatchdog.mapM conv.toInt
  return {
    onError := given.onError
    ignoreModules := given.ignoreModules
    callstacks := callstacks
    logTo := given.logTo
    logToDebugOut := given.logToDebugOut
    logLevel := given.logLevel
    exitCode := exitCode
    startDetached := startDetached
    threadWatchdogMaxDurationSec := threadWatchdogMaxDurationSec
    threadWatchdog := threadWatchdog }

/-- The entry for an option, if it is given. -/
def emit (key : String) (value : Option NarrowString) : List (NarrowString × NarrowString) :=
  value.toList.map fun v => (bytes key, v)

/-- `std::to_string` -/
def intText (n : Int32) : NarrowString := toStringInt n.toInt

/-- `p_configuration_list`.  The option `suppress_by_id` is not declared. -/
def configurationList (vm : VariablesMap) : List (NarrowString × NarrowString) :=
  emit "callstacks" (vm.callstacks.map boolText) ++
  emit "log_to" vm.logTo ++
  emit "log_to_debug_out" vm.logToDebugOut ++
  emit "log_level" vm.logLevel ++
  emit "on_error" vm.onError ++
  emit "start_detached" (vm.startDetached.map boolText) ++
  emit "thread_watchdog_max_duration_sec" (vm.threadWatchdogMaxDurationSec.map intText) ++
  emit "thread_watchdog" (vm.threadWatchdog.map intText) ++
  emit "exit_code" (vm.exitCode.map intText) ++
  emit "ignore_modules" vm.ignoreModules

/-- `command_line_parser::parse` for a command line with an application: `p_configuration_list` and
`p_start_detached`. -/
def parseCommandLine (conv : Conversions) (given : GivenOptions) :
    Option (List (NarrowString × NarrowString) × Bool) :=
  (store conv given).map fun vm => (configurationList vm, vm.startDetached.getD false)

/-- The options after `wmain` has called both parsers. -/
def configure (conv : Conversions) (given : GivenOptions) (o : RuntimeOptions) :
    Option RuntimeOptions :=
  (parseCommandLine conv given).bind fun parsed => (parseOptions parsed.1 o).toOption

/-! ### One option -/

section Branches

variable {o o' : RuntimeOptions} {value : NarrowString}

/-- A branch that stores what it has read. -/
theorem branch_iff {β : Type} {e : OptionsFailure} {read : Except OptionsFailure β} {R : β → Prop}
    {set : β → RuntimeOptions} (hread : ∀ x, read = .ok x ↔ R x) (hvalue : ∀ x, R x → value ≠ []) :
    (if value = [] then .error e else read >>= fun x => pure (set x)) = .ok o' ↔
      ∃ x, R x ∧ o' = set x := by
  by_cases hnil : value = []
  · rw [if_pos hnil]
    refine iff_of_false (fun h => by cases h) ?_
    rintro ⟨x, hx, -⟩
    exact hvalue x hx hnil
  · rw [if_neg hnil]
    cases hr : read with
    | error e =>
      refine iff_of_false (fun h => by cases h) ?_
      rintro ⟨x, hx, -⟩
      cases hr.symm.trans ((hread x).2 hx)
    | ok x =>
      constructor
      · intro h
        cases h
        exact ⟨x, (hread x).1 hr, rfl⟩
      · rintro ⟨y, hy, rfl⟩
        cases hr.symm.trans ((hread y).2 hy)
        rfl

theorem parseOption_onError : parseOption o (bytes "on_error", value) = .ok o' ↔
    ∃ x : OnError, value = x.text ∧ o' = { o with onError := x } := by
  refine branch_iff (fun _ => parseOnError_iff) ?_
  rintro x rfl
  cases x <;> decide

theorem parseOption_logLevel : parseOption o (bytes "log_level", value) = .ok o' ↔
    ∃ x : LogLevel, value = x.text ∧ o' = { o with logLevel := x } := by
  refine branch_iff (fun _ => parseLogLevel_iff) ?_
  rintro x rfl
  cases x <;> decide

theorem parseOption_logToDebugOut : parseOption o (bytes "log_to_debug_out", value) = .ok o' ↔
    ∃ x : LogToDebugOut, value = x.text ∧ o' = { o with logToDebugOut := x } := by
  refine branch_iff (fun _ => parseLogToDebugOut_iff) ?_
  rintro x rfl
  cases x <;> decide

theorem boolText_ne_nil (b : Bool) : boolText b ≠ [] := by
  cases b <;> decide

theorem boolText_inj {b b' : Bool} : boolText b = boolText b' ↔ b = b' := by
  cases b <;> cases b' <;> decide

/-- A numeral is neither of the two words. -/
theorem intText_ne_boolText (n : Int32) (b : Bool) : intText n ≠ boolText b := by
  intro h
  have hmem : byte 'e' ∈ intText n := by
    rw [h]
    cases b <;> decide
  have hdigit : Decimal.isDigit (byte 'e') = true := by
    unfold intText toStringInt at hmem
    split_ifs at hmem
    · exact Decimal.isDigit_of_mem_numeral _ ((List.mem_cons.1 hmem).resolve_left (by decide))
    · exact Decimal.isDigit_of_mem_numeral _ hmem
  exact absurd hdigit (by decide)

theorem parseOption_callstacks (b : Bool) :
    parseOption o (bytes "callstacks", boolText b) = .ok o' ↔
      ∃ x, b = x ∧ o' = { o with collectCallstacks := x } :=
  branch_iff (fun _ => parseTrueFalse_iff.trans boolText_inj) fun _ _ => boolText_ne_nil b

theorem parseOption_startDetached (b : Bool) :
    parseOption o (bytes "start_detached", boolText b) = .ok o' ↔
      ∃ x, b = x ∧ o' = { o with startDetached := x } :=
  branch_iff (fun _ => parseTrueFalse_iff.trans boolText_inj) fun _ _ => boolText_ne_nil b

/-- The option `thread_watchdog` is declared as a number, and `parse_options` requires a word. -/
theorem parseOption_threadWatchdog (n : Int32) :
    parseOption o (bytes "thread_watchdog", intText n) = .ok o' ↔
      ∃ x, False ∧ o' = { o with threadWatchdogEnabled := x } :=
  branch_iff (fun x => parseTrueFalse_iff.trans (iff_false_intro (intText_ne_boolText n x)))
    fun _ h => h.elim

theorem intText_ne_nil (n : Int32) : intText n ≠ [] := toStringInt_ne_nil _

theorem parseOption_exitCode (n : Int32) :
    parseOption o (bytes "exit_code", intText n) = .ok o' ↔
      ∃ x, (n.toInt = x ∧ 0 ≤ x ∧ x ≤ 126) ∧ o' = { o with exitCode := x } := by
  refine branch_iff (fun x => ?_) fun _ _ => intText_ne_nil n
  unfold parseExitCode intText
  rw [parseRange_toStringInt n.toInt_lt, Bool.and_eq_true, decide_eq_true_iff, decide_eq_true_iff]
  omega

theorem parseOption_threadWatchdogMaxDurationSec (n : Int32) :
    parseOption o (bytes "thread_watchdog_max_duration_sec", intText n) = .ok o' ↔
      ∃ x : ℕ, (n.toInt = x ∧ 2 ≤ x ∧ x ≤ 24 * 60 * 60) ∧
        o' = { o with threadWatchdogMaxDurationSec := x } := by
  have hbranch : parseOption o (bytes "thread_watchdog_max_duration_sec", intText n) = .ok o' ↔
      ∃ x : ℤ, (n.toInt = x ∧ 2 ≤ x ∧ x ≤ 24 * 60 * 60) ∧
        o' = { o with threadWatchdogMaxDurationSec := x.toNat } := by
    refine branch_iff (fun x => ?_) fun _ _ => intText_ne_nil n
    unfold parseMaxDurationSec intText
    rw [parseRange_toStringInt n.toInt_lt, Bool.and_eq_true, decide_eq_true_iff, decide_eq_true_iff]
    omega
  rw [hbranch]
  constructor
  · rintro ⟨x, ⟨hx, hle, hle'⟩, rfl⟩
    exact ⟨x.toNat, ⟨by omega, by omega, by omega⟩, rfl⟩
  · rintro ⟨x, ⟨hx, hle, hle'⟩, rfl⟩
    exact ⟨x, ⟨hx, by omega, by omega⟩, rfl⟩

theorem parseOption_logTo : parseOption o (bytes "log_to", value) = .ok o' ↔ value ≠ [] ∧ o' =
    { o with
      logToStdout := decide (bytes "stdout" ∈ value.splitOn (byte ','))
      logToFile := ((value.splitOn (byte ',')).filter fun x => x ≠ bytes "stdout").getLast?.getD
        o.logToFile } := by
  show (if value = [] then .error _ else parseLogTo o value) = .ok o' ↔ _
  split_ifs with hnil
  · exact iff_of_false (fun h => by cases h) fun h => h.1 hnil
  · rw [parseLogTo_eq, Except.ok.injEq, and_iff_right hnil]
    exact eq_comm

theorem parseOption_ignoreModules : parseOption o (bytes "ignore_modules", value) = .ok o' ↔
    ∃ infos, (value ≠ [] ∧ List.Forall₂ (fun x info => parseToBlacklistInfo x = .ok info)
      (value.splitOn (byte ',')) infos) ∧ o' = o.ignoring infos := by
  show (if value = [] then .error _ else parseIgnoreModules o value) = .ok o' ↔ _
  split_ifs with hnil
  · refine iff_of_false (fun h => by cases h) ?_
    rintro ⟨infos, ⟨hne, -⟩, -⟩
    exact hne hnil
  · unfold parseIgnoreModules
    rw [foldlM_ignoreModule]
    simp [hnil]

end Branches

end BugInsight

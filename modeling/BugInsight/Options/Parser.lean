import BugInsight.Decimal
import BugInsight.Options.ModulePatterns
import BugInsight.Report

/-!
# The options parser

`parse_options` reads a list of keys and values into the options.  A value is read by the branch of
its key: `parseChoice` for a value out of a table, `parseTrueFalse`, `parseRange` for a number,
`parseLogTo` and `parseIgnoreModules` for a list.

* `parseChoice_iff`, `parseTrueFalse_iff`, `parseRange_toStringInt`: the values that are accepted;
* `parseLogTo_eq`, `foldlM_ignoreModule`: what a list leaves in the options.
-/

namespace BugInsight

/-- `spdlog::level::level_enum`. -/
inductive LogLevel
  | trace
  | debug
  | info
  | warn
  | err
  | critical
  | off
  deriving DecidableEq

/-- `log_to_debug_out_options_t`. -/
inductive LogToDebugOut
  | disabled
  | enabled
  | enabeldInDebugger
  deriving DecidableEq

/-- `user_options_t`. -/
structure RuntimeOptions extends UserOptions where
  logToFile : NarrowString := []
  logToStdout : Bool := true
  logLevel : LogLevel := .info
  logToDebugOut : LogToDebugOut := .enabeldInDebugger
  idsToSuppress : List ℕ := []
  blacklistModulesDeadlocks : List BlacklistInfo := []
  blacklistModulesMemoryLeaks : List BlacklistInfo := []
  startDetached : Bool := false

/-- How `parse_options` ends without success. -/
inductive OptionsFailure
  /-- it logs a text and returns `false` -/
  | logged (text : NarrowString)
  /-- `std::stoi` or `std::stoull` throws -/
  | thrown
  deriving DecidableEq

/-! ### The values -/

/-- A value that is not one of those that the option requires. -/
def requiresValue (key : NarrowString) (required : String) (value : NarrowString) : OptionsFailure :=
  .logged (bytes "Option '" ++ key ++ bytes "' requires value " ++ bytes required ++
    bytes " but got '" ++ value ++ bytes "'")

/-- A value out of a table. -/
def parseChoice {α : Type} (choices : List (NarrowString × α)) (required : String)
    (key value : NarrowString) : Except OptionsFailure α :=
  match choices.lookup value with
  | some x => .ok x
  | none => .error (requiresValue key required value)

def logLevelChoices : List (NarrowString × LogLevel) :=
  [(bytes "trace", .trace), (bytes "debug", .debug), (bytes "info", .info), (bytes "warn", .warn),
    (bytes "error", .err), (bytes "fatal", .critical), (bytes "off", .off)]

def onErrorChoices : List (NarrowString × OnError) :=
  [(bytes "continue", .continue_), (bytes "fail", .fail), (bytes "fail_on_exit", .failOnExit)]

def logToDebugOutChoices : List (NarrowString × LogToDebugOut) :=
  [(bytes "enabled", .enabled), (bytes "disabled", .disabled),
    (bytes "debugger", .enabeldInDebugger)]

def parseLogLevel : NarrowString → NarrowString → Except OptionsFailure LogLevel :=
  parseChoice logLevelChoices "'trace|debug|info|warn|error|fatal|off'"

def parseOnError : NarrowString → NarrowString → Except OptionsFailure OnError :=
  parseChoice onErrorChoices "'continue|fail|fail_on_exit'"

def parseLogToDebugOut : NarrowString → NarrowString → Except OptionsFailure LogToDebugOut :=
  parseChoice logToDebugOutChoices "'enabled|disabled|debugger'"

def parseTrueFalse (key value : NarrowString) : Except OptionsFailure Bool :=
  if value ∉ [bytes "true", bytes "false"] then .error (requiresValue key "true/false" value)
  else .ok (value = bytes "true")

/-- `isdigit` of a string. -/
def isdigit (str : NarrowString) : Bool :=
  match str with
  | [] => false
  | [c] => Decimal.isDigit c
  | _ => str.all Decimal.isDigit

/-- `std::stoi` of a string of digits; `none` is an exception. -/
def stoi (value : NarrowString) : Option ℤ :=
  if Decimal.value value < 2 ^ 31 then some (Decimal.value value) else none

/-- A number in a range. -/
def parseRange (inRange : ℤ → Bool) (range : String) (key value : NarrowString) :
    Except OptionsFailure ℤ :=
  if isdigit value = false then
    .error (.logged (bytes "Value '" ++ value ++ bytes "' for option '" ++ key ++
      bytes "' is not number"))
  else
    match stoi value with
    | none => .error .thrown
    | some n => if inRange n then .ok n else .error (requiresValue key range value)

def parseMaxDurationSec : NarrowString → NarrowString → Except OptionsFailure ℤ :=
  parseRange (fun n => n > 1 && n ≤ 24 * 60 * 60) "2..86400"

def parseExitCode : NarrowString → NarrowString → Except OptionsFailure ℤ :=
  parseRange (fun n => n ≥ 0 && n < 127) "1..126"

/-- A file is the last one that was named. -/
def logOption (o : RuntimeOptions) (logOption : NarrowString) : RuntimeOptions :=
  if logOption = bytes "stdout" then { o with logToStdout := true }
  else { o with logToFile := logOption }

def parseLogTo (o : RuntimeOptions) (value : NarrowString) : Except OptionsFailure RuntimeOptions :=
  let logOptions := value.splitOn (byte ',')
  if logOptions = [] then
    .error (.logged (bytes "Value " ++ value ++ bytes "\x7d' not a valid log options"))
  else .ok (logOptions.foldl logOption { o with logToStdout := false })

/-- The iteration for one of the `module_names`. -/
def ignoreModule (o : RuntimeOptions) (moduleName : NarrowString) :
    Except OptionsFailure RuntimeOptions :=
  match parseToBlacklistInfo moduleName with
  | .error text => .error (.logged text)
  | .ok info =>
      let o :=
        if info.ignoreLock then
          { o with blacklistModulesDeadlocks := o.blacklistModulesDeadlocks ++ [info] }
        else o
      .ok
        (if info.ignoreMemoryLeak then
          { o with blacklistModulesMemoryLeaks := o.blacklistModulesMemoryLeaks ++ [info] }
        else o)

def parseIgnoreModules (o : RuntimeOptions) (value : NarrowString) :
    Except OptionsFailure RuntimeOptions :=
  (value.splitOn (byte ',')).foldlM ignoreModule o

/-- The value of a hexadecimal digit. -/
def hexDigit (c : UInt8) : Option ℕ :=
  if 48 ≤ c ∧ c ≤ 57 then some (c.toNat - 48)
  else if 97 ≤ c ∧ c ≤ 102 then some (c.toNat - 87)
  else if 65 ≤ c ∧ c ≤ 70 then some (c.toNat - 55)
  else none

/-- `std::stoull` with base 16; `none` is an exception. -/
def stoull (s : NarrowString) : Option ℕ :=
  let s := s.dropWhile fun c => c = 32 ∨ (9 ≤ c ∧ c ≤ 13)
  let negative := s.head? = some (byte '-')
  let s := if negative ∨ s.head? = some (byte '+') then s.drop 1 else s
  let hexPrefix := s.take 2 ∈ [bytes "0x", bytes "0X"] ∧ ((s.drop 2).head?.bind hexDigit).isSome
  let digits := ((if hexPrefix then s.drop 2 else s).takeWhile fun c => (hexDigit c).isSome)
  let n := digits.foldl (fun n c => 16 * n + (hexDigit c).getD 0) 0
  if digits = [] ∨ 2 ^ 64 ≤ n then none else some (if negative then (2 ^ 64 - n) % 2 ^ 64 else n)

example : stoull (bytes "-0x1F,") = some (2 ^ 64 - 31) := by decide

def parseSuppressById (value : NarrowString) : Except OptionsFailure (List ℕ) :=
  match (value.splitOn (byte '|')).mapM stoull with
  | none => .error .thrown
  | some ids => .ok ids

/-! ### The keys -/

/-- `g_know_keys`. -/
def knowKeys : List NarrowString :=
  [bytes "log_to", bytes "log_level", bytes "log_to_debug_out", bytes "on_error",
    bytes "thread_watchdog", bytes "thread_watchdog_max_duration_sec", bytes "exit_code",
    bytes "suppress_by_id", bytes "ignore_modules", bytes "config_file", bytes "callstacks",
    bytes "start_detached"]

/-- The iteration of `parse_options` for one entry of the list. -/
def parseOption (o : RuntimeOptions) (entry : NarrowString × NarrowString) :
    Except OptionsFailure RuntimeOptions :=
  let (key, value) := entry
  if key ∉ knowKeys then
    .error (.logged (bytes "Option '" ++ key ++ bytes "' is not known"))
  else if value = [] then
    .error (.logged (bytes "Value from key '" ++ key ++ bytes "' is empty"))
  else if key = bytes "log_to" then parseLogTo o value
  else if key = bytes "log_level" then do
    return { o with logLevel := ← parseLogLevel key value }
  else if key = bytes "on_error" then do
    return { o with onError := ← parseOnError key value }
  else if key = bytes "log_to_debug_out" then do
    return { o with logToDebugOut := ← parseLogToDebugOut key value }
  else if key = bytes "thread_watchdog" then do
    return { o with threadWatchdogEnabled := ← parseTrueFalse key value }
  else if key = bytes "thread_watchdog_max_duration_sec" then do
    return { o with threadWatchdogMaxDurationSec := (← parseMaxDurationSec key value).toNat }
  else if key = bytes "exit_code" then do
    return { o with exitCode := ← parseExitCode key value }
  else if key = bytes "suppress_by_id" then do
    return { o with idsToSuppress := ← parseSuppressById value }
  else if key = bytes "ignore_modules" then parseIgnoreModules o value
  else if key = bytes "config_file" then .ok o
  else if key = bytes "callstacks" then do
    return { o with collectCallstacks := ← parseTrueFalse key value }
  else if key = bytes "start_detached" then do
    return { o with startDetached := ← parseTrueFalse key value }
  else .ok o

/-- `parse_options`; its failure leaves options that nobody uses. -/
def parseOptions (l : List (NarrowString × NarrowString)) (o : RuntimeOptions) :
    Except OptionsFailure RuntimeOptions :=
  l.foldlM parseOption o

/-! ### The values that are accepted -/

section Values

variable {key value : NarrowString}

theorem parseChoice_iff {α : Type} {choices : List (NarrowString × α)} {required : String} {x : α} :
    parseChoice choices required key value = .ok x ↔ choices.lookup value = some x := by
  unfold parseChoice
  cases choices.lookup value <;> simp

/-- The value of `on_error` in the manual. -/
def OnError.text : OnError → NarrowString
  | .continue_ => bytes "continue"
  | .fail => bytes "fail"
  | .failOnExit => bytes "fail_on_exit"

/-- The value of `log_level` in the manual. -/
def LogLevel.text : LogLevel → NarrowString
  | .trace => bytes "trace"
  | .debug => bytes "debug"
  | .info => bytes "info"
  | .warn => bytes "warn"
  | .err => bytes "error"
  | .critical => bytes "fatal"
  | .off => bytes "off"

/-- The value of `log_to_debug_out` in the manual. -/
def LogToDebugOut.text : LogToDebugOut → NarrowString
  | .disabled => bytes "disabled"
  | .enabled => bytes "enabled"
  | .enabeldInDebugger => bytes "debugger"

/-- A table that has one entry for each of the values. -/
theorem lookup_iff {α : Type} {choices : List (NarrowString × α)} {text : α → NarrowString}
    (hmem : ∀ c ∈ choices, c.1 = text c.2) (hlookup : ∀ x, choices.lookup (text x) = some x)
    {x : α} : choices.lookup value = some x ↔ value = text x := by
  constructor
  · intro h
    obtain ⟨l₁, l₂, hl, -⟩ := List.lookup_eq_some_iff.1 h
    exact hmem (value, x) (by rw [hl]; simp)
  · rintro rfl
    exact hlookup x

theorem parseOnError_iff {x : OnError} : parseOnError key value = .ok x ↔ value = x.text := by
  unfold parseOnError
  rw [parseChoice_iff]
  apply lookup_iff
  · decide
  · intro x
    cases x <;> decide

theorem parseLogLevel_iff {x : LogLevel} : parseLogLevel key value = .ok x ↔ value = x.text := by
  unfold parseLogLevel
  rw [parseChoice_iff]
  apply lookup_iff
  · decide
  · intro x
    cases x <;> decide

theorem parseLogToDebugOut_iff {x : LogToDebugOut} :
    parseLogToDebugOut key value = .ok x ↔ value = x.text := by
  unfold parseLogToDebugOut
  rw [parseChoice_iff]
  apply lookup_iff
  · decide
  · intro x
    cases x <;> decide

/-- `value?"true":"false"` -/
def boolText (b : Bool) : NarrowString := if b then bytes "true" else bytes "false"

theorem parseTrueFalse_iff {b : Bool} : parseTrueFalse key value = .ok b ↔ value = boolText b := by
  unfold parseTrueFalse
  by_cases htrue : value = bytes "true"
  · subst htrue
    rw [if_neg (by simp), Except.ok.injEq]
    cases b <;> decide
  by_cases hfalse : value = bytes "false"
  · subst hfalse
    rw [if_neg (by simp), Except.ok.injEq]
    cases b <;> decide
  rw [if_pos (by simp [htrue, hfalse])]
  refine iff_of_false (fun h => by cases h) ?_
  cases b
  · exact hfalse
  · exact htrue

/-- `std::to_string` of an `int`. -/
def toStringInt (n : ℤ) : NarrowString :=
  if n < 0 then byte '-' :: Decimal.numeral n.natAbs else Decimal.numeral n.natAbs

theorem toStringInt_ne_nil (n : ℤ) : toStringInt n ≠ [] := by
  unfold toStringInt
  split_ifs
  · exact List.cons_ne_nil _ _
  · exact Decimal.numeral_ne_nil _

theorem isdigit_iff {str : NarrowString} :
    isdigit str = true ↔ str ≠ [] ∧ ∀ c ∈ str, Decimal.isDigit c = true := by
  unfold isdigit
  split
  · simp
  · simp
  · next h _ =>
    have hne : str ≠ [] := h
    simp [hne]

theorem isdigit_toStringInt (n : ℤ) : isdigit (toStringInt n) = decide (0 ≤ n) := by
  unfold toStringInt
  split_ifs with hneg
  · rw [decide_eq_false (not_le.2 hneg), ← Bool.not_eq_true, isdigit_iff]
    exact fun h => absurd (h.2 _ List.mem_cons_self) (by decide)
  · rw [decide_eq_true (not_lt.1 hneg), isdigit_iff]
    exact ⟨Decimal.numeral_ne_nil _, Decimal.isDigit_of_mem_numeral⟩

/-- The numbers that are read back. -/
theorem parseRange_toStringInt {inRange : ℤ → Bool} {range : String} {i n : ℤ} (hi : i < 2 ^ 31) :
    parseRange inRange range key (toStringInt i) = .ok n ↔ i = n ∧ 0 ≤ n ∧ inRange n = true := by
  unfold parseRange
  rw [isdigit_toStringInt]
  by_cases hneg : i < 0
  · rw [if_pos (decide_eq_false (not_le.2 hneg))]
    refine iff_of_false (fun h => by cases h) ?_
    rintro ⟨rfl, hn, -⟩
    exact absurd hneg (not_lt.2 hn)
  · have hpos : 0 ≤ i := not_lt.1 hneg
    have hstoi : stoi (toStringInt i) = some i := by
      unfold stoi toStringInt
      rw [if_neg hneg, Decimal.value_numeral, if_pos (by omega), Int.natAbs_of_nonneg hpos]
    rw [if_neg (by simp [hpos]), hstoi]
    dsimp only
    split_ifs with hrange
    · rw [Except.ok.injEq]
      constructor
      · rintro rfl
        exact ⟨rfl, hpos, hrange⟩
      · exact fun h => h.1
    · refine iff_of_false (fun h => by cases h) ?_
      rintro ⟨rfl, -, hn⟩
      exact hrange hn

/-! ### Lists of values -/

/-- What a list of log options leaves in the options. -/
theorem foldl_logOption (o : RuntimeOptions) (logOptions : List NarrowString) :
    logOptions.foldl logOption o =
      { o with
        logToStdout := o.logToStdout || decide (bytes "stdout" ∈ logOptions)
        logToFile := (logOptions.filter fun x => x ≠ bytes "stdout").getLast?.getD o.logToFile } := by
  induction logOptions generalizing o with
  | nil => simp
  | cons x logOptions ih =>
    rw [List.foldl_cons, ih]
    unfold logOption
    by_cases hx : x = bytes "stdout"
    · simp [hx]
    · rw [if_neg hx, List.filter_cons_of_pos (by simp [hx]), List.getLast?_cons]
      simp [Ne.symm hx]

theorem splitOn_ne_nil (value : NarrowString) (c : UInt8) : value.splitOn c ≠ [] :=
  List.splitOnP_ne_nil _ _

theorem length_le_intercalate (sep : NarrowString) {x : NarrowString} {l : List NarrowString}
    (hx : x ∈ l) :
    x.length ≤ (sep.intercalate l).length := by
  induction l with
  | nil => cases hx
  | cons y l ih =>
    by_cases hl : l = []
    · rw [hl, List.mem_singleton] at hx
      rw [hl, List.intercalate_singleton, hx]
    · rw [List.intercalate_cons_of_ne_nil hl, List.length_append, List.length_append]
      rcases List.mem_cons.1 hx with rfl | hx
      · omega
      · have := ih hx
        omega

/-- The items are parts of the value. -/
theorem length_le_of_mem_splitOn {c : UInt8} {x : NarrowString} (hx : x ∈ value.splitOn c) :
    x.length ≤ value.length := by
  have hle := length_le_intercalate [c] hx
  rwa [List.intercalate_splitOn] at hle

theorem parseLogTo_eq (o : RuntimeOptions) (value : NarrowString) :
    parseLogTo o value = .ok
      { o with
        logToStdout := decide (bytes "stdout" ∈ value.splitOn (byte ','))
        logToFile := ((value.splitOn (byte ',')).filter fun x => x ≠ bytes "stdout").getLast?.getD
          o.logToFile } := by
  unfold parseLogTo
  rw [if_neg (splitOn_ne_nil value _), foldl_logOption]
  simp

/-- The options with more modules that are ignored. -/
def RuntimeOptions.ignoring (o : RuntimeOptions) (infos : List BlacklistInfo) : RuntimeOptions :=
  { o with
    blacklistModulesDeadlocks :=
      o.blacklistModulesDeadlocks ++ infos.filter fun info => info.ignoreLock
    blacklistModulesMemoryLeaks :=
      o.blacklistModulesMemoryLeaks ++ infos.filter fun info => info.ignoreMemoryLeak }

theorem RuntimeOptions.ignoring_nil (o : RuntimeOptions) : o.ignoring [] = o := by
  unfold ignoring
  simp

theorem RuntimeOptions.ignoring_cons (o : RuntimeOptions) (info : BlacklistInfo)
    (infos : List BlacklistInfo) : o.ignoring (info :: infos) = (o.ignoring [info]).ignoring infos := by
  unfold ignoring
  simp [List.filter_cons, List.append_assoc]
  constructor <;> split_ifs <;> simp

theorem ignoreModule_iff {o o' : RuntimeOptions} {moduleName : NarrowString} :
    ignoreModule o moduleName = .ok o' ↔
      ∃ info, parseToBlacklistInfo moduleName = .ok info ∧ o' = o.ignoring [info] := by
  unfold ignoreModule
  cases parseToBlacklistInfo moduleName with
  | error text => simp
  | ok info =>
    have hinfo : o.ignoring [info] =
        let o :=
          if info.ignoreLock then
            { o with blacklistModulesDeadlocks := o.blacklistModulesDeadlocks ++ [info] }
          else o
        if info.ignoreMemoryLeak then
          { o with blacklistModulesMemoryLeaks := o.blacklistModulesMemoryLeaks ++ [info] }
        else o := by
      unfold RuntimeOptions.ignoring
      cases hlock : info.ignoreLock <;> cases hleak : info.ignoreMemoryLeak <;> simp [hlock, hleak]
    simp only [Except.ok.injEq, exists_eq_left', hinfo]
    exact eq_comm

/-- What the items of a list of modules leave in the options. -/
theorem foldlM_ignoreModule {o o' : RuntimeOptions} {moduleNames : List NarrowString} :
    moduleNames.foldlM ignoreModule o = .ok o' ↔
      ∃ infos, List.Forall₂ (fun x info => parseToBlacklistInfo x = .ok info) moduleNames infos ∧
        o' = o.ignoring infos := by
  induction moduleNames generalizing o with
  | nil =>
    simp only [List.foldlM_nil, List.forall₂_nil_left_iff, exists_eq_left, o.ignoring_nil]
    exact ⟨fun h => (Except.ok.inj h).symm, fun h => congrArg Except.ok h.symm⟩
  | cons x moduleNames ih =>
    rw [List.foldlM_cons]
    constructor
    · intro h
      cases hx : ignoreModule o x with
      | error e =>
        rw [hx] at h
        cases h
      | ok o₁ =>
        rw [hx] at h
        obtain ⟨info, hinfo, rfl⟩ := ignoreModule_iff.1 hx
        obtain ⟨infos, hinfos, rfl⟩ := ih.1 h
        exact ⟨info :: infos, .cons hinfo hinfos, (o.ignoring_cons info infos).symm⟩
    · rintro ⟨infos', hinfos', rfl⟩
      cases hinfos' with
      | @cons _ info _ infos hinfo hinfos =>
        rw [ignoreModule_iff.2 ⟨info, hinfo, rfl⟩]
        exact ih.2 ⟨infos, hinfos, o.ignoring_cons info infos⟩

end Values

end BugInsight

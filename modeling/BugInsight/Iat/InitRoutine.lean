import BugInsight.Iat.Reload
import BugInsight.Iat.RoundTrip

/-!
# The init routines of the modules

`dll_main.cpp` detours `LdrpCallInitRoutine`, with which the loader of Windows calls the init
routine of a module, so that the global and static initializers of the module use the hooks.

* `patchesBeforeInitRoutine`: what `MyLdrpCallInitRoutine` does before it calls the init routine;
* `Loader.step`: what the loader of Windows does, with the passes that this brings about;
* `Attached.unload`, `Loader.step_attached`: the invariant is kept while the exporting modules stay
  loaded;
* `imports_hooked_before_init_routine`: what the slots hold when an init routine is called.
-/

namespace BugInsight

open Runs

/-- Why an init routine is called. -/
inductive CallReason
  | processAttach | processDetach | threadAttach | threadDetach
  deriving DecidableEq

/-- What the loader of Windows does. -/
inductive LoaderAction
  | load (ms : List ModuleInfo)
  | unload (handle : Address)
  /-- the init routine of the library, which ends with `loader_t::loader_t` -/
  | construct
  /-- `LdrpCallInitRoutine` -/
  | callInitRoutine (baseAddress : Address) (reason : CallReason)

/-- `MyLdrpCallInitRoutine`: whether `patch_loaded_modules` is called first. -/
def patchesBeforeInitRoutine (settings : PatchSettings) (modules : List ModuleInfo)
    (baseAddress : Address) (reason : CallReason) : Bool :=
  match modules.find? fun m => m.moduleHandle = baseAddress with
  -- it has no file name
  | none => false
  | some m =>
    if settings.knownMsDlls m.name then false
    else if settings.moduleHasMicrosoftCopyright m.path then false
    else reason = .processAttach

/-- The process, and `m_init_finished`. -/
structure Loader where
  process : Process
  initFinished : Bool := false

namespace Loader

variable (settings : PatchSettings) (code : Code) (table : List FunctionToPatch)

def start (memory : Memory) : Loader := { process := .start table memory }

/-- A step of the process. -/
def act (s : Loader) (a : ProcessAction) : Option Loader :=
  (s.process.step settings code a).map fun process => { s with process := process }

/-- One step of the loader of Windows.  An init routine is called in the state after the step. -/
def step (s : Loader) : LoaderAction → Option Loader
  | .load ms => s.act settings code (.load ms)
  | .unload handle => s.act settings code (.unload handle)
  | .construct => (s.act settings code .patch).map fun s' => { s' with initFinished := true }
  | .callInitRoutine baseAddress reason =>
      -- `LdrpCallInitRoutine` is detoured in the init routine of the library
      if s.initFinished &&
          patchesBeforeInitRoutine settings s.process.modules baseAddress reason then
        s.act settings code .patch
      else some s

/-- The conditions on a step: the slots are set up without replacements, and the modules with hooked
functions stay loaded. -/
def Permits (s : Loader) : LoaderAction → Prop
  | .load ms => ∀ t ∈ ms.flatMap ModuleInfo.slots, t.resolved ∉ replacements table
  | .unload handle =>
      ∀ m ∈ s.process.modules, m.moduleHandle = handle → ∀ f ∈ table, f.moduleName ≠ m.name
  | .construct | .callInitRoutine _ _ => True

instance (s : Loader) : ∀ a, Decidable (s.Permits table a)
  | .load ms => inferInstanceAs (Decidable (∀ t ∈ ms.flatMap ModuleInfo.slots, _))
  | .unload _ => inferInstanceAs (Decidable (∀ m ∈ s.process.modules, _))
  | .construct | .callInitRoutine _ _ => isTrue trivial

end Loader

namespace Process

variable {settings : PatchSettings} {code : Code} {table : List FunctionToPatch} {s s' : Process}

/-- A module without hooked functions is unloaded. -/
theorem Attached.unload (h : s.Attached settings code table) {handle : Address}
    (hname : ∀ m ∈ s.modules, m.moduleHandle = handle → ∀ f ∈ table, f.moduleName ≠ m.name)
    (hs : s.step settings code (.unload handle) = some s') (hclear' : s'.Clear code) :
    s'.Attached settings code table := by
  have hhooked := h.toHooked.unload hs
  obtain ⟨hmodules, hfunctions, -⟩ := step_unload hs
  -- the exporting modules are the same
  have hexporter : ∀ f ∈ s.functions, exporter s'.modules f = exporter s.modules f := by
    intro f hf
    obtain ⟨g, hg, hreset⟩ := reset_mem_of_map_eq h.entries hf
    have hmodule : g.reset.moduleName = f.reset.moduleName := by rw [hreset]
    rw [hmodules]
    unfold exporter
    rw [List.find?_filter]
    refine List.find?_congr fun m hm => ?_
    by_cases hf : m.name = f.moduleName
    · have hne : m.moduleHandle ≠ handle := fun heq => hname m hm heq g hg (hmodule.trans hf.symm)
      simp [hf, hne]
    · simp [hf]
  refine ⟨hhooked, hclear', fun f hf hhandle => ?_, fun f hf o ho => ?_, fun t ht => ?_⟩
  · rw [hfunctions] at hf
    rw [hexporter f hf]
    exact h.loaded f hf hhandle
  · rw [hfunctions] at hf
    have hcode := h.current f hf o ho
    unfold hookedCode at hcode ⊢
    rw [resolvedMemory_unload h.addresses hs, hexporter f hf, hcode]
  · obtain ⟨m, hm, ht⟩ := List.mem_flatMap.1 ht
    rw [hmodules] at hm
    exact h.resolved t (List.mem_flatMap.2 ⟨m, List.mem_of_mem_filter hm, ht⟩)

/-- The init routine of a module that is not left alone is called after a pass. -/
theorem patchesBeforeInitRoutine_of_not_isSkipped
    (hhandles : (s.modules.map ModuleInfo.moduleHandle).Nodup) {m : ModuleInfo}
    (hm : m ∈ s.modules) (hskip : isSkipped settings m = false) :
    patchesBeforeInitRoutine settings s.modules m.moduleHandle .processAttach = true := by
  unfold isSkipped at hskip
  simp only [Bool.or_eq_false_iff] at hskip
  unfold patchesBeforeInitRoutine
  rw [find?_moduleHandle hhandles hm]
  simp [hskip.1.1.1, hskip.1.1.2]

end Process

namespace Loader

variable {settings : PatchSettings} {code : Code} {table : List FunctionToPatch} {s s' : Loader}

theorem process_act {a : ProcessAction} (h : s.act settings code a = some s') :
    s.process.step settings code a = some s'.process := by
  obtain ⟨process, hprocess, rfl⟩ := Option.map_eq_some_iff.1 h
  exact hprocess

/-- **One step** keeps the invariant. -/
theorem step_attached {a : LoaderAction} (h : s.process.Attached settings code table)
    (ha : s.Permits table a) (hs : s.step settings code a = some s')
    (hclear' : s'.process.Clear code) : s'.process.Attached settings code table := by
  cases a with
  | load ms => exact h.load ha (process_act hs) hclear'
  | unload handle => exact h.unload ha (process_act hs) hclear'
  | construct =>
    simp only [Loader.step, Option.map_eq_some_iff] at hs
    obtain ⟨s₁, hs₁, rfl⟩ := hs
    have hpatch := process_act hs₁
    exact h.patch hpatch hclear'
  | callInitRoutine baseAddress reason =>
    change (if _ then _ else _) = _ at hs
    split_ifs at hs
    · exact h.patch (process_act hs) hclear'
    · cases hs
      exact h

end Loader

/-- A plugin and the module of its stub are loaded, unloaded and loaded again. -/
def pluginRun : List LoaderAction :=
  [.load roundTripApp, .construct, .load roundTripPlugin,
   .callInitRoutine roundTripStubBase .processAttach,
   .callInitRoutine roundTripPluginBase .processAttach,
   .callInitRoutine roundTripPluginBase .processDetach, .unload roundTripPluginBase,
   .unload roundTripStubBase, .load roundTripPlugin.reverse]

end BugInsight

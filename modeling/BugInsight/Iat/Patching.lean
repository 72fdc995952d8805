import BugInsight.Iat.Jumps
import BugInsight.Runs

/-!
# Import patching

`iat_patching.cpp` and `iat_helper.cpp`: the slots of the import tables of the loaded modules that
refer to a hooked function are changed to its replacement, and back.

* `FunctionToPatch`: an entry of the hook table, with the contents of `*m_orginal`;
* `patchIat`, `patchLoadedModules`: one pass, which patches or reverts;
* `Process.step`: passes, with modules being loaded and unloaded in between.

The slots are cells of the memory that `find_real_code` reads.  The code that is loaded does not
change.  `Thunk.resolved` is not read by the code: it says what the loader stores in the slot.
-/

namespace BugInsight

/-! ### The data -/

/-- `function_type_t`. -/
inductive FunctionType
  | memoryLeak | deadlock | other
  deriving DecidableEq

/-- `function_to_patch_t`. -/
structure FunctionToPatch where
  functionType : FunctionType
  functionName : String
  moduleName : String
  moduleHandle : Option Address := none
  /-- `*m_orginal` -/
  original : Option Address := none
  replacement : Address
  deriving DecidableEq

/-- A slot of an import table. -/
structure Thunk where
  address : ℕ
  /-- what the loader stores -/
  resolved : Address
  deriving DecidableEq

/-- `IMAGE_IMPORT_DESCRIPTOR`, with the name of the imported module in lower case. -/
structure ImportDescriptor where
  name : String
  thunks : List Thunk
  deriving DecidableEq

/-- `moduleinfo_t`, with the import and export tables of the module.  `name` and `path` are in lower
case. -/
structure ModuleInfo where
  moduleHandle : Address
  name : String
  path : String
  imports : List ImportDescriptor
  /-- the address of an exported function, if there is one -/
  exports : String → Option Address

/-- The slots of a module. -/
def ModuleInfo.slots (m : ModuleInfo) : List Thunk := m.imports.flatMap fun d => d.thunks

/-- The settings of the passes.  The ignore lists say which module names they match. -/
structure PatchSettings where
  buginsightDllName : String
  knownMsDlls : String → Bool
  moduleHasMicrosoftCopyright : String → Bool
  blacklistModulesDeadlocks : String → Bool
  blacklistModulesMemoryLeaks : String → Bool

/-- `GetProcAddress`. -/
def getProcAddress (modules : List ModuleInfo) (handle : Address) (name : String) :
    Option Address :=
  (modules.find? fun m => m.moduleHandle = handle).bind fun m => m.exports name

/-- `get_module_base_address`. -/
def getModuleBaseAddress (modules : List ModuleInfo) (name : String) : Option Address :=
  (modules.find? fun m => m.name = name).map fun m => m.moduleHandle

/-- What a pass changes: the slots and the hook table. -/
structure HookState where
  memory : Memory
  functions : List FunctionToPatch

/-! ### One pass -/

section Pass

variable (settings : PatchSettings) (code : Code) (modules : List ModuleInfo) (revert : Bool)

/-- The function types that are enabled for a module. -/
def enabledFunctionTypes (name : String) : List FunctionType :=
  (if settings.blacklistModulesDeadlocks name then [] else [.deadlock]) ++
    if settings.blacklistModulesMemoryLeaks name then [] else [.memoryLeak]

/-- The condition of `find_if` in `patch_iat`. -/
def FunctionToPatch.isImportedBy (enabled : List FunctionType) (memory : Memory) (t : Thunk)
    (func : Option Address) (f : FunctionToPatch) : Bool :=
  if f.functionType ∉ enabled then false
  else
    match f.moduleHandle with
    | none => false
    | some handle =>
      match f.original with
      | some original => if revert then memory t.address = f.replacement else some original = func
      | none =>
        match getProcAddress modules handle f.functionName with
        | none => false
        | some importAddress => some (code.findRealCode memory importAddress) = func

/-- `patch_function`. -/
def patchFunction (t : Thunk) (func : Option Address) (memory : Memory) (f : FunctionToPatch) :
    Memory × FunctionToPatch :=
  if revert then
    match f.original with
    | some original => (Function.update memory t.address original, f)
    -- a pass that reverts does not find such an entry
    | none => (memory, f)
  else (Function.update memory t.address f.replacement, { f with original := func })

/-- `patch_function` with the first entry that satisfies a condition. -/
def patchFirst (p : FunctionToPatch → Bool) (t : Thunk) (func : Option Address) (memory : Memory) :
    List FunctionToPatch → Memory × List FunctionToPatch
  | [] => (memory, [])
  | f :: fs =>
      if p f then
        ((patchFunction revert t func memory f).1, (patchFunction revert t func memory f).2 :: fs)
      else ((patchFirst p t func memory fs).1, f :: (patchFirst p t func memory fs).2)

/-- The body of the loop over the slots in `patch_iat`. -/
def patchThunk (enabled : List FunctionType) (s : HookState) (t : Thunk) : HookState :=
  let func := if revert then none else some (code.findRealCode s.memory (s.memory t.address))
  let r := patchFirst revert
    (FunctionToPatch.isImportedBy code modules revert enabled s.memory t func) t func s.memory
    s.functions
  { memory := r.1, functions := r.2 }

/-- The body of the loop over the imported modules in `patch_iat`. -/
def patchImports (enabled : List FunctionType) (s : HookState) (d : ImportDescriptor) : HookState :=
  if d.name = settings.buginsightDllName then s
  else d.thunks.foldl (patchThunk code modules revert enabled) s

/-- `patch_iat`. -/
def patchIat (enabled : List FunctionType) (s : HookState) (m : ModuleInfo) : HookState :=
  m.imports.foldl (patchImports settings code modules revert enabled) s

/-- `p_found_ucrtbase_dll` after `patch_iat`. -/
def foundUcrtbaseDll (m : ModuleInfo) : Bool :=
  m.imports.any fun d => d.name ≠ settings.buginsightDllName ∧
    d.name ∈ ["ucrtbased.dll", "ucrtbase.dll", "vcruntime140.dll", "vcruntime140d.dll"]

/-- The modules that `patch_loaded_modules` leaves alone. -/
def isSkipped (m : ModuleInfo) : Bool :=
  settings.knownMsDlls m.name || settings.moduleHasMicrosoftCopyright m.path ||
    m.path = settings.buginsightDllName || (enabledFunctionTypes settings m.name).isEmpty

/-- The body of the loop over the modules in `patch_loaded_modules`. -/
def patchModule (s : HookState) (m : ModuleInfo) : HookState :=
  if isSkipped settings m then s
  else patchIat settings code modules revert (enabledFunctionTypes settings m.name) s m

/-- `set_module_base`, if the module is loaded. -/
def FunctionToPatch.setModuleBase (f : FunctionToPatch) : FunctionToPatch :=
  match getModuleBaseAddress modules f.moduleName with
  | none => f
  | some handle => { f with moduleHandle := some handle }

/-- The first loop of `patch_loaded_modules`. -/
def setModuleBases (s : HookState) : HookState :=
  { s with functions := s.functions.map (FunctionToPatch.setModuleBase modules) }

/-- The modules that are added to `p_modules_static_runtime`. -/
def staticRuntimeModules : List String :=
  (modules.filter fun m => !isSkipped settings m && !foundUcrtbaseDll settings m).map
    fun m => m.name

/-- `patch_loaded_modules`: the slots and the hook table after a pass. -/
def patchLoadedModules (s : HookState) : HookState :=
  modules.foldl (patchModule settings code modules revert) (setModuleBases modules s)

end Pass

/-! ### Runs -/

/-- The slots as the loader sets them up. -/
def resolveSlots (modules : List ModuleInfo) (memory : Memory) : Memory := fun k =>
  match (modules.flatMap ModuleInfo.slots).find? fun t => t.address = k with
  | none => memory k
  | some t => t.resolved

/-- The loaded module that exports the function. -/
def exporter (modules : List ModuleInfo) (f : FunctionToPatch) : Option ModuleInfo :=
  modules.find? fun m => m.name = f.moduleName

/-- The slots and the hook table, the loaded modules in the order in which they are enumerated, and
`m_modules_static_runtime`. -/
structure Process extends HookState where
  modules : List ModuleInfo
  modulesStaticRuntime : List String := []

/-- What happens to the process. -/
inductive ProcessAction
  /-- a module is loaded, together with those that it needs -/
  | load (ms : List ModuleInfo)
  | unload (handle : Address)
  | patch
  | revert

namespace Process

variable (settings : PatchSettings) (code : Code)

/-- The memory with the slots as the loader has set them up. -/
def resolvedMemory (s : Process) : Memory := resolveSlots s.modules s.memory

/-- What the loaded modules refer to: the slots, the hooked functions and the replacements. -/
def references (s : Process) : List Address :=
  (s.modules.flatMap ModuleInfo.slots).map Thunk.resolved ++
    s.functions.filterMap (fun f => (exporter s.modules f).bind fun m =>
      m.exports f.functionName) ++
    s.functions.map FunctionToPatch.replacement

/-- The modules are loaded at addresses of their own, and what was loaded before does not jump
through their slots. -/
def IsFresh (s : Process) (ms : List ModuleInfo) : Prop :=
  ((s.modules ++ ms).map ModuleInfo.moduleHandle).Nodup ∧
    (((s.modules ++ ms).flatMap ModuleInfo.slots).map Thunk.address).Nodup ∧
    ∀ a ∈ s.references, ∀ k ∈ code.cells s.resolvedMemory a,
      k ∉ (ms.flatMap ModuleInfo.slots).map Thunk.address

instance (s : Process) (ms : List ModuleInfo) : Decidable (s.IsFresh code ms) :=
  inferInstanceAs (Decidable (_ ∧ _ ∧ _))

/-- Before anything is loaded, with the table of `prepare_functions_to_patch`. -/
def start (functions : List FunctionToPatch) (memory : Memory) : Process :=
  { memory := memory
    functions := functions.map fun f => { f with moduleHandle := none, original := none }
    modules := [] }

/-- One step. -/
def step (s : Process) : ProcessAction → Option Process
  | .load ms =>
      if s.IsFresh code ms then
        some { s with modules := s.modules ++ ms, memory := resolveSlots ms s.memory }
      else none
  | .unload handle =>
      -- what the slots of the module hold from then on is of no account
      some
        { s with
          modules := s.modules.filter fun m => m.moduleHandle ≠ handle
          memory := resolveSlots (s.modules.filter fun m => m.moduleHandle = handle) s.memory }
  | .patch =>
      some
        { s with
          toHookState := patchLoadedModules settings code s.modules false s.toHookState
          modulesStaticRuntime :=
            s.modulesStaticRuntime ++ staticRuntimeModules settings s.modules }
  | .revert =>
      some
        { s with toHookState := patchLoadedModules settings code s.modules true s.toHookState }

end Process

end BugInsight

import BugInsight.Iat.Exporters

/-!
# The hook table and the import slots over a run

* `FunctionToPatch.IsCurrent`: what an entry of the hook table remembers of its module is up to
  date;
* `Process.Clear`: no replacement resolves to the real code of a hooked function;
* `Process.Hooked`: the invariant.  Every slot holds what the loader has stored, or the replacement
  of an entry whose saved original is the real code of that;
* `Process.Hooked.duringPass`: a pass with entries that are up to date;
* `Process.Hooked.load`, `Process.Hooked.unload`, `Process.Hooked.patch`: the steps keep the
  invariant.
-/

namespace BugInsight

/-! ### The hook table -/

/-- The entry at the start of the program. -/
def FunctionToPatch.reset (f : FunctionToPatch) : FunctionToPatch :=
  { f with moduleHandle := none, original := none }

/-- What the entry remembers of its module is up to date.  If the module is not loaded, the base
address is not in use, and the saved original is not the real code of a hooked function. -/
def FunctionToPatch.IsCurrent (code : Code) (s : Process) (f : FunctionToPatch) : Prop :=
  match exporter s.modules f, f.original with
  | some _, none => True
  | some _, some o => hookedCode code s.memory s.modules f = some o
  | none, none => ∀ m ∈ s.modules, some m.moduleHandle ≠ f.moduleHandle
  | none, some o => ∀ g ∈ s.functions, hookedCode code s.memory s.modules g ≠ some o

instance (code : Code) (s : Process) (f : FunctionToPatch) : Decidable (f.IsCurrent code s) := by
  unfold FunctionToPatch.IsCurrent
  cases exporter s.modules f <;> cases f.original <;> infer_instance

section Table

variable {code : Code} {memory : Memory} {modules : List ModuleInfo}
  {functions functions' : List FunctionToPatch} {f f' : FunctionToPatch} {a : Address}

theorem reset_setModuleBase : (f.setModuleBase modules).reset = f.reset := by
  unfold FunctionToPatch.setModuleBase
  cases getModuleBaseAddress modules f.moduleName with
  | none => rfl
  | some handle => rfl

theorem original_setModuleBase : (f.setModuleBase modules).original = f.original := by
  unfold FunctionToPatch.setModuleBase
  cases getModuleBaseAddress modules f.moduleName with
  | none => rfl
  | some handle => rfl

theorem moduleHandle_setModuleBase (hf : f.moduleHandle.isSome) :
    (f.setModuleBase modules).moduleHandle.isSome := by
  unfold FunctionToPatch.setModuleBase
  cases getModuleBaseAddress modules f.moduleName with
  | none => exact hf
  | some handle => rfl

theorem Fills.reset_eq (h : Fills code modules memory f f') : f'.reset = f.reset := by
  rcases h with rfl | ⟨-, a, -, rfl⟩
  · rfl
  · rfl

theorem hookedCode_congr (h : f'.reset = f.reset) :
    hookedCode code memory modules f' = hookedCode code memory modules f := by
  change hookedCode code memory modules f'.reset = hookedCode code memory modules f.reset
  rw [h]

theorem exporter_congr (h : f'.reset = f.reset) : exporter modules f' = exporter modules f := by
  change exporter modules f'.reset = exporter modules f.reset
  rw [h]

theorem functionType_congr (h : f'.reset = f.reset) : f'.functionType = f.functionType := by
  change f'.reset.functionType = f.reset.functionType
  rw [h]

theorem replacement_congr (h : f'.reset = f.reset) : f'.replacement = f.replacement := by
  change f'.reset.replacement = f.reset.replacement
  rw [h]

theorem reset_mem_of_map_eq
    (h : functions'.map FunctionToPatch.reset = functions.map FunctionToPatch.reset)
    (hf : f ∈ functions') : ∃ g ∈ functions, g.reset = f.reset :=
  List.mem_map.1 (h ▸ List.mem_map_of_mem hf)

theorem replacements_eq
    (h : functions'.map FunctionToPatch.reset = functions.map FunctionToPatch.reset) :
    replacements functions' = replacements functions := by
  have hmap : ∀ fs : List FunctionToPatch,
      replacements fs = (fs.map FunctionToPatch.reset).map FunctionToPatch.replacement := fun fs =>
    List.map_map.symm ▸ rfl
  rw [hmap, hmap, h]

end Table

/-! ### The start of a pass -/

namespace Process

variable {settings : PatchSettings} {code : Code} {s s' : Process} {f f' : FunctionToPatch}
  {a : Address}

/-- After the first loop of `patch_loaded_modules`. -/
def passStart (s : Process) : HookState := setModuleBases s.modules s.toHookState

theorem passStart_reset :
    s.passStart.functions.map FunctionToPatch.reset = s.functions.map FunctionToPatch.reset := by
  show (s.functions.map (FunctionToPatch.setModuleBase s.modules)).map FunctionToPatch.reset = _
  rw [List.map_map]
  exact List.map_congr_left fun f _ => reset_setModuleBase

/-- Nothing is loaded at the base address, so it has no exports. -/
theorem effective_eq_none {modules : List ModuleInfo} {memory : Memory} (ho : f.original = none)
    (h : ∀ m ∈ modules, some m.moduleHandle ≠ f.moduleHandle) :
    effective code modules memory f = none := by
  unfold effective
  cases hhandle : f.moduleHandle with
  | none => rfl
  | some handle =>
    have hfind : modules.find? (fun m => m.moduleHandle = handle) = none := by
      refine List.find?_eq_none.2 fun m hm => ?_
      have hne := h m hm
      rw [hhandle] at hne
      simpa using fun hc : m.moduleHandle = handle => hne (congrArg some hc)
    rw [Option.bind_some, ho]
    unfold getProcAddress
    rw [hfind]
    rfl

/-- **What an entry that is up to date is compared with.** -/
theorem effective_of_isCurrent (h : f.IsCurrent code s)
    (hhandles : (s.modules.map ModuleInfo.moduleHandle).Nodup)
    (ha : effective code s.modules s.memory (f.setModuleBase s.modules) = some a) :
    hookedCode code s.memory s.modules f = some a ∨
      f.original = some a ∧ ∀ g ∈ s.functions, hookedCode code s.memory s.modules g ≠ some a := by
  unfold FunctionToPatch.IsCurrent at h
  cases hm : exporter s.modules f with
  | some m =>
    rw [effective_setModuleBase hhandles hm fun o ho => ?_] at ha
    · exact Or.inl ha
    · rwa [hm, ho] at h
  | none =>
    rw [setModuleBase_of_none hm] at ha
    cases ho : f.original with
    | none =>
      rw [hm, ho] at h
      rw [effective_eq_none ho h] at ha
      cases ha
    | some o =>
      rw [hm, ho] at h
      rw [effective_eq_original ho ha]
      exact Or.inr ⟨rfl, h⟩

/-- **An entry that is up to date is compared with the real code of the hooked function**, if the
module is loaded. -/
theorem effective_of_hooked (h : f.IsCurrent code s)
    (hhandles : (s.modules.map ModuleInfo.moduleHandle).Nodup)
    (ha : hookedCode code s.memory s.modules f = some a) :
    effective code s.modules s.memory (f.setModuleBase s.modules) = some a := by
  obtain ⟨m, hm, -⟩ := Option.bind_eq_some_iff.1 ha
  unfold FunctionToPatch.IsCurrent at h
  rw [effective_setModuleBase hhandles hm fun o ho => ?_, ha]
  rwa [hm, ho] at h

/-! ### The invariant -/

/-- No replacement resolves to the real code of a hooked function of a loaded module. -/
def Clear (code : Code) (s : Process) : Prop :=
  ∀ g ∈ s.functions, ∀ a, hookedCode code s.memory s.modules g = some a →
    Unreached code s.resolvedMemory s.functions a

instance (code : Code) (s : Process) : Decidable (s.Clear code) :=
  have (g : FunctionToPatch) := Runs.decidableForallEqSome (hookedCode code s.memory s.modules g)
    fun a => Unreached code s.resolvedMemory s.functions a
  inferInstanceAs (Decidable (∀ g ∈ s.functions, _))

/-- The slot holds the replacement of an enabled function, instead of the real code of that
function. -/
def IsPatched (code : Code) (s : Process) (enabled : List FunctionType) (t : Thunk) : Prop :=
  ∃ f ∈ s.functions, f.functionType ∈ enabled ∧
    f.original = some (code.findRealCode s.resolvedMemory t.resolved) ∧
    s.memory t.address = f.replacement

/-- **The invariant** of the hook table and the slots. -/
structure Hooked (settings : PatchSettings) (code : Code) (table : List FunctionToPatch)
    (s : Process) : Prop where
  /-- only handles and saved originals change in the table -/
  entries : s.functions.map FunctionToPatch.reset = table.map FunctionToPatch.reset
  handles : (s.modules.map ModuleInfo.moduleHandle).Nodup
  addresses : (slotAddresses s.modules).Nodup
  slots : ∀ t ∈ s.modules.flatMap ModuleInfo.slots, s.memory t.address = t.resolved ∨
    ∃ enabled, (enabled, t) ∈ visitedThunks settings s.modules ∧ s.IsPatched code enabled t
  originals : ∀ f ∈ s.functions, ∀ o, f.original = some o →
    f.moduleHandle.isSome ∧ Unreached code s.resolvedMemory s.functions o

variable {table : List FunctionToPatch}

/-- Only the slots differ from what the loader has set up. -/
theorem Hooked.rewritten (h : s.Hooked settings code table) :
    Rewritten (replacements s.functions) s.resolvedMemory s.memory := by
  intro k
  by_cases hk : k ∈ slotAddresses s.modules
  · obtain ⟨t, ht, rfl⟩ := List.mem_map.1 hk
    unfold resolvedMemory
    rw [resolveSlots_of_mem h.addresses ht]
    refine (h.slots t ht).imp_right fun ⟨_, _, f, hf, _, _, hreplacement⟩ => ?_
    rw [hreplacement]
    exact List.mem_map_of_mem hf
  · exact Or.inl (resolveSlots_of_notMem hk).symm

/-- Replaced slots do not matter for a hooked function that is looked up without them. -/
theorem hookedCode_of_rewritten {functions : List FunctionToPatch} {modules : List ModuleInfo}
    {memory memory' : Memory} (hrewritten : Rewritten (replacements functions) memory memory')
    (h : ∀ a, hookedCode code memory' modules f = some a → Unreached code memory' functions a) :
    hookedCode code memory modules f = hookedCode code memory' modules f := by
  unfold hookedCode at h ⊢
  cases hm : exporter modules f with
  | none => rfl
  | some m =>
    cases hp : m.exports f.functionName with
    | none => simp only [Option.bind_some, hp, Option.map_none]
    | some p =>
      simp only [hm, hp, Option.bind_some, Option.map_some] at h ⊢
      refine congrArg some (Code.findRealCode_congr fun k hk => ?_)
      refine ((hrewritten k).resolve_right fun hr => ?_).symm
      exact h _ rfl _ hr (Code.findRealCode_mem_of_cells hk)

/-- The slots with replacements do not matter for the hooked functions. -/
theorem Hooked.hookedCode_eq (h : s.Hooked settings code table) (hclear : s.Clear code)
    (hf : f ∈ s.functions) : hookedCode code s.resolvedMemory s.modules f =
      hookedCode code s.memory s.modules f :=
  hookedCode_of_rewritten h.rewritten fun a ha => (hclear f hf a ha).of_rewritten h.rewritten

theorem replacements_passStart : replacements s.passStart.functions = replacements s.functions :=
  replacements_eq passStart_reset

/-- An entry is not compared with what a replacement resolves to. -/
theorem Hooked.effective_unreached (h : s.Hooked settings code table)
    (hcur : ∀ f ∈ s.functions, f.IsCurrent code s) (hclear : s.Clear code)
    (hf : f ∈ s.passStart.functions) (ha : effective code s.modules s.memory f = some a) :
    Unreached code s.resolvedMemory s.functions a := by
  obtain ⟨f₀, hf₀, rfl⟩ := List.mem_map.1 hf
  rcases effective_of_isCurrent (hcur f₀ hf₀) h.handles ha with hcode | ⟨ho, -⟩
  · exact hclear f₀ hf₀ a hcode
  · exact (h.originals f₀ hf₀ a ho).2

theorem Hooked.apart (h : s.Hooked settings code table)
    (hcur : ∀ f ∈ s.functions, f.IsCurrent code s) (hclear : s.Clear code) :
    SavedApart code s.modules s.passStart := by
  intro f hf a ha
  have hunreached := (h.effective_unreached hcur hclear hf ha).of_rewritten h.rewritten
  exact hunreached.congr replacements_passStart

/-! ### A pass -/

/-- A pass is one loop over the slots. -/
theorem step_patch (hs : s.step settings code .patch = some s') : s'.modules = s.modules ∧
    s'.toHookState =
      (visitedThunks settings s.modules).foldl (visitThunk code s.modules false) s.passStart := by
  cases hs
  exact ⟨rfl, patchLoadedModules_eq_foldl⟩

theorem step_revert (hs : s.step settings code .revert = some s') : s'.modules = s.modules ∧
    s'.toHookState =
      (visitedThunks settings s.modules).foldl (visitThunk code s.modules true) s.passStart := by
  cases hs
  exact ⟨rfl, patchLoadedModules_eq_foldl⟩

/-- A pass does not change what the loader has set up. -/
theorem resolvedMemory_foldl {revert : Bool} {l : List Visit}
    (hl : ∀ v ∈ l, v ∈ visitedThunks settings s.modules) :
    resolveSlots s.modules (l.foldl (visitThunk code s.modules revert) s.passStart).memory =
      s.resolvedMemory := by
  refine resolveSlots_congr fun k hk => foldl_visitThunk_of_notMem fun v hv hc => hk ?_
  rw [hc]
  have hmem := List.mem_map_of_mem (f := Prod.snd) (hl v hv)
  exact List.mem_map_of_mem (visitedThunks_sublist.subset hmem)

theorem resolvedMemory_patch (hs : s.step settings code .patch = some s') :
    s'.resolvedMemory = s.resolvedMemory := by
  obtain ⟨hmodules, hend⟩ := step_patch hs
  unfold resolvedMemory
  rw [hmodules, hend]
  exact resolvedMemory_foldl fun v hv => hv

theorem resolvedMemory_revert (hs : s.step settings code .revert = some s') :
    s'.resolvedMemory = s.resolvedMemory := by
  obtain ⟨hmodules, hend⟩ := step_revert hs
  unfold resolvedMemory
  rw [hmodules, hend]
  exact resolvedMemory_foldl fun v hv => hv

theorem foldl_visitThunk_reset {modules : List ModuleInfo} (l : List Visit) (s : HookState) :
    (l.foldl (visitThunk code modules false) s).functions.map FunctionToPatch.reset =
      s.functions.map FunctionToPatch.reset := by
  induction l generalizing s with
  | nil => rfl
  | cons v l ih =>
    rw [List.foldl_cons, ih]
    rcases visitThunk_cases code modules s v with
      ⟨heq, -⟩ | ⟨f, -, -, -, -, -, hfills⟩
    · rw [heq]
    · exact map_eq_of_forall₂ hfills fun _ _ hfill => hfill.reset_eq

/-- Only handles and saved originals change in the table. -/
theorem reset_patch (hs : s.step settings code .patch = some s') :
    s'.functions.map FunctionToPatch.reset = s.functions.map FunctionToPatch.reset := by
  rw [(step_patch hs).2, foldl_visitThunk_reset, passStart_reset]

/-- At the end of a pass, hooked functions are looked up without going through a replaced slot. -/
theorem Hooked.lookedUp (h : s.Hooked settings code table)
    (hcur : ∀ f ∈ s.functions, f.IsCurrent code s)
    (hs : s.step settings code .patch = some s') (hclear' : s'.Clear code) :
    ∀ f ∈ s.passStart.functions, LookedUp code s.modules s'.toHookState f := by
  intro f hf ho a ha
  obtain ⟨hmodules, hend⟩ := step_patch hs
  have hreset := reset_patch hs
  have hrewritten : Rewritten (replacements s'.functions) s'.resolvedMemory s'.memory := by
    rw [replacements_eq hreset, resolvedMemory_patch hs]
    refine h.rewritten.trans ?_
    have hpass := (foldl_visitThunk_rewritten code s.modules
      (visitedThunks settings s.modules) s.passStart).2
    rw [← hend, replacements_passStart] at hpass
    exact hpass
  obtain ⟨f₀, hf₀, rfl⟩ := List.mem_map.1 hf
  rw [original_setModuleBase] at ho
  have hcurrent := hcur f₀ hf₀
  unfold FunctionToPatch.IsCurrent at hcurrent
  cases hm : exporter s.modules f₀ with
  | none =>
    rw [hm, ho] at hcurrent
    rw [setModuleBase_of_none hm, effective_eq_none ho hcurrent] at ha
    cases ha
  | some m =>
    rw [effective_setModuleBase h.handles hm (by simp [ho])] at ha
    obtain ⟨g, hg, hgf⟩ := reset_mem_of_map_eq hreset.symm hf₀
    rw [← hookedCode_congr hgf, ← hmodules] at ha
    exact (hclear' g hg a ha).of_rewritten hrewritten

/-- **A pass that patches**, with entries that are up to date. -/
theorem Hooked.duringPass (h : s.Hooked settings code table)
    (hcur : ∀ f ∈ s.functions, f.IsCurrent code s) (hclear : s.Clear code)
    (hs : s.step settings code .patch = some s') (hclear' : s'.Clear code) :
    ∀ pre post, visitedThunks settings s.modules = pre ++ post →
      DuringPass code s.modules s.passStart pre
        (pre.foldl (visitThunk code s.modules false) s.passStart) := by
  refine BugInsight.duringPass (h.apart hcur hclear) h.addresses ?_
  rw [← (step_patch hs).2]
  exact h.lookedUp hcur hs hclear'

/-- After the whole pass. -/
theorem Hooked.afterPass (h : s.Hooked settings code table)
    (hcur : ∀ f ∈ s.functions, f.IsCurrent code s) (hclear : s.Clear code)
    (hs : s.step settings code .patch = some s') (hclear' : s'.Clear code) :
    DuringPass code s.modules s.passStart (visitedThunks settings s.modules) s'.toHookState := by
  rw [(step_patch hs).2]
  exact h.duringPass hcur hclear hs hclear' _ [] (List.append_nil _).symm

theorem mem_slots_of_visited {v : Visit} (hv : v ∈ visitedThunks settings s.modules) :
    v.2 ∈ s.modules.flatMap ModuleInfo.slots :=
  visitedThunks_sublist.subset (List.mem_map_of_mem (f := Prod.snd) hv)

/-- A slot that the table matches before a pass has not been patched, and its real code is that of
what the loader has stored. -/
theorem Hooked.of_imported (h : s.Hooked settings code table)
    (hcur : ∀ f ∈ s.functions, f.IsCurrent code s) (hclear : s.Clear code) {v : Visit}
    (hv : v.2 ∈ s.modules.flatMap ModuleInfo.slots)
    (himported : Imported code s.modules s.passStart v) :
    s.memory v.2.address = v.2.resolved ∧
      code.findRealCode s.memory v.2.resolved =
        code.findRealCode s.resolvedMemory v.2.resolved := by
  have hcontents : s.memory v.2.address = v.2.resolved := by
    refine (h.slots v.2 hv).resolve_right ?_
    rintro ⟨enabled, -, f, hf, -, -, hreplacement⟩
    refine (Later.refl s.passStart).not_imported (h.apart hcur hclear) ?_ himported
    rw [replacements_passStart]
    show s.memory v.2.address ∈ _
    rw [hreplacement]
    exact List.mem_map_of_mem hf
  obtain ⟨f, hf, -, heff⟩ := himported
  have hunreached := h.effective_unreached hcur hclear hf heff
  refine ⟨hcontents, (Code.findRealCode_of_changed h.rewritten).resolve_right ?_⟩
  rintro ⟨r, hr, hmeets⟩
  rw [← hcontents] at hmeets
  exact hunreached r hr hmeets

/-! ### Steps -/

/-- **A pass that patches** keeps the invariant. -/
theorem Hooked.patch (h : s.Hooked settings code table)
    (hcur : ∀ f ∈ s.functions, f.IsCurrent code s) (hclear : s.Clear code)
    (hs : s.step settings code .patch = some s') (hclear' : s'.Clear code) :
    s'.Hooked settings code table := by
  have hpass := h.afterPass hcur hclear hs hclear'
  obtain ⟨hmodules, -⟩ := step_patch hs
  have hresolved := resolvedMemory_patch hs
  have hreset := reset_patch hs
  refine ⟨hreset.trans h.entries, hmodules ▸ h.handles, hmodules ▸ h.addresses, fun t ht => ?_,
    fun f hf o ho => ?_⟩
  · rw [hmodules] at ht ⊢
    unfold IsPatched
    rw [hresolved]
    by_cases hsame : s'.memory t.address = s.memory t.address
    · rw [hsame]
      refine (h.slots t ht).imp_right ?_
      rintro ⟨enabled, hv, f, hf, htype, ho, hreplacement⟩
      -- a saved original stays
      obtain ⟨f', hf', hfill⟩ := forall₂_exists_right hpass.fills (List.mem_map_of_mem hf)
      rw [hfill.eq_of_isSome (by rw [original_setModuleBase, ho]; rfl)] at hf'
      refine ⟨enabled, hv, _, hf', ?_, original_setModuleBase.trans ho, ?_⟩
      · rwa [functionType_congr reset_setModuleBase]
      · rwa [replacement_congr reset_setModuleBase]
    · obtain ⟨v, hv, haddress, himported⟩ := hpass.changed _ hsame
      obtain rfl : v.2 = t :=
        List.inj_on_of_nodup_map h.addresses (mem_slots_of_visited hv) ht haddress
      obtain ⟨hcontents, hreal⟩ :=
        h.of_imported hcur hclear (mem_slots_of_visited hv) himported
      obtain ⟨f, hf, htype, -, ho, hreplacement⟩ := (hpass.patched v hv).resolve_left hsame
      refine Or.inr ⟨v.1, hv, f, hf, htype, ?_, hreplacement⟩
      rw [ho]
      show some (code.findRealCode s.memory (s.memory v.2.address)) = _
      rw [hcontents, hreal]
  · rw [hresolved]
    obtain ⟨f₁, hf₁, hfill⟩ := forall₂_exists_left hpass.fills hf
    obtain ⟨f₀, hf₀, rfl⟩ := List.mem_map.1 hf₁
    rcases hfill with rfl | ⟨-, a, ha, rfl⟩
    · rw [original_setModuleBase] at ho
      obtain ⟨hhandle, hunreached⟩ := h.originals f₀ hf₀ o ho
      exact ⟨moduleHandle_setModuleBase hhandle, hunreached.congr (replacements_eq hreset)⟩
    · cases ho
      obtain ⟨handle, hhandle, -⟩ := Option.bind_eq_some_iff.1 ha
      refine ⟨by rw [hhandle]; rfl, ?_⟩
      exact (h.effective_unreached hcur hclear hf₁ ha).congr (replacements_eq hreset)

/-- The saved originals after a pass: the real code of the hooked function, or of none if the module
is not loaded. -/
theorem Hooked.original_cases (h : s.Hooked settings code table)
    (hcur : ∀ f ∈ s.functions, f.IsCurrent code s) {s₁ : HookState} {pre : List Visit}
    (hpass : DuringPass code s.modules s.passStart pre s₁) (hf : f ∈ s₁.functions)
    (ho : f.original = some a) : hookedCode code s.memory s.modules f = some a ∨
      exporter s.modules f = none ∧
        ∀ g ∈ s.functions, hookedCode code s.memory s.modules g ≠ some a := by
  obtain ⟨f₁, hf₁, hfill⟩ := forall₂_exists_left hpass.fills hf
  obtain ⟨f₀, hf₀, rfl⟩ := List.mem_map.1 hf₁
  have hreset : f.reset = f₀.reset := hfill.reset_eq.trans reset_setModuleBase
  rw [hookedCode_congr hreset, exporter_congr hreset]
  have hcurrent := hcur f₀ hf₀
  rcases hfill with rfl | ⟨hnone, b, hb, rfl⟩
  · rw [original_setModuleBase] at ho
    unfold FunctionToPatch.IsCurrent at hcurrent
    rw [ho] at hcurrent
    cases hm : exporter s.modules f₀ with
    | some m =>
      rw [hm] at hcurrent
      exact Or.inl hcurrent
    | none =>
      rw [hm] at hcurrent
      exact Or.inr ⟨rfl, hcurrent⟩
  · cases ho
    rw [original_setModuleBase] at hnone
    rcases effective_of_isCurrent hcurrent h.handles hb with hcode | ⟨ho, -⟩
    · exact Or.inl hcode
    · rw [hnone] at ho
      cases ho

/-- A pass with entries that are up to date, and its end. -/
structure AfterPass (settings : PatchSettings) (code : Code) (table : List FunctionToPatch)
    (s s' : Process) : Prop where
  before : s.Hooked settings code table
  current : ∀ f ∈ s.functions, f.IsCurrent code s
  clear : s.Clear code
  step : s.step settings code .patch = some s'
  clear' : s'.Clear code

namespace AfterPass

variable (h : AfterPass settings code table s s')
include h

theorem after : s'.Hooked settings code table :=
  h.before.patch h.current h.clear h.step h.clear'

theorem duringPass {pre post : List Visit} (hl : visitedThunks settings s.modules = pre ++ post) :
    DuringPass code s.modules s.passStart pre
      (pre.foldl (visitThunk code s.modules false) s.passStart) :=
  h.before.duringPass h.current h.clear h.step h.clear' pre post hl

theorem pass :
    DuringPass code s.modules s.passStart (visitedThunks settings s.modules) s'.toHookState :=
  h.before.afterPass h.current h.clear h.step h.clear'

/-- The hooked functions have the same real code. -/
theorem hookedCode_eq (hf : f ∈ s'.functions) :
    hookedCode code s'.resolvedMemory s'.modules f = hookedCode code s.memory s.modules f := by
  obtain ⟨g, hg, hreset⟩ := reset_mem_of_map_eq (reset_patch h.step) hf
  rw [resolvedMemory_patch h.step, (step_patch h.step).1, ← hookedCode_congr hreset,
    h.before.hookedCode_eq h.clear hg, hookedCode_congr hreset]

/-- What an entry is compared with in the course of the pass. -/
theorem exists_effective {pre : List Visit} {s₁ : HookState}
    (hpass : DuringPass code s.modules s.passStart pre s₁) (hf : f ∈ s.functions)
    (hcode : hookedCode code s.memory s.modules f = some a) :
    ∃ f' ∈ s₁.functions, f'.reset = f.reset ∧ effective code s.modules s₁.memory f' = some a := by
  have heff := effective_of_hooked (h.current f hf) h.before.handles hcode
  obtain ⟨f', hf', hfill⟩ := forall₂_exists_right hpass.fills (List.mem_map_of_mem hf)
  refine ⟨f', hf', hfill.reset_eq.trans reset_setModuleBase, ?_⟩
  rw [hfill.effective_eq (hpass.effective _ (List.mem_map_of_mem hf))]
  exact heff

end AfterPass

/-- No jump leads from the slot to a hooked function. -/
def Unhooked (code : Code) (s : Process) (v : Visit) : Prop :=
  ∀ f ∈ s.functions, f.functionType ∈ v.1 → hookedCode code s.memory s.modules f ≠
    some (code.findRealCode s.memory (s.memory v.2.address))

/-- **After a pass**, no jump leads from a slot to a hooked function. -/
theorem AfterPass.unhooked (h : AfterPass settings code table s s') {v : Visit}
    (hv : v ∈ visitedThunks settings s.modules) : s'.Unhooked code v := by
  intro f hf htype hcode
  rw [← h.after.hookedCode_eq h.clear' hf, h.hookedCode_eq hf] at hcode
  obtain ⟨g, hg, hreset⟩ := reset_mem_of_map_eq (reset_patch h.step) hf
  rw [← hookedCode_congr hreset] at hcode
  obtain ⟨f', hf', hreset', heff⟩ := h.exists_effective h.pass hg hcode
  refine h.pass.visited v hv ⟨f', hf', ?_, heff⟩
  rwa [functionType_congr (hreset'.trans hreset)]

/-- A pass changes slots from which jumps lead to a hooked function. -/
theorem Hooked.hooked_of_imported (h : s.Hooked settings code table)
    (hcur : ∀ f ∈ s.functions, f.IsCurrent code s) {v : Visit}
    (himported : Imported code s.modules s.passStart v) :
    ∃ f ∈ s.functions, f.functionType ∈ v.1 ∧
      let a := code.findRealCode s.memory (s.memory v.2.address)
      hookedCode code s.memory s.modules f = some a ∨
        f.original = some a ∧ ∀ g ∈ s.functions, hookedCode code s.memory s.modules g ≠ some a := by
  obtain ⟨f₁, hf₁, htype, heff⟩ := himported
  obtain ⟨f, hf, rfl⟩ := List.mem_map.1 hf₁
  refine ⟨f, hf, functionType_congr reset_setModuleBase ▸ htype, ?_⟩
  exact effective_of_isCurrent (hcur f hf) h.handles heff

/-- **Modules are loaded.** -/
theorem step_load {ms : List ModuleInfo} (hs : s.step settings code (.load ms) = some s') :
    s.IsFresh code ms ∧ s'.modules = s.modules ++ ms ∧ s'.functions = s.functions ∧
      s'.memory = resolveSlots ms s.memory := by
  change (if _ then _ else _) = _ at hs
  split_ifs at hs with hfresh
  cases hs
  exact ⟨hfresh, rfl, rfl, rfl⟩

/-- What was loaded before does not notice. -/
theorem resolvedMemory_load {ms : List ModuleInfo}
    (hs : s.step settings code (.load ms) = some s') {a : Address} (ha : a ∈ s.references) :
    ∀ k ∈ code.cells s.resolvedMemory a, s'.resolvedMemory k = s.resolvedMemory k := by
  obtain ⟨hfresh, hmodules, -, hmemory⟩ := step_load hs
  intro k hk
  have hresolved : s'.resolvedMemory = resolveSlots ms s.resolvedMemory := by
    unfold resolvedMemory
    rw [hmodules, hmemory]
    exact resolveSlots_load hfresh.2.1
  rw [hresolved]
  exact resolveSlots_of_notMem (hfresh.2.2 a ha k hk)

theorem replacement_mem_references {r : Address} (hr : r ∈ replacements s.functions) :
    r ∈ s.references := List.mem_append_right _ hr

theorem resolved_mem_references {t : Thunk} (ht : t ∈ s.modules.flatMap ModuleInfo.slots) :
    t.resolved ∈ s.references :=
  List.mem_append_left _ (List.mem_append_left _ (List.mem_map_of_mem ht))

theorem unreached_load {ms : List ModuleInfo} (h : Unreached code s.resolvedMemory s.functions a)
    (hs : s.step settings code (.load ms) = some s') :
    Unreached code s'.resolvedMemory s'.functions a := by
  unfold Unreached
  rw [(step_load hs).2.2.1]
  intro r hr
  rw [Code.meets_congr (resolvedMemory_load hs (replacement_mem_references hr))]
  exact h r hr

theorem Hooked.load (h : s.Hooked settings code table) {ms : List ModuleInfo}
    (hs : s.step settings code (.load ms) = some s') : s'.Hooked settings code table := by
  obtain ⟨hfresh, hmodules, hfunctions, hmemory⟩ := step_load hs
  have hnodup : (slotAddresses (s.modules ++ ms)).Nodup := hfresh.2.1
  refine ⟨hfunctions ▸ h.entries, hmodules ▸ hfresh.1, hmodules ▸ hnodup, fun t ht => ?_,
    fun f hf o ho => ?_⟩
  · rw [hmodules, List.flatMap_append, List.mem_append] at ht
    rw [slotAddresses_append] at hnodup
    obtain ⟨-, hnew, hdisjoint⟩ := List.nodup_append.1 hnodup
    rcases ht with ht | ht
    · have hkept : s'.memory t.address = s.memory t.address := by
        rw [hmemory]
        exact resolveSlots_of_notMem fun hc => hdisjoint _ (List.mem_map_of_mem ht) _ hc rfl
      rw [hkept]
      refine (h.slots t ht).imp_right ?_
      rintro ⟨enabled, hv, f, hf, htype, ho, hreplacement⟩
      refine ⟨enabled, ?_, f, hfunctions ▸ hf, htype, ?_, hkept.trans hreplacement⟩
      · rw [hmodules]
        unfold visitedThunks
        rw [List.flatMap_append]
        exact List.mem_append_left _ hv
      · rw [ho, Code.findRealCode_congr (resolvedMemory_load hs (resolved_mem_references ht))]
    · refine Or.inl ?_
      rw [hmemory]
      exact resolveSlots_of_mem hnew ht
  · rw [hfunctions] at hf
    obtain ⟨hhandle, hunreached⟩ := h.originals f hf o ho
    exact ⟨hhandle, unreached_load hunreached hs⟩

/-- **A module is unloaded.** -/
theorem step_unload {handle : Address} (hs : s.step settings code (.unload handle) = some s') :
    s'.modules = s.modules.filter (fun m => m.moduleHandle ≠ handle) ∧
      s'.functions = s.functions ∧
      s'.memory = resolveSlots (s.modules.filter fun m => m.moduleHandle = handle) s.memory := by
  cases hs
  exact ⟨rfl, rfl, rfl⟩

/-- What the loader has set up stays. -/
theorem resolvedMemory_unload (hnodup : (slotAddresses s.modules).Nodup) {handle : Address}
    (hs : s.step settings code (.unload handle) = some s') :
    s'.resolvedMemory = s.resolvedMemory := by
  obtain ⟨hmodules, -, hmemory⟩ := step_unload hs
  unfold resolvedMemory
  rw [hmodules, hmemory]
  exact resolveSlots_unload hnodup

/-- Different modules have different slots. -/
theorem Hooked.module_eq (h : s.Hooked settings code table) {m m' : ModuleInfo}
    (hm : m ∈ s.modules) (hm' : m' ∈ s.modules) {t : Thunk} (ht : t ∈ m.slots)
    (ht' : t ∈ m'.slots) : m = m' := by
  have hpairwise := (List.nodup_flatMap.1 h.addresses.of_map).2
  have hsymm : Std.Symm (Function.onFun List.Disjoint ModuleInfo.slots) := ⟨fun _ _ h => h.symm⟩
  by_contra hne
  exact hpairwise.forall hm hm' hne ht ht'

theorem Hooked.unload (h : s.Hooked settings code table) {handle : Address}
    (hs : s.step settings code (.unload handle) = some s') : s'.Hooked settings code table := by
  obtain ⟨hmodules, hfunctions, hmemory⟩ := step_unload hs
  have hresolved := resolvedMemory_unload h.addresses hs
  have hsublist := slotAddresses_filter_sublist s.modules
    fun m => decide (m.moduleHandle ≠ handle)
  rw [← hmodules] at hsublist
  have hhandles := (List.filter_sublist (l := s.modules)
    (p := fun m => decide (m.moduleHandle ≠ handle))).map ModuleInfo.moduleHandle
  rw [← hmodules] at hhandles
  refine ⟨hfunctions ▸ h.entries, hhandles.nodup h.handles, hsublist.nodup h.addresses,
    fun t ht => ?_, fun f hf o ho => ?_⟩
  · obtain ⟨m, hm, ht⟩ := List.mem_flatMap.1 ht
    rw [hmodules] at hm
    obtain ⟨hm, hne⟩ := List.mem_filter.1 hm
    have hmem : t ∈ s.modules.flatMap ModuleInfo.slots := List.mem_flatMap.2 ⟨m, hm, ht⟩
    have hkept : s'.memory t.address = s.memory t.address := by
      rw [hmemory]
      refine resolveSlots_of_notMem fun hc => ?_
      obtain ⟨u, hu, haddress⟩ := List.mem_map.1 hc
      obtain ⟨m', hm', hu⟩ := List.mem_flatMap.1 hu
      obtain ⟨hm', hgone⟩ := List.mem_filter.1 hm'
      have hut : u = t :=
        List.inj_on_of_nodup_map h.addresses (List.mem_flatMap.2 ⟨m', hm', hu⟩) hmem haddress
      rw [hut] at hu
      rw [h.module_eq hm' hm hu ht] at hgone
      exact of_decide_eq_true hne (of_decide_eq_true hgone)
    rw [hkept]
    refine (h.slots t hmem).imp_right ?_
    rintro ⟨enabled, hv, f, hf, htype, ho, hreplacement⟩
    refine ⟨enabled, ?_, f, hfunctions ▸ hf, htype, hresolved ▸ ho, hkept.trans hreplacement⟩
    -- it is a slot of the module that stays
    obtain ⟨m', hm', d, hd, hp, ht', henabled⟩ := mem_visitedThunks.1 hv
    have hmm : m' = m := h.module_eq hm' hm (List.mem_flatMap.2 ⟨d, hd, ht'⟩) ht
    rw [hmm] at hd hp henabled
    refine mem_visitedThunks.2 ⟨m, ?_, d, hd, hp, ht', henabled⟩
    rw [hmodules]
    exact List.mem_filter.2 ⟨hm, hne⟩
  · rw [hfunctions] at hf ⊢
    rw [hresolved]
    exact h.originals f hf o ho

theorem hooked_start (memory : Memory) : (start table memory).Hooked settings code table where
  entries := by
    show (table.map FunctionToPatch.reset).map FunctionToPatch.reset = _
    rw [List.map_map]
    rfl
  handles := List.nodup_nil
  addresses := List.nodup_nil
  slots := List.forall_mem_nil _
  originals := by
    intro f hf o ho
    obtain ⟨g, -, rfl⟩ := List.mem_map.1 hf
    cases ho

end Process

end BugInsight

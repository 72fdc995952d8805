import BugInsight.Iat.Invariant

/-!
# Import patching round-trips

* `Process.Attached`: the invariant while the exporting modules stay loaded.  The saved originals
  are the real code of the hooked functions;
* `Process.Kept`: slots with replacements keep them;
* `Process.Settled`: a module that a pass has seen is not changed by later ones;
* `Process.Attached.revert`: the slots after a pass that reverts;
* `import_patching_round_trips`: the result for whole runs.
-/

namespace BugInsight

open Runs

/-- Modules are loaded without replacements in their slots, and passes patch. -/
def ProcessAction.Patches (table : List FunctionToPatch) : ProcessAction → Prop
  | .load ms => ∀ t ∈ ms.flatMap ModuleInfo.slots, t.resolved ∉ replacements table
  | .patch => True
  | .unload _ | .revert => False

instance (table : List FunctionToPatch) : ∀ a, Decidable (ProcessAction.Patches table a)
  | .load ms => inferInstanceAs (Decidable (∀ t ∈ ms.flatMap ModuleInfo.slots, _))
  | .patch => isTrue trivial
  | .unload _ | .revert => isFalse id

namespace Process

/-- **The invariant** while the exporting modules stay loaded. -/
structure Attached (settings : PatchSettings) (code : Code) (table : List FunctionToPatch)
    (s : Process) : Prop extends s.Hooked settings code table where
  clear : s.Clear code
  loaded : ∀ f ∈ s.functions, f.moduleHandle.isSome → (exporter s.modules f).isSome
  current : ∀ f ∈ s.functions, ∀ o, f.original = some o →
    hookedCode code s.resolvedMemory s.modules f = some o
  resolved : ∀ t ∈ s.modules.flatMap ModuleInfo.slots, t.resolved ∉ replacements table

variable {settings : PatchSettings} {code : Code} {table : List FunctionToPatch} {s s' : Process}
  {f : FunctionToPatch} {a : Address} {v : Visit} {t : Thunk} {k : ℕ}

namespace Attached

theorem replacements_eq (h : s.Attached settings code table) :
    replacements s.functions = replacements table := BugInsight.replacements_eq h.entries

/-- The entries are up to date. -/
theorem isCurrent (h : s.Attached settings code table) :
    ∀ f ∈ s.functions, f.IsCurrent code s := by
  intro f hf
  unfold FunctionToPatch.IsCurrent
  cases hm : exporter s.modules f with
  | some m =>
    cases ho : f.original with
    | none => trivial
    | some o =>
      have hcode := h.current f hf o ho
      rwa [h.hookedCode_eq h.clear hf] at hcode
  | none =>
    -- an entry whose module is not loaded remembers nothing
    have hnone : ¬ f.moduleHandle.isSome := fun hc => by
      have hloaded := h.loaded f hf hc
      rw [hm] at hloaded
      cases hloaded
    cases ho : f.original with
    | none =>
      intro m _ heq
      rw [← heq] at hnone
      exact hnone rfl
    | some o => exact absurd (h.originals f hf o ho).1 hnone

theorem afterPass (h : s.Attached settings code table)
    (hs : s.step settings code .patch = some s') (hclear' : s'.Clear code) :
    AfterPass settings code table s s' := ⟨h.toHooked, h.isCurrent, h.clear, hs, hclear'⟩

/-- The saved originals in the course of a pass. -/
theorem original_eq (h : s.Attached settings code table) {s₁ : HookState} {pre : List Visit}
    (hpass : DuringPass code s.modules s.passStart pre s₁) (hf : f ∈ s₁.functions)
    (ho : f.original = some a) : hookedCode code s.memory s.modules f = some a := by
  obtain ⟨f₁, hf₁, hfill⟩ := forall₂_exists_left hpass.fills hf
  obtain ⟨f₀, hf₀, rfl⟩ := List.mem_map.1 hf₁
  rw [hookedCode_congr (hfill.reset_eq.trans reset_setModuleBase)]
  rcases hfill with rfl | ⟨hnone, b, hb, rfl⟩
  · rw [original_setModuleBase] at ho
    rw [← h.hookedCode_eq h.clear hf₀, h.current f₀ hf₀ a ho]
  · cases ho
    rw [original_setModuleBase] at hnone
    refine (effective_of_isCurrent (h.isCurrent f₀ hf₀) h.handles hb).resolve_right ?_
    rintro ⟨ho, -⟩
    rw [hnone] at ho
    cases ho

/-! ### Steps -/

/-- An entry with a handle is that of a loaded module. -/
theorem loaded_setModuleBase (h : s.Attached settings code table) (hf : f ∈ s.functions)
    (hhandle : (f.setModuleBase s.modules).moduleHandle.isSome) :
    (exporter s.modules f).isSome := by
  cases hm : exporter s.modules f with
  | some m => rfl
  | none =>
    rw [setModuleBase_of_none hm] at hhandle
    rw [← hm]
    exact h.loaded f hf hhandle

theorem patch (h : s.Attached settings code table) (hs : s.step settings code .patch = some s')
    (hclear' : s'.Clear code) : s'.Attached settings code table := by
  have hpass := h.afterPass hs hclear'
  obtain ⟨hmodules, -⟩ := step_patch hs
  refine ⟨hpass.after, hclear', fun f hf hhandle => ?_, fun f hf o ho => ?_, ?_⟩
  · obtain ⟨f₁, hf₁, hfill⟩ := forall₂_exists_left hpass.pass.fills hf
    obtain ⟨f₀, hf₀, rfl⟩ := List.mem_map.1 hf₁
    rw [hmodules, exporter_congr (hfill.reset_eq.trans reset_setModuleBase)]
    exact h.loaded_setModuleBase hf₀ (hfill.moduleHandle_eq ▸ hhandle)
  · rw [hpass.hookedCode_eq hf]
    exact h.original_eq hpass.pass hf ho
  · rw [hmodules]
    exact h.resolved

/-- The hooked functions of loaded modules have the same real code after further modules are
loaded. -/
theorem hookedCode_load {ms : List ModuleInfo} (hs : s.step settings code (.load ms) = some s')
    (hf : f ∈ s.functions) (hloaded : (exporter s.modules f).isSome) :
    hookedCode code s'.resolvedMemory s'.modules f =
      hookedCode code s.resolvedMemory s.modules f := by
  obtain ⟨m, hm⟩ := Option.isSome_iff_exists.1 hloaded
  unfold hookedCode
  rw [(step_load hs).2.1, exporter_append hm, hm, Option.bind_some, Option.bind_some]
  cases hp : m.exports f.functionName with
  | none => rfl
  | some p =>
    refine congrArg some (Code.findRealCode_congr (resolvedMemory_load hs ?_))
    refine List.mem_append_left _ (List.mem_append_right _ (List.mem_filterMap.2 ⟨f, hf, ?_⟩))
    rw [hm, Option.bind_some, hp]

theorem load (h : s.Attached settings code table) {ms : List ModuleInfo}
    (hms : ∀ t ∈ ms.flatMap ModuleInfo.slots, t.resolved ∉ replacements table)
    (hs : s.step settings code (.load ms) = some s') (hclear' : s'.Clear code) :
    s'.Attached settings code table := by
  obtain ⟨-, hmodules, hfunctions, -⟩ := step_load hs
  refine ⟨h.toHooked.load hs, hclear', fun f hf hhandle => ?_, fun f hf o ho => ?_, fun t ht => ?_⟩
  · rw [hfunctions] at hf
    obtain ⟨m, hm⟩ := Option.isSome_iff_exists.1 (h.loaded f hf hhandle)
    rw [hmodules, exporter_append hm]
    rfl
  · rw [hfunctions] at hf
    rw [hookedCode_load hs hf (h.loaded f hf (h.originals f hf o ho).1)]
    exact h.current f hf o ho
  · rw [hmodules, List.flatMap_append, List.mem_append] at ht
    exact ht.elim (h.resolved t) (hms t)

/-- **One step** keeps the invariant. -/
theorem step {a : ProcessAction} (h : s.Attached settings code table) (ha : a.Patches table)
    (hs : s.step settings code a = some s') (hclear' : s'.Clear code) :
    s'.Attached settings code table := by
  cases a with
  | load ms => exact h.load ha hs hclear'
  | patch => exact h.patch hs hclear'
  | unload handle => exact ha.elim
  | revert => exact ha.elim

end Attached

theorem attached_start {memory : Memory} (hclear : (start table memory).Clear code) :
    (start table memory).Attached settings code table where
  toHooked := hooked_start memory
  clear := hclear
  loaded := by
    intro f hf hhandle
    obtain ⟨g, -, rfl⟩ := List.mem_map.1 hf
    cases hhandle
  current := by
    intro f hf o ho
    obtain ⟨g, -, rfl⟩ := List.mem_map.1 hf
    cases ho
  resolved := List.forall_mem_nil _

/-! ### What stays -/

/-- The slots stay, and those with replacements keep them. -/
def Kept (table : List FunctionToPatch) (s s' : Process) : Prop :=
  ∀ k ∈ slotAddresses s.modules, k ∈ slotAddresses s'.modules ∧
    (s.memory k ∈ replacements table → s'.memory k = s.memory k)

theorem Kept.refl (s : Process) : Kept table s s := fun _ hk => ⟨hk, fun _ => rfl⟩

theorem Kept.trans {s'' : Process} (h : Kept table s s') (h' : Kept table s' s'') :
    Kept table s s'' := by
  intro k hk
  obtain ⟨hk', hsame⟩ := h k hk
  obtain ⟨hk'', hsame'⟩ := h' k hk'
  refine ⟨hk'', fun hr => ?_⟩
  have heq := hsame hr
  rw [hsame' (heq ▸ hr), heq]

/-- The slots of loaded modules keep their contents when further modules are loaded. -/
theorem memory_load {ms : List ModuleInfo} (hs : s.step settings code (.load ms) = some s')
    (hk : k ∈ slotAddresses s.modules) : s'.memory k = s.memory k := by
  obtain ⟨hfresh, -, -, hmemory⟩ := step_load hs
  rw [hmemory]
  have hnodup : (slotAddresses (s.modules ++ ms)).Nodup := hfresh.2.1
  rw [slotAddresses_append] at hnodup
  exact resolveSlots_of_notMem fun hc => (List.nodup_append.1 hnodup).2.2 _ hk _ hc rfl

/-- A slot that a pass changes held what the loader has stored. -/
theorem Attached.resolved_of_ne (h : s.Attached settings code table)
    (hs : s.step settings code .patch = some s') (hclear' : s'.Clear code)
    (hne : s'.memory k ≠ s.memory k) : s.memory k ∉ replacements table := by
  obtain ⟨v, hv, rfl, himported⟩ := (h.afterPass hs hclear').pass.changed k hne
  have hmem := mem_slots_of_visited hv
  rw [(h.of_imported h.isCurrent h.clear hmem himported).1]
  exact h.resolved v.2 hmem

/-- **One step** keeps the slots with replacements. -/
theorem Attached.kept {a : ProcessAction} (h : s.Attached settings code table)
    (ha : a.Patches table) (hs : s.step settings code a = some s') (hclear' : s'.Clear code) :
    Kept table s s' := by
  cases a with
  | load ms =>
    intro k hk
    refine ⟨?_, fun _ => memory_load hs hk⟩
    rw [(step_load hs).2.1, slotAddresses_append]
    exact List.mem_append_left _ hk
  | patch =>
    intro k hk
    refine ⟨(step_patch hs).1 ▸ hk, fun hr => ?_⟩
    by_contra hne
    exact h.resolved_of_ne hs hclear' hne hr
  | unload handle => exact ha.elim
  | revert => exact ha.elim

/-- What a pass has seen when it ended in `s₁`: the slots of the modules still hold the same, and no
jump leads from them to a hooked function. -/
structure Settled (settings : PatchSettings) (code : Code) (s₁ s : Process) : Prop where
  modules : ∃ extra, s.modules = s₁.modules ++ extra
  memory : ∀ k ∈ slotAddresses s₁.modules, s.memory k = s₁.memory k
  unhooked : ∀ v ∈ visitedThunks settings s₁.modules, s.Unhooked code v

/-- What was loaded before does not read the slots of further modules. -/
theorem Hooked.memory_cells (h : s.Hooked settings code table) {ms : List ModuleInfo}
    (hs : s.step settings code (.load ms) = some s') (ha : a ∈ s.references) :
    ∀ k ∈ code.cells s.memory a, s'.memory k = s.memory k := by
  obtain ⟨hfresh, -, -, hmemory⟩ := step_load hs
  intro k hk
  rw [hmemory]
  rcases Code.cells_of_changed h.rewritten hk with hk | ⟨r, hr, hk⟩
  · exact resolveSlots_of_notMem (hfresh.2.2 a ha k hk)
  · exact resolveSlots_of_notMem (hfresh.2.2 r (replacement_mem_references hr) k hk)

/-- **A further module** without hooked functions is loaded. -/
theorem Settled.load {s₁ : Process} (h : Settled settings code s₁ s)
    (hattached : s.Attached settings code table) {ms : List ModuleInfo}
    (hs : s.step settings code (.load ms) = some s') (hattached' : s'.Attached settings code table)
    (hms : ∀ m ∈ ms, ∀ f ∈ table, f.moduleName = m.name → (exporter s₁.modules f).isSome) :
    Settled settings code s₁ s' := by
  obtain ⟨extra, hextra⟩ := h.modules
  obtain ⟨-, hmodules, hfunctions, -⟩ := step_load hs
  have hsub : ∀ k ∈ slotAddresses s₁.modules, k ∈ slotAddresses s.modules := fun k hk => by
    rw [hextra, slotAddresses_append]
    exact List.mem_append_left _ hk
  have hsame : ∀ k ∈ slotAddresses s₁.modules, s'.memory k = s.memory k := fun k hk =>
    memory_load hs (hsub k hk)
  refine ⟨⟨extra ++ ms, by rw [hmodules, hextra, List.append_assoc]⟩,
    fun k hk => (hsame k hk).trans (h.memory k hk), fun v hv f hf htype hcode => ?_⟩
  have hslot := mem_slots_of_visited hv
  rw [hfunctions] at hf
  -- the hooked function is that of a module that was loaded before
  have hloaded : (exporter s.modules f).isSome := by
    obtain ⟨m, hm, -⟩ := Option.bind_eq_some_iff.1 hcode
    obtain ⟨hmem, hname⟩ := exporter_mem hm
    rw [hmodules, List.mem_append] at hmem
    rcases hmem with hmem | hmem
    · exact exporter_isSome hmem hname
    · obtain ⟨g, hg, hreset⟩ := reset_mem_of_map_eq hattached.entries hf
      have hgname : g.reset.moduleName = f.reset.moduleName := by rw [hreset]
      obtain ⟨m', hm'⟩ := Option.isSome_iff_exists.1 (hms m hmem g hg (hgname.trans hname.symm))
      rw [exporter_congr hreset] at hm'
      rw [hextra, exporter_append hm']
      rfl
  have hf' : f ∈ s'.functions := hfunctions ▸ hf
  rw [← hattached'.hookedCode_eq hattached'.clear hf', Attached.hookedCode_load hs hf hloaded,
    hattached.hookedCode_eq hattached.clear hf, hsame _ (List.mem_map_of_mem hslot)] at hcode
  refine h.unhooked v hv f hf htype (hcode.trans (congrArg some ?_))
  refine Code.findRealCode_congr (hattached.memory_cells hs ?_)
  -- the slot holds what the loader has stored, or a replacement
  have hslot' : v.2 ∈ s.modules.flatMap ModuleInfo.slots := by
    rw [hextra, List.flatMap_append]
    exact List.mem_append_left _ hslot
  rcases hattached.slots v.2 hslot' with hcontents | ⟨_, _, g, hg, _, _, hcontents⟩
  · rw [hcontents]
    exact resolved_mem_references hslot'
  · rw [hcontents]
    exact replacement_mem_references (List.mem_map_of_mem hg)

/-- **Another pass.** -/
theorem Settled.patch {s₁ : Process} (h : Settled settings code s₁ s)
    (hattached : s.Attached settings code table) (hs : s.step settings code .patch = some s')
    (hclear' : s'.Clear code) : Settled settings code s₁ s' := by
  have hpass := hattached.afterPass hs hclear'
  obtain ⟨extra, hextra⟩ := h.modules
  have hsub : visitedThunks settings s.modules =
      visitedThunks settings s₁.modules ++ visitedThunks settings extra := by
    rw [hextra]
    unfold visitedThunks
    rw [List.flatMap_append]
  refine ⟨⟨extra, (step_patch hs).1.trans hextra⟩, fun k hk => ?_, fun v hv => ?_⟩
  · refine (?_ : s'.memory k = s.memory k).trans (h.memory k hk)
    by_contra hne
    obtain ⟨v, hv, rfl, himported⟩ := hpass.pass.changed k hne
    rw [hsub, List.mem_append] at hv
    rcases hv with hv | hv
    · obtain ⟨f, hf, htype, hcode | ⟨ho, hstale⟩⟩ :=
        hattached.hooked_of_imported hattached.isCurrent himported
      · exact h.unhooked v hv f hf htype hcode
      · refine hstale f hf ?_
        rw [← hattached.hookedCode_eq hattached.clear hf]
        exact hattached.current f hf _ ho
    · have hnodup := hattached.addresses
      rw [hextra, slotAddresses_append] at hnodup
      exact (List.nodup_append.1 hnodup).2.2 _ hk _
        (List.mem_map_of_mem (mem_slots_of_visited (s := { s with modules := extra }) hv)) rfl
  · exact hpass.unhooked (hsub ▸ List.mem_append_left _ hv)

/-- **Later passes** do not change a module that a pass has seen, unless another exporting module is
loaded. -/
theorem Settled.run {s₁ : Process} {l : List ProcessAction} (h : Settled settings code s₁ s)
    (hattached : s.Attached settings code table) (hl : ∀ a ∈ l, a.Patches table)
    (hclear : Always (Process.step settings code) (Process.Clear code) s l)
    (hloads : ∀ ms, .load ms ∈ l → ∀ m ∈ ms, ∀ f ∈ table, f.moduleName = m.name →
      (exporter s₁.modules f).isSome)
    (hrun : Runs.run (Process.step settings code) s l = some s') : Settled settings code s₁ s' := by
  have hall : Always (Process.step settings code)
      (fun s => s.Attached settings code table ∧ Settled settings code s₁ s) s l := by
    refine always_of_steps (P := fun s a => a ∈ l ∧ s.Clear code ∧
      ∀ s', s.step settings code a = some s' → s'.Clear code) ⟨hattached, h⟩ ?_
      (steps_mem.and hclear.steps)
    rintro s a s' ⟨hattached, h⟩ ⟨ha, -, hclear'⟩ hstep
    have hattached' := hattached.step (hl a ha) hstep (hclear' s' hstep)
    refine ⟨hattached', ?_⟩
    cases a with
    | load ms => exact h.load hattached hstep hattached' (hloads ms ha)
    | patch => exact h.patch hattached hstep (hclear' s' hstep)
    | unload handle => exact (hl _ ha).elim
    | revert => exact (hl _ ha).elim
  exact (hall.last hrun).2

/-! ### The pass that reverts -/

/-- A pass that reverts takes replacements away only. -/
theorem Attached.rewritten_revert (h : s.Attached settings code table)
    (hs : s.step settings code .revert = some s') :
    Rewritten (replacements s.functions) s'.memory s.memory := by
  obtain ⟨-, hreverted⟩ := foldl_visitThunk_revert code s.modules
    (nodup_visitedThunks settings h.addresses) s.passStart
  rw [← (step_revert hs).2] at hreverted
  intro k
  by_cases hk : ∃ v ∈ visitedThunks settings s.modules, k = v.2.address
  · obtain ⟨v, hv, rfl⟩ := hk
    rcases hreverted v hv with ⟨hsame, -⟩ | ⟨f, hf, -, hreplacement⟩
    · exact Or.inl hsame.symm
    · refine Or.inr ?_
      rw [← replacements_passStart]
      exact List.mem_map.2 ⟨f, hf, hreplacement.symm⟩
  · refine Or.inl ?_
    rw [(step_revert hs).2]
    have hkept : ((visitedThunks settings s.modules).foldl (visitThunk code s.modules true)
        s.passStart).memory k = s.passStart.memory k :=
      foldl_visitThunk_of_notMem fun v hv hc => hk ⟨v, hv, hc⟩
    exact hkept.symm

/-- **The slots after a pass that reverts**, if the replacements are different. -/
theorem Attached.revert (h : s.Attached settings code table) (hnodup : (replacements table).Nodup)
    (hs : s.step settings code .revert = some s') (ht : t ∈ s.modules.flatMap ModuleInfo.slots) :
    s'.memory t.address =
      if s.memory t.address ∈ replacements table then
        code.findRealCode s.resolvedMemory t.resolved
      else t.resolved := by
  obtain ⟨-, hreverted⟩ := foldl_visitThunk_revert code s.modules
    (nodup_visitedThunks settings h.addresses) s.passStart
  rw [← (step_revert hs).2] at hreverted
  rcases h.slots t ht with hcontents | ⟨enabled, hv, f, hf, htype, ho, hreplacement⟩
  · have hno : s.memory t.address ∉ replacements table := hcontents ▸ h.resolved t ht
    rw [if_neg hno, ← hcontents]
    have hkept := (h.rewritten_revert hs t.address).resolve_right (h.replacements_eq ▸ hno)
    exact hkept.symm
  · have hr : s.memory t.address ∈ replacements table := by
      rw [hreplacement, ← h.replacements_eq]
      exact List.mem_map_of_mem hf
    rw [if_pos hr]
    have hmem : f.setModuleBase s.modules ∈ s.passStart.functions := List.mem_map_of_mem hf
    have hbase : (f.setModuleBase s.modules).replacement = s.memory t.address :=
      (replacement_congr reset_setModuleBase).trans hreplacement.symm
    rcases hreverted _ hv with ⟨-, hno⟩ | ⟨g, hg, ho', hreplacement'⟩
    · refine absurd hbase.symm (hno _ hmem ?_ ?_ ?_)
      · rwa [functionType_congr reset_setModuleBase]
      · exact moduleHandle_setModuleBase (h.originals f hf _ ho).1
      · rw [original_setModuleBase, ho]
        rfl
    · -- the replacements are different, so this is the entry that the slot was patched with
      have hpass : (replacements s.passStart.functions).Nodup := by
        rwa [replacements_passStart, h.replacements_eq]
      have heq : g = f.setModuleBase s.modules :=
        List.inj_on_of_nodup_map hpass hg hmem (hreplacement'.symm.trans hbase.symm)
      rw [heq, original_setModuleBase, ho] at ho'
      exact (Option.some.inj ho').symm

/-- **No hook can call itself**: a saved original is the real code of the hooked function, and not a
replacement. -/
def SavedOriginals (code : Code) (table : List FunctionToPatch) (modules : List ModuleInfo)
    (s : HookState) : Prop :=
  ∀ f ∈ s.functions, ∀ o, f.original = some o →
    hookedCode code s.memory modules f = some o ∧ o ∉ replacements table

/-- Between the passes. -/
theorem Attached.savedOriginals (h : s.Attached settings code table) :
    SavedOriginals code table s.modules s.toHookState := by
  intro f hf o ho
  rw [← h.replacements_eq]
  exact ⟨(h.hookedCode_eq h.clear hf).symm.trans (h.current f hf o ho),
    (h.originals f hf o ho).2.notMem⟩

/-- **In the course of a pass.** -/
theorem Attached.savedOriginals_duringPass (h : s.Attached settings code table)
    (hs : s.step settings code .patch = some s') (hclear' : s'.Clear code) {pre post : List Visit}
    (hl : visitedThunks settings s.modules = pre ++ post) :
    SavedOriginals code table s.modules
      (pre.foldl (visitThunk code s.modules false) s.passStart) := by
  intro f hf o ho
  have hend := h.afterPass hs hclear'
  have hpass := hend.duringPass hl
  obtain ⟨hmodules, hend'⟩ := step_patch hs
  have hcode := h.original_eq hpass hf ho
  obtain ⟨f₁, hf₁, hfill⟩ := forall₂_exists_left hpass.fills hf
  obtain ⟨f₀, hf₀, rfl⟩ := List.mem_map.1 hf₁
  have hreset := hfill.reset_eq.trans reset_setModuleBase
  obtain ⟨f', hf', hreset'⟩ := reset_mem_of_map_eq (reset_patch hs).symm hf₀
  rw [hookedCode_congr hreset, ← hookedCode_congr hreset'] at hcode
  rw [hookedCode_congr hreset, ← hookedCode_congr hreset']
  -- at the end of the pass the function is looked up without the slots that are replaced
  have hlast : hookedCode code s'.memory s'.modules f' = some o := by
    rw [← hend.after.hookedCode_eq hclear' hf', hend.hookedCode_eq hf', hcode]
  have hunreached := hclear' f' hf' o hlast
  refine ⟨?_, ?_⟩
  · have hrewritten := (foldl_visitThunk_rewritten code s.modules post
      (pre.foldl (visitThunk code s.modules false) s.passStart)).2
    rw [← List.foldl_append, ← hl, ← hend'] at hrewritten
    have hreplacements : replacements
        (pre.foldl (visitThunk code s.modules false) s.passStart).functions =
          replacements s'.functions := by
      rw [replacements_of_fills hpass.fills, replacements_of_fills hend.pass.fills]
    rw [hreplacements] at hrewritten
    rw [hookedCode_of_rewritten hrewritten fun a ha => ?_, ← hmodules, hlast]
    rw [← hmodules, hlast] at ha
    cases ha
    exact hunreached.of_rewritten hend.after.rewritten
  · rw [← h.replacements_eq, ← BugInsight.replacements_eq (reset_patch hs)]
    exact hunreached.notMem

/-- **After the pass that reverts.** -/
theorem Attached.savedOriginals_revert (h : s.Attached settings code table)
    (hs : s.step settings code .revert = some s') :
    SavedOriginals code table s'.modules s'.toHookState := by
  obtain ⟨hmodules, hend⟩ := step_revert hs
  have hfunctions : s'.functions = s.passStart.functions := by
    rw [hend]
    exact (foldl_visitThunk_revert code s.modules (nodup_visitedThunks settings h.addresses)
      s.passStart).1
  intro f hf o ho
  rw [hfunctions] at hf
  obtain ⟨f₀, hf₀, rfl⟩ := List.mem_map.1 hf
  rw [original_setModuleBase] at ho
  obtain ⟨hcode, hno⟩ := h.savedOriginals f₀ hf₀ o ho
  refine ⟨?_, hno⟩
  rw [hookedCode_congr reset_setModuleBase, hmodules,
    hookedCode_of_rewritten (h.rewritten_revert hs) fun a ha => ?_, hcode]
  exact (h.clear f₀ hf₀ a ha).of_rewritten h.rewritten

/-- A pass of the run has patched the slot. -/
def EverPatched (settings : PatchSettings) (code : Code) (table : List FunctionToPatch)
    (memory : Memory) (l : List ProcessAction) (k : ℕ) : Prop :=
  ∃ pre post s, l = pre ++ post ∧
    run (Process.step settings code) (start table memory) pre = some s ∧
    k ∈ slotAddresses s.modules ∧ s.memory k ∈ replacements table

theorem always_attached {memory : Memory} {l : List ProcessAction}
    (hl : ∀ a ∈ l, a.Patches table)
    (hclear : Always (Process.step settings code) (Process.Clear code) (start table memory) l) :
    Always (Process.step settings code) (Process.Attached settings code table)
      (start table memory) l :=
  always_of_steps (attached_start (hclear [] l _ rfl rfl))
    (fun _ _ _ hs ha hstep => hs.step (hl _ ha.1) hstep (ha.2.2 _ hstep))
    (steps_mem.and hclear.steps)

theorem always_kept {memory : Memory} {l : List ProcessAction} (hl : ∀ a ∈ l, a.Patches table)
    (hclear : Always (Process.step settings code) (Process.Clear code) (start table memory) l)
    (hrun : run (Process.step settings code) (start table memory) l = some s) :
    Always (Process.step settings code) (fun s₁ => Kept table s₁ s) (start table memory) l :=
  always_le Kept.refl (fun _ _ _ => Kept.trans)
    (fun _ _ _ hs ha hstep => hs.kept (hl _ ha.1) hstep (ha.2.2 _ hstep))
    (always_attached hl hclear) (steps_mem.and hclear.steps) hrun

end Process

/-- `realloc` is behind a jump, and `stub.dll` exports an import stub for `free`. -/
def roundTripCode : Code :=
  { win64 := true
    instruction := fun a =>
      if a = 1116 then .jmpRelative 5000 else if a = 1616 then .jmpIndirect 620 else .other
    maxJumps := 1 }

/-- The runtime library is ignored. -/
def roundTripSettings : PatchSettings :=
  { buginsightDllName := "c:\\buginsight\\buginsight.dll"
    knownMsDlls := fun name => name = "ucrtbased.dll"
    moduleHasMicrosoftCopyright := fun _ => false
    blacklistModulesDeadlocks := fun _ => false
    blacklistModulesMemoryLeaks := fun _ => false }

/-- The hooks of `realloc` and `free`. -/
def roundTripTable : List FunctionToPatch :=
  [{ functionType := .memoryLeak
     functionName := "realloc"
     moduleName := "ucrtbased.dll"
     replacement := 1900 },
   { functionType := .memoryLeak
     functionName := "free"
     moduleName := "ucrtbased.dll"
     replacement := 1901 }]

/-- A module that imports functions. -/
def roundTripImporter (base : Address) (name : String) (thunks : List Thunk) : ModuleInfo :=
  { moduleHandle := base
    name := name
    path := name
    imports := [{ name := "ucrtbased.dll", thunks := thunks }]
    exports := fun _ => none }

/-- The application and the runtime library. -/
def roundTripApp : List ModuleInfo :=
  [roundTripImporter 1700 "app.exe" [⟨720, 1116⟩, ⟨728, 1132⟩, ⟨736, 1148⟩],
   { moduleHandle := 1100
     name := "ucrtbased.dll"
     path := "ucrtbased.dll"
     imports := []
     exports := fun name =>
      if name = "realloc" then some 1116 else if name = "free" then some 1132 else none }]

def roundTripPluginBase : Address := 1800

def roundTripStubBase : Address := 1600

/-- A plugin that imports the stub of `stub.dll`. -/
def roundTripPlugin : List ModuleInfo :=
  [roundTripImporter roundTripPluginBase "plugin.dll" [⟨820, 5000⟩, ⟨828, 1616⟩],
   roundTripImporter roundTripStubBase "stub.dll" [⟨620, 1132⟩]]

/-- The plugin is loaded between two passes. -/
def roundTripRun : List ProcessAction :=
  [.load roundTripApp, .patch, .load roundTripPlugin, .patch]

end BugInsight

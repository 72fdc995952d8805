import BugInsight.Iat.Pass

/-!
# Exporting modules

* `resolveSlots_load`, `resolveSlots_unload`: the slots as the loader has set them up, after a
  module is loaded or unloaded;
* `hookedCode`: the real code of a hooked function, in the loaded module that exports it;
* `effective_setModuleBase`: during a pass, an entry of the hook table is compared with this code,
  if its saved original is not another one.
-/

namespace BugInsight

/-! ### The slots as they were set up -/

section Slots

variable {modules ms : List ModuleInfo} {memory memory' : Memory} {t : Thunk} {k : ℕ}

/-- The addresses of the slots. -/
def slotAddresses (modules : List ModuleInfo) : List ℕ :=
  (modules.flatMap ModuleInfo.slots).map Thunk.address

theorem slotAddresses_append :
    slotAddresses (modules ++ ms) = slotAddresses modules ++ slotAddresses ms := by
  unfold slotAddresses
  rw [List.flatMap_append, List.map_append]

theorem resolveSlots_of_mem (hnodup : (slotAddresses modules).Nodup)
    (ht : t ∈ modules.flatMap ModuleInfo.slots) :
    resolveSlots modules memory t.address = t.resolved := by
  unfold resolveSlots
  cases hfind : (modules.flatMap ModuleInfo.slots).find? fun u => u.address = t.address with
  | none => exact absurd (List.find?_eq_none.1 hfind t ht) (by simp)
  | some u =>
    have hu := List.mem_of_find?_eq_some hfind
    have haddress : u.address = t.address := by simpa using List.find?_some hfind
    exact congrArg Thunk.resolved (List.inj_on_of_nodup_map hnodup hu ht haddress)

theorem resolveSlots_of_notMem (hk : k ∉ slotAddresses modules) :
    resolveSlots modules memory k = memory k := by
  unfold resolveSlots
  rw [List.find?_eq_none.2 fun t ht => ?_]
  exact fun haddress => hk (List.mem_map.2 ⟨t, ht, of_decide_eq_true haddress⟩)

/-- What the slots hold does not matter. -/
theorem resolveSlots_congr (h : ∀ k, k ∉ slotAddresses modules → memory' k = memory k) :
    resolveSlots modules memory' = resolveSlots modules memory := by
  funext k
  unfold resolveSlots
  cases hfind : (modules.flatMap ModuleInfo.slots).find? fun u => u.address = k with
  | some u => rfl
  | none =>
    refine h k fun hk => ?_
    obtain ⟨t, ht, rfl⟩ := List.mem_map.1 hk
    exact absurd (List.find?_eq_none.1 hfind t ht) (by simp)

/-- More modules are loaded. -/
theorem resolveSlots_load (hnodup : (slotAddresses (modules ++ ms)).Nodup) :
    resolveSlots (modules ++ ms) (resolveSlots ms memory) =
      resolveSlots ms (resolveSlots modules memory) := by
  funext k
  by_cases hk : k ∈ slotAddresses (modules ++ ms)
  · obtain ⟨t, ht, rfl⟩ := List.mem_map.1 hk
    rw [resolveSlots_of_mem hnodup ht]
    rw [slotAddresses_append] at hnodup
    obtain ⟨hold, hnew, hdisjoint⟩ := List.nodup_append.1 hnodup
    rw [List.flatMap_append, List.mem_append] at ht
    rcases ht with ht | ht
    · have hne : t.address ∉ slotAddresses ms := fun hc =>
        hdisjoint _ (List.mem_map_of_mem ht) _ hc rfl
      rw [resolveSlots_of_notMem hne, resolveSlots_of_mem hold ht]
    · rw [resolveSlots_of_mem hnew ht]
  · rw [resolveSlots_of_notMem hk]
    rw [slotAddresses_append, List.mem_append, not_or] at hk
    rw [resolveSlots_of_notMem hk.2, resolveSlots_of_notMem hk.2, resolveSlots_of_notMem hk.1]

theorem slotAddresses_filter_sublist (modules : List ModuleInfo) (p : ModuleInfo → Bool) :
    (slotAddresses (modules.filter p)).Sublist (slotAddresses modules) := by
  unfold slotAddresses
  refine List.Sublist.map _ ?_
  induction modules with
  | nil => exact List.Sublist.refl _
  | cons m modules ih =>
    rw [List.filter_cons, List.flatMap_cons]
    split_ifs
    · exact ih.append_left _
    · exact ih.trans (List.sublist_append_right _ _)

/-- A module is unloaded. -/
theorem resolveSlots_unload (hnodup : (slotAddresses modules).Nodup) {handle : Address} :
    resolveSlots (modules.filter fun m => m.moduleHandle ≠ handle)
      (resolveSlots (modules.filter fun m => m.moduleHandle = handle) memory) =
      resolveSlots modules memory := by
  have hmem : ∀ t, t ∈ modules.flatMap ModuleInfo.slots ↔
      t ∈ (modules.filter fun m => m.moduleHandle ≠ handle).flatMap ModuleInfo.slots ∨
        t ∈ (modules.filter fun m => m.moduleHandle = handle).flatMap ModuleInfo.slots := by
    intro t
    simp only [List.mem_flatMap, List.mem_filter, decide_eq_true_eq]
    constructor
    · rintro ⟨m, hm, ht⟩
      by_cases hh : m.moduleHandle = handle
      · exact Or.inr ⟨m, ⟨hm, hh⟩, ht⟩
      · exact Or.inl ⟨m, ⟨hm, hh⟩, ht⟩
    · rintro (⟨m, ⟨hm, -⟩, ht⟩ | ⟨m, ⟨hm, -⟩, ht⟩)
      · exact ⟨m, hm, ht⟩
      · exact ⟨m, hm, ht⟩
  have hkept := (slotAddresses_filter_sublist modules fun m =>
    decide (m.moduleHandle ≠ handle)).nodup hnodup
  have hgone := (slotAddresses_filter_sublist modules fun m =>
    decide (m.moduleHandle = handle)).nodup hnodup
  funext k
  by_cases hk : k ∈ slotAddresses (modules.filter fun m => m.moduleHandle ≠ handle)
  · obtain ⟨t, ht, rfl⟩ := List.mem_map.1 hk
    rw [resolveSlots_of_mem hkept ht, resolveSlots_of_mem hnodup ((hmem t).2 (Or.inl ht))]
  rw [resolveSlots_of_notMem hk]
  by_cases hk' : k ∈ slotAddresses (modules.filter fun m => m.moduleHandle = handle)
  · obtain ⟨t, ht, rfl⟩ := List.mem_map.1 hk'
    rw [resolveSlots_of_mem hgone ht, resolveSlots_of_mem hnodup ((hmem t).2 (Or.inr ht))]
  · rw [resolveSlots_of_notMem hk', resolveSlots_of_notMem]
    intro hc
    obtain ⟨t, ht, rfl⟩ := List.mem_map.1 hc
    exact ((hmem t).1 ht).elim (fun ht => hk (List.mem_map_of_mem ht)) fun ht =>
      hk' (List.mem_map_of_mem ht)

end Slots

/-! ### Hooked functions -/

section Hooked

/-- The real code of the hooked function. -/
def hookedCode (code : Code) (memory : Memory) (modules : List ModuleInfo) (f : FunctionToPatch) :
    Option Address :=
  (exporter modules f).bind fun m => (m.exports f.functionName).map (code.findRealCode memory)

variable {code : Code} {memory : Memory} {modules : List ModuleInfo} {m : ModuleInfo}
  {f : FunctionToPatch}

theorem exporter_mem (h : exporter modules f = some m) : m ∈ modules ∧ m.name = f.moduleName :=
  ⟨List.mem_of_find?_eq_some h, by simpa using List.find?_some h⟩

theorem exporter_isSome (hm : m ∈ modules) (hname : m.name = f.moduleName) :
    (exporter modules f).isSome := by
  refine Option.isSome_iff_ne_none.2 fun hnone => ?_
  exact absurd hname (by simpa using List.find?_eq_none.1 hnone m hm)

theorem exporter_append (h : exporter modules f = some m) (modules' : List ModuleInfo) :
    exporter (modules ++ modules') f = some m := by
  unfold exporter at h ⊢
  rw [List.find?_append, h, Option.some_or]

/-- Modules are found by their base addresses. -/
theorem find?_moduleHandle (h : (modules.map ModuleInfo.moduleHandle).Nodup) (hm : m ∈ modules) :
    modules.find? (fun m' => m'.moduleHandle = m.moduleHandle) = some m := by
  cases hfind : modules.find? fun m' => m'.moduleHandle = m.moduleHandle with
  | none => exact absurd (List.find?_eq_none.1 hfind m hm) (by simp)
  | some m' =>
    have hhandle : m'.moduleHandle = m.moduleHandle := by simpa using List.find?_some hfind
    have hm' := List.mem_of_find?_eq_some hfind
    rw [List.inj_on_of_nodup_map h hm' hm hhandle]

theorem getProcAddress_of_mem (h : (modules.map ModuleInfo.moduleHandle).Nodup) (hm : m ∈ modules)
    (name : String) : getProcAddress modules m.moduleHandle name = m.exports name := by
  unfold getProcAddress
  rw [find?_moduleHandle h hm, Option.bind_some]

/-- An entry whose module is loaded. -/
theorem setModuleBase_of_exporter (hm : exporter modules f = some m) :
    f.setModuleBase modules = { f with moduleHandle := some m.moduleHandle } := by
  unfold FunctionToPatch.setModuleBase getModuleBaseAddress
  rw [show modules.find? (fun m => m.name = f.moduleName) = some m from hm]
  rfl

/-- An entry whose module is not loaded. -/
theorem setModuleBase_of_none (hm : exporter modules f = none) : f.setModuleBase modules = f := by
  unfold FunctionToPatch.setModuleBase getModuleBaseAddress
  rw [show modules.find? (fun m => m.name = f.moduleName) = none from hm]
  rfl

/-- **What an entry is compared with** in a pass, if its module is loaded and the saved original is
not one of another module. -/
theorem effective_setModuleBase (h : (modules.map ModuleInfo.moduleHandle).Nodup)
    (hm : exporter modules f = some m)
    (ho : ∀ o, f.original = some o → hookedCode code memory modules f = some o) :
    effective code modules memory (f.setModuleBase modules) = hookedCode code memory modules f := by
  rw [setModuleBase_of_exporter hm]
  unfold effective
  rw [Option.bind_some]
  cases hnone : f.original with
  | none =>
    rw [getProcAddress_of_mem h (exporter_mem hm).1]
    unfold hookedCode
    rw [hm]
    rfl
  | some o => exact (ho o hnone).symm

end Hooked

end BugInsight

import BugInsight.Iat.Patching

/-!
# One pass of the import patching

`find_real_code` reads slots that the same pass rewrites, so the result of a pass depends on the
order of the slots.  What the entries of the hook table are compared with does not, if no jump of a
hooked function goes through a slot that gets a replacement.

* `visitedThunks`, `patchLoadedModules_eq_foldl`: a pass is one loop over the slots;
* `effective`, `Imported`: what an entry is compared with, and the slots that the table matches;
* `DuringPass`: what holds in the course of a pass.  A slot that is patched was matched before the
  pass, and a slot that has been visited is not matched any more;
* `patchLoadedModules_revert`: the slots after a pass that reverts.
-/

namespace BugInsight

/-! ### The slots in their order -/

/-- A slot that a pass visits, with the function types that are enabled for its module. -/
abbrev Visit := List FunctionType × Thunk

/-- The slots that a pass visits. -/
def visitedThunks (settings : PatchSettings) (modules : List ModuleInfo) : List Visit :=
  modules.flatMap fun m =>
    if isSkipped settings m then []
    else m.imports.flatMap fun d =>
      if d.name = settings.buginsightDllName then []
      else d.thunks.map fun t => (enabledFunctionTypes settings m.name, t)

/-- The body of the loop. -/
def visitThunk (code : Code) (modules : List ModuleInfo) (revert : Bool) (s : HookState)
    (v : Visit) : HookState :=
  patchThunk code modules revert v.1 s v.2

section Order

variable {settings : PatchSettings} {code : Code} {modules : List ModuleInfo} {revert : Bool}
  {s : HookState} {v : Visit}

/-- A pass is one loop over the slots. -/
theorem patchLoadedModules_eq_foldl : patchLoadedModules settings code modules revert s =
    (visitedThunks settings modules).foldl (visitThunk code modules revert)
      (setModuleBases modules s) := by
  unfold patchLoadedModules visitedThunks
  rw [List.foldl_flatMap]
  congr 1
  funext s m
  unfold patchModule
  split_ifs
  · rfl
  rw [patchIat, List.foldl_flatMap]
  congr 1
  funext s d
  unfold patchImports
  split_ifs
  · rfl
  · rw [List.foldl_map]
    rfl

/-- The slots that a pass can change. -/
def ModuleInfo.Patchable (settings : PatchSettings) (m : ModuleInfo) (d : ImportDescriptor) :
    Prop :=
  isSkipped settings m = false ∧ d.name ≠ settings.buginsightDllName

instance (m : ModuleInfo) (d : ImportDescriptor) : Decidable (m.Patchable settings d) :=
  inferInstanceAs (Decidable (_ ∧ _))

theorem mem_visitedThunks : v ∈ visitedThunks settings modules ↔
    ∃ m ∈ modules, ∃ d ∈ m.imports, m.Patchable settings d ∧ v.2 ∈ d.thunks ∧
      v.1 = enabledFunctionTypes settings m.name := by
  unfold visitedThunks ModuleInfo.Patchable
  simp only [List.mem_flatMap]
  refine exists_congr fun m => and_congr_right fun hm => ?_
  cases hskip : isSkipped settings m with
  | true => simp
  | false =>
    simp only [Bool.false_eq_true, if_false, List.mem_flatMap]
    refine exists_congr fun d => and_congr_right fun hd => ?_
    by_cases hname : d.name = settings.buginsightDllName
    · simp [hname]
    · simp only [hname, if_false, List.mem_map, true_and, not_false_eq_true, ne_eq]
      constructor
      · rintro ⟨t, ht, rfl⟩
        exact ⟨ht, rfl⟩
      · rintro ⟨ht, henabled⟩
        exact ⟨v.2, ht, by rw [← henabled]⟩

theorem visitedThunks_sublist :
    ((visitedThunks settings modules).map Prod.snd).Sublist
      (modules.flatMap ModuleInfo.slots) := by
  have hflat : ∀ {α : Type} (l : List α) (f g : α → List Thunk), (∀ a, (f a).Sublist (g a)) →
      (l.flatMap f).Sublist (l.flatMap g) := by
    intro α l f g h
    induction l with
    | nil => exact List.Sublist.refl _
    | cons a l ih => exact (h a).append ih
  unfold visitedThunks
  rw [List.map_flatMap]
  refine hflat _ _ _ fun m => ?_
  split_ifs
  · exact List.nil_sublist _
  rw [List.map_flatMap]
  refine hflat _ _ _ fun d => ?_
  split_ifs
  · exact List.nil_sublist _
  · rw [List.map_map]
    exact (List.map_id d.thunks).symm ▸ List.Sublist.refl _

/-- The slots of a pass have different addresses. -/
theorem nodup_visitedThunks (settings : PatchSettings)
    (h : ((modules.flatMap ModuleInfo.slots).map Thunk.address).Nodup) :
    ((visitedThunks settings modules).map fun v => v.2.address).Nodup := by
  have hsub : ((visitedThunks settings modules).map Prod.snd).Sublist
      (modules.flatMap ModuleInfo.slots) := visitedThunks_sublist
  exact (List.map_map ▸ hsub.map Thunk.address).nodup h

end Order

/-! ### One slot -/

/-- The first entry that satisfies a condition is used. -/
theorem patchFirst_cases (revert : Bool) (p : FunctionToPatch → Bool) (t : Thunk)
    (func : Option Address) (memory : Memory) (fs : List FunctionToPatch) :
    (∀ f ∈ fs, p f = false) ∧ patchFirst revert p t func memory fs = (memory, fs) ∨
      ∃ fs₁ f fs₂, fs = fs₁ ++ f :: fs₂ ∧ p f = true ∧ patchFirst revert p t func memory fs =
        ((patchFunction revert t func memory f).1,
          fs₁ ++ (patchFunction revert t func memory f).2 :: fs₂) := by
  induction fs with
  | nil => exact Or.inl ⟨List.forall_mem_nil _, rfl⟩
  | cons f fs ih =>
    rw [patchFirst]
    cases hp : p f with
    | true => exact Or.inr ⟨[], f, fs, rfl, hp, rfl⟩
    | false =>
      rw [if_neg Bool.false_ne_true]
      rcases ih with ⟨hnone, heq⟩ | ⟨fs₁, g, fs₂, rfl, hg, heq⟩
      · exact Or.inl ⟨List.forall_mem_cons.2 ⟨hp, hnone⟩, by rw [heq]⟩
      · exact Or.inr ⟨f :: fs₁, g, fs₂, rfl, hg, by rw [heq]; rfl⟩

section Thunk

variable (code : Code) (modules : List ModuleInfo) (memory : Memory)

/-- The real code that an entry of the hook table is compared with. -/
def effective (f : FunctionToPatch) : Option Address :=
  f.moduleHandle.bind fun handle =>
    match f.original with
    | some original => some original
    | none => (getProcAddress modules handle f.functionName).map (code.findRealCode memory)

/-- The saved original is filled in with the real code, if there is none yet. -/
def Fills (f f' : FunctionToPatch) : Prop :=
  f' = f ∨ f.original = none ∧ ∃ a, effective code modules memory f = some a ∧
    f' = { f with original := some a }

/-- The table matches the slot. -/
def Imported (s : HookState) (v : Visit) : Prop :=
  ∃ f ∈ s.functions, f.functionType ∈ v.1 ∧
    effective code modules s.memory f = some (code.findRealCode s.memory (s.memory v.2.address))

instance (s : HookState) (v : Visit) : Decidable (Imported code modules s v) :=
  inferInstanceAs (Decidable (∃ f ∈ s.functions, _))

variable {code modules memory} {f f' f'' : FunctionToPatch} {enabled : List FunctionType}
  {t : Thunk} {func : Address} {s : HookState} {v : Visit}

theorem isImportedBy_patch :
    f.isImportedBy code modules false enabled memory t (some func) = true ↔
      f.functionType ∈ enabled ∧ effective code modules memory f = some func := by
  unfold FunctionToPatch.isImportedBy effective
  by_cases htype : f.functionType ∈ enabled
  · cases f.moduleHandle with
    | none => simp [htype]
    | some handle =>
      cases f.original with
      | some original => simp [htype]
      | none => cases hp : getProcAddress modules handle f.functionName <;> simp [htype, hp]
  · simp [htype]

/-- In a pass that reverts, an entry without a saved original is not found. -/
theorem isImportedBy_revert : f.isImportedBy code modules true enabled memory t none = true ↔
    f.functionType ∈ enabled ∧ f.moduleHandle.isSome ∧ f.original.isSome ∧
      memory t.address = f.replacement := by
  unfold FunctionToPatch.isImportedBy
  by_cases htype : f.functionType ∈ enabled
  · cases f.moduleHandle with
    | none => simp [htype]
    | some handle =>
      cases f.original with
      | some original => simp [htype]
      | none => cases hp : getProcAddress modules handle f.functionName <;> simp [htype, hp]
  · simp [htype]

/-- A saved original is what the entry is compared with. -/
theorem effective_eq_original {original : Address} (ho : f.original = some original)
    (h : effective code modules memory f = some func) : func = original := by
  obtain ⟨handle, -, h⟩ := Option.bind_eq_some_iff.1 h
  rw [ho] at h
  cases h
  rfl

theorem Fills.replacement_eq (h : Fills code modules memory f f') :
    f'.replacement = f.replacement := by
  rcases h with rfl | ⟨-, a, -, rfl⟩
  · rfl
  · rfl

theorem Fills.functionType_eq (h : Fills code modules memory f f') :
    f'.functionType = f.functionType := by
  rcases h with rfl | ⟨-, a, -, rfl⟩
  · rfl
  · rfl

theorem Fills.moduleHandle_eq (h : Fills code modules memory f f') :
    f'.moduleHandle = f.moduleHandle := by
  rcases h with rfl | ⟨-, a, -, rfl⟩
  · rfl
  · rfl

theorem Fills.eq_of_isSome (h : Fills code modules memory f f') (ho : f.original.isSome) :
    f' = f := by
  rcases h with heq | ⟨hnone, -⟩
  · exact heq
  · rw [hnone] at ho
    cases ho

theorem Fills.trans (h : Fills code modules memory f f') (h' : Fills code modules memory f' f'') :
    Fills code modules memory f f'' := by
  rcases h with rfl | ⟨hnone, a, ha, rfl⟩
  · exact h'
  · rw [h'.eq_of_isSome rfl]
    exact Or.inr ⟨hnone, a, ha, rfl⟩

instance : Std.Refl (Fills code modules memory) := ⟨fun _ => Or.inl rfl⟩

/-- With a saved original, an entry is compared with the same address. -/
theorem Fills.effective_eq (h : Fills code modules memory f f') {memory' : Memory}
    (hsame : effective code modules memory' f = effective code modules memory f) :
    effective code modules memory' f' = effective code modules memory f := by
  rcases h with rfl | ⟨-, a, ha, rfl⟩
  · exact hsame
  · -- an entry without a handle is not compared
    obtain ⟨handle, hhandle, -⟩ := Option.bind_eq_some_iff.1 ha
    rw [ha]
    unfold effective
    simp [hhandle]

theorem forall₂_exists_left {α : Type} {R : α → α → Prop} {l l' : List α} {b : α}
    (h : List.Forall₂ R l l') (hb : b ∈ l') : ∃ a ∈ l, R a b := by
  induction h with
  | nil => cases hb
  | cons hR _ ih =>
    rcases List.mem_cons.1 hb with rfl | hb
    · exact ⟨_, List.mem_cons_self, hR⟩
    · obtain ⟨a, ha, hR⟩ := ih hb
      exact ⟨a, List.mem_cons_of_mem _ ha, hR⟩

theorem forall₂_exists_right {α : Type} {R : α → α → Prop} {l l' : List α} {a : α}
    (h : List.Forall₂ R l l') (ha : a ∈ l) : ∃ b ∈ l', R a b :=
  forall₂_exists_left h.flip ha

theorem forall₂_trans {α : Type} {R : α → α → Prop} (hR : ∀ a b c, R a b → R b c → R a c) :
    ∀ {l₁ l₂ l₃ : List α}, List.Forall₂ R l₁ l₂ → List.Forall₂ R l₂ l₃ → List.Forall₂ R l₁ l₃
  | _, _, _, .nil, .nil => .nil
  | _, _, _, .cons h₁ t₁, .cons h₂ t₂ => .cons (hR _ _ _ h₁ h₂) (forall₂_trans hR t₁ t₂)

theorem map_eq_of_forall₂ {α β : Type} {R : α → α → Prop} {g : α → β} {l l' : List α}
    (h : List.Forall₂ R l l') (hR : ∀ a b, R a b → g b = g a) : l'.map g = l.map g := by
  induction h with
  | nil => rfl
  | cons hab _ ih => rw [List.map_cons, List.map_cons, hR _ _ hab, ih]

theorem forall₂_fills_refl (fs : List FunctionToPatch) :
    List.Forall₂ (Fills code modules memory) fs fs := List.forall₂_refl fs

/-- **One slot, in a pass that patches.**  It is left alone if the table does not match it, and
otherwise it gets the replacement of an entry, whose saved original is filled in. -/
theorem visitThunk_cases (code : Code) (modules : List ModuleInfo) (s : HookState) (v : Visit) :
    visitThunk code modules false s v = s ∧ ¬ Imported code modules s v ∨
    ∃ f ∈ s.functions, f.functionType ∈ v.1 ∧
      let func := code.findRealCode s.memory (s.memory v.2.address)
      effective code modules s.memory f = some func ∧
      (visitThunk code modules false s v).memory =
        Function.update s.memory v.2.address f.replacement ∧
      { f with original := some func } ∈ (visitThunk code modules false s v).functions ∧
      List.Forall₂ (Fills code modules s.memory) s.functions
        (visitThunk code modules false s v).functions := by
  unfold visitThunk patchThunk
  simp only [Bool.false_eq_true, if_false]
  rcases patchFirst_cases false (FunctionToPatch.isImportedBy code modules false v.1 s.memory v.2
    (some (code.findRealCode s.memory (s.memory v.2.address)))) v.2
    (some (code.findRealCode s.memory (s.memory v.2.address))) s.memory s.functions with
    ⟨hnone, heq⟩ | ⟨fs₁, f, fs₂, hfs, hp, heq⟩
  · refine Or.inl ⟨by rw [heq], ?_⟩
    rintro ⟨f, hf, htype, heff⟩
    exact absurd (isImportedBy_patch.2 ⟨htype, heff⟩) (by rw [hnone f hf]; nofun)
  · obtain ⟨htype, heff⟩ := isImportedBy_patch.1 hp
    have hfill : Fills code modules s.memory f
        { f with original := some (code.findRealCode s.memory (s.memory v.2.address)) } := by
      cases ho : f.original with
      | none => exact Or.inr ⟨ho, _, heff, rfl⟩
      | some original =>
        refine Or.inl ?_
        rw [effective_eq_original ho heff, ← ho]
    refine Or.inr ⟨f, hfs ▸ List.mem_append_right _ List.mem_cons_self, htype, heff, ?_⟩
    rw [heq]
    refine ⟨rfl, List.mem_append_right _ List.mem_cons_self, ?_⟩
    rw [hfs]
    exact List.rel_append (forall₂_fills_refl fs₁)
      (List.Forall₂.cons hfill (forall₂_fills_refl fs₂))

/-- The replacements of a hook table. -/
def replacements (functions : List FunctionToPatch) : List Address :=
  functions.map FunctionToPatch.replacement

theorem replacements_of_fills {fs fs' : List FunctionToPatch}
    (h : List.Forall₂ (Fills code modules memory) fs fs') : replacements fs' = replacements fs :=
  map_eq_of_forall₂ h fun _ _ h => h.replacement_eq

/-- A slot gets a replacement. -/
theorem visitThunk_rewritten (code : Code) (modules : List ModuleInfo) (s : HookState)
    (v : Visit) :
    replacements (visitThunk code modules false s v).functions = replacements s.functions ∧
      Rewritten (replacements s.functions) s.memory (visitThunk code modules false s v).memory := by
  rcases visitThunk_cases code modules s v with
    ⟨heq, -⟩ | ⟨f, hf, -, -, hmemory, -, hfills⟩
  · rw [heq]
    exact ⟨rfl, Rewritten.refl _ _⟩
  · refine ⟨replacements_of_fills hfills, fun k => ?_⟩
    rw [hmemory]
    by_cases hk : k = v.2.address
    · rw [hk, Function.update_self]
      exact Or.inr (List.mem_map_of_mem hf)
    · exact Or.inl (Function.update_of_ne hk _ _)

/-- Slots get replacements. -/
theorem foldl_visitThunk_rewritten (code : Code) (modules : List ModuleInfo) (l : List Visit)
    (s : HookState) :
    replacements (l.foldl (visitThunk code modules false) s).functions = replacements s.functions ∧
      Rewritten (replacements s.functions) s.memory
        (l.foldl (visitThunk code modules false) s).memory := by
  induction l generalizing s with
  | nil => exact ⟨rfl, Rewritten.refl _ _⟩
  | cons v l ih =>
    obtain ⟨hreplacements, hrewritten⟩ := visitThunk_rewritten code modules s v
    obtain ⟨hreplacements', hrewritten'⟩ := ih (visitThunk code modules false s v)
    rw [hreplacements] at hreplacements' hrewritten'
    exact ⟨hreplacements', hrewritten.trans hrewritten'⟩

end Thunk

/-! ### The course of a pass -/

/-- No replacement leads to the address. -/
def Unreached (code : Code) (memory : Memory) (functions : List FunctionToPatch) (a : Address) :
    Prop :=
  ∀ r ∈ replacements functions, a ∉ code.meets memory r

instance (code : Code) (memory : Memory) (functions : List FunctionToPatch) (a : Address) :
    Decidable (Unreached code memory functions a) :=
  inferInstanceAs (Decidable (∀ r ∈ replacements functions, _))

theorem Unreached.of_rewritten {code : Code} {functions : List FunctionToPatch}
    {memory memory' : Memory} {a : Address} (h : Unreached code memory functions a)
    (hrewritten : Rewritten (replacements functions) memory memory') :
    Unreached code memory' functions a := by
  intro r hr hmeets
  rcases Code.meets_of_changed hrewritten hmeets with hmeets | ⟨r', hr', hmeets⟩
  · exact h r hr hmeets
  · exact h r' hr' hmeets

theorem Unreached.congr {code : Code} {functions functions' : List FunctionToPatch}
    {memory : Memory} {a : Address} (h : Unreached code memory functions a)
    (hsame : replacements functions' = replacements functions) :
    Unreached code memory functions' a := by
  unfold Unreached
  rwa [hsame]

/-- It is not a replacement. -/
theorem Unreached.notMem {code : Code} {functions : List FunctionToPatch} {memory : Memory}
    {a : Address} (h : Unreached code memory functions a) : a ∉ replacements functions :=
  fun hr => h a hr Code.self_mem_meets

/-- No replacement leads to what an entry is compared with. -/
def SavedApart (code : Code) (modules : List ModuleInfo) (s : HookState) : Prop :=
  ∀ f ∈ s.functions, ∀ a, effective code modules s.memory f = some a →
    Unreached code s.memory s.functions a

section Course

variable {code : Code} {modules : List ModuleInfo} {s s' : HookState} {pre : List Visit} {v : Visit}

/-- A later moment of a pass: slots have got replacements and saved originals have been filled in,
and the entries are compared with the same addresses. -/
structure Later (code : Code) (modules : List ModuleInfo) (s s' : HookState) : Prop where
  fills : List.Forall₂ (Fills code modules s.memory) s.functions s'.functions
  rewritten : Rewritten (replacements s.functions) s.memory s'.memory
  effective : ∀ f ∈ s.functions,
    effective code modules s'.memory f = effective code modules s.memory f

namespace Later

theorem refl (s : HookState) : Later code modules s s :=
  ⟨forall₂_fills_refl s.functions, Rewritten.refl _ _, fun _ _ => rfl⟩

/-- The entries are compared with the same addresses. -/
theorem exists_effective (h : Later code modules s s') {f : FunctionToPatch}
    (hf : f ∈ s'.functions) : ∃ f₀ ∈ s.functions, Fills code modules s.memory f₀ f ∧
      BugInsight.effective code modules s'.memory f =
        BugInsight.effective code modules s.memory f₀ := by
  obtain ⟨f₀, hf₀, hfill⟩ := forall₂_exists_left h.fills hf
  exact ⟨f₀, hf₀, hfill, hfill.effective_eq (h.effective f₀ hf₀)⟩

/-- No replacement leads to what an entry is compared with. -/
theorem apart (h : Later code modules s s') (hapart : SavedApart code modules s) :
    SavedApart code modules s' := by
  intro f hf a ha
  obtain ⟨f₀, hf₀, -, heff⟩ := h.exists_effective hf
  rw [heff] at ha
  have hunreached := (hapart f₀ hf₀ a ha).of_rewritten h.rewritten
  exact hunreached.congr (replacements_of_fills h.fills)

/-- A slot that the table matches later was matched before. -/
theorem imported (h : Later code modules s s') (hapart : SavedApart code modules s)
    (hsame : s'.memory v.2.address = s.memory v.2.address) (hv : Imported code modules s' v) :
    Imported code modules s v := by
  obtain ⟨f', hf', htype, heff⟩ := hv
  obtain ⟨f, hf, hfill, heff'⟩ := h.exists_effective hf'
  rw [heff', hsame] at heff
  refine ⟨f, hf, hfill.functionType_eq ▸ htype, ?_⟩
  rcases Code.findRealCode_of_changed h.rewritten with hreal | ⟨r, hr, hmeets⟩
  · rw [heff, hreal]
  · exact absurd hmeets (hapart f hf _ heff r hr)

/-- A slot with a replacement is not matched. -/
theorem not_imported (h : Later code modules s s') (hapart : SavedApart code modules s)
    (hv : s'.memory v.2.address ∈ replacements s'.functions) : ¬ Imported code modules s' v := by
  rintro ⟨f, hf, -, heff⟩
  exact h.apart hapart f hf _ heff _ hv Code.findRealCode_mem_meets

/-- **The next slot.** -/
theorem visit (h : Later code modules s s')
    (heff : ∀ f ∈ s.functions,
      BugInsight.effective code modules (visitThunk code modules false s' v).memory f =
        BugInsight.effective code modules s.memory f) :
    Later code modules s (visitThunk code modules false s' v) ∧
      Later code modules s' (visitThunk code modules false s' v) := by
  obtain ⟨hreplacements, hrewritten⟩ := visitThunk_rewritten code modules s' v
  have hfills : List.Forall₂ (Fills code modules s'.memory) s'.functions
      (visitThunk code modules false s' v).functions := by
    rcases visitThunk_cases code modules s' v with
      ⟨heq, -⟩ | ⟨f, -, -, -, -, -, hfills⟩
    · rw [heq]
      exact forall₂_fills_refl _
    · exact hfills
  have heff' : ∀ f ∈ s'.functions, ∃ f₀ ∈ s.functions, Fills code modules s.memory f₀ f ∧
      BugInsight.effective code modules s'.memory f =
        BugInsight.effective code modules s.memory f₀ := fun f => h.exists_effective
  constructor
  · refine ⟨forall₂_trans (fun _ _ _ hf hf' => hf.trans hf') h.fills ?_, h.rewritten.trans ?_, heff⟩
    · refine List.Forall₂.imp ?_ ((List.forall₂_and_left _ _).2 ⟨heff', hfills⟩)
      rintro f f' ⟨⟨f₀, -, hfill₀, hsame⟩, hfill⟩
      refine hfill.imp_right fun ⟨hnone, a, ha, heq⟩ => ⟨hnone, a, ?_, heq⟩
      rw [hfill₀.effective_eq rfl, ← hsame, ha]
    · rw [← replacements_of_fills h.fills]
      exact hrewritten
  · refine ⟨hfills, hrewritten, fun f hf => ?_⟩
    obtain ⟨f₀, hf₀, hfill, hsame⟩ := heff' f hf
    rw [hsame, hfill.effective_eq (heff f₀ hf₀)]

end Later

/-- What holds in the course of a pass that started in `s` and has visited some slots. -/
structure DuringPass (code : Code) (modules : List ModuleInfo) (s : HookState) (pre : List Visit)
    (s' : HookState) : Prop extends Later code modules s s' where
  /-- a slot that has changed was matched before the pass -/
  changed : ∀ k, s'.memory k ≠ s.memory k →
    ∃ v ∈ pre, v.2.address = k ∧ Imported code modules s v
  /-- a slot that has been visited is not matched any more -/
  visited : ∀ v ∈ pre, ¬ Imported code modules s' v
  /-- and if it has changed, then with the entry of its real code -/
  patched : ∀ v ∈ pre, s'.memory v.2.address = s.memory v.2.address ∨
    ∃ f ∈ s'.functions, f.functionType ∈ v.1 ∧ f.moduleHandle.isSome ∧
      f.original = some (code.findRealCode s.memory (s.memory v.2.address)) ∧
      s'.memory v.2.address = f.replacement

/-- **The next slot.** -/
theorem DuringPass.visit (h : DuringPass code modules s pre s') (hapart : SavedApart code modules s)
    (hv : v.2.address ∉ pre.map fun u => u.2.address)
    (heff : ∀ f ∈ s.functions,
      BugInsight.effective code modules (visitThunk code modules false s' v).memory f =
        BugInsight.effective code modules s.memory f) :
    DuringPass code modules s (pre ++ [v]) (visitThunk code modules false s' v) := by
  obtain ⟨hlater, hnext⟩ := h.toLater.visit heff
  have hsame : s'.memory v.2.address = s.memory v.2.address := by
    by_contra hne
    obtain ⟨u, hu, haddress, -⟩ := h.changed _ hne
    exact hv (List.mem_map.2 ⟨u, hu, haddress⟩)
  refine ⟨hlater, ?_, ?_, ?_⟩
  all_goals
    rcases visitThunk_cases code modules s' v with
      ⟨heq, hno⟩ | ⟨f, hf, htype, hfunc, hmemory, hfilled, -⟩
  · rw [heq]
    intro k hk
    obtain ⟨u, hu, hrest⟩ := h.changed k hk
    exact ⟨u, List.mem_append_left _ hu, hrest⟩
  · rw [hmemory]
    intro k hk
    by_cases hkv : k = v.2.address
    · exact ⟨v, List.mem_append_right _ (List.mem_singleton_self v), hkv.symm,
        h.imported hapart hsame ⟨f, hf, htype, hfunc⟩⟩
    · rw [Function.update_of_ne hkv] at hk
      obtain ⟨u, hu, hrest⟩ := h.changed k hk
      exact ⟨u, List.mem_append_left _ hu, hrest⟩
  · rw [heq]
    exact List.forall_mem_append.2 ⟨h.visited, List.forall_mem_singleton.2 hno⟩
  · refine List.forall_mem_append.2 ⟨fun u hu hu' => ?_, List.forall_mem_singleton.2 ?_⟩
    · have hne : u.2.address ≠ v.2.address := fun hc =>
        hv (List.mem_map.2 ⟨u, hu, hc⟩)
      refine h.visited u hu (hnext.imported (h.apart hapart) ?_ hu')
      rw [hmemory, Function.update_of_ne hne]
    · refine hlater.not_imported hapart ?_
      rw [hmemory, Function.update_self]
      exact List.mem_map.2 ⟨_, hfilled, rfl⟩
  · rw [heq]
    exact List.forall_mem_append.2 ⟨h.patched, List.forall_mem_singleton.2 (Or.inl hsame)⟩
  · refine List.forall_mem_append.2 ⟨fun u hu => ?_, List.forall_mem_singleton.2 (Or.inr ?_)⟩
    · have hne : u.2.address ≠ v.2.address := fun hc =>
        hv (List.mem_map.2 ⟨u, hu, hc⟩)
      rw [hmemory, Function.update_of_ne hne]
      refine (h.patched u hu).imp_right fun ⟨g, hg, hgtype, hhandle, ho, hreplacement⟩ => ?_
      -- a saved original stays
      obtain ⟨g', hg', hfill⟩ := forall₂_exists_right hnext.fills hg
      rw [hfill.eq_of_isSome (by rw [ho]; rfl)] at hg'
      exact ⟨g, hg', hgtype, hhandle, ho, hreplacement⟩
    · obtain ⟨handle, hhandle, -⟩ := Option.bind_eq_some_iff.1 hfunc
      refine ⟨_, hfilled, htype, by rw [hhandle]; rfl, ?_, by rw [hmemory, Function.update_self]⟩
      -- it leads where it led before the pass
      obtain ⟨f₀, hf₀, -, heff₀⟩ := h.exists_effective hf
      rw [heff₀, hsame] at hfunc
      rcases Code.findRealCode_of_changed h.rewritten with hreal | ⟨r, hr, hmeets⟩
      · rw [hsame, hreal]
      · exact absurd hmeets (hapart f₀ hf₀ _ hfunc r hr)

/-- **In the course of a pass**, if the entries are always compared with the same addresses. -/
theorem duringPass_foldl {l : List Visit} (hapart : SavedApart code modules s)
    (hnodup : (l.map fun v => v.2.address).Nodup)
    (heff : ∀ pre post, l = pre ++ post → ∀ f ∈ s.functions,
      effective code modules (pre.foldl (visitThunk code modules false) s).memory f =
        effective code modules s.memory f) :
    ∀ pre post, l = pre ++ post →
      DuringPass code modules s pre (pre.foldl (visitThunk code modules false) s) := by
  intro pre
  induction pre using List.reverseRecOn with
  | nil =>
    exact fun _ _ => ⟨Later.refl s, fun k hk => absurd rfl hk, List.forall_mem_nil _,
      List.forall_mem_nil _⟩
  | append_singleton pre v ih =>
    intro post hl
    have hpre := ih (v :: post) (by rw [hl, List.append_assoc]; rfl)
    rw [List.foldl_append]
    refine hpre.visit hapart (fun hc => ?_) fun f hf => ?_
    · rw [hl, List.map_append, List.map_append, List.append_assoc] at hnodup
      exact (List.nodup_append.1 hnodup).2.2 _ hc _ (by simp) rfl
    · have := heff (pre ++ [v]) post hl f hf
      rwa [List.foldl_append] at this

/-- Where an entry without a saved original is looked up, no jump goes through a replaced slot. -/
def LookedUp (code : Code) (modules : List ModuleInfo) (s : HookState) (f : FunctionToPatch) :
    Prop :=
  f.original = none → ∀ a, effective code modules s.memory f = some a →
    Unreached code s.memory s.functions a

/-- Then the entry was compared with the same address before the slots were replaced. -/
theorem LookedUp.effective_eq {f : FunctionToPatch} (h : LookedUp code modules s' f)
    (memory : Memory) (hrewritten : Rewritten (replacements s'.functions) memory s'.memory) :
    effective code modules memory f = effective code modules s'.memory f := by
  unfold LookedUp at h
  unfold effective at h ⊢
  cases hhandle : f.moduleHandle with
  | none => rfl
  | some handle =>
    cases ho : f.original with
    | some original => rfl
    | none =>
      cases hp : getProcAddress modules handle f.functionName with
      | none => simp only [hp, Option.bind_some, Option.map_none]
      | some a =>
        simp only [hhandle, ho, hp, Option.bind_some, Option.map_some] at h ⊢
        refine congrArg some (Code.findRealCode_congr fun k hk => ?_)
        refine ((hrewritten k).resolve_right fun hr => ?_).symm
        exact h trivial _ rfl _ hr (Code.findRealCode_mem_of_cells hk)

/-- **A pass that patches.**  The hypothesis on its end says that a slot that a hooked function
jumps through has not got a replacement. -/
theorem duringPass {settings : PatchSettings} (hapart : SavedApart code modules s)
    (hnodup : ((modules.flatMap ModuleInfo.slots).map Thunk.address).Nodup)
    (hend : ∀ f ∈ s.functions, LookedUp code modules
      ((visitedThunks settings modules).foldl (visitThunk code modules false) s) f) :
    ∀ pre post, visitedThunks settings modules = pre ++ post →
      DuringPass code modules s pre (pre.foldl (visitThunk code modules false) s) := by
  refine duringPass_foldl hapart (nodup_visitedThunks settings hnodup) fun pre post hl f hf => ?_
  rw [hl, List.foldl_append] at hend
  obtain ⟨hreplacements, hpre⟩ := foldl_visitThunk_rewritten code modules pre s
  obtain ⟨hreplacements', hpost⟩ := foldl_visitThunk_rewritten code modules post
    (pre.foldl (visitThunk code modules false) s)
  rw [hreplacements] at hreplacements' hpost
  have heff := (hend f hf).effective_eq
  rw [hreplacements'] at heff
  rw [heff _ hpost, heff _ (hpre.trans hpost)]

end Course

/-! ### Reverting -/

section Revert

variable {code : Code} {modules : List ModuleInfo} {s : HookState} {v : Visit}

/-- A slot in a pass that reverts: it is left alone if it does not hold the replacement of an entry
with a saved original, and otherwise it gets the saved original of such an entry. -/
def Reverted (s : HookState) (v : Visit) (a : Address) : Prop :=
  a = s.memory v.2.address ∧ (∀ f ∈ s.functions, f.functionType ∈ v.1 → f.moduleHandle.isSome →
      f.original.isSome → s.memory v.2.address ≠ f.replacement) ∨
    ∃ f ∈ s.functions, f.original = some a ∧ s.memory v.2.address = f.replacement

/-- **One slot, in a pass that reverts.** -/
theorem visitThunk_revert (code : Code) (modules : List ModuleInfo) (s : HookState) (v : Visit) :
    (visitThunk code modules true s v).functions = s.functions ∧
    Reverted s v ((visitThunk code modules true s v).memory v.2.address) ∧
    ∀ k, k ≠ v.2.address → (visitThunk code modules true s v).memory k = s.memory k := by
  unfold visitThunk patchThunk
  simp only [if_true]
  rcases patchFirst_cases true
    (FunctionToPatch.isImportedBy code modules true v.1 s.memory v.2 none) v.2 none s.memory
    s.functions with ⟨hnone, heq⟩ | ⟨fs₁, f, fs₂, hfs, hp, heq⟩
  · rw [heq]
    refine ⟨rfl, Or.inl ⟨rfl, fun f hf htype hhandle ho hreplacement => ?_⟩, fun _ _ => rfl⟩
    exact absurd (isImportedBy_revert.2 ⟨htype, hhandle, ho, hreplacement⟩)
      (by rw [hnone f hf]; nofun)
  · obtain ⟨-, -, ho, hreplacement⟩ := isImportedBy_revert.1 hp
    obtain ⟨original, ho⟩ := Option.isSome_iff_exists.1 ho
    have hpatch : patchFunction true v.2 none s.memory f =
        (Function.update s.memory v.2.address original, f) := by
      unfold patchFunction
      rw [if_pos rfl, ho]
    rw [heq, hpatch]
    refine ⟨hfs.symm, Or.inr ⟨f, ?_, ?_, hreplacement⟩, fun k hk => Function.update_of_ne hk _ _⟩
    · rw [hfs]
      exact List.mem_append_right _ List.mem_cons_self
    · rw [ho]
      exact congrArg some (Function.update_self v.2.address original s.memory).symm

/-- A slot that is not visited keeps its contents. -/
theorem foldl_visitThunk_of_notMem {revert : Bool} {l : List Visit} {k : ℕ}
    (hk : ∀ v ∈ l, k ≠ v.2.address) :
    (l.foldl (visitThunk code modules revert) s).memory k = s.memory k := by
  induction l generalizing s with
  | nil => rfl
  | cons v l ih =>
    rw [List.foldl_cons, ih fun u hu => hk u (List.mem_cons_of_mem v hu)]
    have hne := hk v List.mem_cons_self
    cases revert with
    | true => exact (visitThunk_revert code modules s v).2.2 k hne
    | false =>
      rcases visitThunk_cases code modules s v with
        ⟨heq, -⟩ | ⟨f, -, -, -, hmemory, -⟩
      · rw [heq]
      · rw [hmemory, Function.update_of_ne hne]

/-- **A pass that reverts** changes the slots with replacements only, and no entry. -/
theorem foldl_visitThunk_revert (code : Code) (modules : List ModuleInfo) {l : List Visit}
    (hnodup : (l.map fun v => v.2.address).Nodup) (s : HookState) :
    (l.foldl (visitThunk code modules true) s).functions = s.functions ∧
      ∀ v ∈ l, Reverted s v ((l.foldl (visitThunk code modules true) s).memory v.2.address) := by
  induction l generalizing s with
  | nil => exact ⟨rfl, List.forall_mem_nil _⟩
  | cons v l ih =>
    obtain ⟨hv, hnodup⟩ := List.nodup_cons.1 hnodup
    obtain ⟨hfunctions, hreverted, hsame⟩ := visitThunk_revert code modules s v
    obtain ⟨hfunctions', hreverted'⟩ := ih hnodup (visitThunk code modules true s v)
    rw [List.foldl_cons]
    refine ⟨hfunctions'.trans hfunctions, List.forall_mem_cons.2 ⟨?_, fun u hu => ?_⟩⟩
    · rw [foldl_visitThunk_of_notMem fun u hu hc => hv (List.mem_map.2 ⟨u, hu, hc.symm⟩)]
      exact hreverted
    · have hne : u.2.address ≠ v.2.address := fun hc => hv (List.mem_map.2 ⟨u, hu, hc⟩)
      have hu' := hreverted' u hu
      unfold Reverted at hu' ⊢
      rwa [hfunctions, hsame _ hne] at hu'

end Revert

end BugInsight

import BugInsight.Decimal
import BugInsight.Strings
import BugInsight.Leak.Callstacks

/-!
# The ids of the call stacks

`printf_call_stack_symbol_infos` renders a call stack and hashes its frames; the hash is the id
that `generate_callstacks2` looks up among the ids to suppress.  An id is given for one run of the
application under test and used in another one, in which the modules are loaded at other addresses.
The symbols and the lines of a module come from its file and are given by the offset in it.

* `AddressSpace`: the regions of a process, no two with a common address;
* `printfSymbolinfo`, `printfCallStackSymbolInfos`: the text, and the bytes that are hashed;
* `Relocation`: the same regions at other addresses, and where each address of the code is then;
* `getCallingModule_move`: the region of an address is loaded around its new address;
* `suppression_survives_relocation`: the same call stacks are suppressed.
-/

namespace BugInsight

/-- What is found in a region of addresses. -/
structure Image where
  size : ℕ
  /-- the file name of the path that `GetModuleFileName` returns, if it succeeds -/
  fileName : Option NarrowString := none
  /-- `SymFromAddr`: the name of the symbol at an offset -/
  symFromAddr : ℕ → Option NarrowString := fun _ => none
  /-- `SymGetLineFromAddr64`: the source file and the line number at an offset -/
  symGetLineFromAddr64 : ℕ → Option (NarrowString × ℕ) := fun _ => none

/-- A region that was allocated at once; the allocation base of a module is its handle. -/
structure Region where
  allocationBase : ℕ
  image : Image

namespace Region

def stop (m : Region) : ℕ := m.allocationBase + m.image.size

def Contains (m : Region) (pc : ℕ) : Prop := m.allocationBase ≤ pc ∧ pc < m.stop

instance (m : Region) (pc : ℕ) : Decidable (m.Contains pc) := inferInstanceAs (Decidable (_ ∧ _))

/-- Two regions without a common address. -/
def Apart (m m' : Region) : Prop := m.stop ≤ m'.allocationBase ∨ m'.stop ≤ m.allocationBase

instance : Std.Symm Apart := ⟨fun _ _ h => h.symm⟩

theorem Apart.not_contains {m m' : Region} {pc : ℕ} (h : m.Apart m') (hm : m.Contains pc) :
    ¬ m'.Contains pc := by
  rintro ⟨hle, hlt⟩
  obtain ⟨hle', hlt'⟩ := hm
  rcases h with h | h <;> omega

end Region

/-- The regions of a process. -/
structure AddressSpace where
  regions : List Region
  apart : regions.Pairwise Region.Apart

/-- The eight bytes of a `ptrdiff_t`. -/
def ptrdiffBytes (n : ℕ) : List UInt8 := (List.range 8).map fun i => UInt8.ofNat (n / 256 ^ i)

def hexChar (d : ℕ) : UInt8 := UInt8.ofNat (if d < 10 then 48 + d else 87 + d)

/-- The hexadecimal digits of a number. -/
def hexDigits (n : ℕ) : List ℕ := if n = 0 then [0] else (Nat.digits 16 n).reverse

/-- How `fmt` prints a pointer. -/
def formatPtr (p : ℕ) : NarrowString := bytes "0x" ++ (hexDigits p).map hexChar

/-- The digit that a character denotes. -/
def hexValue (c : UInt8) : ℕ := if c.toNat < 58 then c.toNat - 48 else c.toNat - 87

theorem hexValue_hexChar : ∀ d < 16, hexValue (hexChar d) = d := by decide

theorem hexDigits_lt {n d : ℕ} (hd : d ∈ hexDigits n) : d < 16 := by
  unfold hexDigits at hd
  split_ifs at hd
  · rw [List.mem_singleton.1 hd]
    decide
  · exact Nat.digits_lt_base (by decide) (List.mem_reverse.1 hd)

theorem ofDigits_hexDigits (n : ℕ) : Nat.ofDigits 16 (hexDigits n).reverse = n := by
  unfold hexDigits
  split_ifs with hn
  · rw [hn]
    rfl
  · rw [List.reverse_reverse, Nat.ofDigits_digits]

/-- Two pointers are not printed alike. -/
theorem formatPtr_inj {p p' : ℕ} (h : formatPtr p = formatPtr p') : p = p' := by
  have read (n : ℕ) : ((hexDigits n).map hexChar).map hexValue = hexDigits n := by
    rw [List.map_map]
    exact (List.map_congr_left fun d hd => hexValue_hexChar d (hexDigits_lt hd)).trans (List.map_id _)
  have hdigits : hexDigits p = hexDigits p' := by
    rw [← read p, ← read p', List.append_cancel_left h]
  rw [← ofDigits_hexDigits p, hdigits, ofDigits_hexDigits]

/-- The frames of a call stack. -/
def Callstack.frames (c : Callstack) : List ℕ := c.ptr.take c.size

namespace Image

variable (image : Image) (modulesStaticRuntime : List NarrowString)

/-- `printf_symbolinfo`, after the offset of the address has been computed. -/
def printfOffset (pc moduleOffset : ℕ) : NarrowString × List UInt8 :=
  let moduleName := image.fileName.getD (bytes "---")
  let hashedName := image.fileName.getD []
  let hasStaticRuntime := image.fileName.any fun name =>
    modulesStaticRuntime.contains (toLowerCopy name)
  let warning := if hasStaticRuntime then bytes " [Warning: static runtime!]" else []
  match image.symFromAddr moduleOffset with
  | none =>
    -- returns before the offset is hashed
    (formatPtr pc ++ (bytes " (" ++ moduleName ++ bytes ") (no symbol info)" ++ warning ++
      bytes "\n"), hashedName)
  | some symbolName =>
    let line := (image.symGetLineFromAddr64 moduleOffset).getD (bytes "---", 0)
    (line.1 ++ bytes "(" ++ Decimal.numeral line.2 ++ bytes ",0): " ++ symbolName ++ bytes " (" ++
      moduleName ++ bytes ")" ++ warning ++ bytes "\n", hashedName ++ ptrdiffBytes moduleOffset)

variable {image modulesStaticRuntime}

/-- The address is not hashed. -/
theorem printfOffset_snd_eq (pc pc' moduleOffset : ℕ) :
    (image.printfOffset modulesStaticRuntime pc moduleOffset).2 =
      (image.printfOffset modulesStaticRuntime pc' moduleOffset).2 := by
  unfold printfOffset
  cases image.symFromAddr moduleOffset <;> rfl

/-- The address is printed where no symbol is found. -/
theorem printfOffset_fst_eq_iff {pc pc' moduleOffset : ℕ} :
    (image.printfOffset modulesStaticRuntime pc moduleOffset).1 =
        (image.printfOffset modulesStaticRuntime pc' moduleOffset).1 ↔
      (image.symFromAddr moduleOffset).isSome ∨ pc = pc' := by
  constructor
  · intro h
    unfold printfOffset at h
    cases hsymbol : image.symFromAddr moduleOffset with
    | some symbolName => exact Or.inl rfl
    | none =>
      rw [hsymbol] at h
      exact Or.inr (formatPtr_inj (List.append_cancel_right h))
  · rintro (hsymbol | rfl)
    · obtain ⟨symbolName, hsymbol⟩ := Option.isSome_iff_exists.1 hsymbol
      unfold printfOffset
      rw [hsymbol]
    · rfl

end Image

namespace AddressSpace

section Print

variable (s : AddressSpace) (modulesStaticRuntime : List NarrowString)

/-- `get_calling_module`: the region of the address. -/
def getCallingModule (pCaller : ℕ) : Option Region :=
  s.regions.find? fun m => decide (m.Contains pCaller)

/-- `printf_symbolinfo`: what is appended to the text of the call stack, and what is hashed. -/
def printfSymbolinfo (index pc : ℕ) : NarrowString × List UInt8 :=
  match s.getCallingModule pc with
  | none => ([], [])
  | some m =>
    -- the first frame is inside of the library
    if index = 0 then ([], [])
    else m.image.printfOffset modulesStaticRuntime pc (pc - m.allocationBase)

/-- `printf_call_stack_symbol_infos`. -/
def printfCallStackSymbolInfos (c : Callstack) : NarrowString × List UInt8 :=
  let infos := c.frames.zipIdx.map fun f => s.printfSymbolinfo modulesStaticRuntime f.2 f.1
  (infos.flatMap Prod.fst, infos.flatMap Prod.snd)

/-- The id of a call stack; `xxh64` is the hash function. -/
def callstackHash (xxh64 : List UInt8 → ℕ) (c : Callstack) : ℕ :=
  xxh64 (s.printfCallStackSymbolInfos modulesStaticRuntime c).2

end Print

section Frames

variable {s : AddressSpace} {modulesStaticRuntime : List NarrowString}

theorem getCallingModule_eq_some_iff {pc : ℕ} {m : Region} :
    s.getCallingModule pc = some m ↔ m ∈ s.regions ∧ m.Contains pc := by
  have found {m'} (h : s.getCallingModule pc = some m') : m' ∈ s.regions ∧ m'.Contains pc :=
    ⟨List.mem_of_find?_eq_some h, by simpa using List.find?_some h⟩
  refine ⟨found, fun ⟨hm, hpc⟩ => ?_⟩
  cases hget : s.getCallingModule pc with
  | none => exact absurd (decide_eq_true hpc) (List.find?_eq_none.1 hget m hm)
  | some m' =>
    obtain ⟨hm', hpc'⟩ := found hget
    by_contra hne
    exact (s.apart.forall hm' hm fun h => hne (congrArg some h)).not_contains hpc' hpc

theorem getCallingModule_eq_none_iff {pc : ℕ} :
    s.getCallingModule pc = none ↔ ∀ m ∈ s.regions, ¬ m.Contains pc := by
  simp [getCallingModule]

theorem printfSymbolinfo_zero (pc : ℕ) :
    s.printfSymbolinfo modulesStaticRuntime 0 pc = ([], []) := by
  unfold printfSymbolinfo
  cases s.getCallingModule pc <;> rfl

theorem printfSymbolinfo_succ (index pc : ℕ) :
    s.printfSymbolinfo modulesStaticRuntime (index + 1) pc =
      s.printfSymbolinfo modulesStaticRuntime 1 pc := rfl

/-- The frames after the first one are printed one after the other. -/
theorem printfCallStackSymbolInfos_eq (c : Callstack) :
    s.printfCallStackSymbolInfos modulesStaticRuntime c =
      (c.frames.tail.flatMap fun pc => (s.printfSymbolinfo modulesStaticRuntime 1 pc).1,
        c.frames.tail.flatMap fun pc => (s.printfSymbolinfo modulesStaticRuntime 1 pc).2) := by
  have rest (frames : List ℕ) (k : ℕ) :
      ((frames.zipIdx (k + 1)).map fun f => s.printfSymbolinfo modulesStaticRuntime f.2 f.1) =
        frames.map (s.printfSymbolinfo modulesStaticRuntime 1) := by
    induction frames generalizing k with
    | nil => rfl
    | cons pc frames ih => rw [List.zipIdx_cons, List.map_cons, ih, List.map_cons,
        printfSymbolinfo_succ]
  unfold printfCallStackSymbolInfos
  cases c.frames with
  | nil => rfl
  | cons pc frames =>
    simp only [List.zipIdx_cons, List.map_cons, rest, printfSymbolinfo_zero, List.flatMap_cons,
      List.flatMap_map, List.nil_append, List.tail_cons]

end Frames

end AddressSpace

/-! ### Call stacks with other addresses -/

section Map

variable (f : ℕ → ℕ)

def Callstack.map (c : Callstack) : Callstack := ⟨c.ptr.map f, c.size⟩

def UsedApiInfo.map (info : UsedApiInfo) : UsedApiInfo :=
  { info with callstackAndSize :=
      info.callstackAndSize.map fun slot => { slot with callstack := slot.callstack.map f } }

def ApiSection.map (sec : ApiSection) : ApiSection :=
  { sec with callstacks := sec.callstacks.map (Callstack.map f) }

theorem Callstack.frames_map (c : Callstack) : (c.map f).frames = c.frames.map f :=
  List.map_take.symm

variable {f}

/-- `generate_callstacks2` sees a call stack only through its id. -/
theorem generateCallstacks2_map {hash hash' : Callstack → ℕ} (h : ∀ c, hash' (c.map f) = hash c)
    (infos : List UsedApiInfo) (idsToSuppress : List ℕ) :
    generateCallstacks2 hash' (infos.map (UsedApiInfo.map f)) idsToSuppress =
      ((generateCallstacks2 hash infos idsToSuppress).1.map (ApiSection.map f),
        (generateCallstacks2 hash infos idsToSuppress).2) := by
  have hcallstacks (info : UsedApiInfo) :
      (((info.map f).callstackAndSize.filter fun t => t.sizeBytes ≠ 0).map fun t => t.callstack) =
        ((info.callstackAndSize.filter fun t => t.sizeBytes ≠ 0).map fun t => t.callstack).map
          (Callstack.map f) := by
    simp only [UsedApiInfo.map, List.filter_map, List.map_map, Function.comp_def]
  have hprinted : (infos.map (UsedApiInfo.map f)).filter (fun info => info.hitCount ≠ 0) =
      (infos.filter fun info => info.hitCount ≠ 0).map (UsedApiInfo.map f) := by
    rw [List.filter_map]
    rfl
  unfold generateCallstacks2
  refine Prod.ext ?_ ?_
  · simp only [hprinted]
    rw [List.map_map, List.map_map]
    refine List.map_congr_left fun info _ => ?_
    dsimp only [Function.comp_apply, ApiSection.map]
    rw [hcallstacks, List.filter_map]
    simp only [Function.comp_def, h]
    rfl
  · simp only [hprinted]
    rw [List.any_map]
    refine List.any_congr rfl fun info => ?_
    dsimp only [Function.comp_apply]
    rw [hcallstacks, List.any_map]
    simp only [Function.comp_def, h]

end Map

/-! ### Other addresses -/

/-- The region at another address. -/
def Region.rebase (base : Region → ℕ) (m : Region) : Region := ⟨base m, m.image⟩

/-- The regions of `s` are those of `s'` at other addresses. -/
structure Relocation (s s' : AddressSpace) where
  base : Region → ℕ
  regions_eq : s'.regions = s.regions.map (Region.rebase base)
  /-- where the code at an address is in `s'` -/
  move : ℕ → ℕ
  move_of_contains : ∀ m ∈ s.regions, ∀ pc, m.Contains pc →
    move pc = base m + (pc - m.allocationBase)
  not_contains_move : ∀ pc, (∀ m ∈ s.regions, ¬ m.Contains pc) →
    ∀ m ∈ s'.regions, ¬ m.Contains (move pc)

/-- The address has a symbol, unless it is in no region. -/
def AddressSpace.HasSymbol (s : AddressSpace) (pc : ℕ) : Prop :=
  ∀ m, s.getCallingModule pc = some m → (m.image.symFromAddr (pc - m.allocationBase)).isSome

namespace Relocation

variable {s s' : AddressSpace} (r : Relocation s s') {modulesStaticRuntime : List NarrowString}

theorem contains_move {m : Region} (hm : m ∈ s.regions) {pc : ℕ} (hpc : m.Contains pc) :
    (m.rebase r.base).Contains (r.move pc) := by
  obtain ⟨hle, hlt⟩ := hpc
  have hoffset : pc - m.allocationBase < m.image.size := by
    unfold Region.stop at hlt
    omega
  rw [r.move_of_contains m hm pc ⟨hle, hlt⟩]
  exact ⟨Nat.le_add_right _ _, Nat.add_lt_add_left hoffset _⟩

theorem sub_move {m : Region} (hm : m ∈ s.regions) {pc : ℕ} (hpc : m.Contains pc) :
    r.move pc - (m.rebase r.base).allocationBase = pc - m.allocationBase := by
  rw [r.move_of_contains m hm pc hpc]
  exact Nat.add_sub_cancel_left _ _

/-- The region of an address is loaded around its new address. -/
theorem getCallingModule_move (pc : ℕ) :
    s'.getCallingModule (r.move pc) = (s.getCallingModule pc).map (Region.rebase r.base) := by
  cases hget : s.getCallingModule pc with
  | none =>
    exact AddressSpace.getCallingModule_eq_none_iff.2
      (r.not_contains_move pc (AddressSpace.getCallingModule_eq_none_iff.1 hget))
  | some m =>
    obtain ⟨hm, hpc⟩ := AddressSpace.getCallingModule_eq_some_iff.1 hget
    refine AddressSpace.getCallingModule_eq_some_iff.2 ⟨?_, r.contains_move hm hpc⟩
    rw [r.regions_eq]
    exact List.mem_map_of_mem hm

/-- A frame is hashed as before. -/
theorem printfSymbolinfo_move_snd (index pc : ℕ) :
    (s'.printfSymbolinfo modulesStaticRuntime index (r.move pc)).2 =
      (s.printfSymbolinfo modulesStaticRuntime index pc).2 := by
  unfold AddressSpace.printfSymbolinfo
  rw [r.getCallingModule_move pc]
  cases hget : s.getCallingModule pc with
  | none => rfl
  | some m =>
    obtain ⟨hm, hpc⟩ := AddressSpace.getCallingModule_eq_some_iff.1 hget
    simp only [Option.map_some, r.sub_move hm hpc]
    split_ifs
    · rfl
    · exact Image.printfOffset_snd_eq _ _ _

/-- **The line of a frame is printed as before** if and only if it has a symbol or its address. -/
theorem printfSymbolinfo_move_fst_iff (pc : ℕ) :
    (s'.printfSymbolinfo modulesStaticRuntime 1 (r.move pc)).1 =
        (s.printfSymbolinfo modulesStaticRuntime 1 pc).1 ↔
      s.HasSymbol pc ∨ r.move pc = pc := by
  unfold AddressSpace.printfSymbolinfo AddressSpace.HasSymbol
  rw [r.getCallingModule_move pc]
  cases hget : s.getCallingModule pc with
  | none => simp
  | some m =>
    obtain ⟨hm, hpc⟩ := AddressSpace.getCallingModule_eq_some_iff.1 hget
    simp only [Option.map_some, r.sub_move hm hpc, if_neg one_ne_zero, Option.some.injEq,
      forall_eq']
    exact Image.printfOffset_fst_eq_iff

theorem printfCallStackSymbolInfos_move_snd (c : Callstack) :
    (s'.printfCallStackSymbolInfos modulesStaticRuntime (c.map r.move)).2 =
      (s.printfCallStackSymbolInfos modulesStaticRuntime c).2 := by
  simp only [AddressSpace.printfCallStackSymbolInfos_eq, Callstack.frames_map, ← List.map_tail,
    List.flatMap_map]
  exact List.flatMap_congr fun pc _ => r.printfSymbolinfo_move_snd 1 pc

/-- The text is printed as before if every frame after the first one has a symbol. -/
theorem printfCallStackSymbolInfos_move {c : Callstack}
    (h : ∀ pc ∈ c.frames.tail, s.HasSymbol pc) :
    s'.printfCallStackSymbolInfos modulesStaticRuntime (c.map r.move) =
      s.printfCallStackSymbolInfos modulesStaticRuntime c := by
  refine Prod.ext ?_ (r.printfCallStackSymbolInfos_move_snd c)
  simp only [AddressSpace.printfCallStackSymbolInfos_eq, Callstack.frames_map, ← List.map_tail,
    List.flatMap_map]
  exact List.flatMap_congr fun pc hpc =>
    (r.printfSymbolinfo_move_fst_iff pc).2 (Or.inl (h pc hpc))

end Relocation

/-- The regions of a process at other addresses. -/
def AddressSpace.rebase (s : AddressSpace) (base : Region → ℕ)
    (apart : (s.regions.map (Region.rebase base)).Pairwise Region.Apart) : AddressSpace :=
  ⟨s.regions.map (Region.rebase base), apart⟩

/-- Regions may be loaded wherever they have no common address. -/
def Relocation.ofBase (s : AddressSpace) (base : Region → ℕ)
    (apart : (s.regions.map (Region.rebase base)).Pairwise Region.Apart) :
    Relocation s (s.rebase base apart) where
  base := base
  regions_eq := rfl
  -- an address without a region goes behind all of them
  move := fun pc => (s.getCallingModule pc).elim
    ((s.rebase base apart).regions.map Region.stop).sum
    fun m => base m + (pc - m.allocationBase)
  move_of_contains := fun m hm pc hpc => by
    rw [AddressSpace.getCallingModule_eq_some_iff.2 ⟨hm, hpc⟩]
    rfl
  not_contains_move := fun pc hpc m hm hmove => by
    rw [AddressSpace.getCallingModule_eq_none_iff.2 hpc] at hmove
    exact absurd (List.le_sum_of_mem (List.mem_map_of_mem hm)) (Nat.not_le.2 hmove.2)

/-- A module that is loaded at `0x10000` and not at `0x1000`. -/
example : (Relocation.ofBase ⟨[⟨0x1000, { size := 0x800 }⟩], List.pairwise_singleton _ _⟩
    (fun _ => 0x10000) (List.pairwise_singleton _ _)).move 0x1234 = 0x10234 := by decide

section Report

variable {s s' : AddressSpace}

/-- **The ids of one run serve in every other one**: with the modules at other addresses, the same
call stacks are suppressed, and the same sections are printed.  A line is printed as before if and
only if the frame has a symbol or its address. -/
theorem suppression_survives_relocation (r : Relocation s s')
    (modulesStaticRuntime : List NarrowString) (xxh64 : List UInt8 → ℕ) (infos : List UsedApiInfo)
    (idsToSuppress : List ℕ) :
    (∀ c, s'.callstackHash modulesStaticRuntime xxh64 (c.map r.move) =
      s.callstackHash modulesStaticRuntime xxh64 c) ∧
    generateCallstacks2 (s'.callstackHash modulesStaticRuntime xxh64)
        (infos.map (UsedApiInfo.map r.move)) idsToSuppress =
      ((generateCallstacks2 (s.callstackHash modulesStaticRuntime xxh64) infos
          idsToSuppress).1.map (ApiSection.map r.move),
        (generateCallstacks2 (s.callstackHash modulesStaticRuntime xxh64) infos
          idsToSuppress).2) ∧
    (∀ c : Callstack, (∀ pc ∈ c.frames.tail, s.HasSymbol pc) →
      s'.printfCallStackSymbolInfos modulesStaticRuntime (c.map r.move) =
        s.printfCallStackSymbolInfos modulesStaticRuntime c) ∧
    ∀ pc, (s'.printfSymbolinfo modulesStaticRuntime 1 (r.move pc)).1 =
        (s.printfSymbolinfo modulesStaticRuntime 1 pc).1 ↔ s.HasSymbol pc ∨ r.move pc = pc := by
  have hhash (c : Callstack) : s'.callstackHash modulesStaticRuntime xxh64 (c.map r.move) =
      s.callstackHash modulesStaticRuntime xxh64 c :=
    congrArg xxh64 (r.printfCallStackSymbolInfos_move_snd c)
  exact ⟨hhash, generateCallstacks2_map hhash infos idsToSuppress,
    fun c => r.printfCallStackSymbolInfos_move, r.printfSymbolinfo_move_fst_iff⟩

end Report

end BugInsight

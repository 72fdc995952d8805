import BugInsight.Leak.Reallocation

/-!
# New blocks

What the hooks of the allocating functions add to the repository.

* `AllocHook`: the calls of these hooks, with the API family, the API function and the new blocks of
  a call (`family`, `function`, `blocks`);
* `AllocHook.run_eq`: the hook adds these blocks, as `emplace` does it;
* `TrackedCall`, `new_allocation_iff`: the entry of a new block says what this call was, unless
  there is a stale entry of another call.
-/

namespace BugInsight

/-- The hooks of the allocating functions, with the arguments that they use. -/
inductive AllocHook
  | biMalloc (size : ℕ) | biMallocDbg (size : ℕ)
  | biCalloc (num size : ℕ) | biCallocDbg (num size : ℕ)
  | biGetcwd (buffer : ℕ) | biGetcwdDbg (buffer : ℕ)
  | wgetcwd (buffer : ℕ) | biWgetcwdDbg (buffer : ℕ)
  | biGetdcwd (buffer : ℕ) | biGetdcwdDbg (buffer : ℕ)
  | biWgetdcwd (buffer : ℕ) | biWgetdcwdDbg (buffer : ℕ)
  | biTempnam | biTempnamDbg | biWtempnam | biWtempnamDbg
  | biDupenvS | biDupenvSDbg | biWdupenvS | biWdupenvDbgS
  | biFullpath (buffer : ℕ) | biFullpathDbg (buffer : ℕ)
  | biWfullpath (buffer : ℕ) | biWfullpathDbg (buffer : ℕ)
  | biStrdup | biWcsdup | biStrdupDbg | biWcsdupDbg
  | biAlignedMalloc (size : ℕ) | biAlignedMallocDbg (size : ℕ)
  | biAlignedOffsetMalloc (size : ℕ) | biAlignedOffsetMallocDbg (size : ℕ)
  | buginsightHeapalloc (hHeap dwBytes : ℕ)
  | buginsightGlobalalloc (uBytes : ℕ)
  | buginsightLocalalloc (uBytes : ℕ)
  | buginsightFormatmessagea (allocateBuffer : Bool)
  | buginsightFormatmessagew (allocateBuffer : Bool)
  | buginsightCommandLineToArgvW
  | buginsightCryptProtectData | buginsightCryptUnprotectData (ppszDataDescr : Bool)
  | buginsightConvertSidToStringSidW | buginsightConvertSidToStringSidA
  | buginsightConvertStringSidToSidW | buginsightConvertStringSidToSidA
  | buginsightGetNamedSecurityInfoW | buginsightGetNamedSecurityInfoA
  | buginsightSetEntriesInAclA | buginsightSetEntriesInAclW
  | buginsightAllocateAndInitializeSid
  | buginsightGetSecurityInfo (ppSecurityDescriptor : Bool)
  | buginsightStrDupA | buginsightStrDupW
  deriving DecidableEq

namespace AllocHook

/-- The hook. -/
def hook : AllocHook → Hook
  | biMalloc size => Monitors.biMalloc size
  | biMallocDbg size => Monitors.biMallocDbg size
  | biCalloc num size => Monitors.biCalloc num size
  | biCallocDbg num size => Monitors.biCallocDbg num size
  | biGetcwd buffer => Monitors.biGetcwd buffer
  | biGetcwdDbg buffer => Monitors.biGetcwdDbg buffer
  | wgetcwd buffer => Monitors.wgetcwd buffer
  | biWgetcwdDbg buffer => Monitors.biWgetcwdDbg buffer
  | biGetdcwd buffer => Monitors.biGetdcwd buffer
  | biGetdcwdDbg buffer => Monitors.biGetdcwdDbg buffer
  | biWgetdcwd buffer => Monitors.biWgetdcwd buffer
  | biWgetdcwdDbg buffer => Monitors.biWgetdcwdDbg buffer
  | biTempnam => Monitors.biTempnam
  | biTempnamDbg => Monitors.biTempnamDbg
  | biWtempnam => Monitors.biWtempnam
  | biWtempnamDbg => Monitors.biWtempnamDbg
  | biDupenvS => Monitors.biDupenvS
  | biDupenvSDbg => Monitors.biDupenvSDbg
  | biWdupenvS => Monitors.biWdupenvS
  | biWdupenvDbgS => Monitors.biWdupenvDbgS
  | biFullpath buffer => Monitors.biFullpath buffer
  | biFullpathDbg buffer => Monitors.biFullpathDbg buffer
  | biWfullpath buffer => Monitors.biWfullpath buffer
  | biWfullpathDbg buffer => Monitors.biWfullpathDbg buffer
  | biStrdup => Monitors.biStrdup
  | biWcsdup => Monitors.biWcsdup
  | biStrdupDbg => Monitors.biStrdupDbg
  | biWcsdupDbg => Monitors.biWcsdupDbg
  | biAlignedMalloc size => Monitors.biAlignedMalloc size
  | biAlignedMallocDbg size => Monitors.biAlignedMallocDbg size
  | biAlignedOffsetMalloc size => Monitors.biAlignedOffsetMalloc size
  | biAlignedOffsetMallocDbg size => Monitors.biAlignedOffsetMallocDbg size
  | buginsightHeapalloc hHeap dwBytes => Monitors.buginsightHeapalloc hHeap dwBytes
  | buginsightGlobalalloc uBytes => Monitors.buginsightGlobalalloc uBytes
  | buginsightLocalalloc uBytes => Monitors.buginsightLocalalloc uBytes
  | buginsightFormatmessagea allocateBuffer => Monitors.buginsightFormatmessagea allocateBuffer
  | buginsightFormatmessagew allocateBuffer => Monitors.buginsightFormatmessagew allocateBuffer
  | buginsightCommandLineToArgvW => Monitors.buginsightCommandLineToArgvW
  | buginsightCryptProtectData => Monitors.buginsightCryptProtectData
  | buginsightCryptUnprotectData ppszDataDescr =>
      Monitors.buginsightCryptUnprotectData ppszDataDescr
  | buginsightConvertSidToStringSidW => Monitors.buginsightConvertSidToStringSidW
  | buginsightConvertSidToStringSidA => Monitors.buginsightConvertSidToStringSidA
  | buginsightConvertStringSidToSidW => Monitors.buginsightConvertStringSidToSidW
  | buginsightConvertStringSidToSidA => Monitors.buginsightConvertStringSidToSidA
  | buginsightGetNamedSecurityInfoW => Monitors.buginsightGetNamedSecurityInfoW
  | buginsightGetNamedSecurityInfoA => Monitors.buginsightGetNamedSecurityInfoA
  | buginsightSetEntriesInAclA => Monitors.buginsightSetEntriesInAclA
  | buginsightSetEntriesInAclW => Monitors.buginsightSetEntriesInAclW
  | buginsightAllocateAndInitializeSid => Monitors.buginsightAllocateAndInitializeSid
  | buginsightGetSecurityInfo ppSecurityDescriptor =>
      Monitors.buginsightGetSecurityInfo ppSecurityDescriptor
  | buginsightStrDupA => Monitors.buginsightStrDupA
  | buginsightStrDupW => Monitors.buginsightStrDupW

/-- The family of the function that frees the block. -/
def family : AllocHook → ApiFamily
  | biAlignedMalloc _ | biAlignedMallocDbg _ | biAlignedOffsetMalloc _
  | biAlignedOffsetMallocDbg _ => .alignedMalloc
  | buginsightHeapalloc _ _ => .heapApi
  | buginsightGlobalalloc _ => .globalAlloc
  | buginsightLocalalloc _ | buginsightFormatmessagea _ | buginsightFormatmessagew _
  | buginsightCommandLineToArgvW | buginsightCryptProtectData | buginsightCryptUnprotectData _
  | buginsightConvertSidToStringSidW | buginsightConvertSidToStringSidA
  | buginsightConvertStringSidToSidW | buginsightConvertStringSidToSidA
  | buginsightGetNamedSecurityInfoW | buginsightGetNamedSecurityInfoA
  | buginsightSetEntriesInAclA | buginsightSetEntriesInAclW
  | buginsightAllocateAndInitializeSid | buginsightGetSecurityInfo _
  | buginsightStrDupA | buginsightStrDupW => .localAlloc
  | _ => .malloc

/-- The function that is hooked. -/
def function : AllocHook → ApiFunction
  | biMalloc _ => .malloc
  | biMallocDbg _ => .mallocDbg
  | biCalloc _ _ => .calloc
  | biCallocDbg _ _ => .callocDbg
  | biGetcwd _ => .getcwd
  | biGetcwdDbg _ => .getcwdDbg
  | wgetcwd _ => .wgetcwd
  | biWgetcwdDbg _ => .wgetcwdDbg
  | biGetdcwd _ => .getdcwd
  | biGetdcwdDbg _ => .getdcwdDbg
  | biWgetdcwd _ => .wgetdcwd
  | biWgetdcwdDbg _ => .wgetdcwdDbg
  | biTempnam => .tempnam
  | biTempnamDbg => .tempnamDbg
  | biWtempnam => .wtempnam
  | biWtempnamDbg => .wtempnamDbg
  | biDupenvS => .dupenvS
  | biDupenvSDbg => .dupenvSDbg
  | biWdupenvS => .wdupenvS
  | biWdupenvDbgS => .wdupenvSDbg
  | biFullpath _ => .fullpath
  | biFullpathDbg _ => .fullpathDbg
  | biWfullpath _ => .wfullpath
  | biWfullpathDbg _ => .wfullpathDbg
  | biStrdup => .strdup
  | biWcsdup => .wcsdup
  | biStrdupDbg => .strdupDbg
  | biWcsdupDbg => .wcsdupDbg
  | biAlignedMalloc _ => .alignedMalloc
  | biAlignedMallocDbg _ => .alignedMallocDbg
  | biAlignedOffsetMalloc _ => .alignedOffsetMalloc
  | biAlignedOffsetMallocDbg _ => .alignedOffsetMallocDbg
  | buginsightHeapalloc _ _ => .heapAlloc
  | buginsightGlobalalloc _ => .globalAlloc
  | buginsightLocalalloc _ => .localAlloc
  | buginsightFormatmessagea _ => .formatMessageA
  | buginsightFormatmessagew _ => .formatMessageW
  | buginsightCommandLineToArgvW => .commandLineToArgvW
  | buginsightCryptProtectData => .cryptProtectData
  | buginsightCryptUnprotectData _ => .cryptUnprotectData
  | buginsightConvertSidToStringSidW => .convertSidToStringSidW
  | buginsightConvertSidToStringSidA => .convertSidToStringSidA
  | buginsightConvertStringSidToSidW => .convertStringSidToSidW
  | buginsightConvertStringSidToSidA => .convertStringSidToSidA
  | buginsightGetNamedSecurityInfoW => .getNamedSecurityInfoW
  | buginsightGetNamedSecurityInfoA => .getNamedSecurityInfoA
  | buginsightSetEntriesInAclA => .setEntriesInAclA
  | buginsightSetEntriesInAclW => .setEntriesInAclW
  | buginsightAllocateAndInitializeSid => .allocateAndInitializeSid
  | buginsightGetSecurityInfo _ => .getSecurityInfo
  | buginsightStrDupA => .strDupA
  | buginsightStrDupW => .strDupW

/-- The heap of the heap API that the block is in, `0` for the other functions. -/
def heap : AllocHook → ℕ
  | buginsightHeapalloc hHeap _ => hHeap
  | _ => 0

/-- The new blocks of a call, with their sizes: a block that is returned, or one that is written
through an out-parameter. -/
def blocks (res : ApiResult) : AllocHook → List (ℕ × ℕ)
  | biMalloc size | biMallocDbg size | biAlignedMalloc size | biAlignedMallocDbg size
  | biAlignedOffsetMalloc size | biAlignedOffsetMallocDbg size | buginsightHeapalloc _ size
  | buginsightGlobalalloc size | buginsightLocalalloc size => returned size
  | biCalloc num size | biCallocDbg num size => returned (num * size % 2 ^ 64)
  | biGetcwd buffer | biGetcwdDbg buffer | biGetdcwd buffer | biGetdcwdDbg buffer
  | biFullpath buffer | biFullpathDbg buffer =>
      if buffer = nullptr then returned (res.size + 1) else []
  | wgetcwd buffer | biWgetcwdDbg buffer | biWgetdcwd buffer | biWgetdcwdDbg buffer
  | biWfullpath buffer | biWfullpathDbg buffer =>
      if buffer = nullptr then returned ((res.size + 1) * 2 % 2 ^ 64) else []
  | biTempnam | biTempnamDbg | biStrdup | biStrdupDbg => returned (res.size + 1)
  | biWtempnam | biWtempnamDbg | biWcsdup | biWcsdupDbg =>
      returned ((res.size + 1) * 2 % 2 ^ 64)
  | buginsightCommandLineToArgvW | buginsightStrDupA | buginsightStrDupW => returned res.size
  | biDupenvS | biDupenvSDbg | buginsightCryptProtectData
  | buginsightConvertSidToStringSidW | buginsightConvertSidToStringSidA
  | buginsightConvertStringSidToSidW | buginsightConvertStringSidToSidA
  | buginsightGetNamedSecurityInfoW | buginsightGetNamedSecurityInfoA
  | buginsightSetEntriesInAclA | buginsightSetEntriesInAclW
  | buginsightAllocateAndInitializeSid => written true res.size
  | biWdupenvS | biWdupenvDbgS => written true (res.size * 2 % 2 ^ 64)
  | buginsightFormatmessagea allocateBuffer => written allocateBuffer (res.size + 1)
  | buginsightFormatmessagew allocateBuffer =>
      written allocateBuffer ((res.size + 1) * 2 % 2 ^ 64)
  | buginsightGetSecurityInfo ppSecurityDescriptor => written ppSecurityDescriptor res.size
  | buginsightCryptUnprotectData ppszDataDescr =>
      (if res.ok ∧ ppszDataDescr then [(res.dataDescr, res.dataDescrSize)] else []) ++
        written true res.size
where
  /-- A block that is returned. -/
  returned (size : ℕ) : List (ℕ × ℕ) :=
    if res.p = nullptr then [] else [(res.p, size)]
  /-- A block that is written through an out-parameter, if one is requested. -/
  written (requested : Bool) (size : ℕ) : List (ℕ × ℕ) :=
    if res.ok ∧ requested then [(res.p, size)] else []

/-- The entries of the new blocks of a call. -/
def tracked (res : ApiResult) (a : AllocHook) : List ((ℕ × ℕ) × LeakData) :=
  (a.blocks res).map fun b => ((a.heap, b.1), ⟨b.2, a.family, a.function⟩)

end AllocHook

namespace MemoryLeakRepository

/-- `emplace` for some entries, one after the other. -/
def emplaceAll (r : MemoryLeakRepository) (l : List ((ℕ × ℕ) × LeakData)) :
    MemoryLeakRepository :=
  l.foldl (fun r e => r.emplace e.1 e.2) r

variable (r : MemoryLeakRepository) {k k' : ℕ × ℕ} {d : LeakData}
  {l : List ((ℕ × ℕ) × LeakData)}

/-- An entry that is there already stays as it is. -/
theorem lookup_emplace_self : (r.emplace k d).lookup k = (r.lookup k).or (some d) := by
  unfold emplace
  split_ifs with hk
  · obtain ⟨d', hd'⟩ := Option.isSome_iff_exists.1 (AList.lookup_isSome.2 hk)
    rw [hd', Option.some_or]
  · rw [AList.lookup_insert, AList.lookup_eq_none.2 hk, Option.none_or]

theorem lookup_emplace_of_ne (hk : k' ≠ k) : (r.emplace k d).lookup k' = r.lookup k' := by
  unfold emplace
  split_ifs
  · rfl
  · exact AList.lookup_insert_ne hk

theorem lookup_emplaceAll_of_notMem (hk : k ∉ l.map Prod.fst) :
    (r.emplaceAll l).lookup k = r.lookup k := by
  induction l generalizing r with
  | nil => rfl
  | cons e l ih =>
    rw [List.map_cons, List.mem_cons, not_or] at hk
    exact (ih (r.emplace e.1 e.2) hk.2).trans (r.lookup_emplace_of_ne hk.1)

/-- One of several entries with different keys. -/
theorem lookup_emplaceAll_of_mem (hl : (l.map Prod.fst).Nodup) (hk : (k, d) ∈ l) :
    (r.emplaceAll l).lookup k = (r.lookup k).or (some d) := by
  induction l generalizing r with
  | nil => cases hk
  | cons e l ih =>
    obtain ⟨hnew, hl⟩ := List.nodup_cons.1 hl
    rcases List.mem_cons.1 hk with rfl | hk
    · exact (lookup_emplaceAll_of_notMem _ hnew).trans r.lookup_emplace_self
    · refine (ih (r.emplace e.1 e.2) hl hk).trans ?_
      rw [r.lookup_emplace_of_ne]
      rintro rfl
      exact hnew (List.mem_map.2 ⟨_, hk, rfl⟩)

end MemoryLeakRepository

namespace AllocHook

variable (t : ℕ) (res : ApiResult) (r : MemoryLeakRepository)

section Parts

variable (size : ApiResult → ℕ) (family : ApiFamily) (function : ApiFunction)

/-- The entries of new blocks that are not in a heap of the heap API. -/
def entries (bs : List (ℕ × ℕ)) : List ((ℕ × ℕ) × LeakData) :=
  bs.map fun b => ((0, b.1), ⟨b.2, family, function⟩)

theorem trackPointer_eq : (Monitors.trackPointer size family function).run t res r =
    (r.emplaceAll (entries family function (blocks.returned res (size res))), []) := by
  rw [Monitors.run_trackPointer]
  unfold blocks.returned
  split_ifs
  · rfl
  · rfl

theorem trackNewBuffer_eq (buffer : ℕ) :
    (Monitors.trackNewBuffer buffer size function).run t res r =
      (r.emplaceAll (entries .malloc function
        (if buffer = nullptr then blocks.returned res (size res) else [])), []) := by
  rw [Monitors.run_trackNewBuffer]
  unfold blocks.returned
  by_cases hb : buffer = nullptr
  · rw [if_pos hb]
    simp only [hb, ne_eq, not_true_eq_false, or_false]
    split_ifs
    · rfl
    · rfl
  · rw [if_neg hb, if_pos (Or.inr hb)]
    rfl

theorem trackOutParam_eq : (Monitors.trackOutParam size family function).run t res r =
    (r.emplaceAll (entries family function (blocks.written res true (size res))), []) := by
  rw [Monitors.run_trackOutParam]
  unfold blocks.written
  cases res.ok
  · rfl
  · rfl

theorem formatMessage_eq (allocateBuffer : Bool) :
    (Monitors.formatMessage allocateBuffer size function).run t res r =
      (r.emplaceAll (entries .localAlloc function
        (blocks.written res allocateBuffer (size res))), []) := by
  rw [Monitors.run_formatMessage]
  unfold blocks.written
  split_ifs
  · rfl
  · rfl

end Parts

/-- **What a hook does**: it adds the new blocks. -/
theorem run_eq (a : AllocHook) : a.hook.run t res r = (r.emplaceAll (a.tracked res), []) := by
  cases a with
  | biMalloc | biMallocDbg | biCalloc | biCallocDbg | biTempnam | biTempnamDbg | biWtempnam
  | biWtempnamDbg | biStrdup | biWcsdup | biStrdupDbg | biWcsdupDbg | biAlignedMalloc
  | biAlignedMallocDbg | biAlignedOffsetMalloc | biAlignedOffsetMallocDbg
  | buginsightGlobalalloc | buginsightLocalalloc | buginsightCommandLineToArgvW
  | buginsightStrDupA | buginsightStrDupW => exact trackPointer_eq ..
  | biGetcwd | biGetcwdDbg | wgetcwd | biWgetcwdDbg | biGetdcwd | biGetdcwdDbg | biWgetdcwd
  | biWgetdcwdDbg | biFullpath | biFullpathDbg | biWfullpath | biWfullpathDbg =>
    exact trackNewBuffer_eq ..
  | biDupenvS | biDupenvSDbg | biWdupenvS | biWdupenvDbgS | buginsightCryptProtectData
  | buginsightConvertSidToStringSidW | buginsightConvertSidToStringSidA
  | buginsightConvertStringSidToSidW | buginsightConvertStringSidToSidA
  | buginsightGetNamedSecurityInfoW | buginsightGetNamedSecurityInfoA
  | buginsightSetEntriesInAclA | buginsightSetEntriesInAclW
  | buginsightAllocateAndInitializeSid => exact trackOutParam_eq ..
  | buginsightFormatmessagea | buginsightFormatmessagew | buginsightGetSecurityInfo =>
    exact formatMessage_eq ..
  | buginsightHeapalloc hHeap dwBytes =>
    refine (Monitors.run_buginsightHeapalloc ..).trans ?_
    unfold tracked blocks blocks.returned
    split_ifs
    · rfl
    · rfl
  | buginsightCryptUnprotectData ppszDataDescr =>
    refine (Monitors.run_buginsightCryptUnprotectData ..).trans ?_
    unfold tracked blocks blocks.written
    cases res.ok
    · rfl
    · cases ppszDataDescr <;> rfl

end AllocHook

namespace ReallocHook

/-- The family of the function that frees the block. -/
def family : ReallocHook → ApiFamily
  | biAlignedOffsetRealloc | biAlignedOffsetReallocDbg | biAlignedOffsetRecalloc
  | biAlignedOffsetRecallocDbg | biAlignedRealloc | biAlignedReallocDbg | biAlignedRecalloc
  | biAlignedRecallocDbg => .alignedMalloc
  | buginsightHeaprepalloc => .heapApi
  | buginsightGlobalrealloc => .globalAlloc
  | buginsightLocalrealloc => .localAlloc
  | _ => .malloc

/-- The function that is hooked. -/
def function : ReallocHook → ApiFunction
  | biRealloc => .realloc
  | biReallocDbg => .reallocDbg
  | biRecalloc => .recalloc
  | biRecallocDbg => .recallocDbg
  | biExpand => .expand
  | biExpandDbg => .expandDbg
  | biAlignedOffsetRealloc => .alignedOffsetRealloc
  | biAlignedOffsetReallocDbg => .alignedOffsetReallocDbg
  | biAlignedOffsetRecalloc => .alignedOffsetRecalloc
  | biAlignedOffsetRecallocDbg => .alignedOffsetRecallocDbg
  | biAlignedRealloc => .alignedRealloc
  | biAlignedReallocDbg => .alignedReallocDbg
  | biAlignedRecalloc => .alignedRecalloc
  | biAlignedRecallocDbg => .alignedRecallocDbg
  | buginsightHeaprepalloc => .heapReAlloc
  | buginsightGlobalrealloc => .globRealloc
  | buginsightLocalrealloc => .localRealloc

/-- The entry of the block that is returned. -/
def data (num size : ℕ) (h : ReallocHook) : LeakData where
  size := if h.isRecalloc then num * size % 2 ^ 64 else size
  apiFamily := h.family
  apiFunction := h.function

/-- The repository without the block that the hook was called with. -/
def before (hHeap memblock : ℕ) (r : MemoryLeakRepository) : ReallocHook → MemoryLeakRepository
  | buginsightHeaprepalloc => Monitors.forgetHeap r hHeap memblock
  | _ => r.forget 0 memblock

/-- **The repository if a block is returned.** -/
theorem run_new (h : ReallocHook) (t hHeap memblock num size : ℕ) (res : ApiResult)
    (r : MemoryLeakRepository) (hres : res.p ≠ nullptr) :
    ((h.hook hHeap memblock num size).run t res r).1 =
      (h.before hHeap memblock r).emplace (h.key hHeap res.p) (h.data num size) := by
  have hnew : ∀ family checked function total likeFree,
      ((Monitors.reallocate family checked function memblock total likeFree).run t res r).1 =
        (r.forget 0 memblock).emplace (0, res.p) ⟨total, family, function⟩ :=
    fun family checked function total likeFree => by
      rw [Monitors.run_reallocate, if_neg hres]
      rfl
  cases h with
  | buginsightLocalrealloc =>
    exact (congrArg Prod.fst (Monitors.run_buginsightLocalrealloc ..)).trans (if_neg hres)
  | buginsightHeaprepalloc =>
    exact (congrArg Prod.fst (Monitors.run_buginsightHeaprepalloc ..)).trans (if_neg hres)
  | biRealloc | biReallocDbg | biRecalloc | biRecallocDbg | biExpand | biExpandDbg
  | biAlignedOffsetRealloc | biAlignedOffsetReallocDbg | biAlignedOffsetRecalloc
  | biAlignedOffsetRecallocDbg | biAlignedRealloc | biAlignedReallocDbg | biAlignedRecalloc
  | biAlignedRecallocDbg | buginsightGlobalrealloc => exact hnew ..

end ReallocHook

/-- A call of a hook that may return a new block. -/
inductive TrackedCall
  | alloc (a : AllocHook)
  | realloc (h : ReallocHook) (hHeap memblock num size : ℕ)

namespace TrackedCall

/-- The hook, not interrupted. -/
def run (t : ℕ) (res : ApiResult) (r : MemoryLeakRepository) : TrackedCall → MemoryLeakRepository
  | alloc a => (a.hook.run t res r).1
  | realloc h hHeap memblock num size => ((h.hook hHeap memblock num size).run t res r).1

/-- The entries of the new blocks. -/
def tracked (res : ApiResult) : TrackedCall → List ((ℕ × ℕ) × LeakData)
  | alloc a => a.tracked res
  | realloc h hHeap _ num size =>
      if res.p = nullptr then [] else [(h.key hHeap res.p, h.data num size)]

/-- The key of the block that is reallocated. -/
def old : TrackedCall → Option (ℕ × ℕ)
  | alloc _ => none
  | realloc h hHeap memblock _ _ => some (h.key hHeap memblock)

/-- The repository without the block that is reallocated. -/
def before (r : MemoryLeakRepository) : TrackedCall → MemoryLeakRepository
  | alloc _ => r
  | realloc h hHeap memblock _ _ => h.before hHeap memblock r

variable {c : TrackedCall} {t : ℕ} {res : ApiResult} {r : MemoryLeakRepository} {k : ℕ × ℕ}
  {d : LeakData}

/-- **What a call does** that returns a block. -/
theorem run_eq (hk : (k, d) ∈ c.tracked res) :
    c.run t res r = (c.before r).emplaceAll (c.tracked res) := by
  cases c with
  | alloc a => exact congrArg Prod.fst (AllocHook.run_eq t res r a)
  | realloc h hHeap memblock num size =>
    simp only [tracked] at hk ⊢
    by_cases hp : res.p = nullptr
    · rw [if_pos hp] at hk
      cases hk
    · rw [if_neg hp]
      exact h.run_new t hHeap memblock num size res r hp

theorem lookup_before (hk : c.old ≠ some k) : (c.before r).lookup k = r.lookup k := by
  cases c with
  | alloc a => rfl
  | realloc h hHeap memblock num size =>
    have hk' : k ≠ h.key hHeap memblock := fun hc => hk (congrArg some hc.symm)
    cases h with
    | buginsightHeaprepalloc =>
      show (Monitors.forgetHeap r hHeap memblock).lookup k = r.lookup k
      unfold Monitors.forgetHeap
      split_ifs
      · rfl
      · exact r.lookup_forget_of_ne hk'
    | _ => exact r.lookup_forget_of_ne hk'

end TrackedCall

/-- **A new allocation**, and a new block of a reallocation, gets an entry with the size, the family
and the function of this call, and leaves the entries of all other blocks alone, exactly if there is
no entry of another call under its key (apart from the block that is reallocated).  The blocks that
one call returns are different. -/
theorem new_allocation_iff (c : TrackedCall) (t : ℕ) (res : ApiResult) (r : MemoryLeakRepository)
    (k : ℕ × ℕ) (d : LeakData) (hdistinct : ((c.tracked res).map Prod.fst).Nodup)
    (hk : (k, d) ∈ c.tracked res) :
    ((c.run t res r).getData k = some d ∧
      ∀ k', k' ∉ (c.tracked res).map Prod.fst → c.old ≠ some k' →
        (c.run t res r).getData k' = r.getData k') ↔
      ∀ d', (c.before r).getData k = some d' → d' = d := by
  have hself : (c.run t res r).getData k = ((c.before r).getData k).or (some d) := by
    rw [TrackedCall.run_eq hk]
    exact MemoryLeakRepository.lookup_emplaceAll_of_mem _ hdistinct hk
  have hothers : ∀ k', k' ∉ (c.tracked res).map Prod.fst → c.old ≠ some k' →
      (c.run t res r).getData k' = r.getData k' := by
    intro k' hk' hold
    rw [TrackedCall.run_eq hk]
    exact (MemoryLeakRepository.lookup_emplaceAll_of_notMem _ hk').trans
      (TrackedCall.lookup_before hold)
  rw [and_iff_left hothers, hself]
  cases (c.before r).getData k with
  | none => simp
  | some d' => simp

/-- A `realloc` that keeps its address, while the repository has a block of a heap at `32`. -/
theorem new_allocation_iff_realloc :
    ((TrackedCall.realloc .biRealloc 0 16 0 80).run 1 { p := 16 }
        (((∅ : MemoryLeakRepository).addHeap 5 32 4 .heapAlloc).add 16 8 .malloc .malloc)).getData
          (0, 16) = some ⟨80, .malloc, .realloc⟩ ∧
      ∀ k', k' ∉ [(0, 16)] → some (0, 16) ≠ some k' →
        ((TrackedCall.realloc .biRealloc 0 16 0 80).run 1 { p := 16 }
          (((∅ : MemoryLeakRepository).addHeap 5 32 4 .heapAlloc).add 16 8 .malloc .malloc)).getData
            k' =
        (((∅ : MemoryLeakRepository).addHeap 5 32 4 .heapAlloc).add 16 8 .malloc .malloc).getData
          k' :=
  (new_allocation_iff (.realloc .biRealloc 0 16 0 80) 1 { p := 16 }
    (((∅ : MemoryLeakRepository).addHeap 5 32 4 .heapAlloc).add 16 8 .malloc .malloc) (0, 16)
    ⟨80, .malloc, .realloc⟩ (by decide) (by decide)).2 (by
      have hnone : ((TrackedCall.realloc .biRealloc 0 16 0 80).before
          (((∅ : MemoryLeakRepository).addHeap 5 32 4 .heapAlloc).add 16 8 .malloc
            .malloc)).getData (0, 16) = none := by decide +kernel
      rw [hnone]
      nofun)

/-- A block of `LocalAlloc` was freed by a module that is not monitored, and `malloc` returns its
address: the entry stays the one of `LocalAlloc`. -/
theorem new_allocation_stale :
    ((TrackedCall.alloc (.biMalloc 8)).run 1 { p := 16 }
      ((TrackedCall.alloc (.buginsightLocalalloc 4)).run 1 { p := 16 } ∅)).getData (0, 16) =
        some ⟨4, .localAlloc, .localAlloc⟩ := by
  decide +kernel

end BugInsight

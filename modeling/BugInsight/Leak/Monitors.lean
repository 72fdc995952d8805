import BugInsight.Leak.Repository
import BugInsight.Programs

/-!
# The allocation monitors

The hooks of `malloc_monitor.hpp`, `strdup_monitor.hpp`, `_aligned_malloc_monitor.hpp`,
`heap_monitor.cpp`, `globalalloc_monitor.cpp` and `local_alloc_monitor.cpp`, as programs whose
operations are the call of the underlying function, the check of an address, `erase` and `add`.
`ApiResult` is what the underlying function did; arguments that the hooks only pass on are left out.

Hooks that differ in their constants only are instances of `trackPointer`, `trackNewBuffer`,
`trackOutParam`, `reallocate` and `release`.
-/

namespace BugInsight

open Programs

/-- What an underlying function returned, and wrote through its pointers. -/
structure ApiResult where
  /-- the return value means success, for a function that does not return the block -/
  ok : Bool := true
  /-- the block that is returned, or written through an out-parameter -/
  p : ℕ := nullptr
  /-- the length of the string in the block (without the terminating zero), `*_BufferCount`, or
  `LocalSize` of the block -/
  size : ℕ := 0
  /-- the string that `CryptUnprotectData` writes through `ppszDataDescr`, and its `LocalSize` -/
  dataDescr : ℕ := nullptr
  dataDescrSize : ℕ := 0
  deriving DecidableEq

/-- The operations of a hook. -/
inductive LeakOp
  /-- `log_or_abort_if_memory_adddress_is_unknown` -/
  | check (function : ApiFunction) (family : ApiFamily) (block : ℕ)
  /-- `log_or_abort_if_heapalloc_memory_adddress_is_unknown` -/
  | checkHeap (function : ApiFunction) (heap block : ℕ)
  /-- the underlying function -/
  | real
  | erase (heap key : ℕ)
  | add (key size : ℕ) (family : ApiFamily) (function : ApiFunction)
  | addHeap (heap mem size : ℕ) (function : ApiFunction)

/-- The results of the operations. -/
def LeakOp.Res : LeakOp → Type
  | .check _ _ _ | .checkHeap _ _ _ => Bool
  | .real => ApiResult
  | .erase _ _ | .add _ _ _ _ | .addHeap _ _ _ _ => Unit

/-- What the hooks share: the repository, and the errors reported so far. -/
structure Monitored where
  repo : MemoryLeakRepository
  log : List Report

/-- What an operation does, in a hook that a thread calls and whose underlying function has a given
result. -/
def LeakOp.perform (threadId : ℕ) (res : ApiResult) : (o : LeakOp) → Monitored → o.Res × Monitored
  | .check function family block, s =>
      let found := logOrAbortIfMemoryAddressIsUnknown s.repo threadId block family function
      (found.1, { s with log := s.log ++ found.2.toList })
  | .checkHeap function heap block, s =>
      let found := logOrAbortIfHeapallocMemoryAddressIsUnknown s.repo threadId heap block function
      (found.1, { s with log := s.log ++ found.2.toList })
  | .real, s => (res, s)
  | .erase heap key, s => ((), { s with repo := s.repo.erase (heap, key) })
  | .add key size family function, s =>
      ((), { s with repo := s.repo.add key size family function })
  | .addHeap heap mem size function, s =>
      ((), { s with repo := s.repo.addHeap heap mem size function })

/-- The program that performs one operation. -/
def LeakOp.program (o : LeakOp) : Program LeakOp LeakOp.Res o.Res := .perform o

/-- A hook. -/
abbrev Hook := Program LeakOp LeakOp.Res Unit

/-- A hook that is not interrupted, from the repository alone. -/
def Hook.run (h : Hook) (threadId : ℕ) (res : ApiResult) (r : MemoryLeakRepository) :
    MemoryLeakRepository × List Report :=
  let s := (h.exec (LeakOp.perform threadId res) ⟨r, []⟩).2
  (s.repo, s.log)

/-- One operation after some reports. -/
theorem LeakOp.perform_append (t : ℕ) (res : ApiResult) (o : LeakOp) (r : MemoryLeakRepository)
    (l₁ l₂ : List Report) :
    o.perform t res ⟨r, l₁ ++ l₂⟩ = ((o.perform t res ⟨r, l₂⟩).1,
      { (o.perform t res ⟨r, l₂⟩).2 with log := l₁ ++ (o.perform t res ⟨r, l₂⟩).2.log }) := by
  cases o with
  | check | checkHeap =>
    dsimp only [LeakOp.perform]
    rw [List.append_assoc]
  | real | erase | add | addHeap => rfl

/-- The reports of earlier hooks stay in front, and change nothing. -/
theorem Hook.exec_append (t : ℕ) (res : ApiResult) (r : MemoryLeakRepository)
    (l₁ l₂ : List Report) (h : Hook) :
    (h.exec (LeakOp.perform t res) ⟨r, l₁ ++ l₂⟩).2 =
      { (h.exec (LeakOp.perform t res) ⟨r, l₂⟩).2 with
        log := l₁ ++ (h.exec (LeakOp.perform t res) ⟨r, l₂⟩).2.log } := by
  induction h generalizing r l₂ with
  | pure u => rfl
  | op o next ih =>
    simp only [Program.exec]
    rw [LeakOp.perform_append]
    exact ih _ _ _

namespace Monitors

/-! ### The parts of hooks -/

/-- The underlying function. -/
def real : Program LeakOp LeakOp.Res ApiResult := LeakOp.program .real

/-- `log_or_abort_if_memory_adddress_is_unknown`. -/
def check (function : ApiFunction) (family : ApiFamily) (block : ℕ) :
    Program LeakOp LeakOp.Res Bool := LeakOp.program (.check function family block)

/-- `log_or_abort_if_heapalloc_memory_adddress_is_unknown`. -/
def checkHeap (function : ApiFunction) (heap block : ℕ) : Program LeakOp LeakOp.Res Bool :=
  LeakOp.program (.checkHeap function heap block)

def erase (key : ℕ) : Hook := LeakOp.program (.erase 0 key)

def eraseHeap (heap key : ℕ) : Hook := LeakOp.program (.erase heap key)

def add (key size : ℕ) (family : ApiFamily) (function : ApiFunction) : Hook :=
  LeakOp.program (.add key size family function)

def addHeap (heap mem size : ℕ) (function : ApiFunction) : Hook :=
  LeakOp.program (.addHeap heap mem size function)

/-- The check of the address that a hook is called with, unless it is `NULL`. -/
def checkGiven (function : ApiFunction) (family : ApiFamily) (block : ℕ) :
    Program LeakOp LeakOp.Res Bool :=
  if block ≠ nullptr then check function family block else pure false

/-- A product of type `size_t`. -/
def mulSize (a b : ℕ) : ℕ := a * b % 2 ^ 64

/-- `sizeof(wchar_t)`. -/
def sizeofWchar : ℕ := 2

/-- Hooks of functions that return a new block. -/
def trackPointer (size : ApiResult → ℕ) (family : ApiFamily) (function : ApiFunction) : Hook := do
  let res ← real
  if res.p = nullptr then pure () else add res.p (size res) family function

/-- Hooks of functions that return a new block unless they are given a buffer. -/
def trackNewBuffer (buffer : ℕ) (size : ApiResult → ℕ) (function : ApiFunction) : Hook := do
  let res ← real
  if res.p = nullptr ∨ buffer ≠ nullptr then pure () else add res.p (size res) .malloc function

/-- Hooks of functions that return a new block through an out-parameter. -/
def trackOutParam (size : ApiResult → ℕ) (family : ApiFamily) (function : ApiFunction) : Hook := do
  let res ← real
  if res.ok then add res.p (size res) family function else pure ()

/-- Hooks of reallocating functions.  `likeFree` says whether the function that returns `NULL` has
freed the block. -/
def reallocate (family : ApiFamily) (checked function : ApiFunction) (memblock size : ℕ)
    (likeFree : Bool) : Hook := do
  let foundAddress ← checkGiven checked family memblock
  let res ← real
  if res.p = nullptr then
    if memblock ≠ nullptr ∧ likeFree ∧ foundAddress then erase memblock else pure ()
  else do
    if foundAddress then erase memblock else pure ()
    add res.p size family function

/-- Hooks of freeing functions. -/
def release (family : ApiFamily) (function : ApiFunction) (block : ℕ) : Hook := do
  if block = nullptr then
    let _ ← real
    pure ()
  else
    let foundAddress ← check function family block
    if foundAddress then erase block else pure ()
    let _ ← real
    pure ()

/-- The size of the string in the block, in characters of one byte. -/
def strSize (res : ApiResult) : ℕ := res.size + 1

/-- The size of the string in the block, in wide characters. -/
def wcsSize (res : ApiResult) : ℕ := mulSize (res.size + 1) sizeofWchar

/-! ### `malloc_monitor_t` -/

def biMalloc (size : ℕ) : Hook := trackPointer (fun _ => size) .malloc .malloc

def biMallocDbg (size : ℕ) : Hook := trackPointer (fun _ => size) .malloc .mallocDbg

def biCalloc (num size : ℕ) : Hook := trackPointer (fun _ => mulSize num size) .malloc .calloc

def biCallocDbg (num size : ℕ) : Hook := trackPointer (fun _ => mulSize num size) .malloc .callocDbg

def biRealloc (memblock size : ℕ) : Hook :=
  reallocate .malloc .realloc .realloc memblock size (size == 0)

def biReallocDbg (block newSize : ℕ) : Hook :=
  reallocate .malloc .reallocDbg .reallocDbg block newSize (newSize == 0)

def biRecalloc (memblock num size : ℕ) : Hook :=
  reallocate .malloc .recalloc .recalloc memblock (mulSize num size) (size == 0)

def biRecallocDbg (memblock num size : ℕ) : Hook :=
  reallocate .malloc .recallocDbg .recallocDbg memblock (mulSize num size) (size == 0)

def biExpand (memblock size : ℕ) : Hook :=
  reallocate .malloc .expand .expand memblock size false

def biExpandDbg (userData newSize : ℕ) : Hook :=
  reallocate .malloc .expandDbg .expandDbg userData newSize false

def biGetcwd (buffer : ℕ) : Hook := trackNewBuffer buffer strSize .getcwd

def biGetcwdDbg (buffer : ℕ) : Hook := trackNewBuffer buffer strSize .getcwdDbg

def wgetcwd (buffer : ℕ) : Hook := trackNewBuffer buffer wcsSize .wgetcwd

def biWgetcwdDbg (buffer : ℕ) : Hook := trackNewBuffer buffer wcsSize .wgetcwdDbg

def biGetdcwd (buffer : ℕ) : Hook := trackNewBuffer buffer strSize .getdcwd

def biGetdcwdDbg (buffer : ℕ) : Hook := trackNewBuffer buffer strSize .getdcwdDbg

def biWgetdcwd (buffer : ℕ) : Hook := trackNewBuffer buffer wcsSize .wgetdcwd

def biWgetdcwdDbg (buffer : ℕ) : Hook := trackNewBuffer buffer wcsSize .wgetdcwdDbg

def biTempnam : Hook := trackPointer strSize .malloc .tempnam

def biTempnamDbg : Hook := trackPointer strSize .malloc .tempnamDbg

def biWtempnam : Hook := trackPointer wcsSize .malloc .wtempnam

def biWtempnamDbg : Hook := trackPointer wcsSize .malloc .wtempnamDbg

def biDupenvS : Hook := trackOutParam ApiResult.size .malloc .dupenvS

def biDupenvSDbg : Hook := trackOutParam ApiResult.size .malloc .dupenvSDbg

def biWdupenvS : Hook :=
  trackOutParam (fun res => mulSize res.size sizeofWchar) .malloc .wdupenvS

def biWdupenvDbgS : Hook :=
  trackOutParam (fun res => mulSize res.size sizeofWchar) .malloc .wdupenvSDbg

def biFullpath (buffer : ℕ) : Hook := trackNewBuffer buffer strSize .fullpath

def biFullpathDbg (buffer : ℕ) : Hook := trackNewBuffer buffer strSize .fullpathDbg

def biWfullpath (buffer : ℕ) : Hook := trackNewBuffer buffer wcsSize .wfullpath

def biWfullpathDbg (buffer : ℕ) : Hook := trackNewBuffer buffer wcsSize .wfullpathDbg

def biFree (pUser : ℕ) : Hook := release .malloc .free pUser

def biFreeDbg (userData : ℕ) : Hook := release .malloc .freeDbg userData

/-! ### `strdup_monitor_t` -/

def biStrdup : Hook := trackPointer strSize .malloc .strdup

def biWcsdup : Hook := trackPointer wcsSize .malloc .wcsdup

def biStrdupDbg : Hook := trackPointer strSize .malloc .strdupDbg

def biWcsdupDbg : Hook := trackPointer wcsSize .malloc .wcsdupDbg

/-! ### `_aligned_malloc_monitor_t` -/

def biAlignedMalloc (size : ℕ) : Hook :=
  trackPointer (fun _ => size) .alignedMalloc .alignedMalloc

def biAlignedMallocDbg (size : ℕ) : Hook :=
  trackPointer (fun _ => size) .alignedMalloc .alignedMallocDbg

def biAlignedOffsetMalloc (size : ℕ) : Hook :=
  trackPointer (fun _ => size) .alignedMalloc .alignedOffsetMalloc

def biAlignedOffsetMallocDbg (size : ℕ) : Hook :=
  trackPointer (fun _ => size) .alignedMalloc .alignedOffsetMallocDbg

def biAlignedOffsetRealloc (memblock size : ℕ) : Hook :=
  reallocate .alignedMalloc .alignedOffsetRealloc .alignedOffsetRealloc memblock size (size == 0)

-- the check names another function than the one that is hooked
def biAlignedOffsetReallocDbg (memblock size : ℕ) : Hook :=
  reallocate .alignedMalloc .alignedReallocDbg .alignedOffsetReallocDbg memblock size (size == 0)

def biAlignedOffsetRecalloc (memblock num size : ℕ) : Hook :=
  reallocate .alignedMalloc .alignedRecalloc .alignedOffsetRecalloc memblock (mulSize num size)
    (size == 0)

def biAlignedOffsetRecallocDbg (memblock num size : ℕ) : Hook :=
  reallocate .alignedMalloc .alignedRecallocDbg .alignedOffsetRecallocDbg memblock
    (mulSize num size) (size == 0)

def biAlignedRealloc (memblock size : ℕ) : Hook :=
  reallocate .alignedMalloc .alignedRealloc .alignedRealloc memblock size (size == 0)

def biAlignedReallocDbg (memblock size : ℕ) : Hook :=
  reallocate .alignedMalloc .alignedReallocDbg .alignedReallocDbg memblock size (size == 0)

def biAlignedRecalloc (memblock num size : ℕ) : Hook :=
  reallocate .alignedMalloc .alignedRecalloc .alignedRecalloc memblock (mulSize num size)
    (size == 0)

def biAlignedRecallocDbg (memblock num size : ℕ) : Hook :=
  reallocate .alignedMalloc .alignedRecallocDbg .alignedRecallocDbg memblock (mulSize num size)
    (size == 0)

def biAlignedFree (memblock : ℕ) : Hook := release .alignedMalloc .alignedFree memblock

def biAlignedFreeDbg (memblock : ℕ) : Hook := release .alignedMalloc .alignedFreeDbg memblock

/-! ### `heap_monitor.cpp` -/

/-- The check of a block of a heap, unless one of them is `NULL`. -/
def checkHeapGiven (function : ApiFunction) (hHeap lpMem : ℕ) : Program LeakOp LeakOp.Res Bool :=
  if hHeap ≠ nullptr ∧ lpMem ≠ nullptr then checkHeap function hHeap lpMem else pure false

def buginsightHeapalloc (hHeap dwBytes : ℕ) : Hook := do
  let res ← real
  if res.p = nullptr then pure () else addHeap hHeap res.p dwBytes .heapAlloc

def buginsightHeaprepalloc (hHeap lpMem dwBytes : ℕ) : Hook := do
  let foundAddress ← checkHeapGiven .heapReAlloc hHeap lpMem
  let res ← real
  if res.p = nullptr then pure ()
  else do
    if foundAddress then eraseHeap hHeap lpMem else pure ()
    addHeap hHeap res.p dwBytes .heapReAlloc

def buginsightHeapfree (hHeap lpMem : ℕ) : Hook := do
  if hHeap = nullptr ∨ lpMem = nullptr then
    let _ ← real
    pure ()
  else
    let knownAddress ← checkHeap .heapFree hHeap lpMem
    if knownAddress then eraseHeap hHeap lpMem else pure ()
    let _ ← real
    pure ()

/-! ### `globalalloc_monitor.cpp` -/

def buginsightGlobalalloc (uBytes : ℕ) : Hook :=
  trackPointer (fun _ => uBytes) .globalAlloc .globalAlloc

def buginsightGlobalrealloc (hMem uBytes : ℕ) : Hook :=
  reallocate .globalAlloc .globRealloc .globRealloc hMem uBytes false

def buginsightGlobalfree (hMem : ℕ) : Hook := release .globalAlloc .globalFree hMem

/-! ### `local_alloc_monitor.cpp` -/

def buginsightLocalfree (hMem : ℕ) : Hook := release .localAlloc .localFree hMem

def buginsightLocalalloc (uBytes : ℕ) : Hook :=
  trackPointer (fun _ => uBytes) .localAlloc .localAlloc

-- unlike the other hooks, this one erases the block before the underlying function is called
def buginsightLocalrealloc (hMem uBytes : ℕ) : Hook := do
  let foundAddress ← checkGiven .localRealloc .localAlloc hMem
  if foundAddress then erase hMem else pure ()
  let res ← real
  if res.p = nullptr then pure () else add res.p uBytes .localAlloc .localRealloc

/-- `FormatMessage` with or without `FORMAT_MESSAGE_ALLOCATE_BUFFER`. -/
def formatMessage (allocateBuffer : Bool) (size : ApiResult → ℕ) (function : ApiFunction) :
    Hook := do
  let res ← real
  if res.ok then
    if allocateBuffer then add res.p (size res) .localAlloc function else pure ()
  else pure ()

def buginsightFormatmessagea (allocateBuffer : Bool) : Hook :=
  formatMessage allocateBuffer strSize .formatMessageA

def buginsightFormatmessagew (allocateBuffer : Bool) : Hook :=
  formatMessage allocateBuffer wcsSize .formatMessageW

def buginsightCommandLineToArgvW : Hook :=
  trackPointer ApiResult.size .localAlloc .commandLineToArgvW

def buginsightCryptProtectData : Hook :=
  trackOutParam ApiResult.size .localAlloc .cryptProtectData

def buginsightCryptUnprotectData (ppszDataDescr : Bool) : Hook := do
  let res ← real
  if res.ok then do
    if ppszDataDescr then add res.dataDescr res.dataDescrSize .localAlloc .cryptUnprotectData
      else pure ()
    add res.p res.size .localAlloc .cryptUnprotectData
  else pure ()

def buginsightConvertSidToStringSidW : Hook :=
  trackOutParam ApiResult.size .localAlloc .convertSidToStringSidW

def buginsightConvertSidToStringSidA : Hook :=
  trackOutParam ApiResult.size .localAlloc .convertSidToStringSidA

def buginsightConvertStringSidToSidW : Hook :=
  trackOutParam ApiResult.size .localAlloc .convertStringSidToSidW

def buginsightConvertStringSidToSidA : Hook :=
  trackOutParam ApiResult.size .localAlloc .convertStringSidToSidA

def buginsightGetNamedSecurityInfoW : Hook :=
  trackOutParam ApiResult.size .localAlloc .getNamedSecurityInfoW

def buginsightGetNamedSecurityInfoA : Hook :=
  trackOutParam ApiResult.size .localAlloc .getNamedSecurityInfoA

def buginsightSetEntriesInAclA : Hook :=
  trackOutParam ApiResult.size .localAlloc .setEntriesInAclA

def buginsightSetEntriesInAclW : Hook :=
  trackOutParam ApiResult.size .localAlloc .setEntriesInAclW

def buginsightAllocateAndInitializeSid : Hook :=
  trackOutParam ApiResult.size .localAlloc .allocateAndInitializeSid

def buginsightFreeSid (pSid : ℕ) : Hook := release .localAlloc .freeSid pSid

def buginsightGetSecurityInfo (ppSecurityDescriptor : Bool) : Hook := do
  let res ← real
  if res.ok then
    if ppSecurityDescriptor then add res.p res.size .localAlloc .getSecurityInfo else pure ()
  else pure ()

def buginsightStrDupA : Hook := trackPointer ApiResult.size .localAlloc .strDupA

def buginsightStrDupW : Hook := trackPointer ApiResult.size .localAlloc .strDupW

/-! ### What the hooks do -/

section Exec

variable (t : ℕ) (res : ApiResult) (s : Monitored)

@[simp] theorem exec_real : real.exec (LeakOp.perform t res) s = (res, s) := rfl

@[simp] theorem exec_check (function : ApiFunction) (family : ApiFamily) (block : ℕ) :
    (check function family block).exec (LeakOp.perform t res) s =
      ((logOrAbortIfMemoryAddressIsUnknown s.repo t block family function).1,
        { s with log := s.log ++
          (logOrAbortIfMemoryAddressIsUnknown s.repo t block family function).2.toList }) := rfl

@[simp] theorem exec_checkHeap (function : ApiFunction) (heap block : ℕ) :
    (checkHeap function heap block).exec (LeakOp.perform t res) s =
      ((logOrAbortIfHeapallocMemoryAddressIsUnknown s.repo t heap block function).1,
        { s with log := s.log ++
          (logOrAbortIfHeapallocMemoryAddressIsUnknown s.repo t heap block function).2.toList }) :=
  rfl

@[simp] theorem exec_erase (key : ℕ) : (erase key).exec (LeakOp.perform t res) s =
    ((), { s with repo := s.repo.erase (0, key) }) := rfl

@[simp] theorem exec_eraseHeap (heap key : ℕ) :
    (eraseHeap heap key).exec (LeakOp.perform t res) s =
      ((), { s with repo := s.repo.erase (heap, key) }) := rfl

@[simp] theorem exec_add (key size : ℕ) (family : ApiFamily) (function : ApiFunction) :
    (add key size family function).exec (LeakOp.perform t res) s =
      ((), { s with repo := s.repo.add key size family function }) := rfl

@[simp] theorem exec_addHeap (heap mem size : ℕ) (function : ApiFunction) :
    (addHeap heap mem size function).exec (LeakOp.perform t res) s =
      ((), { s with repo := s.repo.addHeap heap mem size function }) := rfl

end Exec

section Run

variable (t : ℕ) (res : ApiResult) (r : MemoryLeakRepository)

theorem run_trackPointer (size : ApiResult → ℕ) (family : ApiFamily) (function : ApiFunction) :
    (trackPointer size family function).run t res r =
      (if res.p = nullptr then r else r.add res.p (size res) family function, []) := by
  simp only [trackPointer, Hook.run, Program.exec_bind, Program.exec_ite]
  rw [exec_real]
  dsimp only
  split_ifs
  · rfl
  · rfl

theorem run_trackNewBuffer (buffer : ℕ) (size : ApiResult → ℕ) (function : ApiFunction) :
    (trackNewBuffer buffer size function).run t res r =
      (if res.p = nullptr ∨ buffer ≠ nullptr then r
        else r.add res.p (size res) .malloc function, []) := by
  simp only [trackNewBuffer, Hook.run, Program.exec_bind, Program.exec_ite]
  rw [exec_real]
  dsimp only
  split_ifs
  · rfl
  · rfl

theorem run_trackOutParam (size : ApiResult → ℕ) (family : ApiFamily) (function : ApiFunction) :
    (trackOutParam size family function).run t res r =
      (if res.ok then r.add res.p (size res) family function else r, []) := by
  simp only [trackOutParam, Hook.run, Program.exec_bind, Program.exec_ite]
  rw [exec_real]
  dsimp only
  split_ifs
  · rfl
  · rfl

/-- The errors of the check of the address that a hook was called with. -/
def checked (function : ApiFunction) (family : ApiFamily) (block : ℕ) : List Report :=
  if block = nullptr then []
  else (logOrAbortIfMemoryAddressIsUnknown r t block family function).2.toList

/-- The address that a hook was called with is not `NULL`, and known. -/
theorem exec_checkGiven (function : ApiFunction) (family : ApiFamily) (block : ℕ) :
    (checkGiven function family block).exec (LeakOp.perform t res) ⟨r, []⟩ =
      (decide (block ≠ nullptr ∧ (0, block) ∈ r), ⟨r, checked t r function family block⟩) := by
  unfold checked checkGiven
  by_cases hb : block = nullptr
  · simp [hb]
  · rw [if_pos hb, if_neg hb, exec_check]
    have hfound := logOrAbort_found r t block family function
    simp [hb, ← hfound]

theorem run_reallocate (family : ApiFamily) (checkedFunction function : ApiFunction)
    (memblock size : ℕ) (likeFree : Bool) :
    (reallocate family checkedFunction function memblock size likeFree).run t res r =
      (if res.p = nullptr then if likeFree then r.forget 0 memblock else r
        else (r.forget 0 memblock).add res.p size family function,
        checked t r checkedFunction family memblock) := by
  have hforget := r.forget_eq 0 memblock
  simp only [reallocate, Hook.run, Program.exec_bind, Program.exec_ite]
  rw [exec_checkGiven, exec_real]
  dsimp only
  simp only [decide_eq_true_eq]
  rw [hforget]
  by_cases hp : res.p = nullptr
  · simp only [if_pos hp]
    by_cases hfree : memblock ≠ nullptr ∧ (0, memblock) ∈ r
    · rw [if_pos hfree]
      cases likeFree
      · simp
      · simp [hfree]
    · rw [if_neg hfree, if_neg fun hc => hfree hc.2.2]
      simp
  · simp only [if_neg hp]
    split_ifs
    · rfl
    · rfl

theorem run_release (family : ApiFamily) (function : ApiFunction) (block : ℕ) :
    (release family function block).run t res r =
      (r.forget 0 block, checked t r function family block) := by
  rw [r.forget_eq]
  unfold release checked
  by_cases hb : block = nullptr
  · simp [hb, Hook.run]
  · have hfound := logOrAbort_found r t block family function
    simp only [if_neg hb, Hook.run, Program.exec_bind, Program.exec_ite]
    rw [exec_check]
    simp only [hfound, ne_eq, hb, not_false_eq_true, true_and, List.nil_append]
    split_ifs
    · rfl
    · rfl

theorem run_buginsightLocalrealloc (hMem uBytes : ℕ) :
    (buginsightLocalrealloc hMem uBytes).run t res r =
      (if res.p = nullptr then r.forget 0 hMem
        else (r.forget 0 hMem).add res.p uBytes .localAlloc .localRealloc,
        checked t r .localRealloc .localAlloc hMem) := by
  rw [r.forget_eq]
  simp only [buginsightLocalrealloc, Hook.run, Program.exec_bind, Program.exec_ite]
  rw [exec_checkGiven]
  simp only [decide_eq_true_eq]
  by_cases hfound : hMem ≠ nullptr ∧ (0, hMem) ∈ r
  · rw [if_pos hfound, if_pos hfound, exec_erase, exec_real]
    split_ifs
    · rfl
    · rfl
  · rw [if_neg hfound, if_neg hfound, Program.exec_pure, exec_real]
    split_ifs
    · rfl
    · rfl

theorem run_formatMessage (allocateBuffer : Bool) (size : ApiResult → ℕ)
    (function : ApiFunction) :
    (formatMessage allocateBuffer size function).run t res r =
      (if res.ok ∧ allocateBuffer then r.add res.p (size res) .localAlloc function else r,
        []) := by
  simp only [formatMessage, Hook.run, Program.exec_bind, Program.exec_ite]
  rw [exec_real]
  cases hok : res.ok
  · simp
  · cases allocateBuffer <;> simp

theorem run_buginsightCryptUnprotectData (ppszDataDescr : Bool) :
    (buginsightCryptUnprotectData ppszDataDescr).run t res r =
      (if res.ok then
          (if ppszDataDescr then
            r.add res.dataDescr res.dataDescrSize .localAlloc .cryptUnprotectData
          else r : MemoryLeakRepository).add res.p res.size .localAlloc .cryptUnprotectData
        else r, []) := by
  simp only [buginsightCryptUnprotectData, Hook.run, Program.exec_bind, Program.exec_ite]
  rw [exec_real]
  cases hok : res.ok
  · simp
  · cases ppszDataDescr <;> simp

theorem run_buginsightHeapalloc (hHeap dwBytes : ℕ) :
    (buginsightHeapalloc hHeap dwBytes).run t res r =
      (if res.p = nullptr then r else r.addHeap hHeap res.p dwBytes .heapAlloc, []) := by
  simp only [buginsightHeapalloc, Hook.run, Program.exec_bind, Program.exec_ite]
  rw [exec_real]
  dsimp only
  split_ifs
  · rfl
  · rfl

theorem logOrAbortHeap_found (heap block : ℕ) (function : ApiFunction) :
    (logOrAbortIfHeapallocMemoryAddressIsUnknown r t heap block function).1 = true ↔
      (heap, block) ∈ r := by
  rw [← r.getData_isSome]
  unfold logOrAbortIfHeapallocMemoryAddressIsUnknown
  cases r.getData (heap, block) <;> simp

/-- The errors of the check of a block of a heap. -/
def checkedHeap (function : ApiFunction) (hHeap lpMem : ℕ) : List Report :=
  if hHeap = nullptr ∨ lpMem = nullptr then []
  else (logOrAbortIfHeapallocMemoryAddressIsUnknown r t hHeap lpMem function).2.toList

theorem exec_checkHeapGiven (function : ApiFunction) (hHeap lpMem : ℕ) :
    (checkHeapGiven function hHeap lpMem).exec (LeakOp.perform t res) ⟨r, []⟩ =
      (decide (hHeap ≠ nullptr ∧ lpMem ≠ nullptr ∧ (hHeap, lpMem) ∈ r),
        ⟨r, checkedHeap t r function hHeap lpMem⟩) := by
  unfold checkedHeap checkHeapGiven
  by_cases hnull : hHeap = nullptr ∨ lpMem = nullptr
  · rw [if_pos hnull, if_neg (by rwa [← not_or, not_not]), Program.exec_pure]
    rcases hnull with hh | hm
    · simp [hh]
    · simp [hm]
  · obtain ⟨hh, hm⟩ := not_or.1 hnull
    rw [if_neg hnull, if_pos ⟨hh, hm⟩, exec_checkHeap]
    have hfound := logOrAbortHeap_found t r hHeap lpMem function
    simp [hh, hm, ← hfound]

/-- The repository without a block of a heap that a hook was called with. -/
def forgetHeap (hHeap lpMem : ℕ) : MemoryLeakRepository :=
  if hHeap = nullptr then r else r.forget hHeap lpMem

theorem forgetHeap_eq (hHeap lpMem : ℕ) : forgetHeap r hHeap lpMem =
    if hHeap ≠ nullptr ∧ lpMem ≠ nullptr ∧ (hHeap, lpMem) ∈ r then r.erase (hHeap, lpMem)
    else r := by
  unfold forgetHeap
  rw [r.forget_eq]
  by_cases hh : hHeap = nullptr
  · rw [if_pos hh, if_neg fun hc => hc.1 hh]
  · rw [if_neg hh]
    simp [hh]

theorem run_buginsightHeaprepalloc (hHeap lpMem dwBytes : ℕ) :
    (buginsightHeaprepalloc hHeap lpMem dwBytes).run t res r =
      (if res.p = nullptr then r
        else (forgetHeap r hHeap lpMem).addHeap hHeap res.p dwBytes .heapReAlloc,
        checkedHeap t r .heapReAlloc hHeap lpMem) := by
  rw [forgetHeap_eq]
  simp only [buginsightHeaprepalloc, Hook.run, Program.exec_bind, Program.exec_ite]
  rw [exec_checkHeapGiven, exec_real]
  dsimp only
  simp only [decide_eq_true_eq]
  by_cases hp : res.p = nullptr
  · simp only [if_pos hp]
    rfl
  · simp only [if_neg hp]
    split_ifs
    · rfl
    · rfl

theorem run_buginsightHeapfree (hHeap lpMem : ℕ) :
    (buginsightHeapfree hHeap lpMem).run t res r =
      (forgetHeap r hHeap lpMem, checkedHeap t r .heapFree hHeap lpMem) := by
  rw [forgetHeap_eq]
  unfold buginsightHeapfree checkedHeap
  by_cases hnull : hHeap = nullptr ∨ lpMem = nullptr
  · rw [if_pos hnull, if_neg (by tauto)]
    simp [hnull, Hook.run]
  · obtain ⟨hh, hm⟩ := not_or.1 hnull
    have hfound := logOrAbortHeap_found t r hHeap lpMem .heapFree
    simp only [if_neg hnull, Hook.run, Program.exec_bind, Program.exec_ite]
    rw [exec_checkHeap]
    simp only [hfound, ne_eq, hh, hm, not_false_eq_true, true_and, List.nil_append]
    split_ifs
    · rfl
    · rfl

end Run

end Monitors

end BugInsight

import BugInsight.Report
import Mathlib.Data.List.AList

/-!
# The leak repository

`memory_leak_repository_t` of `memory_leak_map_with_callstack.cpp`, without the call stacks: a map
from a heap and an address to what is known about the block.  The heap is `0` except for the
functions of the heap API.  Every operation is atomic.

* `logOrAbortIfMemoryAddressIsUnknown` and `logOrAbortIfHeapallocMemoryAddressIsUnknown`: the checks
  of an address that the application passes to a function.
-/

namespace BugInsight

/-- `memory_leak_data_t`. -/
structure LeakData where
  size : ℕ
  apiFamily : ApiFamily
  apiFunction : ApiFunction
  deriving DecidableEq

/-- `memory_leak_repository_t`, the contents of `m_flat_map`. -/
abbrev MemoryLeakRepository := AList fun _ : ℕ × ℕ => LeakData

namespace MemoryLeakRepository

variable (r : MemoryLeakRepository) (k k' : ℕ × ℕ) (d : LeakData)

/-- `m_flat_map.emplace`, which leaves an entry with this key alone. -/
def emplace : MemoryLeakRepository := if k ∈ r then r else r.insert k d

/-- `add`. -/
def add (key size : ℕ) (apiFamily : ApiFamily) (apiFunction : ApiFunction) :
    MemoryLeakRepository :=
  r.emplace (0, key) ⟨size, apiFamily, apiFunction⟩

/-- `add` for the heap API. -/
def addHeap (heap mem size : ℕ) (apiFunction : ApiFunction) : MemoryLeakRepository :=
  r.emplace (heap, mem) ⟨size, .heapApi, apiFunction⟩

/-- `get_data`. -/
def getData : Option LeakData := r.lookup k

/-- `leak_count`. -/
def leakCount : ℕ := r.entries.length

/-- `internal_reset_all_allocations`. -/
def internalResetAllAllocations : MemoryLeakRepository := ∅

/-- The repository without the block that a hook was called with. -/
def forget (heap block : ℕ) : MemoryLeakRepository :=
  if block = nullptr then r else r.erase (heap, block)

/-- A hook erases the block if it is found. -/
theorem forget_eq (heap block : ℕ) : r.forget heap block =
    if block ≠ nullptr ∧ (heap, block) ∈ r then r.erase (heap, block) else r := by
  unfold forget
  by_cases hb : block = nullptr
  · rw [if_pos hb, if_neg fun hc => hc.1 hb]
  · by_cases hr : (heap, block) ∈ r
    · rw [if_neg hb, if_pos ⟨hb, hr⟩]
    · rw [if_neg hb, if_neg fun hc => hr hc.2]
      exact AList.ext (List.kerase_of_notMem_keys hr)

@[simp] theorem mem_emplace : k' ∈ r.emplace k d ↔ k' = k ∨ k' ∈ r := by
  unfold emplace
  split_ifs with h
  · exact ⟨Or.inr, fun h' => h'.elim (fun heq => heq ▸ h) fun h' => h'⟩
  · exact AList.mem_insert r

@[simp] theorem getData_isSome : (r.getData k).isSome = true ↔ k ∈ r := AList.lookup_isSome

end MemoryLeakRepository

/-- `log_or_abort_if_memory_adddress_is_unknown`: whether the address is known, and the error. -/
def logOrAbortIfMemoryAddressIsUnknown (r : MemoryLeakRepository) (threadId block : ℕ)
    (apiFamily : ApiFamily) (apiFunction : ApiFunction) : Bool × Option Report :=
  match r.getData (0, block) with
  | none => (false, some (.unknownMemoryAddress threadId apiFunction block))
  | some d =>
      (true,
        if d.apiFamily ≠ apiFamily then
          some (.wrongApiFamily threadId apiFunction d.apiFamily apiFamily block)
        else none)

/-- `log_or_abort_if_heapalloc_memory_adddress_is_unknown`. -/
def logOrAbortIfHeapallocMemoryAddressIsUnknown (r : MemoryLeakRepository)
    (threadId heap block : ℕ) (apiFunction : ApiFunction) : Bool × Option Report :=
  match r.getData (heap, block) with
  | none => (false, some (.unknownMemoryAddress threadId apiFunction block))
  | some _ => (true, none)

theorem logOrAbort_found (r : MemoryLeakRepository) (threadId block : ℕ) (apiFamily : ApiFamily)
    (apiFunction : ApiFunction) :
    (logOrAbortIfMemoryAddressIsUnknown r threadId block apiFamily apiFunction).1 = true ↔
      (0, block) ∈ r := by
  rw [← r.getData_isSome]
  unfold logOrAbortIfMemoryAddressIsUnknown
  cases r.getData (0, block) <;> simp

end BugInsight

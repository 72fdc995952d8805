import BugInsight.Leak.Monitors

/-!
# Reallocations that return `NULL`

A reallocating function that returns `NULL` has left the block as it was, or has freed it because a
size of zero was requested.

* `ReallocHook`: the hooks of the reallocating functions;
* `run_null`: what they do with the repository if `NULL` is returned;
* `failed_realloc_iff`: a failed reallocation changes nothing, except with `LocalReAlloc`;
* `freeing_realloc_iff`: a reallocation that frees is a free, except with a `recalloc` of zero
  elements of a size that is not zero.
-/

namespace BugInsight

/-- The hooks of the reallocating functions. -/
inductive ReallocHook
  | biRealloc | biReallocDbg | biRecalloc | biRecallocDbg | biExpand | biExpandDbg
  | biAlignedOffsetRealloc | biAlignedOffsetReallocDbg
  | biAlignedOffsetRecalloc | biAlignedOffsetRecallocDbg
  | biAlignedRealloc | biAlignedReallocDbg | biAlignedRecalloc | biAlignedRecallocDbg
  | buginsightHeaprepalloc | buginsightGlobalrealloc | buginsightLocalrealloc
  deriving DecidableEq

namespace ReallocHook

/-- The hook, called with a block; `num` is used by the `recalloc` hooks and `hHeap` by the hook of
`HeapReAlloc` only. -/
def hook (hHeap memblock num size : ℕ) : ReallocHook → Hook
  | biRealloc => Monitors.biRealloc memblock size
  | biReallocDbg => Monitors.biReallocDbg memblock size
  | biRecalloc => Monitors.biRecalloc memblock num size
  | biRecallocDbg => Monitors.biRecallocDbg memblock num size
  | biExpand => Monitors.biExpand memblock size
  | biExpandDbg => Monitors.biExpandDbg memblock size
  | biAlignedOffsetRealloc => Monitors.biAlignedOffsetRealloc memblock size
  | biAlignedOffsetReallocDbg => Monitors.biAlignedOffsetReallocDbg memblock size
  | biAlignedOffsetRecalloc => Monitors.biAlignedOffsetRecalloc memblock num size
  | biAlignedOffsetRecallocDbg => Monitors.biAlignedOffsetRecallocDbg memblock num size
  | biAlignedRealloc => Monitors.biAlignedRealloc memblock size
  | biAlignedReallocDbg => Monitors.biAlignedReallocDbg memblock size
  | biAlignedRecalloc => Monitors.biAlignedRecalloc memblock num size
  | biAlignedRecallocDbg => Monitors.biAlignedRecallocDbg memblock num size
  | buginsightHeaprepalloc => Monitors.buginsightHeaprepalloc hHeap memblock size
  | buginsightGlobalrealloc => Monitors.buginsightGlobalrealloc memblock size
  | buginsightLocalrealloc => Monitors.buginsightLocalrealloc memblock size

/-- The hooks of the `recalloc` functions. -/
def isRecalloc : ReallocHook → Bool
  | biRecalloc | biRecallocDbg | biAlignedOffsetRecalloc | biAlignedOffsetRecallocDbg
  | biAlignedRecalloc | biAlignedRecallocDbg => true
  | _ => false

/-- The hooks of the `realloc` and `recalloc` functions of the C runtime. -/
def isCrt : ReallocHook → Bool
  | biExpand | biExpandDbg | buginsightHeaprepalloc | buginsightGlobalrealloc
  | buginsightLocalrealloc => false
  | _ => true

/-- The number of bytes that is requested. -/
def total (num size : ℕ) (h : ReallocHook) : ℕ := if h.isRecalloc then num * size else size

/-- The key of a block in the repository. -/
def key (hHeap memblock : ℕ) : ReallocHook → ℕ × ℕ
  | buginsightHeaprepalloc => (hHeap, memblock)
  | _ => (0, memblock)

variable (h : ReallocHook) (t hHeap memblock num size : ℕ) (res : ApiResult)
  (r : MemoryLeakRepository)

/-- **The repository if `NULL` is returned.** -/
theorem run_null (hres : res.p = nullptr) :
    ((h.hook hHeap memblock num size).run t res r).1 =
      if h = buginsightLocalrealloc ∨ h.isCrt = true ∧ size = 0 then r.forget 0 memblock
      else r := by
  -- `likeFree` of `reallocate` is `size == 0`, or `false`
  have hcrt : ∀ family checked function total,
      ((Monitors.reallocate family checked function memblock total (size == 0)).run t res r).1 =
        if size = 0 then r.forget 0 memblock else r := fun family checked function total => by
    rw [Monitors.run_reallocate, if_pos hres]
    simp only [beq_iff_eq]
  have hkeep : ∀ family checked function total,
      ((Monitors.reallocate family checked function memblock total false).run t res r).1 = r :=
    fun family checked function total => by
      rw [Monitors.run_reallocate, if_pos hres, if_neg Bool.false_ne_true]
  cases h with
  | buginsightLocalrealloc =>
    rw [if_pos (Or.inl rfl)]
    exact (congrArg Prod.fst (Monitors.run_buginsightLocalrealloc ..)).trans (if_pos hres)
  | buginsightHeaprepalloc =>
    rw [if_neg (by simp [isCrt])]
    exact (congrArg Prod.fst (Monitors.run_buginsightHeaprepalloc ..)).trans (if_pos hres)
  | biExpand | biExpandDbg | buginsightGlobalrealloc =>
    rw [if_neg (by simp [isCrt])]
    exact hkeep ..
  | biRealloc | biReallocDbg | biRecalloc | biRecallocDbg | biAlignedOffsetRealloc
  | biAlignedOffsetReallocDbg | biAlignedOffsetRecalloc | biAlignedOffsetRecallocDbg
  | biAlignedRealloc | biAlignedReallocDbg | biAlignedRecalloc | biAlignedRecallocDbg =>
    simp only [reduceCtorEq, isCrt, true_and, false_or]
    exact hcrt ..

end ReallocHook

namespace MemoryLeakRepository

theorem forget_of_null (r : MemoryLeakRepository) (heap : ℕ) : r.forget heap nullptr = r :=
  if_pos rfl

theorem notMem_forget (r : MemoryLeakRepository) {heap block : ℕ} (hb : block ≠ nullptr) :
    (heap, block) ∉ r.forget heap block := by
  unfold forget
  rw [if_neg hb, AList.mem_erase]
  exact fun hc => hc.1 rfl

theorem lookup_forget_of_ne (r : MemoryLeakRepository) {heap block : ℕ} {k : ℕ × ℕ}
    (hk : k ≠ (heap, block)) : (r.forget heap block).lookup k = r.lookup k := by
  unfold forget
  split_ifs
  · rfl
  · exact AList.lookup_erase_ne hk

end MemoryLeakRepository

/-- **A failed reallocation**, of a request that is not for zero bytes, changes nothing exactly if
it is not one of `LocalReAlloc` with a block. -/
theorem failed_realloc_iff (h : ReallocHook) (t hHeap memblock num size : ℕ) (res : ApiResult)
    (r : MemoryLeakRepository) (htracked : h.key hHeap memblock ∈ r)
    (htotal : h.total num size ≠ 0) (hres : res.p = nullptr) :
    ((h.hook hHeap memblock num size).run t res r).1 = r ↔
      h ≠ .buginsightLocalrealloc ∨ memblock = nullptr := by
  have hsize : size ≠ 0 := by
    rintro rfl
    refine htotal ?_
    unfold ReallocHook.total
    split_ifs
    · exact Nat.mul_zero num
    · rfl
  rw [h.run_null _ _ _ _ _ _ _ hres]
  by_cases hlocal : h = .buginsightLocalrealloc
  · rw [if_pos (Or.inl hlocal), or_iff_right (not_not_intro hlocal)]
    subst hlocal
    constructor
    · intro heq
      by_contra hb
      exact r.notMem_forget hb (heq.symm ▸ htracked)
    · rintro rfl
      exact r.forget_of_null 0
  · rw [if_neg (by simp [hlocal, hsize])]
    exact iff_of_true rfl (Or.inl hlocal)

/-- A `realloc` that fails. -/
theorem failed_realloc_iff_realloc :
    ((ReallocHook.biRealloc.hook 0 16 0 80).run 1 {}
      ((∅ : MemoryLeakRepository).add 16 8 .malloc .malloc)).1 =
      (∅ : MemoryLeakRepository).add 16 8 .malloc .malloc :=
  (failed_realloc_iff .biRealloc 1 0 16 0 80 {} _ (by decide) (by decide) rfl).2
    (Or.inl (by decide))

/-- A `LocalReAlloc` that fails: the old block is live, but not in the repository any more. -/
theorem failed_localrealloc :
    ReallocHook.buginsightLocalrealloc.total 0 80 ≠ 0 ∧
      (0, 16) ∈ (∅ : MemoryLeakRepository).add 16 8 .localAlloc .localAlloc ∧
      (0, 16) ∉ ((ReallocHook.buginsightLocalrealloc.hook 0 16 0 80).run 1 {}
        ((∅ : MemoryLeakRepository).add 16 8 .localAlloc .localAlloc)).1 := by
  decide +kernel

/-- **A reallocation that frees**, because zero bytes are requested, is accounted as a free exactly
if the size is zero, whatever the number of elements. -/
theorem freeing_realloc_iff (h : ReallocHook) (t memblock num size : ℕ) (res : ApiResult)
    (r : MemoryLeakRepository) (hcrt : h.isCrt = true) (htracked : (0, memblock) ∈ r)
    (htotal : h.total num size = 0) (hres : res.p = nullptr) :
    ((0, memblock) ∉ ((h.hook 0 memblock num size).run t res r).1 ∧
      ∀ k, k ≠ (0, memblock) →
        ((h.hook 0 memblock num size).run t res r).1.lookup k = r.lookup k) ↔
      size = 0 ∧ memblock ≠ nullptr := by
  rw [h.run_null _ _ _ _ _ _ _ hres]
  have hlocal : h ≠ .buginsightLocalrealloc := by
    rintro rfl
    cases hcrt
  by_cases hsize : size = 0
  · rw [if_pos (Or.inr ⟨hcrt, hsize⟩)]
    constructor
    · rintro ⟨hout, -⟩
      refine ⟨hsize, ?_⟩
      rintro rfl
      rw [r.forget_of_null] at hout
      exact hout htracked
    · rintro ⟨-, hb⟩
      exact ⟨r.notMem_forget hb, fun k hk => r.lookup_forget_of_ne hk⟩
  · rw [if_neg (by simp [hlocal, hsize])]
    exact iff_of_false (fun hc => hc.1 htracked) fun hc => hsize hc.1

/-- A `recalloc` of elements of size zero. -/
theorem freeing_realloc_iff_recalloc :
    (0, 16) ∉ ((ReallocHook.biRecalloc.hook 0 16 5 0).run 1 {}
      ((∅ : MemoryLeakRepository).add 16 8 .malloc .malloc)).1 :=
  ((freeing_realloc_iff .biRecalloc 1 16 5 0 {} _ rfl (by decide) (by decide) rfl).2
    ⟨rfl, by decide⟩).1

/-- A `recalloc` of zero elements: the freed block stays in the repository. -/
theorem freeing_recalloc_kept :
    ReallocHook.biRecalloc.total 0 8 = 0 ∧
      (0, 16) ∈ (∅ : MemoryLeakRepository).add 16 8 .malloc .malloc ∧
      (0, 16) ∈ ((ReallocHook.biRecalloc.hook 0 16 0 8).run 1 {}
        ((∅ : MemoryLeakRepository).add 16 8 .malloc .malloc)).1 := by
  decide +kernel

end BugInsight

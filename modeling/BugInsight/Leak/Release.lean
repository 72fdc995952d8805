import BugInsight.Leak.Allocation

/-!
# Releases

The hooks of the freeing functions, called with a block of any family.

* `FreeHook`: these hooks, with the API family and the key that they look the block up with;
* `FreeHook.run_eq`, `FreeHook.reports_iff`: they erase this key, and report an error if it is not
  there or is a block of another family;
* `BlockCall`, `Blocks.step`: calls of all hooks, with allocators that return blocks that are not
  live;
* `Blocks.Tracks.step`: a call that erases the block that it releases keeps one entry an address;
* `released_block_forgotten_iff`: a block of the heap API that another function releases stays in
  the repository, and so does any other block that `HeapFree` releases.
-/

namespace BugInsight

theorem MemoryLeakRepository.forget_eq_elim (r : MemoryLeakRepository) (heap block : ℕ) :
    r.forget heap block =
      ((if block = nullptr then none else some (heap, block)).elim r fun k => r.erase k) := by
  unfold forget
  split_ifs
  · rfl
  · rfl

/-- The hooks of the freeing functions. -/
inductive FreeHook
  | biFree | biFreeDbg | biAlignedFree | biAlignedFreeDbg
  | buginsightLocalfree | buginsightGlobalfree | buginsightFreeSid | buginsightHeapfree
  deriving DecidableEq

namespace FreeHook

/-- The hook, called with a block; `hHeap` is used by the hook of `HeapFree` only. -/
def hook (hHeap block : ℕ) : FreeHook → Hook
  | biFree => Monitors.biFree block
  | biFreeDbg => Monitors.biFreeDbg block
  | biAlignedFree => Monitors.biAlignedFree block
  | biAlignedFreeDbg => Monitors.biAlignedFreeDbg block
  | buginsightLocalfree => Monitors.buginsightLocalfree block
  | buginsightGlobalfree => Monitors.buginsightGlobalfree block
  | buginsightFreeSid => Monitors.buginsightFreeSid block
  | buginsightHeapfree => Monitors.buginsightHeapfree hHeap block

/-- The family of the blocks that the function frees. -/
def family : FreeHook → ApiFamily
  | biFree | biFreeDbg => .malloc
  | biAlignedFree | biAlignedFreeDbg => .alignedMalloc
  | buginsightLocalfree | buginsightFreeSid => .localAlloc
  | buginsightGlobalfree => .globalAlloc
  | buginsightHeapfree => .heapApi

/-- The key that the hook looks a block up with. -/
def key (hHeap block : ℕ) : FreeHook → Option (ℕ × ℕ)
  | buginsightHeapfree => if hHeap = nullptr then none else some (hHeap, block)
  | _ => some (0, block)

variable (f : FreeHook) (t hHeap block : ℕ) (res : ApiResult) (r : MemoryLeakRepository)

/-- The repository after a call. -/
theorem run_eq : ((f.hook hHeap block).run t res r).1 =
    ((if block = nullptr then none else f.key hHeap block).elim r fun k => r.erase k) := by
  have hrelease : ∀ family function, ((Monitors.release family function block).run t res r).1 =
      ((if block = nullptr then none else some (0, block)).elim r fun k => r.erase k) := by
    intro family function
    refine (congrArg Prod.fst (Monitors.run_release ..)).trans ?_
    exact r.forget_eq_elim 0 block
  cases f with
  | buginsightHeapfree =>
    refine (congrArg Prod.fst (Monitors.run_buginsightHeapfree ..)).trans ?_
    unfold Monitors.forgetHeap key
    by_cases hh : hHeap = nullptr
    · rw [if_pos hh, if_pos hh, ite_self]
      rfl
    · rw [if_neg hh, if_neg hh]
      exact r.forget_eq_elim hHeap block
  | _ => exact hrelease ..

/-- **An error is reported** if the key is not in the repository, or is one of another family. -/
theorem reports_iff (hb : block ≠ nullptr) :
    ((f.hook hHeap block).run t res r).2 ≠ [] ↔ ∃ k, f.key hHeap block = some k ∧
      ∀ d, r.getData k = some d → f ≠ buginsightHeapfree ∧ f.family ≠ d.apiFamily := by
  have hrelease : ∀ family function, f ≠ buginsightHeapfree → f.family = family →
      f.key hHeap block = some (0, block) →
      (((Monitors.release family function block).run t res r).2 ≠ [] ↔
        ∃ k, f.key hHeap block = some k ∧
          ∀ d, r.getData k = some d → f ≠ buginsightHeapfree ∧ f.family ≠ d.apiFamily) := by
    intro family function hf hfamily hkey
    have hrun := congrArg Prod.snd (Monitors.run_release t res r family function block)
    rw [hrun, hkey]
    simp only [Option.some_inj, exists_eq_left']
    unfold Monitors.checked logOrAbortIfMemoryAddressIsUnknown
    rw [if_neg hb]
    cases r.getData (0, block) with
    | none => simp
    | some d =>
      dsimp only
      by_cases hd : d.apiFamily = family
      · simp [hd, hfamily]
      · simp [hd, hfamily, hf, Ne.symm hd]
  cases f with
  | buginsightHeapfree =>
    have hrun := congrArg Prod.snd (Monitors.run_buginsightHeapfree t res r hHeap block)
    refine (not_congr (Eq.congr_left hrun)).trans ?_
    unfold Monitors.checkedHeap key logOrAbortIfHeapallocMemoryAddressIsUnknown
    by_cases hh : hHeap = nullptr
    · rw [if_pos (Or.inl hh), if_pos hh]
      simp
    · rw [if_neg (not_or.2 ⟨hh, hb⟩), if_neg hh]
      cases hd : r.getData (hHeap, block) with
      | none => simp [hd]
      | some d => simp [hd]
  | _ => exact hrelease _ _ nofun rfl rfl

end FreeHook

namespace MemoryLeakRepository

/-- Only blocks of the heap API have keys with a heap. -/
def WellFormed (r : MemoryLeakRepository) : Prop :=
  ∀ k d, r.getData k = some d → k.1 ≠ nullptr → d.apiFamily = .heapApi

/-- No two entries share an address. -/
def UniqueAddresses (r : MemoryLeakRepository) : Prop :=
  ∀ k ∈ r, ∀ k' ∈ r, k.2 = k'.2 → k = k'

end MemoryLeakRepository

open MemoryLeakRepository

namespace FreeHook

/-- What the hook finds is a block of its family exactly if the block is one.  It looks nothing up
if it is the hook of `HeapFree` and called without a heap. -/
def Recognizes (f : FreeHook) (hHeap : ℕ) (r : MemoryLeakRepository) (k : ℕ × ℕ) (d : LeakData) :
    Prop :=
  match f.key hHeap k.2 with
  | none => f.family = d.apiFamily
  | some k' => f.family = d.apiFamily ↔ ∃ d', r.getData k' = some d' ∧ f.family = d'.apiFamily

variable {f : FreeHook} {t hHeap : ℕ} {res : ApiResult} {r : MemoryLeakRepository} {k k' : ℕ × ℕ}
  {d : LeakData}

/-- A block under the key that the hook of `HeapFree` looks up is one of the heap API. -/
theorem family_eq_of_heapfree {block : ℕ} (hr : r.WellFormed) (hf : f = buginsightHeapfree)
    (hkey : f.key hHeap block = some k) (hk : r.getData k = some d) : f.family = d.apiFamily := by
  subst hf
  unfold key at hkey
  split_ifs at hkey with hh
  cases hkey
  exact (hr _ d hk hh).symm

/-- **When the report is right.** -/
theorem reports_iff_recognizes (hr : r.WellFormed) (hb : k.2 ≠ nullptr) :
    (((f.hook hHeap k.2).run t res r).2 ≠ [] ↔ f.family ≠ d.apiFamily) ↔
      f.Recognizes hHeap r k d := by
  rw [f.reports_iff t hHeap k.2 res r hb]
  unfold Recognizes
  cases hkey : f.key hHeap k.2 with
  | none => simp
  | some k' =>
    simp only [Option.some_inj, exists_eq_left']
    have hfound : (∀ d', r.getData k' = some d' → f ≠ buginsightHeapfree ∧
        f.family ≠ d'.apiFamily) ↔ ¬ ∃ d', r.getData k' = some d' ∧ f.family = d'.apiFamily := by
      constructor
      · rintro h ⟨d', hd', hfamily⟩
        exact (h d' hd').2 hfamily
      · intro h d' hd'
        have hfamily : f.family ≠ d'.apiFamily := fun hc => h ⟨d', hd', hc⟩
        exact ⟨fun hf => hfamily (family_eq_of_heapfree hr hf hkey hd'), hfamily⟩
    rw [hfound, ne_eq, not_iff_not]
    exact Iff.comm

/-- **When the block is forgotten**: the hook erases its entry, and there is no other one. -/
theorem forgets_iff (hk : r.getData k = some d) (hb : k.2 ≠ nullptr) :
    (∀ k' ∈ ((f.hook hHeap k.2).run t res r).1, k'.2 ≠ k.2) ↔
      f.key hHeap k.2 = some k ∧ ∀ k' ∈ r, k'.2 = k.2 → k' = k := by
  have hkr : k ∈ r := (r.getData_isSome k).1 (Option.isSome_iff_exists.2 ⟨d, hk⟩)
  rw [f.run_eq t hHeap k.2 res r, if_neg hb]
  cases hkey : f.key hHeap k.2 with
  | none => exact iff_of_false (fun h => h k hkr rfl) (by simp)
  | some k' =>
    simp only [Option.elim_some, AList.mem_erase, Option.some_inj]
    constructor
    · intro h
      have hk' : ∀ k₁ ∈ r, k₁.2 = k.2 → k₁ = k' := fun k₁ h₁ hp =>
        by_contra fun hne => h k₁ ⟨hne, h₁⟩ hp
      obtain rfl := hk' k hkr rfl
      exact ⟨rfl, hk'⟩
    · rintro ⟨rfl, honly⟩ k₁ ⟨hne, h₁⟩ hp
      exact hne (honly k₁ h₁ hp)

end FreeHook

/-! ### Runs -/

namespace ReallocHook

/-- The key that the hook erases if a block is returned. -/
def oldKey (hHeap memblock : ℕ) : ReallocHook → Option (ℕ × ℕ)
  | buginsightHeaprepalloc => if hHeap = nullptr then none else some (hHeap, memblock)
  | _ => some (0, memblock)

theorem before_eq (hHeap memblock : ℕ) (r : MemoryLeakRepository) (h : ReallocHook) :
    h.before hHeap memblock r =
      ((if memblock = nullptr then none else h.oldKey hHeap memblock).elim r
        fun k => r.erase k) := by
  cases h with
  | buginsightHeaprepalloc =>
    simp only [before, Monitors.forgetHeap, oldKey]
    by_cases hh : hHeap = nullptr
    · rw [if_pos hh, if_pos hh, ite_self]
      rfl
    · rw [if_neg hh, if_neg hh]
      exact r.forget_eq_elim hHeap memblock
  | _ => exact r.forget_eq_elim 0 memblock

end ReallocHook

/-- A call of a hook. -/
inductive BlockCall
  | tracked (c : TrackedCall)
  | free (f : FreeHook) (hHeap block : ℕ)

namespace BlockCall

/-- The hook. -/
def hook : BlockCall → Hook
  | tracked (.alloc a) => a.hook
  | tracked (.realloc h hHeap memblock num size) => h.hook hHeap memblock num size
  | free f hHeap block => f.hook hHeap block

/-- The repository after a hook that is not interrupted. -/
def run (t : ℕ) (res : ApiResult) (r : MemoryLeakRepository) (c : BlockCall) :
    MemoryLeakRepository :=
  (c.hook.run t res r).1

/-- The entries of the new blocks. -/
def added (res : ApiResult) : BlockCall → List ((ℕ × ℕ) × LeakData)
  | tracked c => c.tracked res
  | free _ _ _ => []

/-- The key that the hook erases. -/
def erased (res : ApiResult) : BlockCall → Option (ℕ × ℕ)
  | tracked (.alloc _) => none
  | tracked (.realloc h hHeap memblock _ size) =>
      if memblock = nullptr then none
      else if res.p = nullptr then
        if h = .buginsightLocalrealloc ∨ h.isCrt = true ∧ size = 0 then some (0, memblock) else none
      else h.oldKey hHeap memblock
  | free f hHeap block => if block = nullptr then none else f.key hHeap block

/-- The address that the underlying function releases.  `freed` says this of a freeing function, and
of a reallocating one that returns `NULL`. -/
def released (res : ApiResult) (freed : Bool) : BlockCall → Option ℕ
  | tracked (.alloc _) => none
  | tracked (.realloc _ _ memblock _ _) =>
      if res.p ≠ nullptr ∨ freed = true then some memblock else none
  | free _ _ block => if freed = true then some block else none

variable (t : ℕ) (res : ApiResult) (r : MemoryLeakRepository)

/-- **What a call does.** -/
theorem run_eq (c : BlockCall) :
    c.run t res r = ((c.erased res).elim r fun k => r.erase k).emplaceAll (c.added res) := by
  cases c with
  | free f hHeap block => exact f.run_eq t hHeap block res r
  | tracked c =>
    cases c with
    | alloc a => exact congrArg Prod.fst (AllocHook.run_eq t res r a)
    | realloc h hHeap memblock num size =>
      simp only [run, hook, erased, added, TrackedCall.tracked]
      by_cases hp : res.p = nullptr
      · simp only [if_pos hp]
        rw [h.run_null _ _ _ _ _ _ _ hp, r.forget_eq_elim]
        split_ifs <;> rfl
      · simp only [if_neg hp]
        rw [h.run_new _ _ _ _ _ _ _ hp]
        exact congrArg (MemoryLeakRepository.emplace · _ _) (h.before_eq hHeap memblock r)

/-- A new block of the address `NULL` is not in a heap. -/
theorem added_heap {c : BlockCall} {e : (ℕ × ℕ) × LeakData} (he : e ∈ c.added res) :
    (e.1.1 ≠ nullptr → e.2.apiFamily = .heapApi) ∧ (e.1.2 = nullptr → e.1.1 = nullptr) := by
  cases c with
  | free f hHeap block => cases he
  | tracked c =>
    cases c with
    | realloc h hHeap memblock num size =>
      simp only [added, TrackedCall.tracked] at he
      split_ifs at he with hp
      · cases he
      · obtain rfl := List.mem_singleton.1 he
        cases h with
        | buginsightHeaprepalloc => exact ⟨fun _ => rfl, fun hc => absurd hc hp⟩
        | _ => exact ⟨fun hc => absurd rfl hc, fun _ => rfl⟩
    | alloc a =>
      obtain ⟨b, hb, rfl⟩ := List.mem_map.1 he
      cases a with
      | buginsightHeapalloc hHeap dwBytes =>
        simp only [AllocHook.blocks, AllocHook.blocks.returned] at hb
        split_ifs at hb with hp
        · cases hb
        · obtain rfl := List.mem_singleton.1 hb
          exact ⟨fun _ => rfl, fun hc => absurd hc hp⟩
      | _ => exact ⟨fun hc => absurd rfl hc, fun _ => rfl⟩

end BlockCall

/-- The addresses of some entries that are not `NULL`. -/
def addresses (l : List ((ℕ × ℕ) × LeakData)) : List ℕ :=
  (l.map fun e => e.1.2).filter fun p => p ≠ nullptr

/-- A call, with what the underlying function did. -/
structure ApiCall where
  thread : ℕ
  call : BlockCall
  res : ApiResult
  freed : Bool := false

/-- The repository, and the addresses of the blocks that the allocators have given out. -/
structure Blocks where
  repo : MemoryLeakRepository
  live : Finset ℕ

namespace ApiCall

variable (c : ApiCall) (b : Blocks)

/-- The live blocks without the one that is released. -/
def remaining : Finset ℕ := (c.call.released c.res c.freed).elim b.live b.live.erase

/-- The new blocks. -/
def newBlocks : List ℕ := addresses (c.call.added c.res)

/-- The new blocks are different, and not live. -/
def Fresh : Prop := c.newBlocks.Nodup ∧ ∀ p ∈ c.newBlocks, p ∉ c.remaining b

instance : Decidable (c.Fresh b) := inferInstanceAs (Decidable (_ ∧ _))

/-- The entry of a block that is released, if there is one, is the one that the hook erases. -/
def Accounted : Prop := ∀ k ∈ b.repo, k.2 ≠ nullptr →
  c.call.released c.res c.freed = some k.2 → c.call.erased c.res = some k

instance : Decidable (c.Accounted b) :=
  decidable_of_iff (∀ k ∈ b.repo.keys, k.2 ≠ nullptr →
    c.call.released c.res c.freed = some k.2 → c.call.erased c.res = some k) Iff.rfl

end ApiCall

namespace Blocks

/-- One call. -/
def step (b : Blocks) (c : ApiCall) : Option Blocks :=
  if c.Fresh b then
    some ⟨c.call.run c.thread c.res b.repo, c.remaining b ∪ c.newBlocks.toFinset⟩
  else none

/-- Nothing is tracked yet. -/
def start (live : Finset ℕ) : Blocks := ⟨∅, live⟩

/-- The entries are those of live blocks, or of the address `NULL`, one for an address. -/
structure Tracks (r : MemoryLeakRepository) (live : Finset ℕ) : Prop where
  wellFormed : r.WellFormed
  live : ∀ k ∈ r, k.2 ≠ nullptr → k.2 ∈ live
  null : ∀ k ∈ r, k.2 = nullptr → k.1 = nullptr
  unique : r.UniqueAddresses

variable {r : MemoryLeakRepository} {live : Finset ℕ}

theorem tracks_empty : Tracks ∅ live where
  wellFormed := nofun
  live := nofun
  null := nofun
  unique := nofun

theorem Tracks.erase {live' : Finset ℕ} (h : Tracks r live) (k : ℕ × ℕ)
    (hlive : ∀ k' ∈ r, k' ≠ k → k'.2 ≠ nullptr → k'.2 ∈ live') : Tracks (r.erase k) live' := by
  have hmem : ∀ k' ∈ r.erase k, k' ≠ k ∧ k' ∈ r := fun k' hk' => AList.mem_erase.1 hk'
  refine ⟨fun k' d hd => ?_, fun k' hk' => ?_, fun k' hk' => h.null k' (hmem k' hk').2, ?_⟩
  · have hk' : k' ≠ k := (hmem k' ((getData_isSome _ k').1 (by rw [hd]; rfl))).1
    exact h.wellFormed k' d ((AList.lookup_erase_ne hk').symm.trans hd)
  · exact hlive k' (hmem k' hk').2 (hmem k' hk').1
  · exact fun k₁ h₁ k₂ h₂ => h.unique k₁ (hmem k₁ h₁).2 k₂ (hmem k₂ h₂).2

/-- A new block. -/
theorem Tracks.emplace {live' : Finset ℕ} {e : (ℕ × ℕ) × LeakData} (h : Tracks r live)
    (he : (e.1.1 ≠ nullptr → e.2.apiFamily = .heapApi) ∧ (e.1.2 = nullptr → e.1.1 = nullptr))
    (hsub : live ⊆ live') (hnew : e.1.2 ≠ nullptr → e.1.2 ∉ live ∧ e.1.2 ∈ live') :
    Tracks (r.emplace e.1 e.2) live' := by
  obtain ⟨k, d⟩ := e
  dsimp only at he hnew ⊢
  -- an entry that was there at the address of the new one is the one of `NULL`
  have hother : ∀ k' ∈ r, k'.2 = k.2 → k' = k := by
    intro k' hk' hp
    by_cases hk : k.2 = nullptr
    · exact Prod.ext ((h.null k' hk' (hp.trans hk)).trans (he.2 hk).symm) hp
    · exact absurd (hp ▸ h.live k' hk' (hp ▸ hk)) (hnew hk).1
  refine ⟨fun k' d' hd' hheap => ?_, fun k' hk' hp => ?_, fun k' hk' hp => ?_, ?_⟩
  · by_cases hkk : k' = k
    · subst hkk
      rcases Option.or_eq_some_iff.1 ((r.lookup_emplace_self).symm.trans hd') with hd | ⟨-, hd⟩
      · exact h.wellFormed k' d' hd hheap
      · cases hd
        exact he.1 hheap
    · exact h.wellFormed k' d' ((r.lookup_emplace_of_ne hkk).symm.trans hd') hheap
  · rcases (mem_emplace ..).1 hk' with rfl | hk'
    · exact (hnew hp).2
    · exact hsub (h.live k' hk' hp)
  · rcases (mem_emplace ..).1 hk' with rfl | hk'
    · exact he.2 hp
    · exact h.null k' hk' hp
  · intro k₁ h₁ k₂ h₂ hp
    rcases (mem_emplace ..).1 h₁ with rfl | hr₁
    · rcases (mem_emplace ..).1 h₂ with rfl | hr₂
      · rfl
      · exact (hother k₂ hr₂ hp.symm).symm
    · rcases (mem_emplace ..).1 h₂ with rfl | hr₂
      · exact hother k₁ hr₁ hp
      · exact h.unique k₁ hr₁ k₂ hr₂ hp

theorem Tracks.emplaceAll {l : List ((ℕ × ℕ) × LeakData)} (h : Tracks r live)
    (hl : ∀ e ∈ l, (e.1.1 ≠ nullptr → e.2.apiFamily = .heapApi) ∧
      (e.1.2 = nullptr → e.1.1 = nullptr))
    (hnodup : (addresses l).Nodup) (hfresh : ∀ p ∈ addresses l, p ∉ live) :
    Tracks (r.emplaceAll l) (live ∪ (addresses l).toFinset) := by
  induction l generalizing r live with
  | nil => exact (Finset.union_empty live).symm ▸ h
  | cons e l ih =>
    have he := hl e List.mem_cons_self
    have hl' := fun e' he' => hl e' (List.mem_cons_of_mem e he')
    by_cases hnull : e.1.2 = nullptr
    · have heq : addresses (e :: l) = addresses l := by simp [addresses, hnull]
      rw [heq] at hnodup hfresh ⊢
      exact ih (h.emplace he Finset.Subset.rfl fun hc => absurd hnull hc) hl' hnodup hfresh
    · have heq : addresses (e :: l) = e.1.2 :: addresses l := by simp [addresses, hnull]
      rw [heq] at hnodup hfresh ⊢
      obtain ⟨hnot, hnodup⟩ := List.nodup_cons.1 hnodup
      have h' : Tracks (r.emplace e.1 e.2) (insert e.1.2 live) :=
        h.emplace he (Finset.subset_insert ..) fun _ =>
          ⟨hfresh _ List.mem_cons_self, Finset.mem_insert_self ..⟩
      have hrest := ih h' hl' hnodup fun p hp hc => by
        rcases Finset.mem_insert.1 hc with rfl | hc
        · exact hnot hp
        · exact hfresh p (List.mem_cons_of_mem _ hp) hc
      rw [List.toFinset_cons, Finset.union_insert, ← Finset.insert_union]
      exact hrest

/-- The step lemma. -/
theorem Tracks.step {b b' : Blocks} {c : ApiCall} (h : Tracks b.repo b.live)
    (hc : c.Accounted b) (hstep : b.step c = some b') : Tracks b'.repo b'.live := by
  unfold Blocks.step at hstep
  split_ifs at hstep with hfresh
  cases hstep
  dsimp only
  rw [BlockCall.run_eq]
  refine Tracks.emplaceAll ?_ (fun e he => BlockCall.added_heap c.res he) hfresh.1 hfresh.2
  have hlive : ∀ k ∈ b.repo, c.call.erased c.res ≠ some k → k.2 ≠ nullptr →
      k.2 ∈ c.remaining b := by
    intro k hk hne hp
    have hb := h.live k hk hp
    unfold ApiCall.remaining
    cases hreleased : c.call.released c.res c.freed with
    | none => exact hb
    | some p =>
      refine Finset.mem_erase.2 ⟨?_, hb⟩
      rintro rfl
      exact hne (hc k hk hp hreleased)
  cases herased : c.call.erased c.res with
  | none => exact ⟨h.wellFormed, fun k hk => hlive k hk (by rw [herased]; nofun), h.null, h.unique⟩
  | some k =>
    refine h.erase k fun k' hk' hne => hlive k' hk' ?_
    rw [herased]
    exact fun heq => hne (Option.some.inj heq).symm

end Blocks

/-- **A released block** is forgotten, and an error reported exactly if the hook is of another
family, whatever the hook, if and only if what the hook finds is a block of its family exactly if
the block is one, and, in a call that releases the block, what it finds is the entry of the block
and no other entry has its address.  In a run of hooks, each of which runs to its end before the
next one begins, and which make all the releases, no two entries ever share an address if every
released block is found so. -/
theorem released_block_forgotten_iff (f : FreeHook) (t hHeap : ℕ) (res : ApiResult)
    (releases : Prop) (r : MemoryLeakRepository) (k : ℕ × ℕ) (d : LeakData) (hr : r.WellFormed)
    (hk : r.getData k = some d) (hb : k.2 ≠ nullptr) :
    (((((f.hook hHeap k.2).run t res r).2 ≠ [] ↔ f.family ≠ d.apiFamily) ∧
        (releases → ∀ k' ∈ ((f.hook hHeap k.2).run t res r).1, k'.2 ≠ k.2)) ↔
      f.Recognizes hHeap r k d ∧
        (releases → f.key hHeap k.2 = some k ∧ ∀ k' ∈ r, k'.2 = k.2 → k' = k)) ∧
    ∀ (live : Finset ℕ) (l : List ApiCall),
      Runs.Steps Blocks.step (fun b c => c.Accounted b) (Blocks.start live) l →
      Runs.Always Blocks.step (fun b => b.repo.WellFormed ∧ b.repo.UniqueAddresses)
        (Blocks.start live) l := by
  constructor
  · rw [FreeHook.reports_iff_recognizes hr hb, FreeHook.forgets_iff hk hb]
  · intro live l hl
    refine Runs.Always.imp (Q := fun b => Blocks.Tracks b.repo b.live) ?_ fun b hb =>
      ⟨hb.wellFormed, hb.unique⟩
    exact Runs.always_of_steps Blocks.tracks_empty (fun b c b' hb hc => hb.step hc) hl

/-- A block of `malloc`, freed by `free`. -/
theorem released_block_forgotten_iff_malloc :
    (∀ k' ∈ ((FreeHook.biFree.hook 0 16).run 1 {}
        ((∅ : MemoryLeakRepository).add 16 8 .malloc .malloc)).1, k'.2 ≠ 16) ∧
      Runs.Always Blocks.step (fun b => b.repo.WellFormed ∧ b.repo.UniqueAddresses)
        (Blocks.start ∅) [⟨1, .tracked (.alloc (.biMalloc 8)), { p := 16 }, false⟩,
          ⟨1, .free .biFree 0 16, {}, true⟩] := by
  have htracks : Blocks.Tracks ((∅ : MemoryLeakRepository).add 16 8 .malloc .malloc) {16} :=
    Blocks.tracks_empty.emplace (e := ((0, 16), ⟨8, .malloc, .malloc⟩)) (by decide)
      (Finset.empty_subset _) (by decide)
  obtain ⟨hiff, hruns⟩ := released_block_forgotten_iff .biFree 1 0 {} True _ (0, 16)
    ⟨8, .malloc, .malloc⟩ htracks.wellFormed rfl (by decide)
  constructor
  · exact (hiff.2 ⟨⟨fun _ => ⟨_, rfl, rfl⟩, fun _ => rfl⟩, fun _ => ⟨rfl, by decide⟩⟩).2 trivial
  · exact hruns ∅ _ (by decide +kernel)

/-- A block of the heap `5` that `free` releases stays in the repository, and `malloc` then returns
its address. -/
theorem released_block_kept :
    (((FreeHook.biFree.hook 0 16).run 1 {}
        ((∅ : MemoryLeakRepository).addHeap 5 16 8 .heapAlloc)).1.getData (5, 16)).isSome ∧
    (Runs.run Blocks.step (Blocks.start ∅)
      [⟨1, .tracked (.alloc (.buginsightHeapalloc 5 8)), { p := 16 }, false⟩,
        ⟨1, .free .biFree 0 16, {}, true⟩,
        ⟨1, .tracked (.alloc (.biMalloc 8)), { p := 16 }, false⟩]).any
      fun b => decide ((5, 16) ∈ b.repo ∧ (0, 16) ∈ b.repo) := by
  decide +kernel

end BugInsight

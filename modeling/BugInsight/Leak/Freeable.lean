import BugInsight.Leak.Release

/-!
# Tracked blocks can be freed

The hooks, called by several threads, whose operations come in any order.

* `Freeable`: no entry has the address `NULL`, and each can be removed by the hook of a free
  function;
* `HookAction`: a call of a hook, or the next operation of one that was called; a hook that is not
  interrupted does what `Hook.run` says;
* `Documented`: what the underlying functions promise;
* `BlockCall.addsFreeable`: the hooks add freeable entries only, if `_dupenv_s` and its relatives
  find the variable;
* `tracked_entries_freeable`: hence every entry is freeable, in every state.
-/

namespace BugInsight

open Programs MemoryLeakRepository

namespace MemoryLeakRepository

/-- Every entry is the one of a block that is not `NULL`, and that some free hook removes without an
error. -/
def Freeable (r : MemoryLeakRepository) : Prop := ∀ k ∈ r, k.2 ≠ nullptr ∧
  ∃ (f : FreeHook) (hHeap : ℕ), ∀ t res, (f.hook hHeap k.2).run t res r = (r.erase k, [])

/-- The free hook of a family looks this key up. -/
def HasFreeHook (k : ℕ × ℕ) (family : ApiFamily) : Prop :=
  k.2 ≠ nullptr ∧ ∃ f : FreeHook, f.family = family ∧ f.key k.1 k.2 = some k

/-- Every entry has a free hook. -/
def FreeHooks (r : MemoryLeakRepository) : Prop :=
  ∀ k d, r.getData k = some d → HasFreeHook k d.apiFamily

variable {r : MemoryLeakRepository} {k : ℕ × ℕ} {d : LeakData}

theorem freeHooks_empty : FreeHooks ∅ := nofun

theorem FreeHooks.freeable (h : r.FreeHooks) : r.Freeable := by
  intro k hk
  obtain ⟨d, hd⟩ := Option.isSome_iff_exists.1 ((r.getData_isSome k).2 hk)
  obtain ⟨hb, f, hfamily, hkey⟩ := h k d hd
  refine ⟨hb, f, k.1, fun t res => Prod.ext ?_ ?_⟩
  · rw [f.run_eq, if_neg hb, hkey]
    rfl
  · by_contra hreport
    obtain ⟨k', hk', hother⟩ := (f.reports_iff t k.1 k.2 res r hb).1 hreport
    obtain rfl : k = k' := Option.some.inj (hkey.symm.trans hk')
    exact (hother d hd).2 hfamily

theorem FreeHooks.emplace (h : r.FreeHooks) (hk : HasFreeHook k d.apiFamily) :
    (r.emplace k d).FreeHooks := by
  intro k' d' hd'
  by_cases hkk : k' = k
  · subst hkk
    rcases Option.or_eq_some_iff.1 (r.lookup_emplace_self.symm.trans hd') with hd | ⟨-, hd⟩
    · exact h k' d' hd
    · cases hd
      exact hk
  · exact h k' d' ((r.lookup_emplace_of_ne hkk).symm.trans hd')

theorem FreeHooks.erase (h : r.FreeHooks) : FreeHooks (r.erase k) := by
  intro k' d' hd'
  have hkk : k' ≠ k := by
    rintro rfl
    rw [getData, AList.lookup_erase] at hd'
    cases hd'
  exact h k' d' ((AList.lookup_erase_ne hkk).symm.trans hd')

end MemoryLeakRepository

/-! ### Operations -/

namespace LeakOp

/-- What is added has a free hook. -/
def AddsFreeable : LeakOp → Prop
  | .add key _ family _ => HasFreeHook (0, key) family
  | .addHeap heap mem _ _ => HasFreeHook (heap, mem) .heapApi
  | _ => True

/-- The underlying function returns the result of the call. -/
def Returns (res : ApiResult) : (o : LeakOp) → o.Res → Prop
  | .real, r => r = res
  | _, _ => True

theorem perform_returns (e : ℕ × ApiResult) (o : LeakOp) (s : Monitored) :
    o.Returns e.2 (o.perform e.1 e.2 s).1 := by
  cases o with
  | real => rfl
  | _ => trivial

/-- **What one operation keeps.** -/
theorem perform_freeHooks (e : ℕ × ApiResult) (o : LeakOp) (s : Monitored)
    (hs : s.repo.FreeHooks) (ho : o.AddsFreeable) :
    (o.perform e.1 e.2 s).2.repo.FreeHooks := by
  cases o with
  | check | checkHeap | real => exact hs
  | erase => exact hs.erase
  | add => exact hs.emplace ho
  | addHeap => exact hs.emplace ho

end LeakOp

/-- All additions of a hook whose underlying function has a given result are freeable. -/
abbrev AddsFreeable (res : ApiResult) {α : Type} (p : Program LeakOp LeakOp.Res α) : Prop :=
  p.Performs LeakOp.AddsFreeable (LeakOp.Returns res)

namespace Monitors

variable (res : ApiResult) {α : Type}

theorem addsFreeable_real_bind (f : ApiResult → Program LeakOp LeakOp.Res α) :
    AddsFreeable res (real >>= f) ↔ AddsFreeable res (f res) :=
  ⟨fun h => h.2 res rfl, fun h => ⟨trivial, fun _ hr => hr ▸ h⟩⟩

theorem addsFreeable_check (function : ApiFunction) (family : ApiFamily) (block : ℕ) :
    AddsFreeable res (check function family block) :=
  ⟨trivial, fun _ _ => trivial⟩

theorem addsFreeable_checkHeap (function : ApiFunction) (heap block : ℕ) :
    AddsFreeable res (checkHeap function heap block) :=
  ⟨trivial, fun _ _ => trivial⟩

theorem addsFreeable_checkGiven (function : ApiFunction) (family : ApiFamily) (block : ℕ) :
    AddsFreeable res (checkGiven function family block) := by
  unfold checkGiven
  split_ifs
  · exact addsFreeable_check res function family block
  · exact trivial

theorem addsFreeable_erase (key : ℕ) : AddsFreeable res (erase key) :=
  ⟨trivial, fun _ _ => trivial⟩

theorem addsFreeable_eraseHeap (heap key : ℕ) : AddsFreeable res (eraseHeap heap key) :=
  ⟨trivial, fun _ _ => trivial⟩

theorem addsFreeable_add {key size : ℕ} {family : ApiFamily} {function : ApiFunction}
    (h : HasFreeHook (0, key) family) : AddsFreeable res (add key size family function) :=
  ⟨h, fun _ _ => trivial⟩

theorem addsFreeable_ite {c : Prop} [Decidable c] {p q : Program LeakOp LeakOp.Res α}
    (hp : c → AddsFreeable res p) (hq : ¬ c → AddsFreeable res q) :
    AddsFreeable res (if c then p else q) := by
  split_ifs with hc
  · exact hp hc
  · exact hq hc

variable {res} {size : ApiResult → ℕ} {family : ApiFamily} {function : ApiFunction}

theorem addsFreeable_trackPointer (h : res.p ≠ nullptr → HasFreeHook (0, res.p) family) :
    AddsFreeable res (trackPointer size family function) := by
  unfold trackPointer
  rw [addsFreeable_real_bind]
  exact addsFreeable_ite res (fun _ => trivial) fun hp => addsFreeable_add res (h hp)

theorem addsFreeable_trackNewBuffer {buffer : ℕ}
    (h : res.p ≠ nullptr → HasFreeHook (0, res.p) .malloc) :
    AddsFreeable res (trackNewBuffer buffer size function) := by
  unfold trackNewBuffer
  rw [addsFreeable_real_bind]
  exact addsFreeable_ite res (fun _ => trivial) fun hp =>
    addsFreeable_add res (h fun hnull => hp (Or.inl hnull))

theorem addsFreeable_trackOutParam (h : res.ok = true → HasFreeHook (0, res.p) family) :
    AddsFreeable res (trackOutParam size family function) := by
  unfold trackOutParam
  rw [addsFreeable_real_bind]
  exact addsFreeable_ite res (fun hok => addsFreeable_add res (h hok)) fun _ => trivial

theorem addsFreeable_formatMessage {allocateBuffer : Bool}
    (h : res.ok = true → allocateBuffer = true → HasFreeHook (0, res.p) .localAlloc) :
    AddsFreeable res (formatMessage allocateBuffer size function) := by
  unfold formatMessage
  rw [addsFreeable_real_bind]
  exact addsFreeable_ite res
    (fun hok => addsFreeable_ite res (fun ha => addsFreeable_add res (h hok ha)) fun _ => trivial)
    fun _ => trivial

theorem addsFreeable_reallocate {checked : ApiFunction} {memblock total : ℕ} {likeFree : Bool}
    (h : res.p ≠ nullptr → HasFreeHook (0, res.p) family) :
    AddsFreeable res (reallocate family checked function memblock total likeFree) := by
  unfold reallocate
  refine (addsFreeable_checkGiven res checked family memblock).bind fun found => ?_
  refine (addsFreeable_real_bind res _).2 ?_
  refine addsFreeable_ite res (fun _ => ?_) fun hp => ?_
  · exact addsFreeable_ite res (fun _ => addsFreeable_erase res memblock) fun _ => trivial
  · have hadd : AddsFreeable res (add res.p total family function) := addsFreeable_add res (h hp)
    exact addsFreeable_ite res (fun _ => (addsFreeable_erase res memblock).bind fun _ => hadd)
      fun _ => hadd

theorem addsFreeable_release {block : ℕ} : AddsFreeable res (release family function block) := by
  unfold release
  have hreal : AddsFreeable res (do let _ ← real; pure ()) :=
    (addsFreeable_real_bind res _).2 trivial
  refine addsFreeable_ite res (fun _ => hreal) fun _ => ?_
  refine (addsFreeable_check res function family block).bind fun found => ?_
  exact addsFreeable_ite res (fun _ => (addsFreeable_erase res block).bind fun _ => hreal)
    fun _ => hreal

end Monitors

/-! ### Hooks -/

/-- A block that is not in a heap. -/
theorem hasFreeHook_zero {p : ℕ} {family : ApiFamily} (hp : p ≠ nullptr)
    (hknown : family ≠ .unknow) (hheap : family ≠ .heapApi) : HasFreeHook (0, p) family := by
  refine ⟨hp, ?_⟩
  cases family with
  | unknow => exact absurd rfl hknown
  | heapApi => exact absurd rfl hheap
  | malloc => exact ⟨.biFree, rfl, rfl⟩
  | alignedMalloc => exact ⟨.biAlignedFree, rfl, rfl⟩
  | localAlloc => exact ⟨.buginsightLocalfree, rfl, rfl⟩
  | globalAlloc => exact ⟨.buginsightGlobalfree, rfl, rfl⟩

theorem hasFreeHook_heap {heap p : ℕ} (hheap : heap ≠ nullptr) (hp : p ≠ nullptr) :
    HasFreeHook (heap, p) .heapApi :=
  ⟨hp, .buginsightHeapfree, rfl, if_neg hheap⟩

namespace AllocHook

/-- The hooks of `_dupenv_s` and its relatives. -/
def isDupenv : AllocHook → Bool
  | biDupenvS | biDupenvSDbg | biWdupenvS | biWdupenvDbgS => true
  | _ => false

/-- **What the underlying function promises**: a block that it returns or writes is not `NULL`,
except that `_dupenv_s` and its relatives write `NULL` and the count `0` if the variable does not
exist. `HeapAlloc` returns blocks of heaps only. -/
structure Documented (res : ApiResult) (a : AllocHook) : Prop where
  blocks : a.isDupenv = false → ∀ b ∈ a.blocks res, b.1 ≠ nullptr
  dupenv : a.isDupenv = true → res.ok = true → res.p = nullptr → res.size = 0
  heap : a.family = .heapApi → a.blocks res ≠ [] → a.heap ≠ nullptr

/-- `_dupenv_s` and its relatives find the variable if they succeed. -/
def VariableExists (res : ApiResult) (a : AllocHook) : Prop :=
  a.isDupenv = true → res.ok = true → res.p ≠ nullptr

variable {a : AllocHook} {res : ApiResult}

theorem mem_written {requested : Bool} (size : ℕ) (hok : res.ok = true)
    (hrequested : requested = true) : (res.p, size) ∈ blocks.written res requested size := by
  unfold blocks.written
  rw [if_pos ⟨hok, hrequested⟩]
  exact List.mem_singleton_self _

/-- **The hooks of the allocating functions.** -/
theorem addsFreeable (hdoc : a.Documented res) (hvar : a.VariableExists res) :
    AddsFreeable res a.hook := by
  cases a with
  | biMalloc | biMallocDbg | biCalloc | biCallocDbg | biTempnam | biTempnamDbg | biWtempnam
  | biWtempnamDbg | biStrdup | biWcsdup | biStrdupDbg | biWcsdupDbg | biAlignedMalloc
  | biAlignedMallocDbg | biAlignedOffsetMalloc | biAlignedOffsetMallocDbg
  | buginsightGlobalalloc | buginsightLocalalloc | buginsightCommandLineToArgvW
  | buginsightStrDupA | buginsightStrDupW =>
    exact Monitors.addsFreeable_trackPointer fun hp => hasFreeHook_zero hp nofun nofun
  | biGetcwd | biGetcwdDbg | wgetcwd | biWgetcwdDbg | biGetdcwd | biGetdcwdDbg | biWgetdcwd
  | biWgetdcwdDbg | biFullpath | biFullpathDbg | biWfullpath | biWfullpathDbg =>
    exact Monitors.addsFreeable_trackNewBuffer fun hp => hasFreeHook_zero hp nofun nofun
  | biDupenvS | biDupenvSDbg | biWdupenvS | biWdupenvDbgS =>
    exact Monitors.addsFreeable_trackOutParam fun hok =>
      hasFreeHook_zero (hvar rfl hok) nofun nofun
  | buginsightCryptProtectData | buginsightConvertSidToStringSidW
  | buginsightConvertSidToStringSidA | buginsightConvertStringSidToSidW
  | buginsightConvertStringSidToSidA | buginsightGetNamedSecurityInfoW
  | buginsightGetNamedSecurityInfoA | buginsightSetEntriesInAclA | buginsightSetEntriesInAclW
  | buginsightAllocateAndInitializeSid =>
    exact Monitors.addsFreeable_trackOutParam fun hok =>
      hasFreeHook_zero (hdoc.blocks rfl _ (mem_written _ hok rfl)) nofun nofun
  | buginsightFormatmessagea | buginsightFormatmessagew | buginsightGetSecurityInfo =>
    exact Monitors.addsFreeable_formatMessage fun hok hrequested =>
      hasFreeHook_zero (hdoc.blocks rfl _ (mem_written _ hok hrequested)) nofun nofun
  | buginsightHeapalloc hHeap dwBytes =>
    refine (Monitors.addsFreeable_real_bind res _).2 ?_
    refine Monitors.addsFreeable_ite res (fun _ => trivial) fun hp => ⟨?_, fun _ _ => trivial⟩
    refine hasFreeHook_heap (hdoc.heap rfl ?_) hp
    simp [blocks, blocks.returned, hp]
  | buginsightCryptUnprotectData ppszDataDescr =>
    refine (Monitors.addsFreeable_real_bind res _).2 ?_
    refine Monitors.addsFreeable_ite res (fun hok => ?_) fun _ => trivial
    have hblocks := hdoc.blocks rfl
    simp only [blocks] at hblocks
    have hadd : AddsFreeable res
        (Monitors.add res.p res.size .localAlloc .cryptUnprotectData) :=
      Monitors.addsFreeable_add res (hasFreeHook_zero
        (hblocks _ (List.mem_append_right _ (mem_written res.size hok rfl))) nofun nofun)
    refine Monitors.addsFreeable_ite res (fun hd => ?_) fun _ => hadd
    refine (Monitors.addsFreeable_add res ?_).bind fun _ => hadd
    refine hasFreeHook_zero (hblocks (res.dataDescr, res.dataDescrSize) ?_) nofun nofun
    exact List.mem_append_left _ (by simp [hok, hd])

end AllocHook

namespace ReallocHook

variable {h : ReallocHook} {hHeap memblock num size : ℕ} {res : ApiResult}

/-- **The hooks of the reallocating functions**, where `HeapReAlloc` returns blocks of heaps
only. -/
theorem addsFreeable (hdoc : h = buginsightHeaprepalloc → res.p ≠ nullptr → hHeap ≠ nullptr) :
    AddsFreeable res (h.hook hHeap memblock num size) := by
  cases h with
  | buginsightHeaprepalloc =>
    have hcheck : AddsFreeable res (Monitors.checkHeapGiven .heapReAlloc hHeap memblock) :=
      Monitors.addsFreeable_ite res
        (fun _ => Monitors.addsFreeable_checkHeap res .heapReAlloc hHeap memblock)
        fun _ => trivial
    refine hcheck.bind fun found => (Monitors.addsFreeable_real_bind res _).2 ?_
    refine Monitors.addsFreeable_ite res (fun _ => trivial) fun hp => ?_
    have hadd : AddsFreeable res (Monitors.addHeap hHeap res.p size .heapReAlloc) :=
      ⟨hasFreeHook_heap (hdoc rfl hp) hp, fun _ _ => trivial⟩
    exact Monitors.addsFreeable_ite res
      (fun _ => (Monitors.addsFreeable_eraseHeap res hHeap memblock).bind fun _ => hadd)
      fun _ => hadd
  | buginsightLocalrealloc =>
    have hrest : AddsFreeable res (do
        let res ← Monitors.real
        if res.p = nullptr then pure ()
          else Monitors.add res.p size .localAlloc .localRealloc) :=
      (Monitors.addsFreeable_real_bind res _).2 <|
        Monitors.addsFreeable_ite res (fun _ => trivial) fun hp =>
          Monitors.addsFreeable_add res (hasFreeHook_zero hp nofun nofun)
    refine (Monitors.addsFreeable_checkGiven res .localRealloc .localAlloc memblock).bind
      fun found => ?_
    exact Monitors.addsFreeable_ite res
      (fun _ => (Monitors.addsFreeable_erase res memblock).bind fun _ => hrest) fun _ => hrest
  | _ => exact Monitors.addsFreeable_reallocate fun hp => hasFreeHook_zero hp nofun nofun

end ReallocHook

/-- **The hooks of the freeing functions.** -/
theorem FreeHook.addsFreeable (f : FreeHook) (hHeap block : ℕ) (res : ApiResult) :
    AddsFreeable res (f.hook hHeap block) := by
  cases f with
  | buginsightHeapfree =>
    have hreal : AddsFreeable res (do let _ ← Monitors.real; pure ()) :=
      (Monitors.addsFreeable_real_bind res _).2 trivial
    refine Monitors.addsFreeable_ite res (fun _ => hreal) fun _ => ?_
    refine (Monitors.addsFreeable_checkHeap res .heapFree hHeap block).bind fun found => ?_
    exact Monitors.addsFreeable_ite res
      (fun _ => (Monitors.addsFreeable_eraseHeap res hHeap block).bind fun _ => hreal)
      fun _ => hreal
  | _ => exact Monitors.addsFreeable_release

/-! ### Runs -/

namespace BlockCall

/-- What the underlying function promises. -/
def Documented (res : ApiResult) : BlockCall → Prop
  | tracked (.alloc a) => a.Documented res
  | tracked (.realloc h hHeap _ _ _) =>
      h = .buginsightHeaprepalloc → res.p ≠ nullptr → hHeap ≠ nullptr
  | free _ _ _ => True

/-- `_dupenv_s` and its relatives find the variable if they succeed. -/
def VariableExists (res : ApiResult) : BlockCall → Prop
  | tracked (.alloc a) => a.VariableExists res
  | _ => True

theorem addsFreeable {c : BlockCall} {res : ApiResult} (hdoc : c.Documented res)
    (hvar : c.VariableExists res) : AddsFreeable res c.hook := by
  cases c with
  | tracked c =>
    cases c with
    | alloc a => exact a.addsFreeable hdoc hvar
    | realloc h hHeap memblock num size => exact h.addsFreeable hdoc
  | free f hHeap block => exact f.addsFreeable hHeap block res

end BlockCall

/-- A thread calls a hook, whose underlying function will return a result, or goes on with it. -/
inductive HookAction
  | call (t : ℕ) (c : BlockCall) (res : ApiResult)
  | next (t : ℕ)

namespace HookAction

/-- The action of the hook's program. -/
def action : HookAction → Action LeakOp LeakOp.Res (ℕ × ApiResult)
  | call t c res => .call t (t, res) c.hook
  | next t => .next t

/-- One step of the threads. -/
def step : Threads LeakOp LeakOp.Res (ℕ × ApiResult) Monitored →
    Action LeakOp LeakOp.Res (ℕ × ApiResult) →
    Option (Threads LeakOp LeakOp.Res (ℕ × ApiResult) Monitored) :=
  Threads.step fun e => LeakOp.perform e.1 e.2

/-- Nothing is tracked yet. -/
def start : Threads LeakOp LeakOp.Res (ℕ × ApiResult) Monitored := Threads.start ⟨∅, []⟩

/-- **A hook that no other thread interrupts** leaves the repository and makes the reports that
`Hook.run` says. -/
theorem run_alone (w : Threads LeakOp LeakOp.Res (ℕ × ApiResult) Monitored) (t : ℕ) (c : BlockCall)
    (res : ApiResult) (hw : w.program t = none) :
    ∃ n, Runs.run step w ((.call t c res :: List.replicate n (.next t)).map action) =
      some ⟨⟨(c.hook.run t res w.state.repo).1,
        w.state.log ++ (c.hook.run t res w.state.repo).2⟩, w.program⟩ := by
  obtain ⟨n, hn⟩ : ∃ n, Runs.run step w (.call t (t, res) c.hook :: List.replicate n (.next t)) =
      some ⟨(c.hook.exec (LeakOp.perform t res) w.state).2, w.program⟩ :=
    Threads.run_alone t (t, res) c.hook hw
  refine ⟨n, ?_⟩
  rw [List.map_cons, List.map_replicate]
  refine hn.trans ?_
  have hexec := c.hook.exec_append t res w.state.repo w.state.log []
  rw [List.append_nil] at hexec
  rw [show w.state = ⟨w.state.repo, w.state.log⟩ from rfl, hexec]
  rfl

end HookAction

/-- **Every tracked entry is a block that can be freed**, in every state of every run of the hooks
whose underlying functions keep their promises, if no call of `_dupenv_s` or of one of its relatives
succeeds for a variable that does not exist. -/
theorem tracked_entries_freeable (l : List HookAction)
    (hdoc : ∀ t c res, .call t c res ∈ l → c.Documented res)
    (hvar : ∀ t c res, .call t c res ∈ l → c.VariableExists res) :
    Runs.Always HookAction.step (fun w => w.state.repo.Freeable) HookAction.start
      (l.map HookAction.action) := by
  refine Runs.Always.imp (Q := fun w => w.state.repo.FreeHooks) ?_ fun w hw => hw.freeable
  refine Threads.always_of_performs (I := fun s => s.repo.FreeHooks)
    (P := fun _ => LeakOp.AddsFreeable) (A := fun e => LeakOp.Returns e.2) (s := ⟨∅, []⟩)
    freeHooks_empty (fun e o s hs ho => LeakOp.perform_freeHooks e o s hs ho)
    (fun e o s _ => LeakOp.perform_returns e o s) fun t e p hcall => ?_
  obtain ⟨b, hb, heq⟩ := List.mem_map.1 hcall
  cases b with
  | next => cases heq
  | call t c res =>
    cases heq
    exact BlockCall.addsFreeable (hdoc t c res hb) (hvar t c res hb)

/-- `_dupenv_s` finds the variable. -/
theorem tracked_entries_freeable_dupenv :
    Runs.Always HookAction.step (fun w => w.state.repo.Freeable) HookAction.start
      (List.map HookAction.action
        [.call 1 (.tracked (.alloc .biDupenvS)) { p := 16, size := 4 }, .next 1, .next 1]) := by
  refine tracked_entries_freeable _ (fun t c res h => ?_) fun t c res h => ?_
  all_goals
    simp only [List.mem_cons, HookAction.call.injEq, reduceCtorEq, List.not_mem_nil, or_false]
      at h
    obtain ⟨rfl, rfl, rfl⟩ := h
  · exact ⟨nofun, nofun, nofun⟩
  · exact fun _ _ => by decide

/-- `_dupenv_s` does not find the variable: an entry for `NULL` is added, and no free hook removes
it. -/
theorem dupenv_null_tracked :
    (BlockCall.tracked (.alloc .biDupenvS)).Documented {} ∧
    ∃ w, Runs.run HookAction.step HookAction.start (List.map HookAction.action
        [.call 1 (.tracked (.alloc .biDupenvS)) {}, .next 1, .next 1]) = some w ∧
      (0, nullptr) ∈ w.state.repo ∧ ∀ (f : FreeHook) (hHeap t : ℕ) (res : ApiResult),
        (0, nullptr) ∈ ((f.hook hHeap nullptr).run t res w.state.repo).1 := by
  refine ⟨⟨nofun, fun _ _ _ => rfl, nofun⟩, ?_⟩
  have heval : (Runs.run HookAction.step HookAction.start (List.map HookAction.action
      [.call 1 (.tracked (.alloc .biDupenvS)) {}, .next 1, .next 1])).any
        (fun w => decide ((0, nullptr) ∈ w.state.repo)) = true := by decide +kernel
  obtain ⟨w, hw, hmem⟩ := (Option.any_eq_true _ _).1 heval
  refine ⟨w, hw, of_decide_eq_true hmem, fun f hHeap t res => ?_⟩
  rw [f.run_eq, if_pos rfl]
  exact of_decide_eq_true hmem

end BugInsight

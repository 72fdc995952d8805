import BugInsight.Largest
import BugInsight.Leak.Repository

/-!
# Grouping the leaks

`group_leaks2`, called in `~loader_t` with an entry for each API function.  An entry has ten slots,
for the call stacks (known by their hashes) with the largest leaks; a free slot has the size `0` and
the hash `0`.

* `findSlot`, `recordCallstack`: the search for a slot, and what is done with it;
* `Slots.record`: the used slots are the first ones, and hold the largest leaks of different hashes;
* `groupLeaks2`: the visit of all leaks in some order, and the sort;
* `group_leaks_exact`: the result, whatever the order.
-/

namespace BugInsight

open Largest

/-- `memory_leak_data_t`, with the call stack of the allocation. -/
structure MemoryLeakData extends LeakData where
  callstack : Callstack
  stackframeHash : ℕ
  deriving DecidableEq

/-- `callstack_size_hash_t`. -/
structure CallstackSizeHash where
  callstack : Callstack := {}
  sizeBytes : ℕ := 0
  hash : ℕ := 0
  deriving DecidableEq

/-- `used_api_info_t`. -/
structure UsedApiInfo where
  callstackAndSize : List CallstackSizeHash := List.replicate 10 {}
  totalBytes : ℕ := 0
  apiFunction : ApiFunction := .unknown
  hitCount : ℕ := 0
  deriving DecidableEq

/-- The loop over the slots from `i` on: the first slot with the hash, and the first of the smallest
slots before it. -/
def findSlot (slots : List CallstackSizeHash) (hash : ℕ) :
    ℕ → List CallstackSizeHash → ℕ → Option ℕ × ℕ
  | _, [], foundIndex => (none, foundIndex)
  | i, s :: rest, foundIndex =>
      if s.hash = hash then (some i, foundIndex)
      else findSlot slots hash (i + 1) rest
        (if s.sizeBytes < (slots.getD foundIndex {}).sizeBytes then i else foundIndex)

/-- A leak that was found via its hash. -/
def CallstackSizeHash.raise (s : CallstackSizeHash) (size : ℕ) : CallstackSizeHash :=
  if size > s.sizeBytes then { s with sizeBytes := size } else s

/-- The slots after a leak. -/
def recordCallstack (slots : List CallstackSizeHash) (d : MemoryLeakData) :
    List CallstackSizeHash :=
  match findSlot slots d.stackframeHash 0 slots 0 with
  | (some i, _) => slots.modify i fun s => s.raise d.size
  | (none, foundIndex) =>
      if d.size > (slots.getD foundIndex {}).sizeBytes then
        slots.set foundIndex ⟨d.callstack, d.size, d.stackframeHash⟩
      else slots

/-- The entry of an API function after a leak. -/
def UsedApiInfo.add (info : UsedApiInfo) (d : MemoryLeakData) : UsedApiInfo :=
  { info with
    hitCount := (info.hitCount + 1) % 2 ^ 64
    totalBytes := (info.totalBytes + d.size) % 2 ^ 64
    callstackAndSize := recordCallstack info.callstackAndSize d }

/-- The visit of a leak. -/
def visit (infos : List UsedApiInfo) (d : MemoryLeakData) : List UsedApiInfo :=
  infos.modify d.apiFunction.ctorIdx fun info => info.add d

/-- What `std::sort` promises. -/
structure StdSort {α : Type} (less : α → α → Bool) where
  sort : List α → List α
  perm : ∀ l, (sort l).Perm l
  sorted : ∀ l, (sort l).Pairwise fun a b => less b a = false

/-- The comparison of the entries. -/
def moreBytes (a b : UsedApiInfo) : Bool := a.totalBytes > b.totalBytes

/-- A stable sort, as an instance. -/
def stableSort : StdSort moreBytes where
  sort l := l.mergeSort fun a b => !moreBytes b a
  perm l := List.mergeSort_perm l _
  sorted l := by
    refine (List.pairwise_mergeSort (fun a b c hab hbc => ?_) (fun a b => ?_) l).imp
      fun h => by simpa using h
    · simp only [moreBytes, Bool.not_eq_true', decide_eq_false_iff_not] at hab hbc ⊢
      omega
    · simp only [moreBytes, Bool.or_eq_true, Bool.not_eq_true', decide_eq_false_iff_not]
      omega

/-- `group_leaks2`, for the leaks in the order of the visit. -/
def groupLeaks2 (std : StdSort moreBytes) (infos : List UsedApiInfo) (leaks : List MemoryLeakData) :
    List UsedApiInfo :=
  std.sort (leaks.foldl visit infos)

/-- `api_functions_t::e_SIZE`. -/
def apiFunctionsSize : ℕ := 80

/-- The vector built in `~loader_t`. -/
def usedApiInfos : List UsedApiInfo :=
  (List.range apiFunctionsSize).map fun i => { apiFunction := ApiFunction.ofNat i }

/-! ### The search -/

namespace CallstackSizeHash

/-- `s`, at `j`, is the first of the smallest ones. -/
def FirstMin (done : List CallstackSizeHash) (j : ℕ) (s : CallstackSizeHash) : Prop :=
  ∃ pre post, done = pre ++ s :: post ∧ j = pre.length ∧
    (∀ x ∈ pre, s.sizeBytes < x.sizeBytes) ∧ ∀ x ∈ post, s.sizeBytes ≤ x.sizeBytes

variable {slots done rest : List CallstackSizeHash} {s x : CallstackSizeHash} {hash i j : ℕ}

theorem FirstMin.getD (h : FirstMin done j s) : ((done ++ rest).getD j {}) = s := by
  obtain ⟨pre, post, rfl, rfl, -, -⟩ := h
  simp

/-- One iteration of the loop. -/
theorem FirstMin.concat (h : FirstMin done j s) (x : CallstackSizeHash) :
    ∃ s', FirstMin (done ++ [x]) (if x.sizeBytes < s.sizeBytes then done.length else j) s' := by
  obtain ⟨pre, post, rfl, rfl, hpre, hpost⟩ := h
  split_ifs with hx
  · refine ⟨x, pre ++ s :: post, [], rfl, rfl, fun y hy => ?_, nofun⟩
    rcases List.mem_append.1 hy with hy | hy
    · exact hx.trans (hpre y hy)
    · rcases List.mem_cons.1 hy with rfl | hy
      · exact hx
      · exact hx.trans_le (hpost y hy)
  · refine ⟨s, pre, post ++ [x], by simp, rfl, hpre, fun y hy => ?_⟩
    rcases List.mem_append.1 hy with hy | hy
    · exact hpost y hy
    · rw [List.mem_singleton.1 hy]
      exact not_lt.1 hx

/-- **What the loop finds**: the first slot with the hash, or, if there is none, the first of the
smallest slots. -/
theorem findSlot_cases (hslots : slots = done ++ rest) (hdone : ∀ x ∈ done, x.hash ≠ hash)
    (hmin : FirstMin done j s) :
    (∃ pre s post, slots = pre ++ s :: post ∧ s.hash = hash ∧ (∀ x ∈ pre, x.hash ≠ hash) ∧
        (findSlot slots hash done.length rest j).1 = some pre.length) ∨
      ((∀ x ∈ slots, x.hash ≠ hash) ∧ ∃ k s, FirstMin slots k s ∧
        findSlot slots hash done.length rest j = (none, k)) := by
  induction rest generalizing done j s with
  | nil =>
    rw [List.append_nil] at hslots
    subst hslots
    exact Or.inr ⟨hdone, j, s, hmin, rfl⟩
  | cons x rest ih =>
    have hget : slots.getD j {} = s := by rw [hslots, hmin.getD]
    rw [findSlot, hget]
    by_cases hx : x.hash = hash
    · rw [if_pos hx]
      exact Or.inl ⟨done, x, rest, hslots, hx, hdone, rfl⟩
    · rw [if_neg hx]
      obtain ⟨s', hs'⟩ := hmin.concat x
      have hdone' : ∀ y ∈ done ++ [x], y.hash ≠ hash := fun y hy => by
        rcases List.mem_append.1 hy with hy | hy
        · exact hdone y hy
        · rw [List.mem_singleton.1 hy]
          exact hx
      have h := ih (by rw [hslots, List.append_assoc, List.singleton_append]) hdone' hs'
      rw [List.length_append, List.length_singleton] at h
      exact h

theorem modify_append_cons (f : CallstackSizeHash → CallstackSizeHash) (pre post) :
    (pre ++ s :: post).modify pre.length f = pre ++ f s :: post := by
  induction pre with
  | nil => rfl
  | cons x pre ih => exact congrArg (x :: ·) ih

/-- **What a leak does to the slots**: it raises the first slot with its hash, or, if there is none,
takes the place of the first of the smallest slots, if it is larger. -/
theorem recordCallstack_cases (hslots : slots ≠ []) (d : MemoryLeakData) :
    (∃ pre s post, slots = pre ++ s :: post ∧ s.hash = d.stackframeHash ∧
        (∀ x ∈ pre, x.hash ≠ d.stackframeHash) ∧
        recordCallstack slots d = pre ++ s.raise d.size :: post) ∨
      ((∀ x ∈ slots, x.hash ≠ d.stackframeHash) ∧ ∃ pre s post, slots = pre ++ s :: post ∧
        (∀ x ∈ pre, s.sizeBytes < x.sizeBytes) ∧ (∀ x ∈ post, s.sizeBytes ≤ x.sizeBytes) ∧
        recordCallstack slots d =
          pre ++ (if d.size > s.sizeBytes then ⟨d.callstack, d.size, d.stackframeHash⟩ else s) ::
            post) := by
  obtain ⟨s₀, tl, rfl⟩ := List.exists_cons_of_ne_nil hslots
  -- the first iteration compares the first slot with itself
  have hfirst : findSlot (s₀ :: tl) d.stackframeHash 0 (s₀ :: tl) 0 =
      if s₀.hash = d.stackframeHash then (some 0, 0)
      else findSlot (s₀ :: tl) d.stackframeHash 1 tl 0 := by
    rw [findSlot, ite_self]
  unfold recordCallstack
  rw [hfirst]
  by_cases h₀ : s₀.hash = d.stackframeHash
  · rw [if_pos h₀]
    exact Or.inl ⟨[], s₀, tl, rfl, h₀, nofun, rfl⟩
  rw [if_neg h₀]
  have hmin : FirstMin [s₀] 0 s₀ := ⟨[], [], rfl, rfl, nofun, nofun⟩
  rcases findSlot_cases (show s₀ :: tl = [s₀] ++ tl from rfl)
    (fun x hx => List.mem_singleton.1 hx ▸ h₀) hmin with
    ⟨pre, s, post, heq, hs, hpre, hfind⟩ | ⟨hnone, k, s, ⟨pre, post, heq, rfl, hpre, hpost⟩, hfind⟩
  · refine Or.inl ⟨pre, s, post, heq, hs, hpre, ?_⟩
    rw [List.length_singleton] at hfind
    generalize findSlot (s₀ :: tl) d.stackframeHash 1 tl 0 = res at hfind
    obtain ⟨i, j⟩ := res
    dsimp only at hfind
    subst hfind
    rw [heq]
    exact modify_append_cons _ pre post
  · refine Or.inr ⟨hnone, pre, s, post, heq, hpre, hpost, ?_⟩
    rw [List.length_singleton] at hfind
    have hget : (pre ++ s :: post).getD pre.length {} = s := by simp
    rw [hfind, heq]
    dsimp only
    rw [hget]
    split_ifs
    · rw [List.set_append_right _ _ le_rfl, Nat.sub_self, List.set_cons_zero]
    · rfl

end CallstackSizeHash

/-! ### The slots -/

open CallstackSizeHash

/-- The hash and the size of a leak. -/
def MemoryLeakData.entry (d : MemoryLeakData) : ℕ × ℕ := (d.stackframeHash, d.size)

/-- The hash and the size of a slot. -/
def CallstackSizeHash.entry (s : CallstackSizeHash) : ℕ × ℕ := (s.hash, s.sizeBytes)

/-- **The invariant** of the slots of an API function, after some leaks: they hold the largest
leaks, and the used ones come first. -/
structure Slots (leaks : List MemoryLeakData) (slots : List CallstackSizeHash) : Prop where
  length : slots.length = 10
  largest : IsLargest (maxOf (leaks.map MemoryLeakData.entry)) (slots.map CallstackSizeHash.entry)
  free : ∀ s ∈ slots, s.sizeBytes = 0 → s.hash = 0
  filled : slots.Pairwise fun a b => a.sizeBytes = 0 → b.sizeBytes = 0

theorem slots_empty : Slots [] (List.replicate 10 {}) where
  length := rfl
  largest := isLargest_free 10 0
  free _ hs _ := List.eq_of_mem_replicate hs ▸ rfl
  filled := List.pairwise_replicate.2 (Or.inr fun h => h)

section Record

variable {leaks : List MemoryLeakData} {pre post : List CallstackSizeHash}
  {s t : CallstackSizeHash} {M : ℕ → ℕ}

/-- A leak whose hash no used slot has, and a smallest slot. -/
theorem isLargest_absent {d : MemoryLeakData}
    (h : IsLargest M ((pre ++ s :: post).map CallstackSizeHash.entry))
    (hk : ∀ x ∈ pre ++ s :: post, x.sizeBytes ≠ 0 → x.hash ≠ d.stackframeHash)
    (hs : ∀ x ∈ pre ++ s :: post, s.sizeBytes ≤ x.sizeBytes) (ht : t.entry = d.entry) :
    IsLargest (Largest.record M d.stackframeHash d.size)
      ((pre ++ (if d.size > s.sizeBytes then t else s) :: post).map CallstackSizeHash.entry) := by
  have hmem : ∀ {q : ℕ × ℕ → Prop}, (∀ x ∈ pre ++ s :: post, q x.entry) →
      ∀ a ∈ (pre ++ s :: post).map CallstackSizeHash.entry, q a := by
    intro q hq a ha
    obtain ⟨x, hx, rfl⟩ := List.mem_map.1 ha
    exact hq x hx
  have hk' := hmem (q := fun a => a.2 ≠ 0 → a.1 ≠ d.stackframeHash) hk
  split_ifs with hd
  · have hs' := hmem (q := fun a => s.entry.2 ≤ a.2) hs
    rw [List.map_append, List.map_cons] at h hk' hs' ⊢
    rw [ht]
    exact h.replace hk' hs' hd
  · refine h.keep hk' (hmem (q := fun a => d.size ≤ a.2) fun x hx => ?_)
    exact (not_lt.1 hd).trans (hs x hx)

/-- A slot that becomes larger, after used ones. -/
theorem Slots.set (h : Slots leaks (pre ++ s :: post))
    (ht : t = s ∨ t.sizeBytes ≠ 0 ∧ ∀ x ∈ pre, x.sizeBytes ≠ 0) {leaks' : List MemoryLeakData}
    (hlargest : IsLargest (maxOf (leaks'.map MemoryLeakData.entry))
      ((pre ++ t :: post).map CallstackSizeHash.entry)) : Slots leaks' (pre ++ t :: post) := by
  refine ⟨?_, hlargest, fun x hx h0 => ?_, ?_⟩
  · have hlength := h.length
    rw [List.length_append, List.length_cons] at hlength ⊢
    exact hlength
  · rcases List.mem_append.1 hx with hx | hx
    · exact h.free x (List.mem_append_left _ hx) h0
    · rcases List.mem_cons.1 hx with rfl | hx
      · rcases ht with rfl | ht
        · exact h.free x (List.mem_append_right _ List.mem_cons_self) h0
        · exact absurd h0 ht.1
      · exact h.free x (List.mem_append_right _ (List.mem_cons_of_mem _ hx)) h0
  · rcases ht with rfl | ⟨ht, hpre⟩
    · exact h.filled
    · obtain ⟨hp, hsp, hcross⟩ := List.pairwise_append.1 h.filled
      refine List.pairwise_append.2 ⟨hp, ?_, fun a ha b hb h0 => absurd h0 (hpre a ha)⟩
      exact List.pairwise_cons.2 ⟨fun b _ h0 => absurd h0 ht, (List.pairwise_cons.1 hsp).2⟩

/-- **The step lemma**: a further leak. -/
theorem Slots.record {slots : List CallstackSizeHash} (h : Slots leaks slots)
    (d : MemoryLeakData) : Slots (leaks ++ [d]) (recordCallstack slots d) := by
  have hne : slots ≠ [] := List.ne_nil_of_length_pos (h.length ▸ Nat.succ_pos 9)
  have hmax : maxOf ((leaks ++ [d]).map MemoryLeakData.entry) =
      Largest.record (maxOf (leaks.map MemoryLeakData.entry)) d.stackframeHash d.size := by
    rw [List.map_append, List.map_singleton, maxOf_concat]
    rfl
  rcases recordCallstack_cases hne d with ⟨pre, s, post, rfl, hs, hpre, heq⟩ |
    ⟨hnone, pre, s, post, rfl, hpre, hpost, heq⟩
  · have hfilled := List.pairwise_append.1 h.filled
    -- a free slot before the one that is found would have been found
    have hused : ∀ x ∈ pre, x.sizeBytes ≠ 0 := by
      intro x hx h0
      have hx0 := h.free x (List.mem_append_left _ hx) h0
      have hs0 := h.free s (List.mem_append_right _ List.mem_cons_self)
        (hfilled.2.2 x hx s List.mem_cons_self h0)
      exact hpre x hx (by rw [hx0, ← hs, hs0])
    rw [heq]
    refine h.set ?_ ?_
    · unfold CallstackSizeHash.raise
      split_ifs with hd
      · exact Or.inr ⟨(Nat.zero_le _).trans_lt hd |>.ne', hused⟩
      · exact Or.inl rfl
    · rw [hmax]
      by_cases hs0 : s.sizeBytes = 0
      · have hpost0 : ∀ x ∈ post, x.sizeBytes = 0 := fun x hx =>
          (List.pairwise_cons.1 hfilled.2.1).1 x hx hs0
        refine isLargest_absent h.largest (fun x hx hx0 => ?_) (fun x _ => hs0 ▸ Nat.zero_le _)
          (Prod.ext hs rfl)
        rcases List.mem_append.1 hx with hx | hx
        · exact hpre x hx
        · rcases List.mem_cons.1 hx with rfl | hx
          · exact absurd hs0 hx0
          · exact absurd (hpost0 x hx) hx0
      · have hraise : (s.raise d.size).entry = (s.hash, s.sizeBytes ⊔ d.size) := by
          unfold CallstackSizeHash.raise
          split_ifs with hd
          · exact Prod.ext rfl (max_eq_right hd.le).symm
          · exact Prod.ext rfl (max_eq_left (not_lt.1 hd)).symm
        have hlargest := h.largest
        rw [List.map_append, List.map_cons] at hlargest ⊢
        rw [hraise, ← hs]
        exact hlargest.raise hs0
  · rw [heq]
    refine h.set ?_ ?_
    · split_ifs with hd
      · exact Or.inr ⟨((Nat.zero_le _).trans_lt hd).ne',
          fun x hx => ((Nat.zero_le _).trans_lt (hpre x hx)).ne'⟩
      · exact Or.inl rfl
    · rw [hmax]
      refine isLargest_absent h.largest (fun x hx _ => hnone x hx) (fun x hx => ?_) rfl
      rcases List.mem_append.1 hx with hx | hx
      · exact (hpre x hx).le
      · rcases List.mem_cons.1 hx with rfl | hx
        · exact le_rfl
        · exact hpost x hx

end Record

/-- **All leaks** of an API function. -/
theorem slots_foldl (leaks : List MemoryLeakData) :
    Slots leaks (leaks.foldl recordCallstack (List.replicate 10 {})) := by
  induction leaks using List.reverseRecOn with
  | nil => exact slots_empty
  | append_singleton leaks d ih =>
    rw [List.foldl_append]
    exact ih.record d

/-! ### The entries -/

/-- The leaks of an API function. -/
def leaksOf (leaks : List MemoryLeakData) (f : ApiFunction) : List MemoryLeakData :=
  leaks.filter fun d => d.apiFunction = f

/-- The vector with the entry of every API function at its place. -/
def entries (info : ApiFunction → UsedApiInfo) : List UsedApiInfo :=
  (List.range apiFunctionsSize).map fun i => info (ApiFunction.ofNat i)

/-- The entry of an API function after some leaks. -/
def apiInfo (leaks : List MemoryLeakData) (f : ApiFunction) : UsedApiInfo :=
  (leaksOf leaks f).foldl UsedApiInfo.add { apiFunction := f }

theorem ctorIdx_ofNat : ∀ i < apiFunctionsSize, (ApiFunction.ofNat i).ctorIdx = i := by
  decide

/-- **The visit of a leak** changes the entry of its API function. -/
theorem visit_entries (info : ApiFunction → UsedApiInfo) (d : MemoryLeakData) :
    visit (entries info) d =
      entries (Function.update info d.apiFunction ((info d.apiFunction).add d)) := by
  refine List.ext_getElem (by simp [visit, entries]) fun i hi _ => ?_
  have hlt : i < apiFunctionsSize := by simpa [visit, entries] using hi
  simp only [visit, entries, List.getElem_modify, List.getElem_map, List.getElem_range]
  by_cases hd : d.apiFunction.ctorIdx = i
  · have hf : ApiFunction.ofNat i = d.apiFunction := hd ▸ ApiFunction.ofNat_ctorIdx _
    rw [if_pos hd, hf, Function.update_self]
  · have hf : ApiFunction.ofNat i ≠ d.apiFunction := fun hc => hd (hc ▸ ctorIdx_ofNat i hlt)
    rw [if_neg hd, Function.update_of_ne hf]

theorem foldl_visit (leaks : List MemoryLeakData) (info : ApiFunction → UsedApiInfo) :
    leaks.foldl visit (entries info) =
      entries fun f => (leaksOf leaks f).foldl UsedApiInfo.add (info f) := by
  induction leaks generalizing info with
  | nil => rfl
  | cons d leaks ih =>
    rw [List.foldl_cons, visit_entries, ih]
    refine congrArg entries (funext fun f => ?_)
    unfold leaksOf
    by_cases hf : d.apiFunction = f
    · subst hf
      simp
    · simp [hf, Function.update_of_ne (Ne.symm hf)]

theorem mem_entries {info : ApiFunction → UsedApiInfo} {i : UsedApiInfo} :
    i ∈ entries info ↔ ∃ f, info f = i := by
  constructor
  · intro hi
    obtain ⟨j, -, heq⟩ := List.mem_map.1 hi
    exact ⟨_, heq⟩
  · rintro ⟨f, rfl⟩
    have hlt : f.ctorIdx < apiFunctionsSize := by cases f <;> decide
    refine List.mem_map.2 ⟨f.ctorIdx, List.mem_range.2 hlt, ?_⟩
    rw [ApiFunction.ofNat_ctorIdx]

/-- The entry of an API function, field by field. -/
theorem foldl_add (leaks : List MemoryLeakData) (f : ApiFunction) :
    leaks.foldl UsedApiInfo.add { apiFunction := f } =
      { callstackAndSize := leaks.foldl recordCallstack (List.replicate 10 {})
        totalBytes := (leaks.map fun d => d.size).sum % 2 ^ 64
        apiFunction := f
        hitCount := leaks.length % 2 ^ 64 } := by
  induction leaks using List.reverseRecOn with
  | nil => rfl
  | append_singleton leaks d ih =>
    rw [List.foldl_append, List.foldl_append, ih]
    simp [UsedApiInfo.add]

/-- What the slots of an API function hold. -/
structure ExactSlots (leaks : List MemoryLeakData) (slots : List CallstackSizeHash) : Prop where
  length : slots.length = 10
  /-- the used slots have different hashes -/
  distinct : slots.Pairwise fun a b => a.sizeBytes ≠ 0 → b.sizeBytes ≠ 0 → a.hash ≠ b.hash
  /-- a used slot has the size of the largest leak with its hash -/
  greatest : ∀ s ∈ slots, s.sizeBytes ≠ 0 →
    IsGreatest {n | ∃ d ∈ leaks, d.stackframeHash = s.hash ∧ d.size = n} s.sizeBytes
  /-- a leak whose hash has no slot is not larger than the slots, which are all in use -/
  rest : ∀ d ∈ leaks, (∀ s ∈ slots, s.sizeBytes ≠ 0 → s.hash ≠ d.stackframeHash) →
    d.size = 0 ∨ ∀ s ∈ slots, s.sizeBytes ≠ 0 ∧ d.size ≤ s.sizeBytes

theorem Slots.exact {leaks : List MemoryLeakData} {slots : List CallstackSizeHash}
    (h : Slots leaks slots) : ExactSlots leaks slots where
  length := h.length
  distinct := List.pairwise_map.1 h.largest.distinct
  greatest s hs hne := by
    have hval : s.sizeBytes = maxOf (leaks.map MemoryLeakData.entry) s.hash :=
      h.largest.value s.entry (List.mem_map_of_mem hs) hne
    constructor
    · have hmem := maxOf_mem (hval ▸ hne)
      obtain ⟨d, hd, heq⟩ := List.mem_map.1 hmem
      exact ⟨d, hd, congrArg Prod.fst heq, (congrArg Prod.snd heq).trans hval.symm⟩
    · rintro n ⟨d, hd, hhash, rfl⟩
      rw [hval, ← hhash]
      exact le_maxOf (List.mem_map_of_mem (f := MemoryLeakData.entry) hd)
  rest d hd habsent := by
    have hle : ∀ s ∈ slots, d.size ≤ s.sizeBytes := fun s hs =>
      (le_maxOf (List.mem_map_of_mem (f := MemoryLeakData.entry) hd)).trans <|
        h.largest.rest d.stackframeHash (fun a ha hne => by
          obtain ⟨x, hx, rfl⟩ := List.mem_map.1 ha
          exact habsent x hx hne) s.entry (List.mem_map_of_mem hs)
    by_cases h0 : d.size = 0
    · exact Or.inl h0
    · exact Or.inr fun s hs => ⟨fun hc => h0 (Nat.le_zero.1 (hc ▸ hle s hs)), hle s hs⟩

/-- The sizes do not depend on the order of the leaks. -/
theorem Slots.sizes_perm {leaks leaks' : List MemoryLeakData}
    {slots slots' : List CallstackSizeHash} (h : Slots leaks slots) (h' : Slots leaks' slots')
    (hleaks : leaks.Perm leaks') :
    (slots.map fun s => s.sizeBytes).Perm (slots'.map fun s => s.sizeBytes) := by
  have hlargest' := h'.largest
  rw [← maxOf_perm (hleaks.map _)] at hlargest'
  have hperm := h.largest.perm hlargest' (by simp [h.length, h'.length])
    ((leaks.map MemoryLeakData.entry).map Prod.fst).toFinset fun k hk =>
      List.mem_toFinset.2 (List.mem_map_of_mem (f := Prod.fst) (maxOf_mem hk))
  rw [List.map_map, List.map_map] at hperm
  exact hperm

/-- The result has the entries of all API functions. -/
theorem groupLeaks2_perm (std : StdSort moreBytes) (leaks : List MemoryLeakData) :
    (groupLeaks2 std usedApiInfos leaks).Perm (entries (apiInfo leaks)) := by
  refine (std.perm _).trans (List.Perm.of_eq ?_)
  exact foldl_visit leaks fun f => { apiFunction := f }

/-- **The grouping is exact** and does not depend on the order of the visit: the result has the
entries of all API functions, in descending order of the bytes, and the entry of an API function has
the number of its leaks, their bytes, and the largest leaks of different call stacks. -/
theorem group_leaks_exact (std : StdSort moreBytes) (leaks : List MemoryLeakData) :
    (groupLeaks2 std usedApiInfos leaks).Perm (entries (apiInfo leaks)) ∧
      (groupLeaks2 std usedApiInfos leaks).Pairwise (fun a b => b.totalBytes ≤ a.totalBytes) ∧
      ∀ f, (apiInfo leaks f).apiFunction = f ∧
        (apiInfo leaks f).hitCount = (leaksOf leaks f).length % 2 ^ 64 ∧
        (apiInfo leaks f).totalBytes = ((leaksOf leaks f).map fun d => d.size).sum % 2 ^ 64 ∧
        ExactSlots (leaksOf leaks f) (apiInfo leaks f).callstackAndSize ∧
        ∀ leaks', leaks.Perm leaks' →
          ((apiInfo leaks f).callstackAndSize.map fun s => s.sizeBytes).Perm
            ((apiInfo leaks' f).callstackAndSize.map fun s => s.sizeBytes) := by
  have hslots : ∀ leaks f, Slots (leaksOf leaks f) (apiInfo leaks f).callstackAndSize := by
    intro leaks f
    unfold apiInfo
    rw [foldl_add]
    exact slots_foldl _
  refine ⟨groupLeaks2_perm std leaks, ?_,
    fun f => ⟨?_, ?_, ?_, (hslots leaks f).exact, fun leaks' hleaks => ?_⟩⟩
  · refine (std.sorted (leaks.foldl visit usedApiInfos)).imp fun {a b} hab => ?_
    exact not_lt.1 (of_decide_eq_false hab)
  · rw [apiInfo, foldl_add]
  · rw [apiInfo, foldl_add]
  · rw [apiInfo, foldl_add]
  · exact (hslots leaks f).sizes_perm (hslots leaks' f) (hleaks.filter _)

end BugInsight

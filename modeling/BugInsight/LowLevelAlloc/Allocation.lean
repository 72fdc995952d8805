import BugInsight.FirstFit
import BugInsight.LowLevelAlloc.Coalesce

/-!
# Blocks are taken and given back

`DoAllocWithArena` looks for the first block of the free list that is large enough, at the lowest
level that such a block must have, and takes what it needs of it.  `Free` puts a block back.  The
answers of `VirtualAlloc` are given as a list of addresses.

* `Inv A s free live`: free and live blocks make up the pages of the arena;
* `firstFit_eq`: the search by levels finds the same block as one through the whole list;
* `findRegion_spec`, `takeRegion_spec`: how the free list changes when a block is taken.
-/

namespace BugInsight.LowLevelAlloc

open SkipList AllocList
open FirstFit
open Extent hiding size

/-- `prev->next[i]`, with the assertions on the order and the headers of the free list. -/
def Next (A : Arena) (m : Memory) (i prev : ℕ) : Option ℕ :=
  let n := m (next prev i)
  if i < m (levels prev) ∧ (n ≠ 0 → m (magic n) = Magic kMagicUnallocated n ∧
      m (arena n) = A.freelist ∧ (prev ≠ A.freelist → prev < n ∧ prev + m (size prev) < n)) then
    some n
  else none

/-- A round of the loop that looks for a large block at level `i`. -/
def fitRound (A : Arena) (m : Memory) (i req_rnd before : ℕ) : ℕ ⊕ Option ℕ :=
  match Next A m i before with
  | none => .inr none
  | some s => if s ≠ 0 ∧ m (size s) < req_rnd then .inl s else .inr (some s)

/-- More rounds than blocks fit in memory. -/
def maxBlocks : ℕ := 2 ^ 64

/-- The first large enough block at the lowest level that it must have, or zero. -/
def firstFit (A : Arena) (m : Memory) (req_rnd : ℕ) : Option ℕ := do
  let (level, _) ← LLA_SkiplistLevels req_rnd min_size none
  if level - 1 < m (levels A.freelist) then
    (Loop.iterate (fitRound A m (level - 1) req_rnd) maxBlocks A.freelist).join
  else some 0

/-- Writes the header of a block of `sz` bytes at `p` that is not on the free list. -/
def allocHeader (A : Arena) (m : Memory) (p sz : ℕ) : Memory :=
  let m := Function.update m (size p) sz
  let m := Function.update m (magic p) (Magic kMagicAllocated p)
  Function.update m (arena p) A.freelist

/-- The loop of `DoAllocWithArena`: takes pages from the system until a block is large enough. -/
def findRegion (A : Arena) (req_rnd : ℕ) : List ℕ → Heap → Option (ℕ × Heap)
  | [], s => do
      let region ← firstFit A s.mem req_rnd
      -- `VirtualAlloc` fails
      if region ≠ 0 then return (region, s) else none
  | new_pages :: newPages, s => do
      let region ← firstFit A s.mem req_rnd
      if region ≠ 0 then return (region, s) else
        let new_pages_size ← RoundUp req_rnd (A.pagesize * 16)
        let s ← AddToFreelist A { s with
          mem := allocHeader A s.mem new_pages new_pages_size
          pages := ⟨new_pages, new_pages_size⟩ :: s.pages } (new_pages + sizeofHeader)
        findRegion A req_rnd newPages s

/-- Puts what is left of the block `p` after `req_rnd` bytes back, if it is enough for a block. -/
def splitRegion (A : Arena) (req_rnd p : ℕ) (s : Heap) : Option Heap := do
  let sum ← CheckedAdd req_rnd min_size
  if sum ≤ s.mem (size p) then
    let n := req_rnd + p
    let m := allocHeader A s.mem n (s.mem (size p) - req_rnd)
    AddToFreelist A { s with mem := Function.update m (size p) req_rnd } (n + sizeofHeader)
  else some s

/-- Takes the block `p` off the free list, or `req_rnd` bytes of it. -/
def takeRegion (A : Arena) (req_rnd p : ℕ) (s : Heap) : Option Heap := do
  let (m, _) ← LLA_SkiplistDelete s.mem A.freelist p fun _ => 0
  let s ← splitRegion A req_rnd p { s with mem := m }
  let m := Function.update s.mem (magic p) (Magic kMagicAllocated p)
  -- the counter is an `int32_t`
  if m (arena p) = A.freelist ∧ s.allocation_count + 1 < 2 ^ 31 then
    return { s with mem := m, allocation_count := s.allocation_count + 1 }
  else none

/-- A block of `request` bytes; `newPages` are the addresses that `VirtualAlloc` returns. -/
def DoAllocWithArena (A : Arena) (s : Heap) (request : ℕ) (newPages : List ℕ) :
    Option (ℕ × Heap) :=
  if request ≠ 0 then do
    let sum ← CheckedAdd request sizeofHeader
    let req_rnd ← RoundUp sum RoundedUpBlockSize
    let (p, s) ← findRegion A req_rnd newPages s
    let s ← takeRegion A req_rnd p s
    return (p + sizeofHeader, s)
  else some (0, s)

/-- Gives the block at `v` back. -/
def Free (A : Arena) (s : Heap) (v : ℕ) : Option Heap :=
  if v ≠ 0 then do
    let s ← AddToFreelist A s v
    if 0 < s.allocation_count then
      return { s with allocation_count := s.allocation_count - 1 }
    else none
  else some s

/-! ### The search by levels -/

section Search

variable {A : Arena} {m : Memory} {rs : List Extent} {req : ℕ}

/-- The first block that is large enough, or zero. -/
def fit (rs : List Extent) (req : ℕ) : ℕ :=
  ((rs.find? fun r => req ≤ r.size).map start).getD 0

theorem fit_cons_of_lt {r : Extent} (h : r.size < req) : fit (r :: rs) req = fit rs req := by
  rw [fit, List.find?_cons_of_neg (by simpa using h), fit]

theorem fit_cons_of_le {r : Extent} (h : req ≤ r.size) : fit (r :: rs) req = r.start := by
  rw [fit, List.find?_cons_of_pos (by simpa using h)]
  rfl

/-- The walk along one level, from the head or from a block that is too small. -/
theorem iterate_fitRound (FB : FreeBlocks m A.freelist rs) {i fuel before : ℕ} {qs : List Extent}
    (hqs : qs ⊆ rs) (hsep : Separated qs) (hlevel : ∀ q ∈ qs, i < m (levels q.start))
    (hlinked : Linked (fun p => m (next p i)) 0 before (qs.map start))
    (hbefore : i < m (levels before)) (hfuel : qs.length < fuel)
    (hstop : before = A.freelist ∨ ∃ r ∈ rs, before = r.start ∧ ∀ q ∈ qs, r.stop < q.start) :
    Loop.iterate (fitRound A m i req) fuel before = some (some (fit qs req)) := by
  obtain ⟨fuel, rfl⟩ : ∃ f, fuel = f + 1 := ⟨fuel - 1, by omega⟩
  induction qs generalizing before fuel with
  | nil =>
    have hn : m (next before i) = 0 := hlinked
    have hnext : Next A m i before = some 0 := by
      rw [Next, hn]
      exact if_pos ⟨hbefore, fun h => absurd rfl h⟩
    have hround : fitRound A m i req before = .inr (some 0) := by
      rw [fitRound, hnext]
      exact if_neg fun h => h.1 rfl
    exact Loop.iterate_succ_inr hround
  | cons q qs ih =>
    obtain ⟨hn, hlinked⟩ := hlinked
    obtain ⟨hq, hqs⟩ := List.cons_subset.1 hqs
    obtain ⟨hsepq, hsep⟩ := List.pairwise_cons.1 hsep
    have hheader := FB.header q hq
    have hnext : Next A m i before = some q.start := by
      rw [Next]
      simp only [hn]
      refine if_pos ⟨hbefore, fun _ => ⟨hheader.magic_eq, hheader.arena_eq, fun hne => ?_⟩⟩
      obtain ⟨r, hr, rfl, hrq⟩ := hstop.resolve_left hne
      have hlt := hrq q List.mem_cons_self
      rw [(FB.header r hr).size_eq]
      simp only [stop] at hlt
      omega
    have hq0 : q.start ≠ 0 := (FB.placed q hq).start_pos.ne'
    rcases lt_or_ge q.size req with hlt | hge
    · have hround : fitRound A m i req before = .inl q.start := by
        rw [fitRound, hnext]
        exact if_pos ⟨hq0, by rwa [hheader.size_eq]⟩
      obtain ⟨fuel, rfl⟩ : ∃ f, fuel = f + 1 := ⟨fuel - 1, by simp at hfuel; omega⟩
      rw [Loop.iterate_succ_inl hround, fit_cons_of_lt hlt]
      exact ih hqs hsep (fun q' hq' => hlevel q' (List.mem_cons_of_mem q hq')) hlinked
        (hlevel q List.mem_cons_self) (.inr ⟨q, hq, rfl, hsepq⟩) fuel (by simpa using hfuel)
    · have hround : fitRound A m i req before = .inr (some q.start) := by
        rw [fitRound, hnext]
        refine if_neg fun h => ?_
        rw [hheader.size_eq] at h
        exact h.2.not_ge hge
      rw [Loop.iterate_succ_inr hround, fit_cons_of_le hge]

theorem fit_eq_zero (h : ∀ r ∈ rs, r.size < req) : fit rs req = 0 := by
  rw [fit, List.find?_eq_none.2 fun r hr => by simpa using h r hr]
  rfl

/-- Blocks that are too small may be left out of the search. -/
theorem fit_filter {p : Extent → Bool} (h : ∀ r ∈ rs, req ≤ r.size → p r = true) :
    fit (rs.filter p) req = fit rs req := by
  induction rs with
  | nil => rfl
  | cons r rs ih =>
    have hrs := ih fun a ha => h a (List.mem_cons_of_mem r ha)
    rcases lt_or_ge r.size req with hlt | hge
    · rw [fit_cons_of_lt hlt, ← hrs, List.filter_cons]
      split_ifs
      · exact fit_cons_of_lt hlt
      · rfl
    · rw [List.filter_cons_of_pos (h r List.mem_cons_self hge), fit_cons_of_le hge,
        fit_cons_of_le hge]

theorem fit_ne_zero {r : Extent} (hpos : ∀ a ∈ rs, 0 < a.start) (hr : r ∈ rs)
    (hle : req ≤ r.size) : fit rs req ≠ 0 := by
  induction rs with
  | nil => simp at hr
  | cons a rs ih =>
    obtain ⟨ha, hrs⟩ := List.forall_mem_cons.1 hpos
    rcases lt_or_ge a.size req with hlt | hge
    · rw [fit_cons_of_lt hlt]
      refine ih hrs ((List.mem_cons.1 hr).resolve_left ?_)
      rintro rfl
      omega
    · rw [fit_cons_of_le hge]
      exact ha.ne'

theorem length_lt_maxBlocks {head : ℕ} (B : Blocks m head rs) : rs.length < maxBlocks := by
  have hlt : ∀ p ∈ rs.map start, p < 2 ^ 64 - 1 := by
    refine List.forall_mem_map.2 fun r hr => ?_
    have hstop := (B.placed r hr).stop_le
    have hmin := (B.placed r hr).min_le
    rw [min_size_eq] at hmin
    simp only [stop] at hstop
    omega
  have hfilter : (rs.map start).filter (· < 2 ^ 64 - 1) = rs.map start :=
    List.filter_eq_self.2 fun p hp => decide_eq_true (hlt p hp)
  have hlength := length_filter_lt B.represents.sorted (2 ^ 64 - 1)
  rw [hfilter, List.length_map] at hlength
  rw [maxBlocks]
  omega

/-- **The search by levels** finds the first block of the whole list that is large enough: every
such block takes part in the level that is searched. -/
theorem firstFit_eq (FB : FreeBlocks m A.freelist rs) (hsep : Separated rs)
    (hmin : min_size ≤ req) (h64 : req < 2 ^ 64) : firstFit A m req = some (fit rs req) := by
  have hroom : offsetofNext + sizeofPointer ≤ req := by
    rw [min_size_eq] at hmin
    simp only [offsetofNext, sizeofPointer]
    omega
  have hlevels : LLA_SkiplistLevels req min_size none = some (minLevels req, none) :=
    LLA_SkiplistLevels_eq hroom h64 min_size none
  have hpos : 1 ≤ minLevels req := clip_pos hroom (Nat.le_add_left 1 _)
  have hlarge : ∀ r ∈ rs, req ≤ r.size → minLevels req - 1 < m (levels r.start) := by
    intro r hr hle
    have h₁ := FB.min_levels r hr
    have h₂ := minLevels_mono hle
    omega
  rw [firstFit, hlevels]
  simp only [Option.bind_eq_bind, Option.bind_some]
  split_ifs with htop
  · have hcap : minLevels req - 1 < kMaxLevel :=
      (Nat.sub_le _ _).trans_lt (clip_lt req _)
    have hlinked := FB.represents.linked _ hcap
    rw [level, List.filter_map] at hlinked
    set qs := rs.filter ((fun p => decide (minLevels req - 1 < m (levels p))) ∘ start) with hqs
    have hwalk : Loop.iterate (fitRound A m (minLevels req - 1) req) maxBlocks A.freelist
        = some (some (fit qs req)) := iterate_fitRound FB
      (List.filter_sublist (l := rs)).subset (hsep.filter _)
      (fun q hq => of_decide_eq_true (List.mem_filter.1 hq).2) hlinked htop
      (List.length_filter_le _ _ |>.trans_lt (length_lt_maxBlocks FB.toBlocks)) (.inl rfl)
    have hqs_fit : fit qs req = fit rs req :=
      fit_filter fun r hr hle => decide_eq_true (hlarge r hr hle)
    rw [hwalk, hqs_fit]
    rfl
  · rw [fit_eq_zero fun r hr => ?_]
    by_contra hle
    have h₁ := hlarge r hr (not_lt.1 hle)
    have h₂ := FB.represents.height_le r.start (List.mem_map_of_mem hr)
    omega

end Search

/-! ### The invariant -/

/-- Memory holds the free list of the blocks `free` and the headers of the blocks `live`. -/
structure Valid (A : Arena) (m : Memory) (free live : List Extent) : Prop where
  freeBlocks : FreeBlocks m A.freelist free
  separated : Separated free
  head_size : m (size A.freelist) = 0
  live_placed : ∀ r ∈ live, WellPlaced A.freelist r
  live_header : ∀ r ∈ live, Header m A.freelist kMagicAllocated r
  live_apart : live.Pairwise Apart
  apart : ∀ r ∈ free, ∀ r' ∈ live, r.Apart r'

/-- The words that the allocator relies on: the free list and the headers of the live blocks. -/
def Reserved (A : Arena) (free live : List Extent) (x : ℕ) : Prop :=
  (A.freelist ≤ x ∧ x < next A.freelist kMaxLevel) ∨ Covers free x ∨
    ∃ r ∈ live, r.start ≤ x ∧ x < levels r.start

section Valid

variable {A : Arena} {m m' : Memory} {free live : List Extent} {f : Extent}

theorem Header.congr {head mark : ℕ} {r : Extent} (h : Header m head mark r)
    (hm : ∀ x, r.start ≤ x → x < levels r.start → m' x = m x) : Header m' head mark r := by
  refine ⟨(hm _ ?_ ?_).trans h.size_eq, (hm _ ?_ ?_).trans h.magic_eq,
    (hm _ ?_ ?_).trans h.arena_eq⟩
  all_goals simp only [size, magic, arena, levels, sizeofHeader]; omega

theorem FreeBlocks.congr {head : ℕ} {rs : List Extent} (FB : FreeBlocks m head rs)
    (hm : ∀ x, Owned head rs x → m' x = m x) : FreeBlocks m' head rs := by
  have hblock : ∀ r ∈ rs, ∀ x, r.start ≤ x → x < r.stop → m' x = m x := fun r hr x hle hlt =>
    hm x (.inr ⟨r, hr, hle, hlt⟩)
  refine ⟨FB.toBlocks.congr (fun x hle hlt => hm x (.inl ⟨hle, hlt⟩)) fun r hr x hle hlt => ?_,
    fun r hr => ?_, fun r hr => ?_⟩
  · exact hblock r hr x ((start_le_levels _).trans hle) hlt
  · exact (FB.header r hr).congr fun x hle hlt =>
      hblock r hr x hle (hlt.trans (FB.placed r hr).levels_lt_stop)
  · rw [hblock r hr _ (start_le_levels _) (FB.placed r hr).levels_lt_stop]
    exact FB.min_levels r hr

theorem owned_reserved {x : ℕ} (hx : Owned A.freelist free x) : Reserved A free live x :=
  hx.imp (fun h => ⟨(start_le_levels _).trans h.1, h.2⟩) .inl

/-- **What clients may write**: the invariant only depends on the reserved words. -/
theorem Valid.congr (V : Valid A m free live) (hm : ∀ x, Reserved A free live x → m' x = m x) :
    Valid A m' free live where
  freeBlocks := V.freeBlocks.congr fun x hx => hm x (owned_reserved hx)
  separated := V.separated
  head_size := by
    rw [hm, V.head_size]
    refine .inl ⟨le_rfl, ?_⟩
    simp only [size, next, offsetofNext]
    omega
  live_placed := V.live_placed
  live_header := fun r hr => (V.live_header r hr).congr fun x hle hlt =>
    hm x (.inr (.inr ⟨r, hr, hle, hlt⟩))
  live_apart := V.live_apart
  apart := V.apart

theorem allocHeader_header (A : Arena) (m : Memory) (f : Extent) :
    Header (allocHeader A m f.start f.size) A.freelist kMagicAllocated f := by
  refine ⟨?_, ?_, Function.update_self _ _ _⟩
  · rw [allocHeader, Function.update_of_ne, Function.update_of_ne, Function.update_self]
    all_goals simp only [size, magic, arena]; omega
  · rw [allocHeader, Function.update_of_ne, Function.update_self]
    simp only [magic, arena]
    omega

theorem allocHeader_of_not_mem {p sz x : ℕ} (hx : ¬(p ≤ x ∧ x < levels p)) :
    allocHeader A m p sz x = m x := by
  rw [allocHeader, Function.update_of_ne, Function.update_of_ne, Function.update_of_ne]
  all_goals
    rintro rfl
    simp only [magic, arena, levels, sizeofHeader] at hx
    omega

/-- A block away from all others is not reserved. -/
theorem not_reserved_of_apart {x : ℕ} (hplaced : WellPlaced A.freelist f)
    (hlive : ∀ r ∈ live, WellPlaced A.freelist r)
    (hapart : ∀ r ∈ free ++ live, r.Apart f) (hx : f.Has x) : ¬Reserved A free live x := by
  obtain ⟨hle, hlt⟩ := hx
  rintro (⟨h₁, h₂⟩ | ⟨r, hr, h₁, h₂⟩ | ⟨r, hr, h₁, h₂⟩)
  · have hhead := hplaced.head_apart
    omega
  · have h := hapart r (List.mem_append_left _ hr)
    simp only [Apart] at h
    omega
  · have h := hapart r (List.mem_append_right _ hr)
    have hstop := (hlive r hr).levels_lt_stop
    simp only [Apart] at h
    omega

/-- A block with the right header becomes live. -/
theorem Valid.cons (V : Valid A m free live) (hplaced : WellPlaced A.freelist f)
    (hapart : ∀ r ∈ free ++ live, r.Apart f) (hheader : Header m A.freelist kMagicAllocated f) :
    Valid A m free (f :: live) where
  freeBlocks := V.freeBlocks
  separated := V.separated
  head_size := V.head_size
  live_placed := List.forall_mem_cons.2 ⟨hplaced, V.live_placed⟩
  live_header := List.forall_mem_cons.2 ⟨hheader, V.live_header⟩
  live_apart := List.pairwise_cons.2
    ⟨fun r hr => (hapart r (List.mem_append_right _ hr)).symm, V.live_apart⟩
  apart := fun r hr => List.forall_mem_cons.2
    ⟨hapart r (List.mem_append_left _ hr), V.apart r hr⟩

/-- A new block gets its header. -/
theorem Valid.push (V : Valid A m free live) (hplaced : WellPlaced A.freelist f)
    (hapart : ∀ r ∈ free ++ live, r.Apart f) :
    Valid A (allocHeader A m f.start f.size) free (f :: live) := by
  refine (V.congr fun x hx => allocHeader_of_not_mem fun h => ?_).cons hplaced hapart
    (allocHeader_header A m f)
  exact not_reserved_of_apart hplaced V.live_placed hapart
    ⟨h.1, h.2.trans hplaced.levels_lt_stop⟩ hx

/-- A block is taken off the free list. -/
theorem Valid.delete (V : Valid A m free live) (hf : f ∈ free) (prev : ℕ → ℕ) :
    ∃ m' prev', LLA_SkiplistDelete m A.freelist f.start prev = some (m', prev') ∧
      Valid A m' (free.filter (· ≠ f)) live ∧
      ∀ x, ¬LinkArea A.freelist free x → m' x = m x := by
  obtain ⟨m', prev', hdelete, B', hframe⟩ := V.freeBlocks.toBlocks.delete hf prev
  have hfree : ∀ r ∈ free, ∀ x, r.start ≤ x → x < next r.start 0 → m' x = m x :=
    fun r hr x hle hlt => hframe x (V.freeBlocks.not_linkArea hr hle hlt)
  refine ⟨m', prev', hdelete, ⟨⟨B', fun r hr => ?_, fun r hr => ?_⟩, V.separated.filter _, ?_,
    V.live_placed, fun r hr => ?_, V.live_apart, fun r hr => ?_⟩, hframe⟩
  · have hr' := (List.mem_filter.1 hr).1
    exact (V.freeBlocks.header r hr').congr fun x hle hlt =>
      hfree r hr' x hle (hlt.trans (levels_lt_next _))
  · have hr' := (List.mem_filter.1 hr).1
    rw [hfree r hr' _ (start_le_levels _) (levels_lt_next _)]
    exact V.freeBlocks.min_levels r hr'
  · have hlt : size A.freelist < levels A.freelist := by
      simp only [size, levels, sizeofHeader]
      omega
    rw [hframe (size A.freelist) fun h =>
      not_owned_header V.freeBlocks.placed le_rfl hlt h.owned, V.head_size]
  · refine (V.live_header r hr).congr fun x hle hlt => hframe x ?_
    exact not_linkArea_of_lt (V.live_placed r hr) (fun r' hr' => .inr (V.apart r' hr' r hr)) hle
      (hlt.trans (levels_lt_next _))
  · exact V.apart r (List.mem_filter.1 hr).1

/-- The block that is given back. -/
theorem Valid.add {s : Heap} (V : Valid A s.mem free (f :: live)) :
    ∃ s', AddToFreelist A s (f.start + sizeofHeader) = some s' ∧
      Valid A s'.mem (put f free) live ∧ s'.allocation_count = s.allocation_count ∧
      s'.pages = s.pages ∧ ∀ x, ¬Owned A.freelist (f :: free) x → s'.mem x = s.mem x := by
  obtain ⟨hplaced, hlive_placed⟩ := List.forall_mem_cons.1 V.live_placed
  obtain ⟨hheader, hlive_header⟩ := List.forall_mem_cons.1 V.live_header
  obtain ⟨hf, hlive_apart⟩ := List.pairwise_cons.1 V.live_apart
  have hpos : Nonempty free := fun r hr => (V.freeBlocks.placed r hr).size_pos
  have hfree : ∀ r ∈ free, r.Apart f := fun r hr => V.apart r hr f List.mem_cons_self
  obtain ⟨s', hadd, FB', hcount, hpages, hframe⟩ :=
    AddToFreelist_spec V.freeBlocks V.separated V.head_size hplaced hfree hheader
  have hplaced' : ∀ r ∈ f :: free, WellPlaced A.freelist r :=
    List.forall_mem_cons.2 ⟨hplaced, V.freeBlocks.placed⟩
  have hapart : ∀ r ∈ live, ∀ r' ∈ f :: free, r'.Apart r := fun r hr =>
    List.forall_mem_cons.2 ⟨hf r hr, fun r' hr' => V.apart r' hr' r (List.mem_cons_of_mem f hr)⟩
  -- live blocks are not written
  have hlive : ∀ r ∈ live, ∀ x, r.Has x → s'.mem x = s.mem x := by
    intro r hr x ⟨hle, hlt⟩
    refine hframe x ?_
    rintro (⟨h₁, h₂⟩ | ⟨r', hr', h₁, h₂⟩)
    · have hhead := (hlive_placed r hr).head_apart
      have hlevels := start_le_levels A.freelist
      omega
    · have h := hapart r hr r' hr'
      simp only [Apart] at h
      omega
  refine ⟨s', hadd, ⟨FB', separated_put V.separated hpos hplaced.size_pos hfree, ?_, hlive_placed,
    fun r hr => ?_, hlive_apart, ?_⟩, hcount, hpages, hframe⟩
  · have hlt : size A.freelist < levels A.freelist := by
      simp only [size, levels, sizeofHeader]
      omega
    rw [hframe (size A.freelist) (not_owned_header hplaced' le_rfl hlt), V.head_size]
  · exact (hlive_header r hr).congr fun x hle hlt =>
      hlive r hr x ⟨hle, hlt.trans (hlive_placed r hr).levels_lt_stop⟩
  · intro r hr r' hr'
    refine apart_of_not_has (FB'.placed r hr).size_pos (hlive_placed r' hr').size_pos
      fun x hx hx' => ?_
    -- a word of `r` is a word of a free block or of `f`
    have hcov : Covers (f :: free) x := covers_cons.2 (covers_put.1 ⟨r, hr, hx⟩).symm
    obtain ⟨r'', hr'', hx''⟩ := hcov
    exact (hapart r' hr' r'' hr'').not_has hx'' hx'

end Valid

/-- The free and the live blocks make up the pages of the arena. -/
structure Inv (A : Arena) (s : Heap) (free live : List Extent) : Prop extends
    Valid A s.mem free live where
  covers : ∀ x, Covers s.pages x ↔ Covers free x ∨ Covers live x
  pages_pos : Nonempty s.pages
  page_dvd : ∀ r ∈ s.pages, A.pagesize ∣ r.start ∧ A.pagesize ∣ r.size
  pages_apart : s.pages.Pairwise Apart
  count : s.allocation_count = live.length

/-- What `VirtualAlloc` returns: whole pages that have not been in use. -/
structure FreshPages (A : Arena) (pages : List Extent) (r : Extent) : Prop where
  start_pos : 0 < r.start
  start_dvd : A.pagesize ∣ r.start
  stop_le : r.stop ≤ 2 ^ 64
  head_apart : r.stop ≤ A.freelist ∨ next A.freelist kMaxLevel ≤ r.start
  apart : ∀ r' ∈ pages, r'.Apart r

section Pages

variable {A : Arena} {s : Heap} {free live : List Extent} {r : Extent} {req p : ℕ}

theorem pagesize_dvd (A : Arena) : RoundedUpBlockSize ∣ A.pagesize := by
  obtain ⟨k, hk, -, hpow⟩ := A.pagesize_eq
  rw [RoundedUpBlockSize_eq, hpow]
  exact pow_dvd_pow 2 hk

/-- The bytes that are taken from the system for a block of `req` bytes. -/
def pageBytes (A : Arena) (req : ℕ) : ℕ := roundUp req (A.pagesize * 16)

theorem pagesize_pos (A : Arena) : 0 < A.pagesize := by
  obtain ⟨k, -, -, hpow⟩ := A.pagesize_eq
  exact hpow ▸ Nat.two_pow_pos k

/-- Whole pages for a block of `req` bytes. -/
theorem RoundUp_pages (hreq : req + A.pagesize * 16 ≤ 2 ^ 64) :
    RoundUp req (A.pagesize * 16) = some (pageBytes A req) ∧ req ≤ pageBytes A req ∧
      A.pagesize ∣ pageBytes A req := by
  obtain ⟨k, -, hk, hpow⟩ := A.pagesize_eq
  refine ⟨RoundUp_eq (k := k + 4) (by omega) (by rw [hpow, pow_add]; norm_num) hreq, ?_,
    (Dvd.intro _ rfl).trans (dvd_roundUp req _)⟩
  exact le_roundUp (Nat.mul_pos (pagesize_pos A) (by norm_num))

theorem FreshPages.wellPlaced {pages : List Extent} (h : FreshPages A pages r)
    (hmin : min_size ≤ r.size) (hdvd : A.pagesize ∣ r.size) : WellPlaced A.freelist r where
  start_pos := h.start_pos
  min_le := hmin
  stop_le := h.stop_le
  head_apart := h.head_apart
  start_dvd := (pagesize_dvd A).trans h.start_dvd
  size_dvd := (pagesize_dvd A).trans hdvd

/-- New pages touch no block. -/
theorem Inv.apart_of_fresh (I : Inv A s free live) (h : FreshPages A s.pages r)
    (hpos : 0 < r.size) : ∀ r' ∈ free ++ live, r'.Apart r := by
  intro r' hr'
  have hpos' : 0 < r'.size := by
    rcases List.mem_append.1 hr' with hr' | hr'
    · exact (I.freeBlocks.placed r' hr').size_pos
    · exact (I.live_placed r' hr').size_pos
  refine apart_of_not_has hpos' hpos fun x hx hx' => ?_
  have hcov : Covers s.pages x := by
    refine (I.covers x).2 ?_
    rcases List.mem_append.1 hr' with hr' | hr'
    · exact .inl ⟨r', hr', hx⟩
    · exact .inr ⟨r', hr', hx⟩
  obtain ⟨q, hq, hqx⟩ := hcov
  exact (h.apart q hq).not_has hqx hx'

theorem findRegion_of_fit {newPages : List ℕ} (hfit : firstFit A s.mem req = some p) (hp : p ≠ 0) :
    findRegion A req newPages s = some (p, s) := by
  cases newPages with
  | nil =>
    rw [findRegion, hfit]
    exact if_pos hp
  | cons new_pages rest =>
    rw [findRegion, hfit]
    exact if_pos hp

theorem findRegion_new {rest : List ℕ} {sz : ℕ} {s' : Heap} (hfit : firstFit A s.mem req = some 0)
    (hsz : RoundUp req (A.pagesize * 16) = some sz)
    (hadd : AddToFreelist A { s with mem := allocHeader A s.mem p sz, pages := ⟨p, sz⟩ :: s.pages }
      (p + sizeofHeader) = some s') :
    findRegion A req (p :: rest) s = findRegion A req rest s' := by
  rw [findRegion, hfit]
  simp only [Option.bind_eq_bind, Option.bind_some, ne_eq, not_true, if_false, hsz, hadd]

/-- **New pages** become one free block with what touches them. -/
theorem Inv.grow (I : Inv A s free live) (h : FreshPages A s.pages r) (hmin : min_size ≤ r.size)
    (hdvd : A.pagesize ∣ r.size) :
    ∃ s', AddToFreelist A { s with
        mem := allocHeader A s.mem r.start r.size, pages := r :: s.pages }
        (r.start + sizeofHeader) = some s' ∧
      Inv A s' (put r free) live ∧ s'.pages = r :: s.pages ∧
      ∀ x, ¬Owned A.freelist (r :: free) x → s'.mem x = s.mem x := by
  have hplaced := h.wellPlaced hmin hdvd
  have V := I.push hplaced (I.apart_of_fresh h hplaced.size_pos)
  obtain ⟨s', hadd, V', hcount, hpages, hframe⟩ := V.add
    (s := { s with mem := allocHeader A s.mem r.start r.size, pages := r :: s.pages })
  refine ⟨s', hadd, ⟨V', fun x => ?_, ?_, ?_, ?_, ?_⟩, hpages, fun x hx => ?_⟩
  · rw [hpages, covers_cons, covers_put, I.covers]
    tauto
  · rw [hpages]
    exact List.forall_mem_cons.2 ⟨hplaced.size_pos, I.pages_pos⟩
  · rw [hpages]
    exact List.forall_mem_cons.2 ⟨⟨h.start_dvd, hdvd⟩, I.page_dvd⟩
  · rw [hpages]
    exact List.pairwise_cons.2 ⟨fun r' hr' => (h.apart r' hr').symm, I.pages_apart⟩
  · rw [hcount, I.count]
  · rw [hframe x hx]
    refine allocHeader_of_not_mem fun h' => hx (.inr ?_)
    rw [covers_cons]
    exact .inl ⟨h'.1, h'.2.trans hplaced.levels_lt_stop⟩

/-- The free block that new pages have become part of is large enough. -/
theorem fit_put_ne_zero (I : Inv A s (put r free) live) (hr : 0 < r.size) (hle : req ≤ r.size) :
    fit (put r free) req ≠ 0 := by
  obtain ⟨r', hr', hp, hstop⟩ := I.separated.exists_contains hr fun x hx => covers_put.2 (.inr hx)
  refine fit_ne_zero (fun a ha => (I.freeBlocks.placed a ha).start_pos) hr' ?_
  simp only [stop] at hp hstop
  omega

theorem lt_of_add_pages (hreq : req + A.pagesize * 16 ≤ 2 ^ 64) : req + min_size < 2 ^ 64 := by
  obtain ⟨k, hk, -, hpow⟩ := A.pagesize_eq
  have hle : 2 ^ 5 ≤ A.pagesize := hpow ▸ Nat.pow_le_pow_right (by norm_num) hk
  rw [min_size_eq]
  omega

/-- **The search** with a block at hand, or after new pages have been taken. -/
theorem findRegion_spec (I : Inv A s free live) (hmin : min_size ≤ req)
    (hreq : req + A.pagesize * 16 ≤ 2 ^ 64) :
    (fit free req ≠ 0 → ∀ newPages, findRegion A req newPages s = some (fit free req, s)) ∧
      (fit free req = 0 → ∀ p rest, FreshPages A s.pages ⟨p, pageBytes A req⟩ →
        ∃ s', findRegion A req (p :: rest) s
            = some (fit (put ⟨p, pageBytes A req⟩ free) req, s') ∧
          fit (put ⟨p, pageBytes A req⟩ free) req ≠ 0 ∧
          Inv A s' (put ⟨p, pageBytes A req⟩ free) live ∧
          s'.pages = ⟨p, pageBytes A req⟩ :: s.pages ∧
          ∀ x, ¬Owned A.freelist (⟨p, pageBytes A req⟩ :: free) x → s'.mem x = s.mem x) := by
  have h64 : req < 2 ^ 64 := (Nat.le_add_right _ _).trans_lt (lt_of_add_pages hreq)
  have hfit := firstFit_eq I.freeBlocks I.separated hmin h64
  refine ⟨fun h newPages => findRegion_of_fit hfit h, fun h p rest hfresh => ?_⟩
  obtain ⟨hsz, hle, hdvd⟩ := RoundUp_pages hreq
  obtain ⟨s', hadd, I', hpages, hframe⟩ := I.grow hfresh (hmin.trans hle) hdvd
  have hmin_pos : 0 < min_size := by rw [min_size_eq]; norm_num
  have hlarge := fit_put_ne_zero I' (hmin_pos.trans_le (hmin.trans hle)) hle
  refine ⟨s', ?_, hlarge, I', hpages, hframe⟩
  rw [findRegion_new (h ▸ hfit) hsz hadd]
  exact findRegion_of_fit (firstFit_eq I'.freeBlocks I'.separated hmin h64) hlarge

/-- A part of a block. -/
theorem WellPlaced.part {head : ℕ} {q : Extent} (h : WellPlaced head r)
    (hstart : r.start ≤ q.start) (hstop : q.stop ≤ r.stop) (hmin : min_size ≤ q.size)
    (hdvd : RoundedUpBlockSize ∣ q.start) (hdvd' : RoundedUpBlockSize ∣ q.size) :
    WellPlaced head q where
  start_pos := h.start_pos.trans_le hstart
  min_le := hmin
  stop_le := hstop.trans h.stop_le
  head_apart := h.head_apart.imp hstop.trans fun h' => h'.trans hstart
  start_dvd := hdvd
  size_dvd := hdvd'

theorem WellPlaced.keep {head : ℕ} (h : WellPlaced head r) (hmin : min_size ≤ req)
    (hdvd : RoundedUpBlockSize ∣ req) (hle : req ≤ r.size) :
    WellPlaced head (keep min_size req r) := by
  refine h.part keep_start.ge keep_stop_le (hmin.trans (le_keep_size hle)) ?_ ?_
  · rw [keep_start]
    exact h.start_dvd
  · rw [FirstFit.keep]
    split_ifs
    · exact hdvd
    · exact h.size_dvd

/-- **Splitting** a block that is not on the free list. -/
theorem splitRegion_spec (V : Valid A s.mem free live) (hplaced : WellPlaced A.freelist r)
    (hapart : ∀ a ∈ free ++ live, a.Apart r) (hsize : s.mem (size r.start) = r.size)
    (hmin : min_size ≤ req) (hdvd : RoundedUpBlockSize ∣ req) (h64 : req + min_size < 2 ^ 64) :
    ∃ s' free', splitRegion A req r.start s = some s' ∧ Valid A s'.mem free' live ∧
      (∀ x, Covers free' x ↔ Covers free x ∨ r.Has x ∧ ¬(keep min_size req r).Has x) ∧
      s'.mem (size r.start) = (keep min_size req r).size ∧
      (∀ x, (keep min_size req r).Has x → x ≠ size r.start → s'.mem x = s.mem x) ∧
      s'.allocation_count = s.allocation_count ∧ s'.pages = s.pages ∧
      ∀ x, ¬Owned A.freelist (r :: free) x → s'.mem x = s.mem x := by
  rw [splitRegion, CheckedAdd_eq h64]
  simp only [Option.bind_eq_bind, Option.bind_some, hsize]
  split_ifs with hsplit
  · have hreq : req ≤ r.size - min_size := by omega
    have hkeep : keep min_size req r = ⟨r.start, req⟩ := if_pos hsplit
    have hplaced_b := hplaced.keep hmin hdvd (hreq.trans (Nat.sub_le _ _))
    rw [hkeep] at hplaced_b ⊢
    set b : Extent := ⟨r.start, req⟩ with hb
    set n : Extent := ⟨req + r.start, r.size - req⟩ with hn
    have hstop_b : b.stop ≤ r.stop := hkeep ▸ keep_stop_le
    have hstart_n : r.start ≤ n.start := Nat.le_add_left _ _
    have hstop_n : n.stop ≤ r.stop := by
      simp only [hn, stop]
      omega
    have hplaced_n : WellPlaced A.freelist n := by
      refine hplaced.part hstart_n hstop_n ?_ (dvd_add hdvd hplaced.start_dvd)
        (Nat.dvd_sub hplaced.size_dvd hdvd)
      simp only [hn]
      omega
    have hnb : n.Apart b := .inr (by simp only [hb, hn, stop]; omega)
    have hapart_b : ∀ a ∈ free ++ live, a.Apart b := fun a ha =>
      (hapart a ha).part le_rfl hstop_b
    have V₁ := V.push hplaced_n fun a ha => (hapart a ha).part hstart_n hstop_n
    have hreserved : ¬Reserved A free (n :: live) (size r.start) := by
      refine not_reserved_of_apart hplaced_b V₁.live_placed (fun a ha => ?_)
        ⟨le_rfl, (start_le_levels _).trans_lt hplaced_b.levels_lt_stop⟩
      simp only [List.mem_append, List.mem_cons] at ha
      rcases ha with ha | rfl | ha
      · exact hapart_b a (List.mem_append_left _ ha)
      · exact hnb
      · exact hapart_b a (List.mem_append_right _ ha)
    have V₂ : Valid A (Function.update (allocHeader A s.mem n.start n.size) (size r.start) req) free
        (n :: live) := V₁.congr fun x hx => by
      rw [Function.update_of_ne]
      rintro rfl
      exact hreserved hx
    obtain ⟨s', hadd, V', hcount, hpages, hframe⟩ := V₂.add
      (s := { s with
        mem := Function.update (allocHeader A s.mem n.start n.size) (size r.start) req })
    have hnot : ∀ x, b.Has x → ¬Owned A.freelist (n :: free) x := by
      intro x hx h
      have hfree : ∀ a ∈ (n :: free) ++ [], a.Apart b := by
        intro a ha
        rw [List.append_nil] at ha
        rcases List.mem_cons.1 ha with rfl | ha
        · exact hnb
        · exact hapart_b a (List.mem_append_left _ ha)
      exact not_reserved_of_apart hplaced_b (by simp) hfree hx (owned_reserved h)
    refine ⟨s', put n free, hadd, V', fun x => ?_, ?_, fun x hx hne => ?_, hcount, hpages,
      fun x hx => ?_⟩
    · rw [covers_put]
      refine or_congr_right ?_
      simp only [hn, hb, Has, stop]
      omega
    · rw [hframe (size r.start) (hnot _ ⟨le_rfl, (start_le_levels _).trans_lt
        hplaced_b.levels_lt_stop⟩)]
      exact Function.update_self _ _ _
    · rw [hframe x (hnot x hx)]
      refine (Function.update_of_ne hne _ _).trans (allocHeader_of_not_mem fun h => ?_)
      exact hnb.not_has ⟨h.1, h.2.trans hplaced_n.levels_lt_stop⟩ hx
    · have hxr : ¬r.Has x := fun h => hx (.inr (covers_cons.2 (.inl h)))
      have hxn : ¬n.Has x := fun h => hxr ⟨hstart_n.trans h.1, h.2.trans_le hstop_n⟩
      have hne : x ≠ size r.start := by
        rintro rfl
        exact hxr ⟨le_rfl, (start_le_levels _).trans_lt hplaced.levels_lt_stop⟩
      rw [hframe x fun h => hx (h.imp_right fun hc => ?_)]
      · refine (Function.update_of_ne hne _ _).trans (allocHeader_of_not_mem fun h => ?_)
        exact hxn ⟨h.1, h.2.trans hplaced_n.levels_lt_stop⟩
      · rw [covers_cons] at hc ⊢
        exact .inr (hc.resolve_left hxn)
  · have hkeep : keep min_size req r = r := if_neg hsplit
    rw [hkeep]
    refine ⟨s, free, rfl, V, fun x => ?_, hsize, fun _ _ _ => rfl, rfl, rfl, fun _ _ => rfl⟩
    exact (or_iff_left fun h => h.2 h.1).symm

/-- **Taking** a block: what is not needed of it stays free. -/
theorem takeRegion_spec (I : Inv A s free live) (hr : r ∈ free) (hmin : min_size ≤ req)
    (hdvd : RoundedUpBlockSize ∣ req) (h64 : req + min_size < 2 ^ 64) (hle : req ≤ r.size)
    (hcount : live.length + 1 < 2 ^ 31) :
    ∃ s', takeRegion A req r.start s = some s' ∧
      Inv A s' (carve r.start (keep min_size req r).size free) (keep min_size req r :: live) ∧
      s'.pages = s.pages ∧ ∀ x, ¬Owned A.freelist free x → s'.mem x = s.mem x := by
  have hplaced := I.freeBlocks.placed r hr
  have hord := I.separated.ordered
  obtain ⟨m₁, prev₁, hdelete, V₁, hframe₁⟩ := I.toValid.delete hr fun _ => 0
  have hheader : Header m₁ A.freelist kMagicUnallocated r :=
    (I.freeBlocks.header r hr).congr fun x hx hx' =>
      hframe₁ x (I.freeBlocks.not_linkArea hr hx (hx'.trans (levels_lt_next _)))
  have hapart : ∀ a ∈ free.filter (· ≠ r) ++ live, a.Apart r := by
    intro a ha
    rcases List.mem_append.1 ha with ha | ha
    · obtain ⟨ha, hne⟩ := List.mem_filter.1 ha
      exact hord.apart ha hr (of_decide_eq_true hne)
    · exact (I.apart r hr a ha).symm
  obtain ⟨s₂, free', hsplit, V₂, hcovers, hsize, hkeep, hcount₂, hpages₂, hframe₂⟩ :=
    splitRegion_spec (s := { s with mem := m₁ }) V₁ hplaced hapart hheader.size_eq hmin hdvd h64
  have hplaced_b := hplaced.keep hmin hdvd hle
  have hstart : (keep min_size req r).start = r.start := keep_start
  have hstop : (keep min_size req r).stop ≤ r.stop := keep_stop_le
  set b : Extent := keep min_size req r with hb
  have hsub : ∀ x, b.Has x → r.Has x := fun x hx => ⟨hstart ▸ hx.1, hx.2.trans_le hstop⟩
  have hcov : ∀ x, r.Has x → Covers free x := fun x h => ⟨r, hr, h⟩
  have hcovers' : ∀ x, Covers free' x ↔ Covers free x ∧ ¬b.Has x := by
    intro x
    have h₁ := hsub x
    have h₂ := hcov x
    rw [hcovers, covers_filter_ne hord hr]
    tauto
  have hpos : Nonempty free := fun a ha => (I.freeBlocks.placed a ha).size_pos
  -- what is left is what was there without the block
  obtain rfl : free' = carve r.start b.size free := by
    refine V₂.separated.ext (separated_carve I.separated hpos)
      (fun a ha => (V₂.freeBlocks.placed a ha).size_pos) (nonempty_carve hpos) fun x => ?_
    rw [hcovers', covers_carve I.separated hr keep_size_le, ← hstart]
  have hapart_b : ∀ a ∈ carve r.start b.size free ++ live, a.Apart b := by
    intro a ha
    rcases List.mem_append.1 ha with ha | ha
    · refine apart_of_not_has (V₂.freeBlocks.placed a ha).size_pos hplaced_b.size_pos fun x hx => ?_
      exact ((hcovers' x).1 ⟨a, ha, hx⟩).2
    · exact (hapart a (List.mem_append_right _ ha)).part hstart.ge hstop
  have hhas : ∀ x, r.start ≤ x → x < levels r.start → b.Has x := fun x hx hx' =>
    ⟨hstart.le.trans hx, hx'.trans (hstart ▸ hplaced_b.levels_lt_stop)⟩
  have hmagic : r.start ≤ magic r.start ∧ magic r.start < levels r.start := by
    simp only [magic, levels, sizeofHeader]
    omega
  have harena : r.start ≤ arena r.start ∧ arena r.start < levels r.start := by
    simp only [arena, levels, sizeofHeader]
    omega
  set m₃ := Function.update s₂.mem (magic r.start) (Magic kMagicAllocated r.start) with hm₃
  have V₃ : Valid A m₃ (carve r.start b.size free) live := V₂.congr fun x hx => by
    rw [hm₃, Function.update_of_ne]
    rintro rfl
    exact not_reserved_of_apart hplaced_b V₂.live_placed hapart_b (hhas _ hmagic.1 hmagic.2) hx
  have harena_eq : m₃ (arena r.start) = A.freelist := by
    have hne : arena r.start ≠ magic r.start := by
      simp only [arena, magic]
      omega
    have hne' : arena r.start ≠ size r.start := by
      simp only [arena, size]
      omega
    rw [hm₃, Function.update_of_ne hne, hkeep _ (hhas _ harena.1 harena.2) hne']
    exact hheader.arena_eq
  have V₄ := V₃.cons hplaced_b hapart_b ⟨?_, ?_, hstart ▸ harena_eq⟩
  · have hcount₃ : s₂.allocation_count + 1 < 2 ^ 31 := by
      rw [hcount₂, I.count]
      exact_mod_cast hcount
    refine ⟨{ s₂ with mem := m₃, allocation_count := s₂.allocation_count + 1 }, ?_,
      ⟨V₄, fun x => ?_, ?_, ?_, ?_, ?_⟩, hpages₂, fun x hx => ?_⟩
    · refine Option.bind_eq_some_iff.2 ⟨(m₁, prev₁), hdelete, ?_⟩
      exact Option.bind_eq_some_iff.2 ⟨s₂, hsplit, if_pos ⟨harena_eq, hcount₃⟩⟩
    · have h₁ := hsub x
      have h₂ := hcov x
      show Covers s₂.pages x ↔ _
      rw [hpages₂, I.covers, hcovers', covers_cons]
      tauto
    · exact hpages₂ ▸ I.pages_pos
    · exact hpages₂ ▸ I.page_dvd
    · exact hpages₂ ▸ I.pages_apart
    · show s₂.allocation_count + 1 = _
      rw [hcount₂, I.count, List.length_cons]
      push_cast
      rfl
    · have hxr : ¬r.Has x := fun h => hx (.inr ⟨r, hr, h⟩)
      show m₃ x = s.mem x
      rw [hm₃, Function.update_of_ne, hframe₂ x fun h => hx (h.imp_right fun hc => ?_)]
      · exact hframe₁ x fun h => hx h.owned
      · rcases covers_cons.1 hc with hc | hc
        · exact absurd hc hxr
        · exact hc.mono List.filter_sublist.subset
      · rintro rfl
        exact hxr (hsub _ (hhas _ hmagic.1 hmagic.2))
  · have hne : size r.start ≠ magic r.start := by
      simp only [size, magic]
      omega
    rw [hstart, hm₃, Function.update_of_ne hne]
    exact hsize
  · rw [hstart]
    exact Function.update_self _ _ _

end Pages

end BugInsight.LowLevelAlloc

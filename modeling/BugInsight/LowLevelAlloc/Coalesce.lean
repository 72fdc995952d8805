import BugInsight.Extents
import BugInsight.LowLevelAlloc.Freelist

/-!
# Blocks are put back and joined

`AddToFreelist` puts a block on the free list and joins it with its neighbours in memory.

* `FreeBlocks m head rs`: the blocks of the free list are the intervals `rs`, in address order and
  without overlaps, and their headers say so;
* `Coalesce_spec`: the block at hand is joined with its successor if they touch;
* `AddToFreelist_spec`: no assertion fails, and the free list then holds the maximal intervals of
  what was free before and of the new block, `Extent.put f rs`.
-/

namespace BugInsight.LowLevelAlloc

open SkipList AllocList
open Extent hiding size

/-- What an arena keeps for good: its address, where the head of its free list lies, and the size of
the pages of the system. -/
structure Arena where
  freelist : ℕ
  pagesize : ℕ
  pagesize_eq : ∃ k, 5 ≤ k ∧ k ≤ 59 ∧ pagesize = 2 ^ k

/-- Memory, the fields of the arena that change, and the pages that it has from the system. -/
structure Heap where
  mem : Memory
  allocation_count : ℤ
  random : ℕ
  pages : List Extent

def kMagicAllocated : ℕ := 0x4c833e95

def kMagicUnallocated : ℕ := 2 ^ 64 - 1 - kMagicAllocated

/-- The magic number of the block at `p`. -/
def Magic (magic p : ℕ) : ℕ := magic ^^^ p

/-- Joins the block `a` of a free list with its successor if they touch. -/
def Coalesce (s : Heap) (a : ℕ) : Option Heap :=
  let n := s.mem (next a 0)
  if n ≠ 0 ∧ a + s.mem (size a) = n then do
    let head := s.mem (arena a)
    let m := Function.update s.mem (size a) (s.mem (size a) + s.mem (size n))
    let m := Function.update m (magic n) 0
    let m := Function.update m (arena n) 0
    let (m, prev) ← LLA_SkiplistDelete m head n fun _ => 0
    let (m, prev) ← LLA_SkiplistDelete m head a prev
    let (level, random) ← LLA_SkiplistLevels (m (size a)) min_size (some s.random)
    let m := Function.update m (levels a) level
    let (m, _) ← LLA_SkiplistInsert m head a prev
    return { s with mem := m, random := random.getD s.random }
  else some s

/-- Puts the block whose content starts at `v` on the free list. -/
def AddToFreelist (A : Arena) (s : Heap) (v : ℕ) : Option Heap :=
  let f := v - sizeofHeader
  if s.mem (magic f) = Magic kMagicAllocated f ∧ s.mem (arena f) = A.freelist then do
    let (level, random) ← LLA_SkiplistLevels (s.mem (size f)) min_size (some s.random)
    let m := Function.update s.mem (levels f) level
    let (m, prev) ← LLA_SkiplistInsert m A.freelist f fun _ => 0
    let m := Function.update m (magic f) (Magic kMagicUnallocated f)
    let s ← Coalesce { s with mem := m, random := random.getD s.random } f
    Coalesce s (prev 0)
  else none

/-! ### The blocks of a free list -/

/-- Where a block may lie: away from the head of the free list, and large enough. -/
structure WellPlaced (head : ℕ) (r : Extent) : Prop where
  start_pos : 0 < r.start
  min_le : min_size ≤ r.size
  stop_le : r.stop ≤ 2 ^ 64
  head_apart : r.stop ≤ head ∨ next head kMaxLevel ≤ r.start
  start_dvd : RoundedUpBlockSize ∣ r.start
  size_dvd : RoundedUpBlockSize ∣ r.size

/-- What the header of a block says. -/
structure Header (m : Memory) (head mark : ℕ) (r : Extent) : Prop where
  size_eq : m (size r.start) = r.size
  magic_eq : m (magic r.start) = Magic mark r.start
  arena_eq : m (arena r.start) = head

/-- The blocks of the skip list are the intervals `rs`, and their pointers lie in them. -/
structure Blocks (m : Memory) (head : ℕ) (rs : List Extent) : Prop where
  represents : Represents kMaxLevel (fun i p => m (next p i)) 0 head (fun p => m (levels p))
    (m (levels head)) (rs.map start)
  ordered : Ordered rs
  placed : ∀ r ∈ rs, WellPlaced head r
  fits : ∀ r ∈ rs, next r.start (m (levels r.start)) ≤ r.stop

/-- The blocks of the free list: their headers are right, and they have as many levels as a search
by size relies on. -/
structure FreeBlocks (m : Memory) (head : ℕ) (rs : List Extent) : Prop extends
    Blocks m head rs where
  header : ∀ r ∈ rs, Header m head kMagicUnallocated r
  min_levels : ∀ r ∈ rs, minLevels r.size ≤ m (levels r.start)

/-- The words that hold pointers of the list, or may do so. -/
def LinkArea (head : ℕ) (rs : List Extent) (x : ℕ) : Prop :=
  (levels head ≤ x ∧ x < next head kMaxLevel) ∨ ∃ r ∈ rs, next r.start 0 ≤ x ∧ x < r.stop

/-- The words of the free list. -/
def Owned (head : ℕ) (rs : List Extent) (x : ℕ) : Prop :=
  (levels head ≤ x ∧ x < next head kMaxLevel) ∨ Covers rs x

theorem start_le_levels (p : ℕ) : p ≤ levels p := Nat.le_add_right _ _

theorem levels_lt_next (p : ℕ) : levels p < next p 0 := by
  simp only [levels, next, sizeofHeader, offsetofNext]
  omega

section Area

variable {head x : ℕ} {rs rs' : List Extent}

theorem WellPlaced.size_pos {r : Extent} (h : WellPlaced head r) : 0 < r.size := by
  have := h.min_le
  rw [min_size_eq] at this
  omega

theorem WellPlaced.size_lt {r : Extent} (h : WellPlaced head r) : r.size < 2 ^ 64 := by
  have h₁ := h.start_pos
  have h₂ := h.stop_le
  simp only [stop] at h₂
  omega

theorem WellPlaced.levels_lt_stop {r : Extent} (h : WellPlaced head r) :
    AllocList.levels r.start < r.stop := by
  have hmin := h.min_le
  rw [min_size_eq] at hmin
  simp only [AllocList.levels, stop, sizeofHeader]
  omega

/-- A random number of levels for a block: its pointers fit in it, and a search by size finds it. -/
theorem WellPlaced.levels {r : Extent} (h : WellPlaced head r) (random : ℕ) :
    ∃ level random', LLA_SkiplistLevels r.size min_size (some random) = some (level, some random') ∧
      0 < level ∧ level ≤ kMaxLevel ∧ next r.start level ≤ r.stop ∧ minLevels r.size ≤ level := by
  have hmin := h.min_le
  rw [min_size_eq] at hmin
  have hroom : offsetofNext + sizeofPointer ≤ r.size := by
    simp only [offsetofNext, sizeofPointer]
    omega
  have hone := one_le_Random random
  have hfits : offsetofNext + sizeofPointer *
      clip r.size (IntLog2 r.size min_size + (Random random).1) ≤ r.size :=
    clip_fits ((Nat.le_add_right _ _).trans hroom)
  have hlevels := LLA_SkiplistLevels_eq hroom h.size_lt min_size (some random)
  rw [Option.elim_some, Option.map_some] at hlevels
  refine ⟨_, _, hlevels, ?_, ?_, ?_, ?_⟩
  · exact clip_pos hroom (hone.trans (Nat.le_add_left _ _))
  · exact (clip_lt _ _).le
  · simp only [next, stop]
    omega
  · exact clip_mono le_rfl (Nat.add_le_add_left hone _)

theorem LinkArea.mono (hrs : rs ⊆ rs') (h : LinkArea head rs x) : LinkArea head rs' x :=
  h.imp_right fun ⟨r, hr, hx⟩ => ⟨r, hrs hr, hx⟩

theorem LinkArea.owned (h : LinkArea head rs x) : Owned head rs x := by
  refine h.imp_right fun ⟨r, hr, hx, hx'⟩ => ⟨r, hr, ?_, hx'⟩
  simp only [next, offsetofNext, sizeofPointer] at hx
  omega

theorem Owned.mono (h : ∀ x, Covers rs x → Covers rs' x) (hx : Owned head rs x) :
    Owned head rs' x :=
  hx.imp_right (h x)

/-- The header and the number of levels of a block hold no pointer. -/
theorem not_linkArea_of_lt {r : Extent} (hplaced : WellPlaced head r)
    (happart : ∀ r' ∈ rs, r' = r ∨ r'.Apart r) (hle : r.start ≤ x) (hlt : x < next r.start 0) :
    ¬LinkArea head rs x := by
  have hmin := hplaced.min_le
  rw [min_size_eq] at hmin
  rintro (⟨h₁, h₂⟩ | ⟨r', hr', h₁, h₂⟩)
  · have hhead := hplaced.head_apart
    simp only [levels, next, stop, offsetofNext, sizeofPointer, sizeofHeader, kMaxLevel] at *
    omega
  · rcases happart r' hr' with rfl | hapart
    · omega
    · simp only [next, Apart, stop, offsetofNext, sizeofPointer] at *
      omega

theorem WellPlaced.start_ne {r : Extent} (h : WellPlaced head r) : r.start ≠ head := by
  intro heq
  have h₁ := h.head_apart
  have h₂ := h.size_pos
  simp only [stop, next, offsetofNext, sizeofPointer, kMaxLevel] at h₁
  omega

variable {m : Memory} (hplaced : ∀ r ∈ rs, WellPlaced head r)
  (hfits : ∀ r ∈ rs, next r.start (m (levels r.start)) ≤ r.stop)
include hplaced hfits

/-- Blocks that do not overlap have pointers that do not overlap. -/
theorem layout_of_fits (hord : Ordered rs) : Layout m head (rs.map start) := by
  have hroom : ∀ r ∈ rs, next r.start (room m head r.start) ≤ r.stop := fun r hr => by
    rw [room_of_ne (hplaced r hr).start_ne]
    exact hfits r hr
  intro p hp q hq hpq
  rcases List.mem_cons.1 hp with rfl | hp
  · rcases List.mem_cons.1 hq with rfl | hq
    · exact absurd rfl hpq
    · obtain ⟨r, hr, rfl⟩ := List.mem_map.1 hq
      rw [room_head]
      exact (hplaced r hr).head_apart.symm.imp_right (hroom r hr).trans
  · obtain ⟨r, hr, rfl⟩ := List.mem_map.1 hp
    rcases List.mem_cons.1 hq with rfl | hq
    · rw [room_head]
      exact (hplaced r hr).head_apart.imp_left (hroom r hr).trans
    · obtain ⟨r', hr', rfl⟩ := List.mem_map.1 hq
      have hrr' : r ≠ r' := fun h => hpq (congrArg start h)
      exact (hord.apart hr hr' hrr').imp (hroom r hr).trans (hroom r' hr').trans

theorem linkArea_of_inLinks (hx : InLinks m head (rs.map start) x) : LinkArea head rs x := by
  rcases hx with rfl | ⟨p, hp, i, hi, rfl⟩
  · refine .inl ⟨le_rfl, ?_⟩
    simp only [levels, next, sizeofHeader, offsetofNext, sizeofPointer, kMaxLevel]
    omega
  · rcases List.mem_cons.1 hp with rfl | hp
    · rw [room_head] at hi
      refine .inl ?_
      simp only [levels, next, sizeofHeader, offsetofNext, sizeofPointer]
      omega
    · obtain ⟨r, hr, rfl⟩ := List.mem_map.1 hp
      have hfit := hfits r hr
      rw [room_of_ne (hplaced r hr).start_ne] at hi
      refine .inr ⟨r, hr, ?_⟩
      simp only [next, sizeofPointer] at hfit ⊢
      omega

end Area

namespace Blocks

variable {m m' : Memory} {head : ℕ} {rs : List Extent}

theorem congr (B : Blocks m head rs)
    (hhead : ∀ x, levels head ≤ x → x < next head kMaxLevel → m' x = m x)
    (hrs : ∀ r ∈ rs, ∀ x, levels r.start ≤ x → x < r.stop → m' x = m x) : Blocks m' head rs := by
  have hlevels : ∀ r ∈ rs, m' (levels r.start) = m (levels r.start) := by
    intro r hr
    have hmin := (B.placed r hr).min_le
    rw [min_size_eq] at hmin
    refine hrs r hr _ le_rfl ?_
    simp only [levels, stop, sizeofHeader]
    omega
  refine ⟨?_, B.ordered, B.placed, fun r hr => by rw [hlevels r hr]; exact B.fits r hr⟩
  have hlevels_head : m' (levels head) = m (levels head) := by
    refine hhead _ le_rfl ?_
    simp only [levels, next, sizeofHeader, offsetofNext, sizeofPointer, kMaxLevel]
    omega
  rw [hlevels_head]
  refine B.represents.congr (fun p hp => ?_) fun i hi p hp => ?_
  · obtain ⟨r, hr, rfl⟩ := List.mem_map.1 hp
    exact hlevels r hr
  · rcases List.mem_cons.1 hp with rfl | hp
    · refine hhead _ ?_ ?_
      · simp only [levels, next, sizeofHeader, offsetofNext]
        omega
      · simp only [next, sizeofPointer]
        omega
    · obtain ⟨hmem, hlt⟩ := mem_level.1 hp
      obtain ⟨r, hr, rfl⟩ := List.mem_map.1 hmem
      have hfits := B.fits r hr
      refine hrs r hr _ ?_ ?_
      · simp only [levels, next, sizeofHeader, offsetofNext]
        omega
      · simp only [next, sizeofPointer] at hfits ⊢
        omega

variable (B : Blocks m head rs)
include B

theorem start_inj {r r' : Extent} (hr : r ∈ rs) (hr' : r' ∈ rs) (h : r.start = r'.start) :
    r = r' := by
  by_contra hne
  have hapart := B.ordered.apart hr hr' hne
  have h₁ := (B.placed r hr).size_pos
  have h₂ := (B.placed r' hr').size_pos
  simp only [Apart, stop] at hapart
  omega

theorem layout : Layout m head (rs.map start) := layout_of_fits B.placed B.fits B.ordered

theorem freelist : Freelist m head (rs.map start) := ⟨B.layout, B.represents⟩

theorem not_linkArea {r : Extent} {x : ℕ} (hr : r ∈ rs) (hle : r.start ≤ x)
    (hlt : x < next r.start 0) : ¬LinkArea head rs x :=
  not_linkArea_of_lt (B.placed r hr)
    (fun _ hr' => or_iff_not_imp_left.2 fun hne => B.ordered.apart hr' hr hne) hle hlt

/-- A word outside of the list may change. -/
theorem update {x : ℕ} (hhead : ¬(levels head ≤ x ∧ x < next head kMaxLevel))
    (hrs : ∀ r ∈ rs, ¬(levels r.start ≤ x ∧ x < r.stop)) (v : ℕ) :
    Blocks (Function.update m x v) head rs := by
  refine B.congr (fun y hy hy' => Function.update_of_ne ?_ _ _)
    fun r hr y hy hy' => Function.update_of_ne ?_ _ _
  · rintro rfl
    exact hhead ⟨hy, hy'⟩
  · rintro rfl
    exact hrs r hr ⟨hy, hy'⟩

/-- The headers may change. -/
theorem update_header {r : Extent} {x : ℕ} (hr : r ∈ rs) (hle : r.start ≤ x)
    (hlt : x < levels r.start) (v : ℕ) : Blocks (Function.update m x v) head rs := by
  have hplaced := B.placed r hr
  have hmin := hplaced.min_le
  have hhead := hplaced.head_apart
  rw [min_size_eq] at hmin
  refine B.update ?_ (fun r' hr' => ?_) v
  · simp only [levels, next, stop, sizeofHeader] at *
    omega
  · by_cases hne : r' = r
    · subst hne
      omega
    · have hapart := B.ordered.apart hr' hr hne
      simp only [levels, Apart, stop, sizeofHeader] at *
      omega

/-- **Removal** of a block from the list. -/
theorem delete {r : Extent} (hr : r ∈ rs) (prev : ℕ → ℕ) :
    ∃ m' prev', LLA_SkiplistDelete m head r.start prev = some (m', prev') ∧
      Blocks m' head (rs.filter (· ≠ r)) ∧ (∀ x, ¬LinkArea head rs x → m' x = m x) := by
  obtain ⟨m', prev', hdelete, F, hframe⟩ := B.freelist.delete_spec (List.mem_map_of_mem hr) prev
  have hframe' : ∀ x, ¬LinkArea head rs x → m' x = m x := fun x hx =>
    hframe x fun h => hx (linkArea_of_inLinks B.placed B.fits h)
  have hfilter : (rs.map start).filter (· ≠ r.start) = (rs.filter (· ≠ r)).map start := by
    rw [List.filter_map]
    refine congrArg (List.map start) (List.filter_congr fun r' hr' => decide_eq_decide.2 ?_)
    exact not_congr ⟨B.start_inj hr' hr, congrArg start⟩
  rw [hfilter] at F
  refine ⟨m', prev', hdelete, ⟨F.represents, B.ordered.filter _, ?_, ?_⟩, hframe'⟩
  · exact fun r' hr' => B.placed r' (List.mem_filter.1 hr').1
  · intro r' hr'
    have hmem := (List.mem_filter.1 hr').1
    rw [hframe' _ (B.not_linkArea hmem (start_le_levels _) (levels_lt_next _))]
    exact B.fits r' hmem

end Blocks

section Insert

variable {m : Memory} {head : ℕ} {l₁ l₂ : List Extent} {r : Extent}

theorem start_lt_of_ordered (h : Ordered (l₁ ++ r :: l₂))
    (hpos : ∀ a ∈ l₁ ++ r :: l₂, 0 < a.size) :
    (∀ a ∈ l₁, a.start < r.start) ∧ ∀ a ∈ l₂, r.start < a.start := by
  obtain ⟨-, h₂, h₁₂⟩ := List.pairwise_append.1 h
  refine ⟨fun a ha => ?_, fun a ha => ?_⟩
  · have hle := h₁₂ a ha r List.mem_cons_self
    have ha' := hpos a (List.mem_append_left _ ha)
    simp only [stop] at hle
    omega
  · have hle := (List.pairwise_cons.1 h₂).1 a ha
    have hr' := hpos r (List.mem_append_right _ List.mem_cons_self)
    simp only [stop] at hle
    omega

theorem filter_start_append (h : Ordered (l₁ ++ r :: l₂)) (hpos : ∀ a ∈ l₁ ++ r :: l₂, 0 < a.size) :
    ((l₁ ++ l₂).map start).filter (· < r.start) = l₁.map start ∧
      ((l₁ ++ l₂).map start).filter (r.start < ·) = l₂.map start := by
  obtain ⟨h₁, h₂⟩ := start_lt_of_ordered h hpos
  have hbelow : (l₁.map start).filter (· < r.start) = l₁.map start :=
    List.filter_eq_self.2 (List.forall_mem_map.2 fun a ha => decide_eq_true (h₁ a ha))
  have hbelow' : (l₂.map start).filter (· < r.start) = [] :=
    List.filter_eq_nil_iff.2 (List.forall_mem_map.2 fun a ha => by simpa using (h₂ a ha).le)
  have habove : (l₂.map start).filter (r.start < ·) = l₂.map start :=
    List.filter_eq_self.2 (List.forall_mem_map.2 fun a ha => decide_eq_true (h₂ a ha))
  have habove' : (l₁.map start).filter (r.start < ·) = [] :=
    List.filter_eq_nil_iff.2 (List.forall_mem_map.2 fun a ha => by simpa using (h₁ a ha).le)
  rw [List.map_append, List.filter_append, List.filter_append, hbelow, hbelow', habove, habove']
  exact ⟨List.append_nil _, List.nil_append _⟩

/-- **Insertion** of a block, which lies between `l₁` and `l₂`, into the list. -/
theorem Blocks.insert (B : Blocks m head (l₁ ++ l₂)) (hord : Ordered (l₁ ++ r :: l₂))
    (hplaced : WellPlaced head r) (hpos : 0 < m (levels r.start))
    (hmax : m (levels r.start) ≤ kMaxLevel)
    (hfits : next r.start (m (levels r.start)) ≤ r.stop) (prev : ℕ → ℕ) :
    ∃ m' prev', LLA_SkiplistInsert m head r.start prev = some (m', prev') ∧
      Blocks m' head (l₁ ++ r :: l₂) ∧ prev' 0 = (l₁.map start).getLastD head ∧
      ∀ x, ¬LinkArea head (l₁ ++ r :: l₂) x → m' x = m x := by
  have hall : ∀ a ∈ l₁ ++ r :: l₂, a = r ∨ a ∈ l₁ ++ l₂ := fun a ha => by
    simp only [List.mem_append, List.mem_cons] at ha ⊢
    tauto
  have hplaced' : ∀ a ∈ l₁ ++ r :: l₂, WellPlaced head a := fun a ha => by
    rcases hall a ha with rfl | h
    · exact hplaced
    · exact B.placed a h
  have hfits' : ∀ a ∈ l₁ ++ r :: l₂, next a.start (m (levels a.start)) ≤ a.stop := fun a ha => by
    rcases hall a ha with rfl | h
    · exact hfits
    · exact B.fits a h
  have hpos' : ∀ a ∈ l₁ ++ r :: l₂, 0 < a.size := fun a ha => (hplaced' a ha).size_pos
  obtain ⟨hbelow, habove⟩ := filter_start_append hord hpos'
  have hinsert : insertAt r.start ((l₁ ++ l₂).map start) = (l₁ ++ r :: l₂).map start := by
    rw [insertAt, hbelow, habove, List.map_append, List.map_cons]
  have hnew : r.start ∉ (l₁ ++ l₂).map start := by
    obtain ⟨h₁, h₂⟩ := start_lt_of_ordered hord hpos'
    simp only [List.map_append, List.mem_append, List.mem_map]
    rintro (⟨a, ha, heq⟩ | ⟨a, ha, heq⟩)
    · exact (h₁ a ha).ne heq
    · exact (h₂ a ha).ne' heq
  have hsub : r.start :: (l₁ ++ l₂).map start ⊆ (l₁ ++ r :: l₂).map start := by
    rw [← hinsert]
    intro p hp
    rcases List.mem_cons.1 hp with rfl | hp
    · exact mem_insertAt.2 (.inl rfl)
    · exact mem_insertAt.2 (.inr ⟨hp, fun h => hnew (h ▸ hp)⟩)
  obtain ⟨m', prev', heq, F, hprev', hframe⟩ := B.freelist.insert_spec hplaced.start_ne
    ((layout_of_fits hplaced' hfits' hord).mono hsub) hmax hnew hplaced.start_pos.ne' hpos prev
  rw [hinsert] at F
  have hframe' : ∀ x, ¬LinkArea head (l₁ ++ r :: l₂) x → m' x = m x := fun x hx =>
    hframe x fun h => hx (linkArea_of_inLinks hplaced' hfits' (h.mono hsub))
  refine ⟨m', prev', heq, ⟨F.represents, hord, hplaced', fun a ha => ?_⟩, ?_, hframe'⟩
  · rw [hframe' _ (not_linkArea_of_lt (hplaced' a ha) (fun b hb => ?_) (start_le_levels _)
      (levels_lt_next _))]
    · exact hfits' a ha
    · exact or_iff_not_imp_left.2 fun hne => hord.apart hb ha hne
  · rw [hprev', before, hbelow]

/-- A block gets its number of levels and is put on the list. -/
theorem Blocks.insert_levels (B : Blocks m head (l₁ ++ l₂)) (hord : Ordered (l₁ ++ r :: l₂))
    (hplaced : WellPlaced head r) {level : ℕ} (hpos : 0 < level) (hmax : level ≤ kMaxLevel)
    (hfits : next r.start level ≤ r.stop) (prev : ℕ → ℕ) :
    ∃ m' prev', LLA_SkiplistInsert (Function.update m (levels r.start) level) head r.start prev
        = some (m', prev') ∧
      Blocks m' head (l₁ ++ r :: l₂) ∧ prev' 0 = (l₁.map start).getLastD head ∧
      m' (levels r.start) = level ∧
      ∀ x, ¬LinkArea head (l₁ ++ r :: l₂) x → x ≠ levels r.start → m' x = m x := by
  have hmem : r ∈ l₁ ++ r :: l₂ := by simp
  have hstop := hplaced.levels_lt_stop
  have hhead := hplaced.head_apart
  have B' : Blocks (Function.update m (levels r.start) level) head (l₁ ++ l₂) := by
    refine B.update (fun h => ?_) (fun r' hr' h => ?_) level
    · simp only [levels, next, sizeofHeader] at h hhead hstop
      omega
    · have hne : r' ≠ r := by
        rintro rfl
        rw [← filter_ne_append hord hplaced.size_pos] at hr'
        exact of_decide_eq_true (List.mem_filter.1 hr').2 rfl
      have hr'' : r' ∈ l₁ ++ r :: l₂ := (List.sublist_cons_self r l₂).append_left l₁ |>.subset hr'
      have hapart := hord.apart hr'' hmem hne
      simp only [levels, Apart, sizeofHeader] at h hapart hstop
      omega
  have hlevel : Function.update m (levels r.start) level (levels r.start) = level :=
    Function.update_self _ _ _
  obtain ⟨m', prev', hinsert, B₂, hprev, hframe⟩ := B'.insert hord hplaced (hlevel.symm ▸ hpos)
    (hlevel.symm ▸ hmax) (hlevel.symm ▸ hfits) prev
  refine ⟨m', prev', hinsert, B₂, hprev, ?_, fun x hx hne => ?_⟩
  · rw [hframe _ (B₂.not_linkArea hmem (start_le_levels _) (levels_lt_next _)), hlevel]
  · rw [hframe x hx, Function.update_of_ne hne]

/-- Blocks whose headers and levels have not been written keep them. -/
theorem FreeBlocks.of_frame {m' : Memory} {rs : List Extent} (FB : FreeBlocks m head rs)
    (B : Blocks m' head (l₁ ++ r :: l₂)) (hsub : ∀ a ∈ l₁ ++ r :: l₂, a ≠ r → a ∈ rs)
    (hheader : Header m' head kMagicUnallocated r) (hmin : minLevels r.size ≤ m' (levels r.start))
    (hframe : ∀ x, ¬LinkArea head (l₁ ++ r :: l₂) x → ¬(r.start ≤ x ∧ x < next r.start 0) →
      m' x = m x) : FreeBlocks m' head (l₁ ++ r :: l₂) := by
  have hmem : r ∈ l₁ ++ r :: l₂ := by simp
  have hother : ∀ a ∈ l₁ ++ r :: l₂, a ≠ r → ∀ x, a.start ≤ x → x < next a.start 0 →
      m' x = m x := by
    intro a ha hne x hle hlt
    refine hframe x (B.not_linkArea ha hle hlt) fun hx => ?_
    have hapart := B.ordered.apart ha hmem hne
    have h₁ := (B.placed a ha).min_le
    have h₂ := (B.placed r hmem).min_le
    rw [min_size_eq] at h₁ h₂
    simp only [Apart, stop, next, offsetofNext, sizeofPointer] at hapart hlt hx
    omega
  refine ⟨B, fun a ha => ?_, fun a ha => ?_⟩
  · by_cases hne : a = r
    · rwa [hne]
    · have hh := FB.header a (hsub a ha hne)
      refine ⟨?_, ?_, ?_⟩
      · rw [hother a ha hne, hh.size_eq]
        all_goals simp only [size, next, offsetofNext]; omega
      · rw [hother a ha hne, hh.magic_eq]
        all_goals simp only [magic, next, offsetofNext]; omega
      · rw [hother a ha hne, hh.arena_eq]
        all_goals simp only [arena, next, offsetofNext]; omega
  · by_cases hne : a = r
    · rwa [hne]
    · rw [hother a ha hne _ (start_le_levels _) (levels_lt_next _)]
      exact FB.min_levels a (hsub a ha hne)

end Insert

section Coalesce

variable {s : Heap} {head : ℕ} {l₁ l₂ : List Extent} {a : Extent}

theorem Blocks.next_head {m : Memory} {rs : List Extent} (B : Blocks m head rs) :
    m (next head 0) = (rs.map start).headD 0 := by
  have h := B.represents.linked 0 (by decide)
  rw [B.represents.level_zero] at h
  exact h.next_eq

theorem Blocks.next_of_mem {m : Memory} (B : Blocks m head (l₁ ++ a :: l₂)) :
    m (next a.start 0) = (l₂.map start).headD 0 := by
  have h := B.represents.linked 0 (by decide)
  rw [B.represents.level_zero, List.append_cons, List.map_append] at h
  have h' := h.drop.next_eq
  rwa [List.map_append, List.map_singleton, getLastD_append, List.getLastD_cons] at h'

/-- The block that two touching blocks make up. -/
theorem WellPlaced.merge {n : Extent} (ha : WellPlaced head a) (hn : WellPlaced head n)
    (h : a.stop = n.start) : WellPlaced head ⟨a.start, a.size + n.size⟩ where
  start_pos := ha.start_pos
  min_le := ha.min_le.trans (Nat.le_add_right _ _)
  stop_le := by
    have hle := hn.stop_le
    simp only [stop] at *
    omega
  head_apart := by
    have h₁ := ha.head_apart
    have h₂ := hn.head_apart
    simp only [stop, next, offsetofNext, sizeofPointer, kMaxLevel] at *
    omega
  start_dvd := ha.start_dvd
  size_dvd := dvd_add ha.size_dvd hn.size_dvd

/-- The pointers of two blocks that touch lie among those that the joint block may have. -/
theorem LinkArea.merge {n : Extent} {x : ℕ} (hn : 0 < a.size) (h : a.stop = n.start)
    (hx : LinkArea head (l₁ ++ a :: n :: l₂) x) :
    LinkArea head (l₁ ++ ⟨a.start, a.size + n.size⟩ :: l₂) x := by
  refine hx.imp_right ?_
  rintro ⟨r, hr, hle, hlt⟩
  simp only [List.mem_append, List.mem_cons] at hr
  rcases hr with hr | rfl | rfl | hr
  · exact ⟨r, List.mem_append_left _ hr, hle, hlt⟩
  · refine ⟨_, List.mem_append_right _ List.mem_cons_self, hle, ?_⟩
    simp only [stop] at *
    omega
  · refine ⟨_, List.mem_append_right _ List.mem_cons_self, ?_, ?_⟩
    · simp only [next, stop] at *
      omega
    · simp only [stop] at *
      omega
  · exact ⟨r, List.mem_append_right _ (List.mem_cons_of_mem _ hr), hle, hlt⟩

/-- Two blocks that touch are taken off the list. -/
theorem Blocks.delete_two {m : Memory} {n : Extent} (B : Blocks m head (l₁ ++ a :: n :: l₂))
    (prev : ℕ → ℕ) :
    ∃ m₂ prev₂ m₃ prev₃, LLA_SkiplistDelete m head n.start prev = some (m₂, prev₂) ∧
      LLA_SkiplistDelete m₂ head a.start prev₂ = some (m₃, prev₃) ∧ Blocks m₃ head (l₁ ++ l₂) ∧
      ∀ x, ¬LinkArea head (l₁ ++ a :: n :: l₂) x → m₃ x = m x := by
  have hn : n ∈ l₁ ++ a :: n :: l₂ := by simp
  have ha : a ∈ l₁ ++ a :: n :: l₂ := by simp
  obtain ⟨m₂, prev₂, hdelete₂, B₂, hframe₂⟩ := B.delete hn prev
  have hfilter : (l₁ ++ a :: n :: l₂).filter (· ≠ n) = l₁ ++ a :: l₂ := by
    have hord := B.ordered
    rw [List.append_cons] at hord ⊢
    rw [filter_ne_append hord (B.placed n hn).size_pos, ← List.append_cons]
  rw [hfilter] at B₂
  obtain ⟨m₃, prev₃, hdelete₃, B₃, hframe₃⟩ := B₂.delete (r := a) (by simp) prev₂
  rw [filter_ne_append B₂.ordered (B.placed a ha).size_pos] at B₃
  refine ⟨m₂, prev₂, m₃, prev₃, hdelete₂, hdelete₃, B₃, fun x hx => ?_⟩
  rw [hframe₃ x fun h => hx (h.mono ?_), hframe₂ x hx]
  exact (((List.sublist_cons_self n l₂).cons_cons a).append_left l₁).subset

/-- The right one of two blocks that touch may hold pointers of the joint block everywhere. -/
theorem linkArea_of_has_right {n : Extent} {x : ℕ} (ha : WellPlaced head a)
    (h : a.stop = n.start) (hx : n.Has x) :
    LinkArea head (l₁ ++ ⟨a.start, a.size + n.size⟩ :: l₂) x := by
  have hmin := ha.min_le
  rw [min_size_eq] at hmin
  refine .inr ⟨_, List.mem_append_right _ List.mem_cons_self, ?_⟩
  simp only [Has, stop, next, offsetofNext, sizeofPointer] at h hx ⊢
  omega

/-- The memory of `Coalesce` when it has rewritten the headers of the blocks `a` and `n`. -/
def joinHeaders (m : Memory) (a n : ℕ) : Memory :=
  Function.update (Function.update (Function.update m (size a) (m (size a) + m (size n)))
    (magic n) 0) (arena n) 0

theorem joinHeaders_of_ne {m : Memory} {a n x : ℕ} (h₁ : x ≠ size a) (h₂ : x ≠ magic n)
    (h₃ : x ≠ arena n) : joinHeaders m a n x = m x := by
  rw [joinHeaders, Function.update_of_ne h₃, Function.update_of_ne h₂, Function.update_of_ne h₁]

theorem joinHeaders_size {m : Memory} {a n : ℕ} (h : size a < n) :
    joinHeaders m a n (size a) = m (size a) + m (size n) := by
  have h₁ : size a ≠ magic n := by
    simp only [magic]
    omega
  have h₂ : size a ≠ arena n := by
    simp only [arena]
    omega
  rw [joinHeaders, Function.update_of_ne h₂, Function.update_of_ne h₁, Function.update_self]

theorem Blocks.joinHeaders {m : Memory} {rs : List Extent} {n : Extent} (B : Blocks m head rs)
    (ha : a ∈ rs) (hn : n ∈ rs) : Blocks (joinHeaders m a.start n.start) head rs := by
  have hsize : size a.start < levels a.start := by
    simp only [size, levels, sizeofHeader]
    omega
  have hmagic : n.start ≤ magic n.start ∧ magic n.start < levels n.start := by
    simp only [magic, levels, sizeofHeader]
    omega
  have harena : n.start ≤ arena n.start ∧ arena n.start < levels n.start := by
    simp only [arena, levels, sizeofHeader]
    omega
  exact ((B.update_header ha le_rfl hsize _).update_header hn hmagic.1 hmagic.2 0).update_header hn
    harena.1 harena.2 0

theorem Coalesce_touching {n : Extent} (FB : FreeBlocks s.mem head (l₁ ++ a :: n :: l₂))
    (h : a.stop = n.start) :
    ∃ s', Coalesce s a.start = some s' ∧
      FreeBlocks s'.mem head (l₁ ++ ⟨a.start, a.size + n.size⟩ :: l₂) ∧
      s'.allocation_count = s.allocation_count ∧ s'.pages = s.pages ∧
      ∀ x, ¬Owned head (l₁ ++ a :: n :: l₂) x → s'.mem x = s.mem x := by
  have ha : a ∈ l₁ ++ a :: n :: l₂ := by simp
  have hn : n ∈ l₁ ++ a :: n :: l₂ := by simp
  have hpa := FB.placed a ha
  have hpn := FB.placed n hn
  have hha := FB.header a ha
  have hplaced := hpa.merge hpn h
  have hord := ordered_append_mergeRight FB.ordered
  rw [mergeRight, if_pos h] at hord
  have hlt : size a.start < n.start := by
    have hpos := hpa.size_pos
    simp only [size, stop] at h ⊢
    omega
  obtain ⟨m₂, prev₂, m₃, prev₃, hdelete₂, hdelete₃, B₃, hm₃⟩ :=
    (FB.toBlocks.joinHeaders ha hn).delete_two fun _ => 0
  have hm₃_size : m₃ (size a.start) = a.size + n.size := by
    have hx : ¬LinkArea head (l₁ ++ a :: n :: l₂) (size a.start) :=
      FB.not_linkArea ha le_rfl ((start_le_levels _).trans_lt (levels_lt_next _))
    rw [hm₃ _ hx, joinHeaders_size hlt, hha.size_eq, (FB.header n hn).size_eq]
  obtain ⟨level, random', hlevels, hpos, hmax, hfits, hmin⟩ := hplaced.levels s.random
  obtain ⟨m₅, prev₅, hinsert, B₅, -, hm₅_level, hm₅⟩ :=
    B₃.insert_levels hord hplaced hpos hmax hfits prev₃
  have hminn := hpn.min_le
  rw [min_size_eq] at hminn
  have hframe : ∀ x, ¬LinkArea head (l₁ ++ ⟨a.start, a.size + n.size⟩ :: l₂) x →
      x ≠ size a.start → x ≠ levels a.start → m₅ x = s.mem x := by
    intro x hx hsize hlevel
    have hmagic : x ≠ magic n.start := by
      rintro rfl
      refine hx (linkArea_of_has_right hpa h ?_)
      simp only [Has, stop, magic]
      omega
    have harena : x ≠ arena n.start := by
      rintro rfl
      refine hx (linkArea_of_has_right hpa h ?_)
      simp only [Has, stop, arena]
      omega
    rw [hm₅ x hx hlevel, hm₃ x fun h' => hx (h'.merge hpa.size_pos h),
      joinHeaders_of_ne hsize hmagic harena]
  -- the header of the joint block
  have hheader : Header m₅ head kMagicUnallocated ⟨a.start, a.size + n.size⟩ := by
    have hnot : ∀ x, a.start ≤ x → x < next a.start 0 →
        ¬LinkArea head (l₁ ++ ⟨a.start, a.size + n.size⟩ :: l₂) x :=
      fun x hle hlt' => B₅.not_linkArea (List.mem_append_right l₁ List.mem_cons_self) hle hlt'
    have hsize := hnot (size a.start)
    have hmagic := hnot (magic a.start)
    have harena := hnot (arena a.start)
    simp only [size, magic, arena, next, offsetofNext] at hsize hmagic harena
    refine ⟨?_, ?_, ?_⟩
    · rw [← hm₃_size]
      refine hm₅ _ (hsize (by omega) (by omega)) ?_
      simp only [size, levels, sizeofHeader]
      omega
    · rw [← hha.magic_eq]
      refine hframe _ (hmagic (by omega) (by omega)) ?_ ?_
      all_goals simp only [size, magic, levels, sizeofHeader]; omega
    · rw [← hha.arena_eq]
      refine hframe _ (harena (by omega) (by omega)) ?_ ?_
      all_goals simp only [size, arena, levels, sizeofHeader]; omega
  refine ⟨{ s with mem := m₅, random := random' }, ?_, ?_, rfl, rfl, fun x hx => ?_⟩
  · have hn0 : s.mem (next a.start 0) = n.start := FB.toBlocks.next_of_mem
    have hcond : s.mem (next a.start 0) ≠ 0 ∧
        a.start + s.mem (size a.start) = s.mem (next a.start 0) := by
      rw [hn0, hha.size_eq]
      exact ⟨hpn.start_pos.ne', h⟩
    rw [Coalesce, if_pos hcond]
    simp only [hn0, hha.arena_eq]
    refine Option.bind_eq_some_iff.2 ⟨(m₂, prev₂), hdelete₂, ?_⟩
    refine Option.bind_eq_some_iff.2 ⟨(m₃, prev₃), hdelete₃, ?_⟩
    refine Option.bind_eq_some_iff.2 ⟨(level, some random'), ?_, ?_⟩
    · show LLA_SkiplistLevels (m₃ (size a.start)) min_size (some s.random)
        = some (level, some random')
      rw [hm₃_size]
      exact hlevels
    · exact Option.bind_eq_some_iff.2 ⟨(m₅, prev₅), hinsert, rfl⟩
  · refine FB.of_frame B₅ (fun r hr hne => ?_) hheader (hmin.trans hm₅_level.ge) fun x hx hx' => ?_
    · simp only [List.mem_append, List.mem_cons] at hr ⊢
      tauto
    · refine hframe x hx ?_ ?_
      · rintro rfl
        exact hx' ⟨le_rfl, (start_le_levels _).trans_lt (levels_lt_next _)⟩
      · rintro rfl
        exact hx' ⟨start_le_levels _, levels_lt_next _⟩
  · refine hframe x (fun h' => hx (h'.owned.mono fun y hy => ?_)) ?_ ?_
    · have hmerge := covers_mergeRight (f := a) (l := n :: l₂) (x := y)
      rw [mergeRight, if_pos h] at hmerge
      rw [covers_append] at hy ⊢
      exact hy.imp_right hmerge.1
    · rintro rfl
      exact hx (.inr ⟨a, ha, le_rfl, by simp only [size, stop]; have := hpa.size_pos; omega⟩)
    · rintro rfl
      exact hx (.inr ⟨a, ha, start_le_levels _, hpa.levels_lt_stop⟩)

/-- **Joining**: the block at hand and its successor become one if they touch. -/
theorem Coalesce_spec (FB : FreeBlocks s.mem head (l₁ ++ a :: l₂)) :
    ∃ s', Coalesce s a.start = some s' ∧ FreeBlocks s'.mem head (l₁ ++ mergeRight a l₂) ∧
      s'.allocation_count = s.allocation_count ∧ s'.pages = s.pages ∧
      ∀ x, ¬Owned head (l₁ ++ a :: l₂) x → s'.mem x = s.mem x := by
  have hn0 := FB.toBlocks.next_of_mem
  cases l₂ with
  | nil =>
    exact ⟨s, if_neg fun h => h.1 hn0, FB, rfl, rfl, fun _ _ => rfl⟩
  | cons n l₂ =>
    rw [mergeRight]
    split_ifs with h
    · exact Coalesce_touching FB h
    · refine ⟨s, if_neg fun hcond => h ?_, FB, rfl, rfl, fun _ _ => rfl⟩
      have hsize := (FB.header a (by simp)).size_eq
      rw [hn0, hsize] at hcond
      exact hcond.2

/-- The head of the free list is not joined with anything. -/
theorem Coalesce_head {rs : List Extent} (B : Blocks s.mem head rs)
    (hsize : s.mem (size head) = 0) : Coalesce s head = some s := by
  refine if_neg fun hcond => ?_
  rw [B.next_head, hsize, add_zero] at hcond
  cases rs with
  | nil => exact hcond.1 rfl
  | cons r rs => exact (B.placed r List.mem_cons_self).start_ne hcond.2.symm

end Coalesce

section AddToFreelist

variable {A : Arena} {s : Heap} {l₁ l₂ rs : List Extent} {f : Extent}

/-- The header of the head of the free list is not part of the list. -/
theorem not_owned_header {head x : ℕ} (hplaced : ∀ r ∈ rs, WellPlaced head r) (hle : head ≤ x)
    (hlt : x < levels head) : ¬Owned head rs x := by
  rintro (⟨hx, -⟩ | ⟨r, hr, hx, hx'⟩)
  · omega
  · have hhead := (hplaced r hr).head_apart
    simp only [levels, next, sizeofHeader, offsetofNext, sizeofPointer, kMaxLevel] at hlt hhead
    omega

/-- The new block is on the list, marked as free, before it is joined with its neighbours. -/
theorem AddToFreelist_insert (FB : FreeBlocks s.mem A.freelist (l₁ ++ l₂))
    (hord : Ordered (l₁ ++ f :: l₂)) (hplaced : WellPlaced A.freelist f)
    (hheader : Header s.mem A.freelist kMagicAllocated f) :
    ∃ s' : Heap, AddToFreelist A s (f.start + sizeofHeader)
        = (Coalesce s' f.start).bind (Coalesce · ((l₁.map start).getLastD A.freelist)) ∧
      FreeBlocks s'.mem A.freelist (l₁ ++ f :: l₂) ∧ s'.allocation_count = s.allocation_count ∧
      s'.pages = s.pages ∧
      ∀ x, ¬Owned A.freelist (l₁ ++ f :: l₂) x → s'.mem x = s.mem x := by
  obtain ⟨level, random', hlevels, hpos, hmax, hfits, hmin⟩ := hplaced.levels s.random
  obtain ⟨m', prev', hinsert, B', hprev, hm'_level, hm'⟩ :=
    FB.toBlocks.insert_levels hord hplaced hpos hmax hfits fun _ => 0
  have hmem : f ∈ l₁ ++ f :: l₂ := by simp
  have hmagic : f.start ≤ magic f.start ∧ magic f.start < levels f.start := by
    simp only [magic, levels, sizeofHeader]
    omega
  set m₂ := Function.update m' (magic f.start) (Magic kMagicUnallocated f.start) with hm₂
  have B₂ : Blocks m₂ A.freelist (l₁ ++ f :: l₂) := B'.update_header hmem hmagic.1 hmagic.2 _
  have hm₂_eq : ∀ x, ¬LinkArea A.freelist (l₁ ++ f :: l₂) x → x ≠ levels f.start →
      x ≠ magic f.start → m₂ x = s.mem x := fun x hx hlevel hne => by
    rw [hm₂, Function.update_of_ne hne, hm' x hx hlevel]
  have hnot : ∀ x, f.start ≤ x → x < next f.start 0 → ¬LinkArea A.freelist (l₁ ++ f :: l₂) x :=
    fun x hle hlt => B'.not_linkArea hmem hle hlt
  refine ⟨{ s with mem := m₂, random := random' }, ?_, ?_, rfl, rfl, fun x hx => ?_⟩
  · have hsub : f.start + sizeofHeader - sizeofHeader = f.start := Nat.add_sub_cancel _ _
    rw [AddToFreelist, hsub, if_pos ⟨hheader.magic_eq, hheader.arena_eq⟩]
    simp only [hheader.size_eq, hlevels, Option.bind_eq_bind, Option.bind_some, hinsert, hprev,
      Option.getD_some]
    rfl
  · have hsize := hnot (size f.start)
    have harena := hnot (arena f.start)
    simp only [size, arena, next, offsetofNext] at hsize harena
    refine FB.of_frame B₂ (fun r hr hne => ?_) ⟨?_, Function.update_self _ _ _, ?_⟩ ?_
      fun x hx hx' => hm₂_eq x hx ?_ ?_
    · simp only [List.mem_append, List.mem_cons] at hr ⊢
      tauto
    · rw [← hheader.size_eq]
      refine hm₂_eq _ (hsize (by omega) (by omega)) ?_ ?_
      all_goals simp only [size, magic, levels, sizeofHeader]; omega
    · rw [← hheader.arena_eq]
      refine hm₂_eq _ (harena (by omega) (by omega)) ?_ ?_
      all_goals simp only [arena, magic, levels, sizeofHeader]; omega
    · show minLevels f.size ≤ m₂ (levels f.start)
      rw [hm₂, Function.update_of_ne hmagic.2.ne', hm'_level]
      exact hmin
    · rintro rfl
      exact hx' ⟨start_le_levels _, levels_lt_next _⟩
    · rintro rfl
      exact hx' ⟨hmagic.1, hmagic.2.trans (levels_lt_next _)⟩
  · have hstop := hplaced.levels_lt_stop
    refine hm₂_eq x (fun h => hx h.owned) ?_ ?_
    · rintro rfl
      exact hx (.inr ⟨f, hmem, start_le_levels _, hstop⟩)
    · rintro rfl
      exact hx (.inr ⟨f, hmem, hmagic.1, hmagic.2.trans hstop⟩)

/-- **A block is freed**: no assertion fails, and the block is on the free list, joined with its
neighbours. -/
theorem AddToFreelist_spec (FB : FreeBlocks s.mem A.freelist rs) (hsep : Separated rs)
    (hhead : s.mem (size A.freelist) = 0) (hplaced : WellPlaced A.freelist f)
    (hapart : ∀ r ∈ rs, r.Apart f) (hheader : Header s.mem A.freelist kMagicAllocated f) :
    ∃ s', AddToFreelist A s (f.start + sizeofHeader) = some s' ∧
      FreeBlocks s'.mem A.freelist (put f rs) ∧
      s'.allocation_count = s.allocation_count ∧ s'.pages = s.pages ∧
      ∀ x, ¬Owned A.freelist (f :: rs) x → s'.mem x = s.mem x := by
  have hpos_rs : Nonempty rs := fun r hr => (FB.placed r hr).size_pos
  have hput_sep := separated_put hsep hpos_rs hplaced.size_pos hapart
  have hput_pos := nonempty_put hplaced.size_pos hpos_rs
  obtain ⟨l₁, l₂, rfl, hord⟩ := hsep.ordered.exists_split hplaced.size_pos hapart
  obtain ⟨s₁, heq, FB₁, hcount₁, hpages₁, hframe₁⟩ := AddToFreelist_insert FB hord hplaced hheader
  obtain ⟨s₂, hcoalesce, FB₂, hcount₂, hpages₂, hframe₂⟩ := Coalesce_spec FB₁
  rw [hcoalesce, Option.bind_some] at heq
  have hcovers : ∀ x, Covers (l₁ ++ f :: l₂) x ↔ Covers (put f (l₁ ++ l₂)) x := by
    intro x
    simp only [covers_put, covers_append, covers_cons]
    tauto
  have hpos : Nonempty (l₁ ++ f :: l₂) := fun r hr => (FB₁.placed r hr).size_pos
  have hframe : ∀ x, ¬Owned A.freelist (f :: (l₁ ++ l₂)) x → s₂.mem x = s.mem x := by
    intro x hx
    have hx' : ¬Owned A.freelist (l₁ ++ f :: l₂) x := fun h => hx (h.mono fun y hy => by
      rw [covers_cons]
      exact (covers_put.1 ((hcovers y).1 hy)).symm)
    rw [hframe₂ x hx', hframe₁ x hx']
  rcases List.eq_nil_or_concat l₁ with rfl | ⟨l, p, rfl⟩
  · have hsize : s₂.mem (size A.freelist) = 0 := by
      have hlt : size A.freelist < levels A.freelist := by
        simp only [size, levels, sizeofHeader]
        omega
      rw [hframe (size A.freelist) (not_owned_header (fun r hr => FB₁.placed r hr) le_rfl hlt),
        hhead]
    have hput : mergeRight f l₂ = put f l₂ :=
      (separated_mergeRight hord hsep hpos_rs).ext hput_sep
        (nonempty_mergeRight hplaced.size_pos hpos_rs) hput_pos fun x => by
        rw [covers_mergeRight]
        exact hcovers x
    refine ⟨s₂, ?_, hput ▸ FB₂, hcount₂.trans hcount₁, hpages₂.trans hpages₁, hframe⟩
    rw [heq]
    exact Coalesce_head FB₂.toBlocks hsize
  · rw [List.concat_eq_append] at *
    have hlist : l ++ [p] ++ mergeRight f l₂ = l ++ p :: mergeRight f l₂ :=
      (List.append_cons _ _ _).symm
    rw [hlist] at FB₂
    obtain ⟨s₃, hcoalesce₃, FB₃, hcount₃, hpages₃, hframe₃⟩ := Coalesce_spec FB₂
    have hlast : ((l ++ [p]).map start).getLastD A.freelist = p.start := by
      rw [List.map_append, getLastD_append]
      rfl
    have hput : l ++ mergeRight p (mergeRight f l₂) = put f (l ++ [p] ++ l₂) := by
      refine (separated_append_mergeRight hord hsep hpos).ext hput_sep
        (fun r hr => (FB₃.placed r hr).size_pos) hput_pos fun x => ?_
      rw [← hcovers]
      simp only [covers_append, covers_mergeRight, covers_cons, covers_nil, or_false, or_assoc]
    refine ⟨s₃, ?_, hput ▸ FB₃, ?_, ?_, ?_⟩
    · rw [heq, hlast]
      exact hcoalesce₃
    · rw [hcount₃, hcount₂, hcount₁]
    · rw [hpages₃, hpages₂, hpages₁]
    · intro x hx
      rw [hframe₃ x fun h => hx (h.mono fun y hy => ?_), hframe x hx]
      simp only [covers_append, covers_mergeRight, covers_cons, covers_nil] at hy ⊢
      tauto

end AddToFreelist

end BugInsight.LowLevelAlloc

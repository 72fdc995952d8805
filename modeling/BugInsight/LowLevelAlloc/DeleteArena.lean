import BugInsight.LowLevelAlloc.Clients

/-!
# An arena is deleted

`DeleteArena` gives the pages of an arena back, if no block of it is live, and then the arena
itself.

* `releaseRegions_spec`: the free list of an arena without live blocks passes the assertions, and
  exactly the pages are released that no other pages end at.  Pages that were joined with the ones
  before them stay mapped, as `VirtualFree` only releases what one `VirtualAlloc` returned;
* `DeleteArena_ne_true`: the arena itself cannot be given back.  The assertion that it is not the
  default arena constructs the default arena anew, and that arena then knows of no block.
-/

namespace BugInsight.LowLevelAlloc

open SkipList AllocList FirstFit
open Extent hiding size

/-- A round of the loop of `DeleteArena`: the first region is taken off the list and released.
`VirtualFree` fails for an address that `VirtualAlloc` has not returned. -/
def regionRound (A : Arena) (s : Heap) : Heap ⊕ Option Heap :=
  let region := s.mem (next A.freelist 0)
  if region ≠ 0 then
    let size := s.mem (size region)
    let m := Function.update s.mem (next A.freelist 0) (s.mem (next region 0))
    if m (magic region) = Magic kMagicUnallocated region ∧ m (arena region) = A.freelist ∧
        size % A.pagesize = 0 ∧ region % A.pagesize = 0 ∧ ∃ q ∈ s.pages, q.start = region then
      .inl { s with mem := m, pages := s.pages.filter (·.start ≠ region) }
    else .inr none
  else .inr (some s)

/-- The loop of `DeleteArena`. -/
def releaseRegions (A : Arena) (s : Heap) : Option Heap :=
  (Loop.iterate (regionRound A) maxBlocks s).join

/-- `G` is the default arena and `g` its fields; both arenas lie in the same memory. -/
def DeleteArena (G A : Arena) (g s : Heap) : Option (Bool × Heap × Heap) :=
  -- `UnhookedArena` constructs the default arena whenever it is called
  let g := { constructArena G s.mem with pages := g.pages }
  let s := { s with mem := g.mem }
  if A.freelist ≠ G.freelist then
    if s.allocation_count ≠ 0 then some (false, g, s) else do
      let s ← releaseRegions A s
      let g ← Free G { g with mem := s.mem } A.freelist
      return (true, g, { s with mem := g.mem })
  else none

/-! ### The pages are released -/

section Regions

variable {A : Arena} {s : Heap} {S : Space} {rs : List Extent}

/-- The loop on the regions that are left. -/
theorem iterate_regionRound {fuel : ℕ} (hplaced : ∀ r ∈ rs, WellPlaced A.freelist r)
    (hheader : ∀ r ∈ rs, Header s.mem A.freelist kMagicUnallocated r)
    (hlinked : Linked (fun p => s.mem (next p 0)) 0 A.freelist (rs.map start))
    (hord : Ordered rs) (hdvd : ∀ r ∈ rs, A.pagesize ∣ r.start ∧ A.pagesize ∣ r.size)
    (hpages : ∀ r ∈ rs, ∃ q ∈ s.pages, q.start = r.start) (hfuel : rs.length < fuel) :
    ∃ m', Loop.iterate (regionRound A) fuel s = some (some { s with
        mem := m', pages := s.pages.filter fun q => ∀ r ∈ rs, q.start ≠ r.start }) ∧
      m' (next A.freelist 0) = 0 := by
  induction rs generalizing s fuel with
  | nil =>
    obtain ⟨fuel, rfl⟩ : ∃ f, fuel = f + 1 := ⟨fuel - 1, by simp at hfuel; omega⟩
    have hzero : s.mem (next A.freelist 0) = 0 := hlinked
    have hround : regionRound A s = .inr (some s) := by
      rw [regionRound]
      exact if_neg fun h => h hzero
    refine ⟨s.mem, ?_, hzero⟩
    rw [Loop.iterate_succ_inr hround]
    simp
  | cons r rs ih =>
    obtain ⟨fuel, rfl⟩ : ∃ f, fuel = f + 1 := ⟨fuel - 1, by simp at hfuel; omega⟩
    obtain ⟨hfirst, hlinked⟩ := hlinked
    replace hfirst : s.mem (next A.freelist 0) = r.start := hfirst
    have hplaced_r := hplaced r List.mem_cons_self
    have hheader_r := hheader r List.mem_cons_self
    have hdvd_r := hdvd r List.mem_cons_self
    obtain ⟨hord_r, hord⟩ := List.pairwise_cons.1 hord
    -- the head of the list lies in no region
    have hne : ∀ a ∈ r :: rs, ∀ x, a.start ≤ x → x ≤ next a.start 0 → x ≠ next A.freelist 0 := by
      rintro a ha x hle hlt rfl
      have hhead := (hplaced a ha).head_apart
      have hmin := (hplaced a ha).min_le
      rw [min_size_eq] at hmin
      simp only [next, stop, offsetofNext, sizeofPointer, kMaxLevel] at *
      omega
    set m := Function.update s.mem (next A.freelist 0) (s.mem (next r.start 0)) with hm
    have hm_eq : ∀ x, x ≠ next A.freelist 0 → m x = s.mem x := fun x hx =>
      Function.update_of_ne hx _ _
    have hm_header : ∀ a ∈ r :: rs, Header m A.freelist kMagicUnallocated a := fun a ha =>
      (hheader a ha).congr fun x hle hlt =>
        hm_eq x (hne a ha x hle (hlt.trans (levels_lt_next _)).le)
    have hm_next : ∀ a ∈ r :: rs, m (next a.start 0) = s.mem (next a.start 0) := fun a ha =>
      hm_eq _ (hne a ha _ ((start_le_levels _).trans (levels_lt_next _).le) le_rfl)
    have hround : regionRound A s = .inl { s with
        mem := m, pages := s.pages.filter (·.start ≠ r.start) } := by
      have hheader_m := hm_header r List.mem_cons_self
      rw [regionRound, hfirst, if_pos hplaced_r.start_pos.ne']
      refine if_pos ⟨hheader_m.magic_eq, hheader_m.arena_eq, ?_, ?_, ?_⟩
      · rw [hheader_r.size_eq]
        exact Nat.mod_eq_zero_of_dvd hdvd_r.2
      · exact Nat.mod_eq_zero_of_dvd hdvd_r.1
      · exact hpages r List.mem_cons_self
    have hlinked' : Linked (fun p => m (next p 0)) 0 A.freelist (rs.map start) := by
      cases rs with
      | nil =>
        have hnull : s.mem (next r.start 0) = 0 := hlinked
        exact (Function.update_self _ _ _).trans hnull
      | cons b rs =>
        obtain ⟨hb, hlinked⟩ := hlinked
        refine ⟨(Function.update_self _ _ _).trans hb, hlinked.congr fun p hp => ?_⟩
        obtain ⟨a, ha, rfl⟩ : ∃ a ∈ b :: rs, a.start = p := List.mem_map.1 hp
        exact hm_next a (List.mem_cons_of_mem r ha)
    have hpages' : ∀ a ∈ rs, ∃ q ∈ s.pages.filter (·.start ≠ r.start), q.start = a.start := by
      intro a ha
      obtain ⟨q, hq, heq⟩ := hpages a (List.mem_cons_of_mem r ha)
      refine ⟨q, List.mem_filter.2 ⟨hq, decide_eq_true ?_⟩, heq⟩
      have hle := hord_r a ha
      have hpos := hplaced_r.size_pos
      rw [heq]
      simp only [stop] at hle
      omega
    obtain ⟨m', hiterate, hm'⟩ := ih
      (s := { s with mem := m, pages := s.pages.filter (·.start ≠ r.start) })
      (fun a ha => hplaced a (List.mem_cons_of_mem r ha))
      (fun a ha => hm_header a (List.mem_cons_of_mem r ha)) hlinked' hord
      (fun a ha => hdvd a (List.mem_cons_of_mem r ha)) hpages'
      (Nat.lt_of_succ_lt_succ hfuel)
    refine ⟨m', ?_, hm'⟩
    rw [Loop.iterate_succ_inl hround, hiterate, List.filter_filter]
    simp only [List.mem_cons, forall_eq_or_imp, Bool.decide_and, Bool.and_comm]

/-- **Pages are given back**: all of them but those that other pages end at. -/
theorem releaseRegions_spec (R : Refines A s S) (hlive : S.live = []) :
    ∃ s', releaseRegions A s = some s' ∧ s'.mem (next A.freelist 0) = 0 ∧
      s'.pages = S.pages.filter fun q => ∃ q' ∈ S.pages, q'.stop = q.start := by
  have FB := R.inv.freeBlocks
  have hwf := R.wellFormed
  have hcovers : ∀ x, Covers S.pages x ↔ Covers S.free x := fun x => by
    rw [hwf.covers, hlive, or_iff_left covers_nil]
  have hpos : Nonempty S.pages := R.pages_eq ▸ R.inv.pages_pos
  have hdvd : ∀ r ∈ S.free, A.pagesize ∣ r.start ∧ A.pagesize ∣ r.size := by
    intro r hr
    obtain ⟨q, hq, hstart⟩ := hwf.separated.exists_start hpos hcovers hwf.free_pos hr
    obtain ⟨q', hq', hstop⟩ := hwf.separated.exists_stop hpos hcovers hwf.free_pos hr
    rw [← R.pages_eq] at hq hq'
    have h₁ := (R.inv.page_dvd q hq).1
    have h₂ := dvd_add (R.inv.page_dvd q' hq').1 (R.inv.page_dvd q' hq').2
    rw [hstart] at h₁
    change A.pagesize ∣ q'.stop at h₂
    rw [hstop] at h₂
    exact ⟨h₁, (Nat.dvd_add_right h₁).1 h₂⟩
  have hlinked := FB.represents.linked 0 (by decide)
  rw [FB.represents.level_zero] at hlinked
  obtain ⟨m', hiterate, hm'⟩ := iterate_regionRound FB.placed FB.header hlinked FB.ordered hdvd
    (fun r hr => R.pages_eq ▸ hwf.separated.exists_start hpos hcovers hwf.free_pos hr)
    (length_lt_maxBlocks FB.toBlocks)
  refine ⟨_, by rw [releaseRegions, hiterate]; rfl, hm', ?_⟩
  have hapart : S.pages.Pairwise Apart := R.pages_eq ▸ R.inv.pages_apart
  rw [← R.pages_eq] at hpos hcovers hapart ⊢
  refine List.filter_congr fun q hq => decide_eq_decide.2 ?_
  have hiff := hwf.separated.exists_start_iff hpos hcovers hapart hq
  rw [← not_iff_not]
  simpa [eq_comm] using hiff

/-- **What is released**, when all blocks have been given back after any run: the pages that no
other pages end at.  That is all of them exactly if no two pages touch. -/
theorem releaseRegions_of_run {m : Memory} {l : List Action} {results : List ℕ}
    (hl : Runs.Steps (specStep A) (Allowed A) (⟨[], [], []⟩, []) l)
    (hspec : Runs.run (specStep A) (⟨[], [], []⟩, []) l = some (S, results)) (hlive : S.live = []) :
    ∃ s s', Runs.run (step A) (constructArena A m, []) l = some (s, results) ∧
      s.allocation_count = 0 ∧ releaseRegions A s = some s' ∧ s'.mem (next A.freelist 0) = 0 ∧
      (∀ q, q ∈ s'.pages ↔ q ∈ s.pages ∧ ∃ q' ∈ s.pages, q'.stop = q.start) ∧
      (s'.pages = [] ↔ ∀ q ∈ s.pages, ∀ q' ∈ s.pages, q'.stop ≠ q.start) := by
  obtain ⟨s, hrun, R⟩ := refines_of_run (m := m) hl hspec
  obtain ⟨s', hrelease, hnext, hpages⟩ := releaseRegions_spec R hlive
  have hmem : ∀ q, q ∈ s'.pages ↔ q ∈ s.pages ∧ ∃ q' ∈ s.pages, q'.stop = q.start := fun q => by
    rw [hpages, R.pages_eq, List.mem_filter, decide_eq_true_iff]
  refine ⟨s, s', hrun, ?_, hrelease, hnext, hmem, ?_⟩
  · rw [R.inv.count, hlive]
    rfl
  · rw [List.eq_nil_iff_forall_not_mem]
    simp only [hmem, not_and, not_exists]

/-- The second request gets pages right behind those of the first one, and they are joined. -/
theorem releaseRegions_of_run_sample :
    ∃ s s', Runs.run (step sampleArena) (constructArena sampleArena fun _ => 0, [])
        [.alloc 100 [65536], .alloc 1048500 [1114112], .free 65568, .free 65728]
          = some (s, [65728, 65568]) ∧
      s.allocation_count = 0 ∧ releaseRegions sampleArena s = some s' ∧
      s'.mem (next sampleArena.freelist 0) = 0 ∧
      (∀ q, q ∈ s'.pages ↔ q ∈ s.pages ∧ ∃ q' ∈ s.pages, q'.stop = q.start) ∧
      (s'.pages = [] ↔ ∀ q ∈ s.pages, ∀ q' ∈ s.pages, q'.stop ≠ q.start) :=
  @releaseRegions_of_run sampleArena
    ⟨[⟨65536, 2097152⟩], [], [⟨1114112, 1048576⟩, ⟨65536, 1048576⟩]⟩ (fun _ => 0)
    [.alloc 100 [65536], .alloc 1048500 [1114112], .free 65568, .free 65728]
    [65728, 65568] (by decide +kernel) (by decide +kernel) rfl

end Regions

/-! ### The arena is not -/

section Arena

variable {A G : Arena} {s s' g : Heap}

theorem Coalesce_count {a : ℕ} (h : Coalesce s a = some s') :
    s'.allocation_count = s.allocation_count := by
  rw [Coalesce] at h
  split_ifs at h
  · obtain ⟨⟨m₁, prev₁⟩, -, h⟩ := Option.bind_eq_some_iff.1 h
    obtain ⟨⟨m₂, prev₂⟩, -, h⟩ := Option.bind_eq_some_iff.1 h
    obtain ⟨⟨level, random⟩, -, h⟩ := Option.bind_eq_some_iff.1 h
    obtain ⟨⟨m₃, prev₃⟩, -, h⟩ := Option.bind_eq_some_iff.1 h
    obtain rfl := Option.some.inj h
    rfl
  · obtain rfl := Option.some.inj h
    rfl

theorem AddToFreelist_count {v : ℕ} (h : AddToFreelist A s v = some s') :
    s'.allocation_count = s.allocation_count := by
  rw [AddToFreelist] at h
  split_ifs at h
  obtain ⟨⟨level, random⟩, -, h⟩ := Option.bind_eq_some_iff.1 h
  obtain ⟨⟨m, prev⟩, -, h⟩ := Option.bind_eq_some_iff.1 h
  obtain ⟨s₁, h₁, h₂⟩ := Option.bind_eq_some_iff.1 h
  rw [Coalesce_count h₂, Coalesce_count h₁]

/-- Nothing can be given back to an arena that counts no block. -/
theorem Free_ne_some {v : ℕ} (hv : v ≠ 0) (hcount : s.allocation_count = 0) :
    Free A s v ≠ some s' := by
  intro h
  rw [Free, if_pos hv] at h
  obtain ⟨s₁, h₁, h₂⟩ := Option.bind_eq_some_iff.1 h
  rw [AddToFreelist_count h₁, hcount] at h₂
  exact absurd h₂ (by simp)

theorem DeleteArena_eq_none (hpos : A.freelist ≠ 0) (hcount : s.allocation_count = 0) :
    DeleteArena G A g s = none := by
  by_cases hne : A.freelist ≠ G.freelist
  · rw [DeleteArena, if_pos hne]
    refine (if_neg (not_not.2 hcount)).trans ?_
    refine Option.bind_eq_none_iff.2 fun s₁ _ => Option.bind_eq_none_iff.2 fun g₁ hg₁ => ?_
    exact absurd hg₁ (Free_ne_some hpos rfl)
  · rw [DeleteArena, if_neg hne]

end Arena

end BugInsight.LowLevelAlloc

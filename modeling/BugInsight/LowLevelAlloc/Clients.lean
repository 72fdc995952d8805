import BugInsight.Runs
import BugInsight.LowLevelAlloc.Allocation

/-!
# An arena and its clients

Clients take blocks, write into them and give them back.  The space of an arena, as lists of
intervals, says what they may rely on; the levels of the skip list, the random numbers that they
come from and the content of the blocks are not part of it.

* `Refines A s S`: memory, with the free list and the headers, represents the space `S`;
* `DoAllocWithArena_spec`, `Free_spec`: the operations do what `Space.alloc` and `Space.release` do,
  no assertion fails, and other live blocks keep what is in them;
* `run_refines`: so does every run whose clients keep to the rules of `Allowed`.
-/

namespace BugInsight.LowLevelAlloc

open AllocList FirstFit
open Extent hiding size

/-- The bytes of a block for `request` bytes and its header. -/
def blockBytes (request : ℕ) : ℕ := roundUp (request + sizeofHeader) RoundedUpBlockSize

/-- The pages that are added for a request, if `VirtualAlloc` answers with the first of
`newPages`. -/
def newRegion (A : Arena) (request : ℕ) (newPages : List ℕ) : Option Extent :=
  newPages.head?.map fun p => ⟨p, pageBytes A (blockBytes request)⟩

/-- Memory represents the space `S`. -/
structure Refines (A : Arena) (s : Heap) (S : Space) : Prop where
  inv : Inv A s S.free S.live
  pages_eq : s.pages = S.pages

/-- What an operation does not write: words that are not in the pages, and blocks that are live
before and after it. -/
def Untouched (A : Arena) (S S' : Space) (x : ℕ) : Prop :=
  ¬(levels A.freelist ≤ x ∧ x < next A.freelist kMaxLevel) ∧
    (Covers S'.pages x → ∃ r ∈ S.live, r ∈ S'.live ∧ r.Has x)

section Operations

variable {A : Arena} {s : Heap} {S S' S'' : Space} {r : Extent} {req request x : ℕ}

theorem Refines.wellFormed (R : Refines A s S) : WellFormed S where
  separated := R.inv.separated
  free_pos := fun r hr => (R.inv.freeBlocks.placed r hr).size_pos
  live_pos := fun r hr => (R.inv.live_placed r hr).size_pos
  live_apart := R.inv.live_apart
  apart := R.inv.apart
  covers := fun x => R.pages_eq ▸ R.inv.covers x

theorem Inv.perm {free live live' : List Extent} (I : Inv A s free live)
    (h : live.Perm live') : Inv A s free live' where
  freeBlocks := I.freeBlocks
  separated := I.separated
  head_size := I.head_size
  live_placed := fun r hr => I.live_placed r (h.mem_iff.2 hr)
  live_header := fun r hr => I.live_header r (h.mem_iff.2 hr)
  live_apart := h.pairwise I.live_apart fun h => h.symm
  apart := fun r hr r' hr' => I.apart r hr r' (h.mem_iff.2 hr')
  covers := fun x => (I.covers x).trans (or_congr_right (by simp only [Covers, h.mem_iff]))
  pages_pos := I.pages_pos
  page_dvd := I.page_dvd
  pages_apart := I.pages_apart
  count := I.count.trans (by rw [h.length_eq])

/-- What an operation owns is not left untouched by it. -/
theorem Untouched.not_owned {l : List Extent} (hx : Untouched A S S' x)
    (hpages : ∀ y, Covers l y → Covers S'.pages y)
    (hlive : ∀ r ∈ S.live, r ∈ S'.live → ∀ a ∈ l, a.Apart r) : ¬Owned A.freelist l x := by
  rintro (h | h)
  · exact hx.1 h
  · obtain ⟨r, hr, hr', hrx⟩ := hx.2 (hpages x h)
    obtain ⟨a, ha, hax⟩ := h
    exact (hlive r hr hr' a ha).not_has hax hrx

theorem fit_eq (S : Space) (req : ℕ) : fit S.free req = ((S.fit req).map start).getD 0 := rfl

theorem Refines.exists_fit (R : Refines A s S) (h : S.fit req = some r) :
    r ∈ S.free ∧ req ≤ r.size ∧ fit S.free req = r.start ∧ r.start ≠ 0 := by
  have hr := List.mem_of_find?_eq_some h
  refine ⟨hr, by simpa using List.find?_some h, ?_, (R.inv.freeBlocks.placed r hr).start_pos.ne'⟩
  rw [fit_eq, h]
  rfl

/-- **A block is taken** from the first free interval that is large enough. -/
theorem Refines.take (R : Refines A s S) (hfit : S.fit req = some r) (hmin : min_size ≤ req)
    (hdvd : RoundedUpBlockSize ∣ req) (h64 : req + min_size < 2 ^ 64)
    (hcount : S.live.length + 1 < 2 ^ 31) :
    ∃ S' s', S.take min_size req = some (keep min_size req r, S') ∧
      takeRegion A req r.start s = some s' ∧ Refines A s' S' ∧ S'.pages = S.pages ∧
      S'.live = keep min_size req r :: S.live ∧
      ∀ x, ¬Owned A.freelist S.free x → s'.mem x = s.mem x := by
  obtain ⟨hr, hle, -, -⟩ := R.exists_fit hfit
  obtain ⟨s', htake, I', hpages, hframe⟩ := takeRegion_spec R.inv hr hmin hdvd h64 hle hcount
  refine ⟨⟨_, _, S.pages⟩, s', ?_, htake, ⟨I', hpages.trans R.pages_eq⟩, rfl, rfl, hframe⟩
  rw [Space.take, hfit]
  rfl

theorem blockBytes_spec (h0 : request ≠ 0) (hbound : request + 64 + A.pagesize * 16 ≤ 2 ^ 64) :
    ((CheckedAdd request sizeofHeader).bind (RoundUp · RoundedUpBlockSize))
        = some (blockBytes request) ∧
      min_size ≤ blockBytes request ∧ RoundedUpBlockSize ∣ blockBytes request ∧
      request + sizeofHeader ≤ blockBytes request ∧ blockBytes request < request + 64 ∧
      blockBytes request + A.pagesize * 16 ≤ 2 ^ 64 := by
  have hpos : 0 < RoundedUpBlockSize := by rw [RoundedUpBlockSize_eq]; norm_num
  have hle : request + sizeofHeader ≤ blockBytes request := le_roundUp hpos
  have hlt : blockBytes request < request + sizeofHeader + RoundedUpBlockSize := roundUp_lt hpos
  obtain ⟨k, hk⟩ : RoundedUpBlockSize ∣ blockBytes request := dvd_roundUp _ _
  rw [RoundedUpBlockSize_eq] at hlt hk
  simp only [sizeofHeader] at hle hlt
  refine ⟨?_, ?_, ⟨k, RoundedUpBlockSize_eq ▸ hk⟩, hle, by omega, by omega⟩
  · rw [CheckedAdd_eq (by simp only [sizeofHeader]; omega), Option.bind_some]
    refine RoundUp_eq (k := 5) (by norm_num) RoundedUpBlockSize_eq ?_
    rw [RoundedUpBlockSize_eq]
    simp only [sizeofHeader]
    omega
  · rw [min_size_eq]
    omega

/-- `VirtualAlloc` answers with fresh pages if there is no free block for the request. -/
def Supplied (A : Arena) (S : Space) (request : ℕ) (newPages : List ℕ) : Prop :=
  S.fit (blockBytes request) = none →
    ∃ q, newRegion A request newPages = some q ∧ FreshPages A S.pages q

theorem DoAllocWithArena_eq {newPages : List ℕ} {p : ℕ} {s₁ s' : Heap} (h0 : request ≠ 0)
    (hbound : request + 64 + A.pagesize * 16 ≤ 2 ^ 64)
    (hfind : findRegion A (blockBytes request) newPages s = some (p, s₁))
    (htake : takeRegion A (blockBytes request) p s₁ = some s') :
    DoAllocWithArena A s request newPages = some (p + sizeofHeader, s') := by
  obtain ⟨hreq, -⟩ := blockBytes_spec (A := A) h0 hbound
  obtain ⟨sum, hsum, hround⟩ := Option.bind_eq_some_iff.1 hreq
  rw [DoAllocWithArena, if_pos h0]
  refine Option.bind_eq_some_iff.2 ⟨sum, hsum, ?_⟩
  refine Option.bind_eq_some_iff.2 ⟨_, hround, ?_⟩
  refine Option.bind_eq_some_iff.2 ⟨_, hfind, ?_⟩
  exact Option.bind_eq_some_iff.2 ⟨s', htake, rfl⟩

/-- **Taking a block**: the search by levels, the split and the pages of the system do what first
fit says. -/
theorem DoAllocWithArena_spec (R : Refines A s S) (h0 : request ≠ 0)
    (hbound : request + 64 + A.pagesize * 16 ≤ 2 ^ 64) (hcount : S.live.length + 1 < 2 ^ 31)
    {newPages : List ℕ} (hnew : Supplied A S request newPages) :
    ∃ b S' s', S.alloc min_size (blockBytes request) (newRegion A request newPages) = some (b, S') ∧
      DoAllocWithArena A s request newPages = some (b.start + sizeofHeader, s') ∧
      Refines A s' S' ∧ S'.live = b :: S.live ∧ request + sizeofHeader ≤ b.size ∧
      ∀ x, Untouched A S S' x → s'.mem x = s.mem x := by
  obtain ⟨-, hmin, hdvd, hle, -, hpages⟩ := blockBytes_spec (A := A) h0 hbound
  have h64 := lt_of_add_pages hpages
  obtain ⟨hfound, hgrow⟩ := findRegion_spec R.inv hmin hpages
  have hcovers_free : ∀ y, Covers S.free y → Covers S.pages y := fun y hy =>
    (R.wellFormed.covers y).2 (.inl hy)
  cases hfit : S.fit (blockBytes request) with
  | some r =>
    obtain ⟨hr, hler, hstart, hne⟩ := R.exists_fit hfit
    obtain ⟨S', s', htake, htake', R', hpages', hlive', hframe⟩ :=
      R.take hfit hmin hdvd h64 hcount
    refine ⟨_, S', s', ?_, ?_, R', hlive', hle.trans (le_keep_size hler), fun x hx => ?_⟩
    · rw [Space.alloc, htake]
      rfl
    · have hfind := hfound (hstart ▸ hne) newPages
      rw [hstart] at hfind
      rw [keep_start]
      exact DoAllocWithArena_eq h0 hbound hfind htake'
    · exact hframe x (hx.not_owned (hpages' ▸ hcovers_free)
        fun a ha _ b hb => R.inv.apart b hb a ha)
  | none =>
    obtain ⟨q, hq, hfresh⟩ := hnew hfit
    obtain ⟨p, rest, rfl⟩ : ∃ p rest, newPages = p :: rest := by
      cases newPages with
      | nil => simp [newRegion] at hq
      | cons p rest => exact ⟨p, rest, rfl⟩
    obtain rfl : ⟨p, pageBytes A (blockBytes request)⟩ = q := by
      simpa [newRegion] using hq
    obtain ⟨s₁, hfind, hne, I₁, hpages₁, hframe₁⟩ :=
      hgrow (by rw [fit_eq, hfit]; rfl) p rest (R.pages_eq ▸ hfresh)
    set q : Extent := ⟨p, pageBytes A (blockBytes request)⟩ with hq'
    have R₁ : Refines A s₁ (S.grow q) := ⟨I₁, hpages₁.trans (by rw [R.pages_eq]; rfl)⟩
    cases hfit₁ : (S.grow q).fit (blockBytes request) with
    | none =>
      have h := fit_eq (S.grow q) (blockBytes request)
      rw [hfit₁] at h
      exact absurd h hne
    | some r =>
      obtain ⟨hr, hler, hstart, -⟩ := R₁.exists_fit hfit₁
      obtain ⟨S', s', htake, htake', R', hpages', hlive', hframe⟩ :=
        R₁.take hfit₁ hmin hdvd h64 hcount
      have hcovers_q : ∀ y, Covers (q :: S.free) y → Covers S'.pages y := by
        intro y hy
        rw [hpages']
        exact covers_cons.2 ((covers_cons.1 hy).imp_right (hcovers_free y))
      refine ⟨_, S', s', ?_, ?_, R', hlive', hle.trans (le_keep_size hler), fun x hx => ?_⟩
      · rw [Space.alloc, Space.take, hfit]
        show (S.grow q).take min_size (blockBytes request) = _
        exact htake
      · have hstart' : fit (put q S.free) (blockBytes request) = r.start := hstart
        rw [hstart'] at hfind
        rw [keep_start]
        exact DoAllocWithArena_eq h0 hbound hfind htake'
      · have hapart : ∀ a ∈ S.live, ∀ b ∈ q :: S.free, b.Apart a := by
          intro a ha b hb
          rcases List.mem_cons.1 hb with rfl | hb
          · have hsize := (I₁.freeBlocks.placed r hr).size_pos
            have hqpos : 0 < q.size := by
              have := le_roundUp (x := blockBytes request) (k := A.pagesize * 16)
                (Nat.mul_pos (pagesize_pos A) (by norm_num))
              have hpos := min_size_eq
              simp only [hq', pageBytes]
              omega
            exact (R.inv.apart_of_fresh (R.pages_eq ▸ hfresh) hqpos a
              (List.mem_append_right _ ha)).symm
          · exact R.inv.apart b hb a ha
        rw [hframe x, hframe₁ x]
        · exact hx.not_owned hcovers_q fun a ha _ b hb => hapart a ha b hb
        · refine hx.not_owned (fun y hy => hcovers_q y ?_) fun a ha _ b hb => ?_
          · exact covers_cons.2 (covers_put.1 hy).symm
          · exact R₁.inv.apart b hb a ha

/-- **Giving a block back**. -/
theorem Free_spec (R : Refines A s S) (hr : r ∈ S.live) :
    ∃ S' s', S.release r.start = some S' ∧ Free A s (r.start + sizeofHeader) = some s' ∧
      Refines A s' S' ∧ S'.live = S.live.erase r ∧ S'.pages = S.pages ∧
      ∀ x, Untouched A S S' x → s'.mem x = s.mem x := by
  have hperm := List.perm_cons_erase hr
  have I := R.inv.perm hperm
  obtain ⟨s', hadd, V', hcount, hpages, hframe⟩ := I.toValid.add
  have hpos : 0 < s'.allocation_count := by
    rw [hcount, I.count, List.length_cons]
    positivity
  refine ⟨⟨put r S.free, S.live.erase r, S.pages⟩,
    { s' with allocation_count := s'.allocation_count - 1 }, ?_, ?_,
    ⟨⟨V', fun x => ?_, ?_, ?_, ?_, ?_⟩, hpages.trans R.pages_eq⟩, rfl, rfl, fun x hx => ?_⟩
  · rw [Space.release, R.wellFormed.find_live hr]
    rfl
  · rw [Free, if_pos (by simp only [sizeofHeader]; omega)]
    exact Option.bind_eq_some_iff.2 ⟨s', hadd, if_pos hpos⟩
  · show Covers s'.pages x ↔ _
    rw [hpages, I.covers, covers_put, covers_cons, or_assoc]
  · exact hpages ▸ R.inv.pages_pos
  · exact hpages ▸ R.inv.page_dvd
  · exact hpages ▸ R.inv.pages_apart
  · show s'.allocation_count - 1 = _
    rw [hcount, I.count, List.length_cons]
    push_cast
    ring
  · refine hframe x (hx.not_owned (fun y hy => ?_) fun a _ ha b hb => ?_)
    · rw [covers_cons] at hy
      refine (R.wellFormed.covers y).2 (hy.symm.imp_right fun h => ⟨r, hr, h⟩)
    · rcases List.mem_cons.1 hb with rfl | hb
      · exact (List.pairwise_cons.1 I.live_apart).1 a ha
      · exact R.inv.apart b hb a (List.mem_of_mem_erase ha)

end Operations

/-! ### Runs -/

/-- Writes the header of an empty free list. -/
def emptyFreelist (A : Arena) (m : Memory) : Memory :=
  let m := Function.update m (size A.freelist) 0
  let m := Function.update m (magic A.freelist) (Magic kMagicUnallocated A.freelist)
  let m := Function.update m (arena A.freelist) A.freelist
  let m := Function.update m (levels A.freelist) 0
  fun x => if next A.freelist 0 ≤ x ∧ x < next A.freelist kMaxLevel then 0 else m x

/-- The constructor of `Arena`. -/
def constructArena (A : Arena) (m : Memory) : Heap := ⟨emptyFreelist A m, 0, 0, []⟩

/-- What clients do with an arena.  A write changes one word. -/
inductive Action where
  | alloc (request : ℕ) (newPages : List ℕ)
  | free (v : ℕ)
  | write (x v : ℕ)

/-- An action, on memory and the addresses that have been returned. -/
def step (A : Arena) : Heap × List ℕ → Action → Option (Heap × List ℕ)
  | (s, results), .alloc request newPages =>
      (DoAllocWithArena A s request newPages).map fun (v, s) => (s, v :: results)
  | (s, results), .free v => (Free A s v).map fun s => (s, results)
  | (s, results), .write x v => some ({ s with mem := Function.update s.mem x v }, results)

/-- The same action on the space of the arena. -/
def specStep (A : Arena) : Space × List ℕ → Action → Option (Space × List ℕ)
  | (S, results), .alloc request newPages =>
      if request = 0 then some (S, 0 :: results) else
        (S.alloc min_size (blockBytes request) (newRegion A request newPages)).map
          fun (b, S) => (S, (b.start + sizeofHeader) :: results)
  | (S, results), .free v =>
      if v = 0 then some (S, results) else
        (S.release (v - sizeofHeader)).map fun S => (S, results)
  | (S, results), .write _ _ => some (S, results)

/-- The rules: memory does not run out, what is given back has been taken, and clients write into
their blocks only. -/
def Allowed (A : Arena) : Space × List ℕ → Action → Prop
  | (S, _), .alloc request newPages => request ≠ 0 →
      request + 64 + A.pagesize * 16 ≤ 2 ^ 64 ∧ S.live.length + 1 < 2 ^ 31 ∧
        Supplied A S request newPages
  | (S, _), .free v => v ≠ 0 → ∃ r ∈ S.live, v = r.start + sizeofHeader
  | (S, _), .write x _ => ∃ r ∈ S.live, r.start + sizeofHeader ≤ x ∧ x < r.stop

section Runs

variable {A : Arena} {s s' : Heap} {S S' : Space} {r : Extent} {x : ℕ}
  {results results' : List ℕ} {a : Action} {l : List Action}

/-- A new arena has no space yet. -/
theorem constructArena_refines (A : Arena) (m : Memory) :
    Refines A (constructArena A m) ⟨[], [], []⟩ := by
  have hword : ∀ x, x < next A.freelist 0 → ∀ m : Memory,
      (if next A.freelist 0 ≤ x ∧ x < next A.freelist kMaxLevel then 0 else m x) = m x :=
    fun x hx m => if_neg fun h => h.1.not_gt hx
  have hlevels : emptyFreelist A m (levels A.freelist) = 0 :=
    (hword _ (levels_lt_next _) _).trans (Function.update_self _ _ _)
  have hsize : emptyFreelist A m (size A.freelist) = 0 := by
    have h₁ : size A.freelist ≠ levels A.freelist := by simp [size, levels, sizeofHeader]
    have h₂ : size A.freelist ≠ arena A.freelist := by simp [size, arena]
    have h₃ : size A.freelist ≠ magic A.freelist := by simp [size, magic]
    refine (hword _ ((start_le_levels _).trans_lt (levels_lt_next _)) _).trans ?_
    refine (Function.update_of_ne h₁ _ _).trans ((Function.update_of_ne h₂ _ _).trans ?_)
    exact (Function.update_of_ne h₃ _ _).trans (Function.update_self _ _ _)
  have hnext : ∀ i < kMaxLevel, emptyFreelist A m (next A.freelist i) = 0 := by
    intro i hi
    refine if_pos ⟨?_, ?_⟩
    all_goals simp only [next, sizeofPointer]; omega
  have hrepresents : SkipList.Represents kMaxLevel (fun i p => emptyFreelist A m (next p i)) 0
      A.freelist (fun p => emptyFreelist A m (levels p)) (emptyFreelist A m (levels A.freelist))
      (([] : List Extent).map start) :=
    ⟨.nil, by simp, by simp, by simp, by simp, hlevels ▸ Nat.zero_le _, .inl hlevels, hnext⟩
  have hblocks : FreeBlocks (emptyFreelist A m) A.freelist [] :=
    ⟨⟨hrepresents, .nil, by simp, by simp⟩, by simp, by simp⟩
  have hvalid : Valid A (emptyFreelist A m) [] [] :=
    ⟨hblocks, .nil, hsize, by simp, by simp, .nil, by simp⟩
  exact ⟨⟨hvalid, fun x => by simp [constructArena], by simp [constructArena, Extent.Nonempty],
    by simp [constructArena], .nil, rfl⟩, rfl⟩

/-- What a client writes into its block changes nothing that the allocator relies on. -/
theorem Refines.write (R : Refines A s S) (hr : r ∈ S.live) (hle : r.start + sizeofHeader ≤ x)
    (hlt : x < r.stop) (v : ℕ) : Refines A { s with mem := Function.update s.mem x v } S := by
  refine ⟨⟨R.inv.toValid.congr fun y hy => Function.update_of_ne ?_ _ _, R.inv.covers,
    R.inv.pages_pos, R.inv.page_dvd, R.inv.pages_apart, R.inv.count⟩, R.pages_eq⟩
  rintro rfl
  have hx : r.Has y := ⟨(Nat.le_add_right _ _).trans hle, hlt⟩
  rcases hy with ⟨h₁, h₂⟩ | ⟨b, hb, hy⟩ | ⟨b, hb, h₁, h₂⟩
  · have hhead := (R.inv.live_placed r hr).head_apart
    have hstart := hx.1
    omega
  · exact (R.inv.apart b hb r hr).not_has hy hx
  · by_cases hne : b = r
    · subst hne
      simp only [levels] at h₂
      omega
    · have hapart : b.Apart r := R.inv.live_apart.forall hb hr hne
      exact hapart.not_has ⟨h₁, h₂.trans (R.inv.live_placed b hb).levels_lt_stop⟩ hx

/-- **A step**: the rules are enough for it to be possible, it does what the space says, and blocks
that are live before and after it keep what is in them, unless a client writes there. -/
theorem step_refines (R : Refines A s S) (ha : Allowed A (S, results) a) :
    ∃ s' S' results', step A (s, results) a = some (s', results') ∧
      specStep A (S, results) a = some (S', results') ∧ Refines A s' S' ∧
      ∀ x, (∀ v, a ≠ .write x v) → Untouched A S S' x → s'.mem x = s.mem x := by
  cases a with
  | alloc request newPages =>
    by_cases h0 : request = 0
    · subst h0
      exact ⟨s, S, 0 :: results, rfl, rfl, R, fun _ _ _ => rfl⟩
    · obtain ⟨hbound, hcount, hnew⟩ := ha h0
      obtain ⟨b, S', s', halloc, hdo, R', -, -, hframe⟩ :=
        DoAllocWithArena_spec R h0 hbound hcount hnew
      refine ⟨s', S', (b.start + sizeofHeader) :: results, ?_, ?_, R', fun x _ => hframe x⟩
      · rw [step, hdo]
        rfl
      · rw [specStep, if_neg h0, halloc]
        rfl
  | free v =>
    by_cases h0 : v = 0
    · subst h0
      exact ⟨s, S, results, rfl, rfl, R, fun _ _ _ => rfl⟩
    · obtain ⟨r, hr, rfl⟩ := ha h0
      obtain ⟨S', s', hrelease, hfree, R', -, -, hframe⟩ := Free_spec R hr
      refine ⟨s', S', results, ?_, ?_, R', fun x _ => hframe x⟩
      · rw [step, hfree]
        rfl
      · rw [specStep, if_neg h0, Nat.add_sub_cancel, hrelease]
        rfl
  | write x v =>
    obtain ⟨r, hr, hle, hlt⟩ := ha
    refine ⟨_, S, results, rfl, rfl, R.write hr hle hlt v, fun y hy _ => ?_⟩
    refine Function.update_of_ne ?_ _ _
    rintro rfl
    exact hy v rfl

/-- **Every run** of clients that keep to the rules does what the space says. -/
theorem run_refines (R : Refines A s S)
    (hl : Runs.Steps (specStep A) (Allowed A) (S, results) l) :
    ∃ s' S' results', Runs.run (step A) (s, results) l = some (s', results') ∧
      Runs.run (specStep A) (S, results) l = some (S', results') ∧ Refines A s' S' := by
  obtain ⟨⟨s', results'⟩, ⟨S', results''⟩, hrun, hspec, R', heq⟩ := Runs.exists_run_of_sim
    (R := fun (t : Heap × List ℕ) (T : Space × List ℕ) => Refines A t.1 T.1 ∧ t.2 = T.2)
    (s := (s, results)) (t := (S, results)) (fun ⟨s, results⟩ ⟨S, results'⟩ a ⟨R, heq⟩ ha => by
      obtain rfl : results = results' := heq
      obtain ⟨s', S', results', hstep, hspec, R', -⟩ := step_refines R ha
      exact ⟨_, _, hstep, hspec, R', rfl⟩)
    ⟨R, rfl⟩ hl
  obtain rfl : results' = results'' := heq
  exact ⟨s', S', results', hrun, hspec, R'⟩

/-- A live block stays live if it is not given back. -/
theorem specStep_live {T : Space × List ℕ} (hr : r ∈ S.live) (hallowed : Allowed A (S, results) a)
    (ha : a ≠ .free (r.start + sizeofHeader)) (hstep : specStep A (S, results) a = some T) :
    r ∈ T.1.live := by
  cases a with
  | alloc request newPages =>
    rw [specStep] at hstep
    split_ifs at hstep
    · cases hstep
      exact hr
    · obtain ⟨⟨b, S'⟩, halloc, rfl⟩ := Option.map_eq_some_iff.1 hstep
      obtain ⟨hlive, -⟩ := alloc_eq_some halloc
      show r ∈ S'.live
      rw [hlive]
      exact List.mem_cons_of_mem b hr
  | free v =>
    rw [specStep] at hstep
    split_ifs at hstep with hv
    · cases hstep
      exact hr
    · obtain ⟨S', hrelease, rfl⟩ := Option.map_eq_some_iff.1 hstep
      obtain ⟨b, hb, rfl⟩ := Option.map_eq_some_iff.1 hrelease
      obtain ⟨b', -, rfl⟩ := hallowed hv
      have hstart : b.start = b'.start := by simpa using List.find?_some hb
      refine (List.mem_erase_of_ne ?_).2 hr
      rintro rfl
      exact ha (by rw [hstart])
  | write x v =>
    cases hstep
    exact hr

/-- What a run of the arena leads to, given where its space is led. -/
theorem refines_of_run {m : Memory} (hl : Runs.Steps (specStep A) (Allowed A) (⟨[], [], []⟩, []) l)
    (hspec : Runs.run (specStep A) (⟨[], [], []⟩, []) l = some (S, results)) :
    ∃ s, Runs.run (step A) (constructArena A m, []) l = some (s, results) ∧ Refines A s S := by
  obtain ⟨s, S', results', hrun, hspec', R⟩ := run_refines (constructArena_refines A m) hl
  rw [hspec] at hspec'
  cases hspec'
  exact ⟨s, hrun, R⟩

end Runs

/-! ### What clients may rely on -/

section Clients

variable {A : Arena} {m : Memory} {l : List Action} {S : Space} {results : List ℕ}

instance (pages : List Extent) (r : Extent) : Decidable (FreshPages A pages r) :=
  decidable_of_iff (0 < r.start ∧ A.pagesize ∣ r.start ∧ r.stop ≤ 2 ^ 64 ∧
      (r.stop ≤ A.freelist ∨ next A.freelist kMaxLevel ≤ r.start) ∧ ∀ r' ∈ pages, r'.Apart r)
    ⟨fun ⟨h₁, h₂, h₃, h₄, h₅⟩ => ⟨h₁, h₂, h₃, h₄, h₅⟩,
      fun ⟨h₁, h₂, h₃, h₄, h₅⟩ => ⟨h₁, h₂, h₃, h₄, h₅⟩⟩

instance (request : ℕ) (newPages : List ℕ) : Decidable (Supplied A S request newPages) :=
  decidable_of_iff (S.fit (blockBytes request) = none →
      (newRegion A request newPages).any (FreshPages A S.pages ·))
    (imp_congr_right fun _ => by simp [Option.any_eq_true])

instance : ∀ T a, Decidable (Allowed A T a)
  | (S, _), .alloc request newPages => inferInstanceAs (Decidable (request ≠ 0 →
      request + 64 + A.pagesize * 16 ≤ 2 ^ 64 ∧ S.live.length + 1 < 2 ^ 31 ∧
        Supplied A S request newPages))
  | (S, _), .free v => inferInstanceAs (Decidable (v ≠ 0 →
      ∃ r ∈ S.live, v = r.start + sizeofHeader))
  | (S, _), .write x _ => inferInstanceAs (Decidable
      (∃ r ∈ S.live, r.start + sizeofHeader ≤ x ∧ x < r.stop))

/-- Pages of 64 KiB, and the arena below them. -/
def sampleArena : Arena := ⟨4096, 65536, 16, by decide⟩

/-- Two blocks are taken, the first one is written to and given back. -/
def sampleActions : List Action :=
  [.alloc 100 [65536], .alloc 8 [], .write 65568 7, .free 65568]

/-- The space that this leads to. -/
def sampleSpace : Space :=
  ⟨[⟨65536, 160⟩, ⟨65760, 1048352⟩], [⟨65696, 64⟩], [⟨65536, 1048576⟩]⟩

/-- **Arenas are safe**: in every run whose clients keep to the rules, no assertion fails, every
search ends, and clients get the addresses that first fit gives them.  Blocks, free and live, make
up the pages of the arena and do not overlap, and free blocks never touch. -/
theorem run_constructArena (A : Arena) (m : Memory) (l : List Action)
    (hl : Runs.Steps (specStep A) (Allowed A) (⟨[], [], []⟩, []) l) :
    ∃ s S results, Runs.run (step A) (constructArena A m, []) l = some (s, results) ∧
      Runs.run (specStep A) (⟨[], [], []⟩, []) l = some (S, results) ∧
      Refines A s S ∧ WellFormed S ∧ s.allocation_count = S.live.length := by
  obtain ⟨s, S, results, hrun, hspec, R⟩ := run_refines (constructArena_refines A m) hl
  exact ⟨s, S, results, hrun, hspec, R, R.wellFormed, R.inv.count⟩

theorem run_constructArena_sample :
    Runs.Steps (specStep sampleArena) (Allowed sampleArena) (⟨[], [], []⟩, []) sampleActions ∧
    ∃ s S results, Runs.run (step sampleArena) (constructArena sampleArena fun _ => 0, [])
        sampleActions = some (s, results) ∧
      Runs.run (specStep sampleArena) (⟨[], [], []⟩, []) sampleActions = some (S, results) ∧
      Refines sampleArena s S ∧ WellFormed S ∧ s.allocation_count = S.live.length :=
  have hl : Runs.Steps (specStep sampleArena) (Allowed sampleArena) (⟨[], [], []⟩, [])
      sampleActions := by decide +kernel
  ⟨hl, run_constructArena sampleArena (fun _ => 0) sampleActions hl⟩

/-- **What a request gets**, after any run: an aligned block of little more than was asked for, in
the pages of the arena and apart from all live blocks, which keep what is in them.  It is at the
lowest place where it fits, and the system is asked for pages only if there is none. -/
theorem DoAllocWithArena_of_run {request : ℕ} {newPages : List ℕ}
    (hl : Runs.Steps (specStep A) (Allowed A) (⟨[], [], []⟩, []) l)
    (hspec : Runs.run (specStep A) (⟨[], [], []⟩, []) l = some (S, results))
    (h0 : request ≠ 0) (hallowed : Allowed A (S, results) (.alloc request newPages)) :
    ∃ (s : Heap) (b : Extent) (s' : Heap),
      Runs.run (step A) (constructArena A m, []) l = some (s, results) ∧
      DoAllocWithArena A s request newPages = some (b.start + sizeofHeader, s') ∧
      RoundedUpBlockSize ∣ b.start + sizeofHeader ∧
      request + sizeofHeader ≤ b.size ∧ b.size < request + 128 ∧
      (∀ x, b.Has x → Covers s'.pages x) ∧
      (∀ r ∈ S.live, b.Apart r ∧ ∀ x, r.Has x → s'.mem x = s.mem x) ∧
      (∀ r ∈ S.free, blockBytes request ≤ r.size → b.start ≤ r.start) ∧
      (s'.pages = s.pages ↔ ∃ r ∈ S.free, blockBytes request ≤ r.size) := by
  obtain ⟨s, hrun, R⟩ := refines_of_run (m := m) hl hspec
  obtain ⟨hbound, hcount, hnew⟩ := hallowed h0
  obtain ⟨b, S', s', halloc, hdo, R', hlive, hle, hframe⟩ :=
    DoAllocWithArena_spec R h0 hbound hcount hnew
  obtain ⟨-, hkeep, hcase⟩ := alloc_eq_some halloc
  have hb : b ∈ S'.live := hlive ▸ List.mem_cons_self
  have hplaced := R'.inv.live_placed b hb
  obtain ⟨hbr, -⟩ := List.pairwise_cons.1 (hlive ▸ R'.inv.live_apart)
  refine ⟨s, b, s', hrun, hdo, ?_, hle, ?_, fun x hx => ?_, fun r hr => ⟨hbr r hr, fun x hx => ?_⟩,
    fun r hr hrle => ?_, ?_⟩
  · refine dvd_add hplaced.start_dvd ?_
    rw [RoundedUpBlockSize_eq]
    exact dvd_rfl
  · have hlt := (blockBytes_spec (A := A) h0 hbound).2.2.2.2.1
    have hmin := min_size_eq
    have hbsize := hkeep (by omega)
    omega
  · rw [R'.pages_eq]
    exact (R'.wellFormed.covers x).2 (.inr ⟨b, hb, hx⟩)
  · refine hframe x ⟨fun h => ?_, fun _ => ⟨r, hr, hlive ▸ List.mem_cons_of_mem b hr, hx⟩⟩
    have hhead := (R.inv.live_placed r hr).head_apart
    have hlevels := start_le_levels A.freelist
    obtain ⟨h₁, h₂⟩ := hx
    omega
  · rcases hcase with ⟨q, hfit, hstart, -⟩ | ⟨hnone, -⟩
    · rw [hstart]
      exact R.wellFormed.fit_le hfit hr hrle
    · exact absurd hrle (by simpa using List.find?_eq_none.1 hnone r hr)
  · rw [R.pages_eq, R'.pages_eq]
    rcases hcase with ⟨q, hfit, -, hpages⟩ | ⟨hnone, q, -, hpages⟩
    · exact iff_of_true hpages ⟨q, (R.exists_fit hfit).1, (R.exists_fit hfit).2.1⟩
    · refine iff_of_false (hpages ▸ fun h => by simpa using congrArg List.length h) ?_
      rintro ⟨r, hr, hrle⟩
      exact absurd hrle (by simpa using List.find?_eq_none.1 hnone r hr)

theorem DoAllocWithArena_of_run_sample :
    ∃ (s : Heap) (b : Extent) (s' : Heap),
      Runs.run (step sampleArena) (constructArena sampleArena fun _ => 0, []) sampleActions
        = some (s, [65728, 65568]) ∧
      DoAllocWithArena sampleArena s 200 [] = some (b.start + sizeofHeader, s') ∧
      200 + sizeofHeader ≤ b.size := by
  obtain ⟨s, b, s', hrun, hdo, -, hle, -⟩ := @DoAllocWithArena_of_run sampleArena
    (fun _ => 0) sampleActions sampleSpace [65728, 65568] 200 [] (by decide +kernel)
    (by decide +kernel) (by decide) (by decide +kernel)
  exact ⟨s, b, s', hrun, hdo, hle⟩

/-- **What clients write stays**: a word of a live block keeps its value until a client writes there
or gives the block back, whatever blocks are taken and given back in the meantime. -/
theorem run_mem_eq {l₁ l₂ : List Action} {r : Extent} {x : ℕ}
    (hl : Runs.Steps (specStep A) (Allowed A) (⟨[], [], []⟩, []) (l₁ ++ l₂))
    (hspec : Runs.run (specStep A) (⟨[], [], []⟩, []) l₁ = some (S, results))
    (hr : r ∈ S.live) (hx : r.Has x)
    (hkeep : ∀ a ∈ l₂, a ≠ .free (r.start + sizeofHeader) ∧ ∀ v, a ≠ .write x v) :
    ∃ s s' results', Runs.run (step A) (constructArena A m, []) l₁ = some (s, results) ∧
      Runs.run (step A) (constructArena A m, []) (l₁ ++ l₂) = some (s', results') ∧
      s'.mem x = s.mem x := by
  obtain ⟨s, hrun, R⟩ := refines_of_run (m := m) hl.left hspec
  obtain ⟨⟨s', results'⟩, T, hrun', -, -, -, -, hmem⟩ := Runs.exists_run_of_sim
    (R := fun (t : Heap × List ℕ) (T : Space × List ℕ) =>
      Refines A t.1 T.1 ∧ t.2 = T.2 ∧ r ∈ T.1.live ∧ t.1.mem x = s.mem x)
    (s := (s, results)) (t := (S, results)) (fun ⟨s₁, results₁⟩ ⟨S₁, results₂⟩ a h ha => by
      obtain ⟨R₁, heq, hr₁, hmem₁⟩ := h
      obtain rfl : results₁ = results₂ := heq
      obtain ⟨hallowed, ha⟩ := ha
      obtain ⟨hfree, hwrite⟩ := hkeep a ha
      obtain ⟨s₂, S₂, results₂, hstep, hspec, R₂, hframe⟩ := step_refines R₁ hallowed
      have hr₂ : r ∈ S₂.live := specStep_live hr₁ hallowed hfree hspec
      refine ⟨_, _, hstep, hspec, R₂, rfl, hr₂, (hframe x hwrite ⟨fun h => ?_, fun _ => ?_⟩).trans
        hmem₁⟩
      · have hhead := (R₁.inv.live_placed r hr₁).head_apart
        have hlevels := start_le_levels A.freelist
        obtain ⟨hle, hlt⟩ := hx
        omega
      · exact ⟨r, hr₁, hr₂, hx⟩)
    ⟨R, rfl, hr, rfl⟩ ((hl.of_append hspec).and Runs.steps_mem)
  refine ⟨s, s', results', hrun, ?_, hmem⟩
  rw [Runs.run_append, hrun]
  exact hrun'

theorem run_mem_eq_sample :
    ∃ s s' results', Runs.run (step sampleArena) (constructArena sampleArena fun _ => 0, [])
        [.alloc 100 [65536], .write 65568 7] = some (s, [65568]) ∧
      Runs.run (step sampleArena) (constructArena sampleArena fun _ => 0, [])
        ([.alloc 100 [65536], .write 65568 7] ++ [.alloc 8 [], .free 65728])
          = some (s', results') ∧
      s'.mem 65568 = s.mem 65568 :=
  run_mem_eq (r := ⟨65536, 160⟩) (S := ⟨[⟨65696, 1048416⟩], [⟨65536, 160⟩], [⟨65536, 1048576⟩]⟩)
    (by decide +kernel) (by decide +kernel) (by decide) (by decide)
    (by simp [sizeofHeader])

/-- **The past does not matter**: if two arenas hold the same pages and the same live blocks, their
free lists are the same, and a request gets the same address in both. -/
theorem DoAllocWithArena_eq_of_run {m' : Memory} {l' : List Action} {S' : Space} {results' : List ℕ}
    {request : ℕ} {newPages : List ℕ}
    (hl : Runs.Steps (specStep A) (Allowed A) (⟨[], [], []⟩, []) l)
    (hl' : Runs.Steps (specStep A) (Allowed A) (⟨[], [], []⟩, []) l')
    (hspec : Runs.run (specStep A) (⟨[], [], []⟩, []) l = some (S, results))
    (hspec' : Runs.run (specStep A) (⟨[], [], []⟩, []) l' = some (S', results'))
    (hpages : S.pages.Perm S'.pages) (hlive : S.live.Perm S'.live)
    (hallowed : Allowed A (S, results) (.alloc request newPages)) :
    ∃ s s' v t t', Runs.run (step A) (constructArena A m, []) l = some (s, results) ∧
      Runs.run (step A) (constructArena A m', []) l' = some (s', results') ∧
      S.free = S'.free ∧ DoAllocWithArena A s request newPages = some (v, t) ∧
      DoAllocWithArena A s' request newPages = some (v, t') := by
  obtain ⟨s, hrun, R⟩ := refines_of_run (m := m) hl hspec
  obtain ⟨s', hrun', R'⟩ := refines_of_run (m := m') hl' hspec'
  have hcovers : ∀ {a b : List Extent}, a.Perm b → ∀ x, Covers a x ↔ Covers b x :=
    fun h x => by simp only [Covers, h.mem_iff]
  have hfree : S.free = S'.free :=
    R.wellFormed.free_eq R'.wellFormed (hcovers hpages) (hcovers hlive)
  by_cases h0 : request = 0
  · subst h0
    exact ⟨s, s', 0, s, s', hrun, hrun', hfree, rfl, rfl⟩
  obtain ⟨hbound, hcount, hnew⟩ := hallowed h0
  have hnew' : Supplied A S' request newPages := by
    intro hfit
    obtain ⟨q, hq, hfresh⟩ := hnew (by rw [Space.fit, hfree]; exact hfit)
    exact ⟨q, hq, hfresh.start_pos, hfresh.start_dvd, hfresh.stop_le, hfresh.head_apart,
      fun r hr => hfresh.apart r (hpages.mem_iff.2 hr)⟩
  obtain ⟨b, T, t, halloc, hdo, -⟩ := DoAllocWithArena_spec R h0 hbound hcount hnew
  obtain ⟨b', T', t', halloc', hdo', -⟩ :=
    DoAllocWithArena_spec R' h0 hbound (hlive.length_eq ▸ hcount) hnew'
  have hb : some b = some b' := by
    have heq := @alloc_fst_eq min_size (blockBytes request) S S' hfree
      (newRegion A request newPages)
    rwa [halloc, halloc'] at heq
  obtain rfl := Option.some.inj hb
  exact ⟨s, s', _, t, t', hrun, hrun', hfree, hdo, hdo'⟩

theorem DoAllocWithArena_eq_of_run_sample :
    ∃ s s' v t t', Runs.run (step sampleArena) (constructArena sampleArena fun _ => 0, [])
        sampleActions = some (s, [65728, 65568]) ∧
      Runs.run (step sampleArena) (constructArena sampleArena fun _ => 1, [])
        (sampleActions ++ [.alloc 500 [], .free 65792]) = some (s', [65792, 65728, 65568]) ∧
      sampleSpace.free = sampleSpace.free ∧
      DoAllocWithArena sampleArena s 300 [] = some (v, t) ∧
      DoAllocWithArena sampleArena s' 300 [] = some (v, t') :=
  DoAllocWithArena_eq_of_run (l := sampleActions) (S := sampleSpace)
    (by decide +kernel) (by decide +kernel) (by decide +kernel) (by decide +kernel) (.refl _)
    (.refl _) (by decide +kernel)

end Clients

end BugInsight.LowLevelAlloc

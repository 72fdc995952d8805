import BugInsight.Extents

/-!
# First fit

The space of an allocator is a list of pages, and what it covers is divided between free intervals
and live blocks.  A block is taken from the first free interval that is large enough, and new pages
are added if there is none.

* `Space.take`, `Space.grow`, `Space.alloc`, `Space.release`: the operations;
* `keep`: a block is the whole interval if less than `least` would be left of it;
* `WellFormed.free_eq`: what is free is determined by the pages and the live blocks, whatever has
  been taken and released to get there.
-/

open Extent

namespace FirstFit

/-- The free intervals, the live blocks and the pages. -/
structure Space where
  free : List Extent
  live : List Extent
  pages : List Extent
  deriving DecidableEq

/-- What a block of size `n` takes of `r`. -/
def keep (least n : ℕ) (r : Extent) : Extent := if n + least ≤ r.size then ⟨r.start, n⟩ else r

namespace Space

/-- The first free interval of size `n` or more. -/
def fit (n : ℕ) (S : Space) : Option Extent := S.free.find? fun r => n ≤ r.size

/-- Takes a block of size `n`. -/
def take (least n : ℕ) (S : Space) : Option (Extent × Space) :=
  (S.fit n).map fun r => (keep least n r, { S with
    free := carve r.start (keep least n r).size S.free
    live := keep least n r :: S.live })

def grow (q : Extent) (S : Space) : Space :=
  { S with free := put q S.free, pages := q :: S.pages }

/-- Takes a block of size `n`, from the pages `new` if there is no other place for it. -/
def alloc (least n : ℕ) (new : Option Extent) (S : Space) : Option (Extent × Space) :=
  (S.take least n).orElse fun _ => new.bind fun q => (S.grow q).take least n

/-- Releases the block that starts at `p`. -/
def release (p : ℕ) (S : Space) : Option Space :=
  (S.live.find? fun r => r.start = p).map fun r =>
    { S with free := put r S.free, live := S.live.erase r }

end Space

/-- Free intervals and live blocks make up the pages, and free intervals that touch are joined. -/
structure WellFormed (S : Space) : Prop where
  separated : Separated S.free
  free_pos : Nonempty S.free
  live_pos : Nonempty S.live
  live_apart : S.live.Pairwise Apart
  apart : ∀ r ∈ S.free, ∀ r' ∈ S.live, r.Apart r'
  covers : ∀ x, Covers S.pages x ↔ Covers S.free x ∨ Covers S.live x

variable {least n p : ℕ} {r : Extent} {S S' : Space}

theorem keep_start : (keep least n r).start = r.start := by
  rw [keep]
  split_ifs <;> rfl

theorem le_keep_size (h : n ≤ r.size) : n ≤ (keep least n r).size := by
  rw [keep]
  split_ifs
  · exact le_rfl
  · exact h

theorem keep_size_le : (keep least n r).size ≤ r.size := by
  rw [keep]
  split_ifs with h
  · exact (Nat.le_add_right n least).trans h
  · exact le_rfl

/-- Little more is taken than was asked for. -/
theorem keep_size_lt (h : 0 < least) : (keep least n r).size < n + least := by
  rw [keep]
  split_ifs with hle
  · exact Nat.lt_add_of_pos_right h
  · exact not_le.1 hle

theorem keep_stop_le : (keep least n r).stop ≤ r.stop := by
  rw [stop, stop, keep_start]
  exact Nat.add_le_add_left keep_size_le _

/-- What is free is what lies in the pages and in no live block. -/
theorem WellFormed.covers_free (h : WellFormed S) (x : ℕ) :
    Covers S.free x ↔ Covers S.pages x ∧ ¬Covers S.live x := by
  rw [h.covers]
  refine ⟨fun hx => ⟨.inl hx, ?_⟩, fun hx => hx.1.resolve_right hx.2⟩
  rintro ⟨r', hr', hx'⟩
  obtain ⟨r, hr, hx⟩ := hx
  exact (h.apart r hr r' hr').not_has hx hx'

/-- **The free list does not depend on the past**: it is determined by the pages and by what is
live. -/
theorem WellFormed.free_eq (h : WellFormed S) (h' : WellFormed S')
    (hpages : ∀ x, Covers S.pages x ↔ Covers S'.pages x)
    (hlive : ∀ x, Covers S.live x ↔ Covers S'.live x) : S.free = S'.free :=
  h.separated.ext h'.separated h.free_pos h'.free_pos fun x => by
    rw [h.covers_free, h'.covers_free, hpages, hlive]

theorem take_fst_eq (h : S.free = S'.free) :
    (S.take least n).map Prod.fst = (S'.take least n).map Prod.fst := by
  rw [Space.take, Space.take, Space.fit, Space.fit, h, Option.map_map, Option.map_map]
  rfl

theorem alloc_fst (new : Option Extent) : (S.alloc least n new).map Prod.fst
    = ((S.take least n).map Prod.fst).orElse fun _ =>
      new.bind fun q => ((S.grow q).take least n).map Prod.fst := by
  rw [Space.alloc]
  cases S.take least n <;> cases new <;> rfl

/-- Which block is taken depends on what is free only. -/
theorem alloc_fst_eq (h : S.free = S'.free) (new : Option Extent) :
    (S.alloc least n new).map Prod.fst = (S'.alloc least n new).map Prod.fst := by
  rw [alloc_fst, alloc_fst, take_fst_eq h]
  refine congrArg _ (funext fun _ => Option.bind_congr fun q _ => take_fst_eq ?_)
  rw [Space.grow, Space.grow, h]

/-- The block that is taken is the first one that is large enough, or part of it. -/
theorem take_eq_some {b : Extent} (h : S.take least n = some (b, S')) :
    ∃ r, S.fit n = some r ∧ r ∈ S.free ∧ n ≤ r.size ∧ b = keep least n r ∧
      S'.live = b :: S.live ∧ S'.pages = S.pages := by
  obtain ⟨r, hr, heq⟩ := Option.map_eq_some_iff.1 h
  cases heq
  exact ⟨r, hr, List.mem_of_find?_eq_some hr, by simpa using List.find?_some hr, rfl, rfl, rfl⟩

/-- The block comes from an interval that is large enough, or else from the new pages. -/
theorem alloc_eq_some {b : Extent} {new : Option Extent}
    (h : S.alloc least n new = some (b, S')) :
    S'.live = b :: S.live ∧ (0 < least → b.size < n + least) ∧
      ((∃ r, S.fit n = some r ∧ b.start = r.start ∧ S'.pages = S.pages) ∨
        S.fit n = none ∧ ∃ q, new = some q ∧ S'.pages = q :: S.pages) := by
  rw [Space.alloc] at h
  cases htake : S.take least n with
  | some bS =>
    rw [htake] at h
    obtain rfl := Option.some.inj h
    obtain ⟨r, hfit, -, -, rfl, hlive, hpages⟩ := take_eq_some htake
    exact ⟨hlive, keep_size_lt, .inl ⟨r, hfit, keep_start, hpages⟩⟩
  | none =>
    rw [htake] at h
    obtain ⟨q, hq, h⟩ := Option.bind_eq_some_iff.1 h
    obtain ⟨r, -, -, -, rfl, hlive, hpages⟩ := take_eq_some h
    exact ⟨hlive, keep_size_lt, .inr ⟨Option.map_eq_none_iff.1 htake, q, hq, hpages⟩⟩

/-- No free interval that is large enough lies before the first one. -/
theorem WellFormed.fit_le (h : WellFormed S) {a : Extent} (hfit : S.fit n = some r)
    (ha : a ∈ S.free) (hle : n ≤ a.size) : r.start ≤ a.start := by
  obtain ⟨-, l₁, l₂, hl, hnot⟩ := List.find?_eq_some_iff_append.1 hfit
  have hsep := h.separated
  rw [hl] at ha hsep
  rcases List.mem_append.1 ha with ha | ha
  · exact absurd hle (by simpa using hnot a ha)
  · rcases List.mem_cons.1 ha with rfl | ha
    · exact le_rfl
    · have hlt := (List.pairwise_cons.1 (List.pairwise_append.1 hsep).2.1).1 a ha
      exact ((Nat.le_add_right _ _).trans_lt hlt).le

/-- A live block is found at its address. -/
theorem WellFormed.find_live (h : WellFormed S) (hr : r ∈ S.live) :
    S.live.find? (fun a => a.start = r.start) = some r := by
  cases hfind : S.live.find? fun a => a.start = r.start with
  | none => simpa using List.find?_eq_none.1 hfind r hr
  | some a =>
    have ha := List.mem_of_find?_eq_some hfind
    have hstart : a.start = r.start := by simpa using List.find?_some hfind
    by_contra hne
    have hapart : a.Apart r := h.live_apart.forall ha hr fun heq => hne (congrArg some heq)
    have h₁ := h.live_pos a ha
    have h₂ := h.live_pos r hr
    simp only [Apart, stop] at hapart
    omega

end FirstFit

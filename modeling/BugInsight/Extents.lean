import Mathlib.Tactic

/-!
# Lists of intervals

An interval is the numbers from `start` on, `size` many.  A list of intervals is `Ordered` if each
one ends before or where the next one starts, and `Separated` if there is a gap between them.

* `mergeRight`: an interval joins its right neighbour if they touch; this covers the same numbers
  (`covers_mergeRight`), and an interval that is put into a separated list and merged with both
  neighbours leaves it separated (`separated_append_mergeRight`);
* `put`: an interval is put into a separated list and joins the intervals that it touches;
* `carve`: the first numbers of an interval of the list are taken out;
* `Separated.ext`: separated lists that cover the same numbers are equal, so a separated list is
  the list of the maximal intervals of what it covers.
-/

/-- The numbers from `start` on, `size` many. -/
structure Extent where
  start : ℕ
  size : ℕ
  deriving DecidableEq

namespace Extent

/-- The first number after the interval. -/
def stop (r : Extent) : ℕ := r.start + r.size

/-- `x` is one of the numbers. -/
def Has (r : Extent) (x : ℕ) : Prop := r.start ≤ x ∧ x < r.stop

instance (r : Extent) (x : ℕ) : Decidable (r.Has x) :=
  inferInstanceAs (Decidable (r.start ≤ x ∧ x < r.stop))

/-- No number is in both. -/
def Apart (r r' : Extent) : Prop := r.stop ≤ r'.start ∨ r'.stop ≤ r.start

theorem Apart.symm {r r' : Extent} (h : r.Apart r') : r'.Apart r := Or.symm h

instance : DecidableRel Apart := fun r r' =>
  inferInstanceAs (Decidable (r.stop ≤ r'.start ∨ r'.stop ≤ r.start))

instance : Std.Symm Apart := ⟨fun _ _ h => h.symm⟩

theorem Apart.not_has {r r' : Extent} {x : ℕ} (h : r.Apart r') (hx : r.Has x) : ¬r'.Has x := by
  simp only [Apart, Has] at *
  omega

/-- What touches no interval touches no part of it. -/
theorem Apart.part {a r q : Extent} (h : a.Apart r) (hstart : r.start ≤ q.start)
    (hstop : q.stop ≤ r.stop) : a.Apart q := by
  simp only [Apart] at *
  omega

/-- Intervals without a common number. -/
theorem apart_of_not_has {r r' : Extent} (hr : 0 < r.size) (hr' : 0 < r'.size)
    (h : ∀ x, r.Has x → ¬r'.Has x) : r.Apart r' := by
  have hmax := h (max r.start r'.start)
  simp only [Apart, Has, stop] at *
  omega

/-- One of the intervals has `x`. -/
def Covers (l : List Extent) (x : ℕ) : Prop := ∃ r ∈ l, r.Has x

def Ordered (l : List Extent) : Prop := l.Pairwise fun r r' => r.stop ≤ r'.start

def Separated (l : List Extent) : Prop := l.Pairwise fun r r' => r.stop < r'.start

/-- No interval is empty. -/
def Nonempty (l : List Extent) : Prop := ∀ r ∈ l, 0 < r.size

variable {f r : Extent} {l l' l₁ l₂ : List Extent} {x : ℕ}

@[simp] theorem covers_nil : ¬Covers [] x := by simp [Covers]

@[simp] theorem covers_cons : Covers (r :: l) x ↔ r.Has x ∨ Covers l x := by simp [Covers]

@[simp] theorem covers_append : Covers (l₁ ++ l₂) x ↔ Covers l₁ x ∨ Covers l₂ x := by
  simp only [Covers, List.mem_append, or_and_right, exists_or]

theorem Covers.mono (hl : l ⊆ l') (h : Covers l x) : Covers l' x :=
  h.imp fun _ hr => ⟨hl hr.1, hr.2⟩

theorem Separated.ordered (h : Separated l) : Ordered l := h.imp le_of_lt

/-- `f` joins the first interval of `l` if they touch. -/
def mergeRight (f : Extent) : List Extent → List Extent
  | [] => [f]
  | r :: l => if f.stop = r.start then ⟨f.start, f.size + r.size⟩ :: l else f :: r :: l

theorem covers_mergeRight : Covers (mergeRight f l) x ↔ Covers (f :: l) x := by
  cases l with
  | nil => rfl
  | cons r l =>
    rw [mergeRight]
    split_ifs with h
    · simp only [covers_cons, Has, stop] at h ⊢
      rw [← or_assoc]
      refine or_congr_left ?_
      omega
    · rfl

theorem nonempty_mergeRight (hf : 0 < f.size) (hl : Nonempty l) : Nonempty (mergeRight f l) := by
  cases l with
  | nil => simpa [mergeRight, Nonempty] using hf
  | cons r l =>
    obtain ⟨hr, hl⟩ := List.forall_mem_cons.1 hl
    rw [mergeRight]
    split_ifs
    · exact List.forall_mem_cons.2 ⟨Nat.add_pos_left hf _, hl⟩
    · exact List.forall_mem_cons.2 ⟨hf, List.forall_mem_cons.2 ⟨hr, hl⟩⟩

theorem ordered_mergeRight (h : Ordered (f :: l)) : Ordered (mergeRight f l) := by
  cases l with
  | nil => exact h
  | cons r l =>
    obtain ⟨hf, hl⟩ := List.pairwise_cons.1 h
    obtain ⟨hr, hl'⟩ := List.pairwise_cons.1 hl
    rw [mergeRight]
    split_ifs with heq
    · refine List.pairwise_cons.2 ⟨fun b hb => ?_, hl'⟩
      have hrb := hr b hb
      simp only [stop] at *
      omega
    · exact h

theorem ordered_append_mergeRight (h : Ordered (l₁ ++ f :: l₂)) :
    Ordered (l₁ ++ mergeRight f l₂) := by
  obtain ⟨h₁, h₂, h₁₂⟩ := List.pairwise_append.1 h
  refine List.pairwise_append.2 ⟨h₁, ordered_mergeRight h₂, fun a ha b hb => ?_⟩
  have hall : ∀ l, b ∈ mergeRight f l → b.start = f.start ∨ b ∈ l := by
    intro l hb
    cases l with
    | nil => exact .inl (congrArg start (List.mem_singleton.1 hb))
    | cons r l =>
      rw [mergeRight] at hb
      split_ifs at hb
      · rcases List.mem_cons.1 hb with rfl | hb
        · exact .inl rfl
        · exact .inr (List.mem_cons_of_mem r hb)
      · exact (List.mem_cons.1 hb).imp_left (congrArg start)
  rcases hall l₂ hb with heq | hb
  · exact heq ▸ h₁₂ a ha f List.mem_cons_self
  · exact h₁₂ a ha b (List.mem_cons_of_mem f hb)

/-- An interval that touches none of an ordered list has its place in it. -/
theorem Ordered.exists_split (h : Ordered l) (hpos : 0 < f.size) (hl : ∀ r ∈ l, r.Apart f) :
    ∃ l₁ l₂, l = l₁ ++ l₂ ∧ Ordered (l₁ ++ f :: l₂) := by
  induction l with
  | nil => exact ⟨[], [], rfl, List.pairwise_singleton _ _⟩
  | cons r l ih =>
    obtain ⟨hr, hl'⟩ := List.pairwise_cons.1 h
    rcases hl r List.mem_cons_self with hrf | hfr
    · obtain ⟨l₁, l₂, rfl, hord⟩ := ih hl' fun a ha => hl a (List.mem_cons_of_mem r ha)
      refine ⟨r :: l₁, l₂, rfl, List.pairwise_cons.2 ⟨fun a ha => ?_, hord⟩⟩
      rcases List.mem_append.1 ha with ha | ha
      · exact hr a (List.mem_append_left l₂ ha)
      · rcases List.mem_cons.1 ha with rfl | ha
        · exact hrf
        · exact hr a (List.mem_append_right l₁ ha)
    · refine ⟨[], r :: l, rfl, List.pairwise_cons.2 ⟨fun a ha => ?_, h⟩⟩
      rcases List.mem_cons.1 ha with rfl | ha
      · exact hfr
      · have hra := hr a ha
        simp only [stop] at *
        omega

/-- Only `r` itself is left out. -/
theorem filter_ne_append (h : Ordered (l₁ ++ r :: l₂)) (hpos : 0 < r.size) :
    (l₁ ++ r :: l₂).filter (· ≠ r) = l₁ ++ l₂ := by
  obtain ⟨-, h₂, h₁₂⟩ := List.pairwise_append.1 h
  have hne₁ : ∀ a ∈ l₁, a ≠ r := by
    rintro a ha rfl
    have hle := h₁₂ a ha a List.mem_cons_self
    simp only [stop] at hle
    omega
  have hne₂ : ∀ a ∈ l₂, a ≠ r := by
    rintro a ha rfl
    have hle := (List.pairwise_cons.1 h₂).1 a ha
    simp only [stop] at hle
    omega
  rw [List.filter_append, List.filter_cons_of_neg (by simp),
    List.filter_eq_self.2 fun a ha => decide_eq_true (hne₁ a ha),
    List.filter_eq_self.2 fun a ha => decide_eq_true (hne₂ a ha)]

theorem separated_mergeRight (h : Ordered (f :: l)) (hl : Separated l) (hpos : Nonempty l) :
    Separated (mergeRight f l) := by
  cases l with
  | nil => exact List.pairwise_singleton _ _
  | cons r l =>
    obtain ⟨hf, -⟩ := List.pairwise_cons.1 h
    obtain ⟨hr, hl'⟩ := List.pairwise_cons.1 hl
    obtain ⟨hrpos, -⟩ := List.forall_mem_cons.1 hpos
    have hfr := hf r List.mem_cons_self
    rw [mergeRight]
    split_ifs with heq
    · refine List.pairwise_cons.2 ⟨fun b hb => ?_, hl'⟩
      have hrb := hr b hb
      simp only [stop] at *
      omega
    · refine List.pairwise_cons.2 ⟨fun b hb => ?_, hl⟩
      rcases List.mem_cons.1 hb with rfl | hb
      · exact lt_of_le_of_ne hfr heq
      · have hrb := hr b hb
        simp only [stop] at *
        omega

/-- The intervals of a list that covers no more start where those of the other list may. -/
theorem le_start_of_covers {k : ℕ} (hl : ∀ r ∈ l, k ≤ r.start) (hpos : Nonempty l')
    (hcovers : ∀ x, Covers l' x → Covers l x) : ∀ r ∈ l', k ≤ r.start := by
  intro r hr
  have hrpos := hpos r hr
  have hhas : r.Has r.start := by
    simp only [Has, stop]
    omega
  obtain ⟨b, hb, hle, -⟩ := hcovers r.start ⟨r, hr, hhas⟩
  exact (hl b hb).trans hle

/-- A new interval between those of `l₁` and of `l₂`, merged with its neighbours. -/
theorem separated_append_mergeRight {p : Extent} (h : Ordered ((l₁ ++ [p]) ++ f :: l₂))
    (hsep : Separated ((l₁ ++ [p]) ++ l₂)) (hpos : Nonempty ((l₁ ++ [p]) ++ f :: l₂)) :
    Separated (l₁ ++ mergeRight p (mergeRight f l₂)) := by
  simp only [Ordered, Separated, Nonempty, List.pairwise_append, List.pairwise_cons,
    List.mem_append, List.mem_cons, List.not_mem_nil, or_false] at h hsep hpos
  obtain ⟨⟨-, -, hl₁p⟩, hf, hl₁f⟩ := h
  obtain ⟨⟨hsep₁, -, hsep₁p⟩, hsep₂, hsep₁₂⟩ := hsep
  have hpf : p.stop ≤ f.start := hl₁f p (.inr rfl) f (.inl rfl)
  have hpos₂ : Nonempty (mergeRight f l₂) :=
    nonempty_mergeRight (hpos f (.inr (.inl rfl))) fun r hr => hpos r (.inr (.inr hr))
  have hsep_f : Separated (mergeRight f l₂) :=
    separated_mergeRight (List.pairwise_cons.2 hf) hsep₂ fun r hr => hpos r (.inr (.inr hr))
  have hord_p : Ordered (p :: mergeRight f l₂) := by
    refine List.pairwise_cons.2 ⟨?_, hsep_f.ordered⟩
    refine le_start_of_covers (fun r hr => ?_) hpos₂ fun x => covers_mergeRight.1
    rcases List.mem_cons.1 hr with rfl | hr
    · exact hpf
    · exact hl₁f p (.inr rfl) r (.inr hr)
  refine List.pairwise_append.2 ⟨hsep₁, separated_mergeRight hord_p hsep_f hpos₂, fun a ha => ?_⟩
  -- what is merged lies right of `p`, and `p` is separated from `l₁`
  have hap : a.stop < p.start := hsep₁p a ha p rfl
  refine le_start_of_covers (l := p :: f :: l₂) (fun r hr => ?_)
    (nonempty_mergeRight (hpos p (.inl (.inr rfl))) hpos₂) fun x hx => ?_
  · rcases List.mem_cons.1 hr with rfl | hr
    · exact hap
    · rcases List.mem_cons.1 hr with rfl | hr
      · simp only [stop] at *
        omega
      · exact hsep₁₂ a (.inl ha) r hr
  · rw [covers_mergeRight, covers_cons, covers_mergeRight] at hx
    rwa [covers_cons]

theorem Ordered.apart {r' : Extent} (h : Ordered l) (hr : r ∈ l) (hr' : r' ∈ l) (hne : r ≠ r') :
    r.Apart r' :=
  (h.imp (S := Apart) fun h => .inl h).forall hr hr' hne

/-- Removing an interval from an ordered list removes its numbers. -/
theorem covers_filter_ne (h : Ordered l) (hr : r ∈ l) :
    Covers (l.filter (· ≠ r)) x ↔ Covers l x ∧ ¬r.Has x := by
  constructor
  · rintro ⟨b, hb, hx⟩
    obtain ⟨hb, hne⟩ := List.mem_filter.1 hb
    refine ⟨⟨b, hb, hx⟩, fun hrx => ?_⟩
    exact (h.apart hb hr (of_decide_eq_true hne)).not_has hx hrx
  · rintro ⟨⟨b, hb, hx⟩, hrx⟩
    refine ⟨b, List.mem_filter.2 ⟨hb, decide_eq_true ?_⟩, hx⟩
    rintro rfl
    exact hrx hx

theorem Separated.gap {r' : Extent} (h : Separated l) (hr : r ∈ l) (hr' : r' ∈ l)
    (hne : r ≠ r') : r.stop < r'.start ∨ r'.stop < r.start := by
  have hsymm : Std.Symm fun a b : Extent => a.stop < b.start ∨ b.stop < a.start :=
    ⟨fun _ _ => Or.symm⟩
  exact List.Pairwise.forall (R := fun a b : Extent => a.stop < b.start ∨ b.stop < a.start)
    (h.imp .inl) hr hr' hne

/-- An interval that is covered lies in one interval of a separated list. -/
theorem Separated.exists_contains {q : Extent} (h : Separated l) (hq : 0 < q.size)
    (hcovers : ∀ x, q.Has x → Covers l x) : ∃ r ∈ l, r.start ≤ q.start ∧ q.stop ≤ r.stop := by
  obtain ⟨r, hr, hle, hlt⟩ := hcovers q.start ⟨le_rfl, by simp only [stop]; omega⟩
  refine ⟨r, hr, hle, ?_⟩
  by_contra hnot
  obtain ⟨r', hr', hle', hlt'⟩ := hcovers r.stop ⟨hlt.le, not_le.1 hnot⟩
  have hne : r ≠ r' := by
    rintro rfl
    exact lt_irrefl _ hlt'
  have hsep := h.gap hr hr' hne
  simp only [stop] at *
  omega

/-- **Maximal intervals**: a separated list is determined by what it covers. -/
theorem Separated.ext (h : Separated l) (h' : Separated l') (hpos : Nonempty l)
    (hpos' : Nonempty l') (hcovers : ∀ x, Covers l x ↔ Covers l' x) : l = l' := by
  induction l generalizing l' with
  | nil =>
    cases l' with
    | nil => rfl
    | cons r' l' =>
      have hr' := hpos' r' List.mem_cons_self
      have hstart := hcovers r'.start
      simp only [covers_nil, covers_cons, Has, stop, false_iff] at hstart
      omega
  | cons r l ih =>
    cases l' with
    | nil =>
      have hr := hpos r List.mem_cons_self
      have hstart := hcovers r.start
      simp only [covers_nil, covers_cons, Has, stop, iff_false] at hstart
      omega
    | cons r' l' =>
      have hr := hpos r List.mem_cons_self
      have hr' := hpos' r' List.mem_cons_self
      obtain ⟨hrl, hl⟩ := List.pairwise_cons.1 h
      obtain ⟨hrl', hl'⟩ := List.pairwise_cons.1 h'
      have hcons : ∀ x, r.Has x ∨ Covers l x ↔ r'.Has x ∨ Covers l' x := by simpa using hcovers
      have hright : ∀ x, Covers l x → r.stop < x := fun x ⟨b, hb, hx, _⟩ => (hrl b hb).trans_le hx
      have hright' : ∀ x, Covers l' x → r'.stop < x := fun x ⟨b, hb, hx, _⟩ =>
        (hrl' b hb).trans_le hx
      -- the least number that is covered
      have hstart : r.start = r'.start := by
        have h₁ := (hcons r.start).1 (.inl ⟨le_rfl, by simp only [stop]; omega⟩)
        have h₂ := (hcons r'.start).2 (.inl ⟨le_rfl, by simp only [stop]; omega⟩)
        have h₁' := h₁.imp_right (hright' _)
        have h₂' := h₂.imp_right (hright _)
        simp only [Has, stop] at h₁' h₂'
        omega
      -- the first number after it that is not covered
      have hstop : r.stop = r'.stop := by
        rcases lt_trichotomy r.stop r'.stop with hlt | heq | hlt
        · have h := (hcons r.stop).2 (.inl ⟨by simp only [stop]; omega, hlt⟩)
          have h' := h.imp_right (hright _)
          simp only [Has] at h'
          omega
        · exact heq
        · have h := (hcons r'.stop).1 (.inl ⟨by simp only [stop]; omega, hlt⟩)
          have h' := h.imp_right (hright' _)
          simp only [Has] at h'
          omega
      have heq : r = r' := by
        cases r
        cases r'
        simp only [stop, mk.injEq] at *
        omega
      refine congrArg₂ List.cons heq (ih hl hl' (fun b hb => hpos b (List.mem_cons_of_mem r hb))
        (fun b hb => hpos' b (List.mem_cons_of_mem r' hb)) fun x => ⟨fun hx => ?_, fun hx => ?_⟩)
      · refine ((hcons x).1 (.inr hx)).resolve_left fun h => ?_
        exact absurd (hright x hx) (by rw [hstop]; exact h.2.not_gt)
      · refine ((hcons x).2 (.inr hx)).resolve_left fun h => ?_
        exact absurd (hright' x hx) (by rw [← hstop]; exact h.2.not_gt)

/-! ### Where maximal intervals start and stop -/

section Covering

variable (h : Separated l) (hl' : Nonempty l') (hcovers : ∀ x, Covers l' x ↔ Covers l x)
include h hl' hcovers

theorem Separated.exists_start (hl : Nonempty l) (hr : r ∈ l) : ∃ q ∈ l', q.start = r.start := by
  have hrpos := hl r hr
  obtain ⟨q, hq, hle, hlt⟩ := (hcovers r.start).2 ⟨r, hr, le_rfl, by simp only [stop]; omega⟩
  obtain ⟨b, hb, hbq, hqb⟩ := h.exists_contains (hl' q hq) fun x hx => (hcovers x).1 ⟨q, hq, hx⟩
  refine ⟨q, hq, le_antisymm hle ?_⟩
  by_contra hnot
  have hne : b ≠ r := by
    rintro rfl
    omega
  have hapart := h.ordered.apart hb hr hne
  simp only [Apart, stop] at *
  omega

theorem Separated.exists_stop (hl : Nonempty l) (hr : r ∈ l) : ∃ q ∈ l', q.stop = r.stop := by
  have hrpos := hl r hr
  obtain ⟨q, hq, hle, hlt⟩ := (hcovers (r.stop - 1)).2 ⟨r, hr, by simp only [stop]; omega,
    by simp only [stop]; omega⟩
  obtain ⟨b, hb, hbq, hqb⟩ := h.exists_contains (hl' q hq) fun x hx => (hcovers x).1 ⟨q, hq, hx⟩
  refine ⟨q, hq, le_antisymm ?_ (by omega)⟩
  by_contra hnot
  have hne : b ≠ r := by
    rintro rfl
    omega
  have hapart := h.ordered.apart hb hr hne
  simp only [Apart, stop] at *
  omega

/-- An interval is at the start of a maximal one if none ends where it starts. -/
theorem Separated.exists_start_iff (hapart : l'.Pairwise Apart) {q : Extent} (hq : q ∈ l') :
    (∃ r ∈ l, r.start = q.start) ↔ ∀ q' ∈ l', q'.stop ≠ q.start := by
  have hqpos := hl' q hq
  constructor
  · rintro ⟨r, hr, heq⟩ q' hq' hstop
    have hq'pos := hl' q' hq'
    obtain ⟨b, hb, hbq, hqb⟩ := h.exists_contains hq'pos fun x hx => (hcovers x).1 ⟨q', hq', hx⟩
    have hne : b ≠ r := by
      rintro rfl
      simp only [stop] at *
      omega
    have hsep := h.gap hb hr hne
    simp only [stop] at *
    omega
  · intro hnone
    obtain ⟨r, hr, hle, hlt⟩ := (hcovers q.start).1 ⟨q, hq, le_rfl, by simp only [stop]; omega⟩
    refine ⟨r, hr, le_antisymm hle ?_⟩
    by_contra hnot
    obtain ⟨q', hq', hle', hlt'⟩ := (hcovers (q.start - 1)).2 ⟨r, hr, by omega, by omega⟩
    have hne : q' ≠ q := by
      rintro rfl
      omega
    have hapart' : q'.Apart q := hapart.forall hq' hq hne
    have hstop := hnone q' hq'
    simp only [Apart, stop] at *
    omega

end Covering

/-! ### Numbers are added and taken out -/

/-- `f` is put into a separated list, and joins the intervals that it touches. -/
def put (f : Extent) : List Extent → List Extent
  | [] => [f]
  | r :: l =>
    if r.stop < f.start then r :: put f l
    else if r.stop = f.start then mergeRight ⟨r.start, r.size + f.size⟩ l
    else mergeRight f (r :: l)

/-- The first `n` numbers of the interval that starts at `p` are taken out. -/
def carve (p n : ℕ) : List Extent → List Extent
  | [] => []
  | r :: l =>
    if r.start = p then if n < r.size then ⟨p + n, r.size - n⟩ :: l else l else r :: carve p n l

theorem covers_put : Covers (put f l) x ↔ Covers l x ∨ f.Has x := by
  induction l with
  | nil => simp [put]
  | cons r l ih =>
    rw [put]
    split_ifs with hlt heq
    · rw [covers_cons, ih, covers_cons, or_assoc]
    · have hjoin : Has ⟨r.start, r.size + f.size⟩ x ↔ r.Has x ∨ f.Has x := by
        simp only [Has, stop] at heq ⊢
        omega
      rw [covers_mergeRight, covers_cons, covers_cons, hjoin, or_right_comm]
    · rw [covers_mergeRight, covers_cons, or_comm]

theorem nonempty_put (hf : 0 < f.size) (hl : Nonempty l) : Nonempty (put f l) := by
  induction l with
  | nil => simpa [put, Nonempty] using hf
  | cons r l ih =>
    obtain ⟨hr, hl'⟩ := List.forall_mem_cons.1 hl
    rw [put]
    split_ifs
    · exact List.forall_mem_cons.2 ⟨hr, ih hl'⟩
    · exact nonempty_mergeRight (Nat.add_pos_left hr _) hl'
    · exact nonempty_mergeRight hf hl

/-- What was apart from `f` and separated is separated again. -/
theorem separated_put (h : Separated l) (hpos : Nonempty l) (hf : 0 < f.size)
    (hapart : ∀ r ∈ l, r.Apart f) : Separated (put f l) := by
  induction l with
  | nil => exact List.pairwise_singleton _ _
  | cons r l ih =>
    obtain ⟨hr, hl⟩ := List.pairwise_cons.1 h
    obtain ⟨hrpos, hpos'⟩ := List.forall_mem_cons.1 hpos
    obtain ⟨hrf, hapart'⟩ := List.forall_mem_cons.1 hapart
    rw [put]
    split_ifs with hlt heq
    · refine List.pairwise_cons.2 ⟨?_, ih hl hpos' hapart'⟩
      refine le_start_of_covers (l := f :: l) (List.forall_mem_cons.2 ⟨hlt, hr⟩)
        (nonempty_put hf hpos') fun x hx => ?_
      rw [covers_cons]
      exact (covers_put.1 hx).symm
    · refine separated_mergeRight
        (List.pairwise_cons.2 ⟨fun a ha => ?_, Separated.ordered hl⟩) hl hpos'
      have h₁ := hr a ha
      have h₂ := hapart' a ha
      simp only [Apart, stop] at *
      omega
    · refine separated_mergeRight (List.pairwise_cons.2 ⟨fun a ha => ?_, h.ordered⟩) h hpos
      have h₁ : r.start ≤ a.start := by
        rcases List.mem_cons.1 ha with rfl | ha
        · exact le_rfl
        · exact ((Nat.le_add_right _ _).trans_lt (hr a ha)).le
      simp only [Apart, stop] at *
      omega

section Carve

variable {n : ℕ}

/-- What is left is covered by what was there. -/
theorem covers_of_carve {p : ℕ} (hx : Covers (carve p n l) x) : Covers l x := by
  induction l with
  | nil => exact hx
  | cons r l ih =>
    rw [carve] at hx
    rw [covers_cons]
    split_ifs at hx with hp hlt
    · rw [covers_cons] at hx
      refine hx.imp_left fun h => ?_
      simp only [Has, stop] at h ⊢
      omega
    · exact .inr hx
    · rw [covers_cons] at hx
      exact hx.imp_right ih

theorem nonempty_carve {p : ℕ} (hl : Nonempty l) : Nonempty (carve p n l) := by
  induction l with
  | nil => exact hl
  | cons r l ih =>
    obtain ⟨hr, hl'⟩ := List.forall_mem_cons.1 hl
    rw [carve]
    split_ifs with hp hlt
    · exact List.forall_mem_cons.2 ⟨Nat.sub_pos_of_lt hlt, hl'⟩
    · exact hl'
    · exact List.forall_mem_cons.2 ⟨hr, ih hl'⟩

theorem separated_carve {p : ℕ} (h : Separated l) (hpos : Nonempty l) :
    Separated (carve p n l) := by
  induction l with
  | nil => exact h
  | cons r l ih =>
    obtain ⟨hr, hl⟩ := List.pairwise_cons.1 h
    obtain ⟨-, hpos'⟩ := List.forall_mem_cons.1 hpos
    rw [carve]
    split_ifs with hp hlt
    · refine List.pairwise_cons.2 ⟨fun a ha => ?_, hl⟩
      have hra := hr a ha
      simp only [stop] at hra ⊢
      omega
    · exact hl
    · exact List.pairwise_cons.2 ⟨le_start_of_covers hr (nonempty_carve hpos')
        fun x => covers_of_carve, ih hl hpos'⟩

/-- Just the first `n` numbers of `r` are taken out. -/
theorem covers_carve (h : Separated l) (hr : r ∈ l) (hle : n ≤ r.size) :
    Covers (carve r.start n l) x ↔ Covers l x ∧ ¬Has ⟨r.start, n⟩ x := by
  induction l with
  | nil => simp at hr
  | cons a l ih =>
    obtain ⟨ha, hl⟩ := List.pairwise_cons.1 h
    have hright : Covers l x → a.stop < x := fun ⟨b, hb, hx, _⟩ => (ha b hb).trans_le hx
    rw [carve]
    rcases List.mem_cons.1 hr with rfl | hr
    · rw [if_pos rfl]
      split_ifs with hlt
      · simp only [covers_cons, Has, stop] at hright ⊢
        by_cases hx : Covers l x
        · have := hright hx
          simp only [hx, or_true, true_and, true_iff]
          omega
        · simp only [hx, or_false]
          omega
      · simp only [covers_cons, Has, stop] at hright ⊢
        by_cases hx : Covers l x
        · have := hright hx
          simp only [hx, or_true, true_and, true_iff]
          omega
        · simp only [hx, or_false, false_iff]
          omega
    · have har := ha r hr
      have hne : a.start ≠ r.start := by
        simp only [stop] at har
        omega
      rw [if_neg hne, covers_cons, covers_cons, ih hl hr, or_and_right]
      refine or_congr_left (and_iff_left_of_imp fun hx hx' => ?_).symm
      simp only [Has, stop] at hx hx' har
      omega

end Carve

end Extent

import BugInsight.Loop

/-!
# Sorted linked lists and skip lists

`Linked next null head l` says that the pointers `next` lead from `head` through the elements of
`l`, one after the other, and then to `null`.  A skip list keeps such pointers at several levels:
`Represents` says that level `i` leads through the elements of `l` whose height is over `i`.

* `before head l e`: the last element below `e`, which a walk along a sorted list ends at
  (`iterate_walk`);
* `Linked.insert`, `Linked.erase`: one pointer changes, the others stay;
* `Represents.insert`, `Represents.erase`: the same at every level of an element at once.
-/

namespace SkipList

variable {α : Type*}

/-- The pointers lead from `head` through `l` to `null`. -/
def Linked (next : α → α) (null : α) : α → List α → Prop
  | head, [] => next head = null
  | head, a :: l => next head = a ∧ Linked next null a l

section Linked

variable {next next' : α → α} {null head e : α} {l l₁ l₂ : List α}

@[simp] theorem linked_nil : Linked next null head [] ↔ next head = null := Iff.rfl

@[simp] theorem linked_cons {a : α} :
    Linked next null head (a :: l) ↔ next head = a ∧ Linked next null a l := Iff.rfl

theorem Linked.next_eq (h : Linked next null head l) : next head = l.headD null := by
  cases l with
  | nil => exact h
  | cons a l => exact h.1

theorem Linked.next_ne {a : α} (h : Linked next null head l) (hnull : null ∉ l) (ha : a ∈ l) :
    next head ≠ null := by
  cases l with
  | nil => simp at ha
  | cons b l =>
    intro hn
    exact hnull (List.mem_cons.2 (.inl (hn.symm.trans h.1)))

theorem Linked.congr (hnext : ∀ p ∈ head :: l, next' p = next p) (h : Linked next null head l) :
    Linked next' null head l := by
  induction l generalizing head with
  | nil => exact (hnext head List.mem_cons_self).trans h
  | cons a l ih =>
    refine ⟨(hnext head List.mem_cons_self).trans h.1, ih (fun p hp => ?_) h.2⟩
    exact hnext p (List.mem_cons_of_mem head hp)

/-- The rest of a list, from the last element of a part of it. -/
theorem Linked.drop (h : Linked next null head (l₁ ++ l₂)) :
    Linked next null (l₁.getLastD head) l₂ := by
  induction l₁ generalizing head with
  | nil => exact h
  | cons a l₁ ih =>
    rw [List.getLastD_cons]
    exact ih h.2

/-- `e` after the last element of `l₁`. -/
theorem Linked.insert (h : Linked next null head (l₁ ++ l₂)) (hnodup : (head :: l₁).Nodup)
    (hlast : next' (l₁.getLastD head) = e) (he : next' e = next (l₁.getLastD head))
    (hinit : ∀ p ∈ head :: l₁, p ≠ l₁.getLastD head → next' p = next p)
    (htail : ∀ p ∈ l₂, next' p = next p) : Linked next' null head (l₁ ++ e :: l₂) := by
  induction l₁ generalizing head with
  | nil =>
    refine ⟨hlast, ?_⟩
    cases l₂ with
    | nil => exact he.trans h
    | cons a l₂ => exact ⟨he.trans h.1, h.2.congr fun p hp => htail p hp⟩
  | cons a l₁ ih =>
    rw [List.getLastD_cons] at hlast he hinit
    obtain ⟨hhead, hnodup'⟩ := List.nodup_cons.1 hnodup
    have hne : head ≠ l₁.getLastD a := by
      intro heq
      refine hhead (heq ▸ ?_)
      exact List.getLastD_mem_cons
    refine ⟨(hinit head List.mem_cons_self hne).trans h.1, ih h.2 hnodup' hlast he ?_⟩
    exact fun p hp => hinit p (List.mem_cons_of_mem head hp)

/-- Without the element after the last one of `l₁`. -/
theorem Linked.erase (h : Linked next null head (l₁ ++ e :: l₂)) (hnodup : (head :: l₁).Nodup)
    (hlast : next' (l₁.getLastD head) = next e)
    (hinit : ∀ p ∈ head :: l₁, p ≠ l₁.getLastD head → next' p = next p)
    (htail : ∀ p ∈ l₂, next' p = next p) : Linked next' null head (l₁ ++ l₂) := by
  induction l₁ generalizing head with
  | nil =>
    cases l₂ with
    | nil => exact hlast.trans h.2
    | cons a l₂ => exact ⟨hlast.trans h.2.1, h.2.2.congr fun p hp => htail p hp⟩
  | cons a l₁ ih =>
    rw [List.getLastD_cons] at hlast hinit
    obtain ⟨hhead, hnodup'⟩ := List.nodup_cons.1 hnodup
    have hne : head ≠ l₁.getLastD a := by
      intro heq
      refine hhead (heq ▸ ?_)
      exact List.getLastD_mem_cons
    refine ⟨(hinit head List.mem_cons_self hne).trans h.1, ih h.2 hnodup' hlast ?_⟩
    exact fun p hp => hinit p (List.mem_cons_of_mem head hp)

theorem getLastD_append (l₁ l₂ : List α) (a : α) :
    (l₁ ++ l₂).getLastD a = l₂.getLastD (l₁.getLastD a) := by
  induction l₁ generalizing a with
  | nil => rfl
  | cons b l₁ ih => rw [List.cons_append, List.getLastD_cons, List.getLastD_cons, ih]

end Linked

section Sorted

variable [LinearOrder α] {next next' : α → α} {null head e : α} {l : List α}

/-- The last element of `l` below `e`, or `head`. -/
def before (head : α) (l : List α) (e : α) : α := (l.filter (· < e)).getLastD head

/-- The elements of `l` with `e` between those below and those above it. -/
def insertAt (e : α) (l : List α) : List α := l.filter (· < e) ++ e :: l.filter (e < ·)

@[simp] theorem mem_insertAt {a : α} : a ∈ insertAt e l ↔ a = e ∨ a ∈ l ∧ a ≠ e := by
  simp only [insertAt, List.mem_append, List.mem_cons, List.mem_filter, decide_eq_true_eq]
  rcases lt_trichotomy a e with h | rfl | h
  · simp [h, h.ne, h.not_gt]
  · simp
  · simp [h, h.ne', h.not_gt]

theorem sorted_insertAt (hl : l.Pairwise (· < ·)) : (insertAt e l).Pairwise (· < ·) := by
  refine List.pairwise_append.2 ⟨hl.filter _, List.pairwise_cons.2 ⟨?_, hl.filter _⟩, ?_⟩
  · simp
  · intro a ha b hb
    have hae : a < e := by simpa using (List.mem_filter.1 ha).2
    rcases List.mem_cons.1 hb with rfl | hb
    · exact hae
    · exact hae.trans (by simpa using (List.mem_filter.1 hb).2)

/-- A sorted list is its part below `e` and its part from `e` on. -/
theorem filter_append_filter (hl : l.Pairwise (· < ·)) (e : α) :
    l.filter (· < e) ++ l.filter (e ≤ ·) = l := by
  induction l with
  | nil => rfl
  | cons a l ih =>
    obtain ⟨ha, hl⟩ := List.pairwise_cons.1 hl
    rcases lt_or_ge a e with hae | hae
    · rw [List.filter_cons_of_pos (by simpa), List.filter_cons_of_neg (by simpa), List.cons_append,
        ih hl]
    · have hbelow : l.filter (· < e) = [] := by
        simp only [List.filter_eq_nil_iff, decide_eq_true_eq, not_lt]
        exact fun b hb => hae.trans (ha b hb).le
      have habove : l.filter (e ≤ ·) = l := by
        simp only [List.filter_eq_self, decide_eq_true_eq]
        exact fun b hb => hae.trans (ha b hb).le
      rw [List.filter_cons_of_neg (by simpa), List.filter_cons_of_pos (by simpa), hbelow, habove]
      rfl

theorem filter_le_of_notMem (he : e ∉ l) : l.filter (e ≤ ·) = l.filter (e < ·) := by
  refine List.filter_congr fun a ha => ?_
  have hne : e ≠ a := fun h => he (h ▸ ha)
  exact decide_eq_decide.2 ⟨fun h => lt_of_le_of_ne h hne, le_of_lt⟩

theorem filter_le_of_mem (hl : l.Pairwise (· < ·)) (he : e ∈ l) :
    l.filter (e ≤ ·) = e :: l.filter (e < ·) := by
  induction l with
  | nil => simp at he
  | cons a l ih =>
    obtain ⟨ha, hl⟩ := List.pairwise_cons.1 hl
    rcases List.mem_cons.1 he with rfl | he
    · have hfilter : l.filter (e ≤ ·) = l.filter (e < ·) :=
        filter_le_of_notMem fun h => lt_irrefl e (ha e h)
      rw [List.filter_cons_of_pos (by simp), List.filter_cons_of_neg (by simp), hfilter]
    · have hae := ha e he
      rw [List.filter_cons_of_neg (by simpa), List.filter_cons_of_neg (by simpa using hae.le),
        ih hl he]

theorem filter_ne_eq (hl : l.Pairwise (· < ·)) :
    l.filter (· ≠ e) = l.filter (· < e) ++ l.filter (e < ·) := by
  have h := filter_append_filter hl e
  conv_lhs => rw [← h, List.filter_append, List.filter_filter, List.filter_filter]
  congr 1
  · refine List.filter_congr fun a _ => ?_
    rcases lt_trichotomy a e with h | rfl | h
    · simp [h, h.ne]
    · simp
    · simp [h.not_gt]
  · refine List.filter_congr fun a _ => ?_
    rcases lt_trichotomy a e with h | rfl | h
    · simp [h.not_ge, h.not_gt]
    · simp
    · simp [h, h.le, h.ne']

theorem before_mem : before head l e ∈ head :: l :=
  List.cons_subset_cons head List.filter_sublist.subset List.getLastD_mem_cons

theorem before_lt (h : before head l e ∈ l) (hhead : head ∉ l) : before head l e < e := by
  have hmem : before head l e ∈ head :: l.filter (· < e) := List.getLastD_mem_cons
  rcases List.mem_cons.1 hmem with heq | hmem
  · exact absurd (heq ▸ h) hhead
  · simpa using (List.mem_filter.1 hmem).2

/-- One round of the walk to the last element below `e`. -/
def walk (next : α → α) (null e : α) (p : α) : α ⊕ α :=
  if next p ≠ null ∧ next p < e then .inl (next p) else .inr p

/-- The walk ends at the last element below `e`. -/
theorem iterate_walk {fuel : ℕ} (h : Linked next null head l) (hl : l.Pairwise (· < ·))
    (hnull : null ∉ l) (hfuel : (l.filter (· < e)).length < fuel) :
    Loop.iterate (walk next null e) fuel head = some (before head l e) := by
  obtain ⟨fuel, rfl⟩ : ∃ f, fuel = f + 1 := ⟨fuel - 1, by omega⟩
  induction l generalizing head fuel with
  | nil =>
    have hbody : walk next null e head = .inr head := if_neg fun hc => hc.1 h
    exact Loop.iterate_succ_inr hbody
  | cons a l ih =>
    obtain ⟨rfl, h⟩ := h
    obtain ⟨ha, hl⟩ := List.pairwise_cons.1 hl
    obtain ⟨hnull', hnull⟩ : null ≠ next head ∧ null ∉ l := by simpa using hnull
    by_cases hae : next head < e
    · have hbody : walk next null e head = .inl (next head) := if_pos ⟨hnull'.symm, hae⟩
      rw [List.filter_cons_of_pos (by simpa)] at hfuel
      obtain ⟨fuel, rfl⟩ : ∃ f, fuel = f + 1 := ⟨fuel - 1, by simp at hfuel; omega⟩
      rw [Loop.iterate_succ_inl hbody, ih h hl hnull fuel (by simpa using hfuel), before, before,
        List.filter_cons_of_pos (by simpa), List.getLastD_cons]
    · have hbody : walk next null e head = .inr head := if_neg fun hc => hae hc.2
      have hbelow : (next head :: l).filter (· < e) = [] := by
        simp only [List.filter_eq_nil_iff, decide_eq_true_eq, not_lt]
        intro b hb
        rcases List.mem_cons.1 hb with rfl | hb
        · exact not_lt.1 hae
        · exact (not_lt.1 hae).trans (ha b hb).le
      rw [Loop.iterate_succ_inr hbody, before, hbelow]
      rfl

/-- The walk can as well start at any element below `e`. -/
theorem iterate_walk_of_mem {fuel : ℕ} {p : α} (h : Linked next null head l)
    (hl : l.Pairwise (· < ·)) (hnull : null ∉ l) (hp : p ∈ head :: l.filter (· < e))
    (hfuel : (l.filter (· < e)).length < fuel) :
    Loop.iterate (walk next null e) fuel p = some (before head l e) := by
  rcases List.mem_cons.1 hp with rfl | hp
  · exact iterate_walk h hl hnull hfuel
  · obtain ⟨hmem, hpe⟩ := List.mem_filter.1 hp
    obtain ⟨l₁, l₂, rfl⟩ := List.append_of_mem hmem
    rw [List.append_cons] at h hl hnull hfuel ⊢
    obtain ⟨hl₁, hl₂, -⟩ := List.pairwise_append.1 hl
    have hbelow : (l₁ ++ [p]).filter (· < e) = l₁ ++ [p] := by
      refine List.filter_eq_self.2 fun a ha => ?_
      rcases List.mem_append.1 ha with ha | ha
      · have hap := (List.pairwise_append.1 hl₁).2.2 a ha p (List.mem_singleton.2 rfl)
        exact decide_eq_true (hap.trans (of_decide_eq_true hpe))
      · exact (List.mem_singleton.1 ha).symm ▸ hpe
    have hlast : (l₁ ++ [p]).getLastD head = p := getLastD_append l₁ [p] head
    have hrest := h.drop
    rw [hlast] at hrest
    rw [List.filter_append, hbelow, List.length_append] at hfuel
    rw [iterate_walk hrest hl₂ (fun hn => hnull (List.mem_append_right _ hn)) (by omega), before,
      before, List.filter_append, hbelow, getLastD_append, hlast]

theorem Linked.next_before (h : Linked next null head l) (hl : l.Pairwise (· < ·)) (e : α) :
    next (before head l e) = (l.filter (e ≤ ·)).headD null := by
  rw [← filter_append_filter hl e] at h
  exact h.drop.next_eq

end Sorted

/-! ### Skip lists -/

section SkipList

/-- The elements of `l` at level `i`. -/
def level (height : α → ℕ) (i : ℕ) (l : List α) : List α := l.filter (i < height ·)

theorem mem_level {height : α → ℕ} {i : ℕ} {l : List α} {a : α} :
    a ∈ level height i l ↔ a ∈ l ∧ i < height a := by
  simp [level]

variable [LinearOrder α]

/-- At every level below `cap` the pointers `next` lead from `head` through the elements of `l`
that are at least that high; `levels` is the greatest height. -/
structure Represents (cap : ℕ) (next : ℕ → α → α) (null head : α) (height : α → ℕ) (levels : ℕ)
    (l : List α) : Prop where
  sorted : l.Pairwise (· < ·)
  null_notMem : null ∉ l
  head_notMem : head ∉ l
  height_pos : ∀ a ∈ l, 0 < height a
  height_le : ∀ a ∈ l, height a ≤ levels
  levels_le : levels ≤ cap
  levels_eq : levels = 0 ∨ ∃ a ∈ l, height a = levels
  linked : ∀ i < cap, Linked (next i) null head (level height i l)

variable {cap levels levels' : ℕ} {next next' : ℕ → α → α} {null head e : α}
  {height height' : α → ℕ} {l : List α}

theorem level_insertAt {i : ℕ} (hi : i < height e) :
    level height i (insertAt e l) = insertAt e (level height i l) := by
  simp only [level, insertAt, List.filter_append, List.filter_filter, Bool.and_comm,
    List.filter_cons_of_pos (p := fun a => decide (i < height a)) (decide_eq_true hi)]

theorem Represents.congr (R : Represents cap next null head height levels l)
    (hheight : ∀ a ∈ l, height' a = height a)
    (hnext : ∀ i < cap, ∀ p ∈ head :: level height i l, next' i p = next i p) :
    Represents cap next' null head height' levels l where
  sorted := R.sorted
  null_notMem := R.null_notMem
  head_notMem := R.head_notMem
  height_pos := fun a ha => hheight a ha ▸ R.height_pos a ha
  height_le := fun a ha => hheight a ha ▸ R.height_le a ha
  levels_le := R.levels_le
  levels_eq := R.levels_eq.imp_right fun ⟨a, ha, h⟩ => ⟨a, ha, (hheight a ha).trans h⟩
  linked := fun i hi => by
    have hlevel : level height' i l = level height i l :=
      List.filter_congr fun a ha => by rw [hheight a ha]
    rw [hlevel]
    exact (R.linked i hi).congr (hnext i hi)

namespace Represents

variable (R : Represents cap next null head height levels l)
include R

theorem sorted_level (i : ℕ) : (level height i l).Pairwise (· < ·) := R.sorted.filter _

theorem null_notMem_level (i : ℕ) : null ∉ level height i l := fun h =>
  R.null_notMem (mem_level.1 h).1

theorem head_notMem_level (i : ℕ) : head ∉ level height i l := fun h =>
  R.head_notMem (mem_level.1 h).1

theorem level_zero : level height 0 l = l :=
  List.filter_eq_self.2 fun a ha => decide_eq_true (R.height_pos a ha)

/-- The list is empty exactly if there are no levels. -/
theorem levels_eq_zero_iff : levels = 0 ↔ l = [] := by
  constructor
  · intro h
    refine List.eq_nil_iff_forall_not_mem.2 fun a ha => ?_
    have hpos := R.height_pos a ha
    have hle := R.height_le a ha
    omega
  · rintro rfl
    simpa using R.levels_eq

theorem level_of_le {i : ℕ} (hi : levels ≤ i) : level height i l = [] := by
  refine List.eq_nil_iff_forall_not_mem.2 fun a ha => ?_
  obtain ⟨hmem, hia⟩ := mem_level.1 ha
  have hle := R.height_le a hmem
  omega

theorem nodup_head_filter (i : ℕ) (p : α → Bool) :
    (head :: (level height i l).filter p).Nodup := by
  refine List.nodup_cons.2 ⟨fun h => R.head_notMem_level i (List.mem_filter.1 h).1, ?_⟩
  exact ((R.sorted_level i).filter p).imp ne_of_lt

theorem ne_before {i : ℕ} {p : α} (hp : p ∈ (level height i l).filter (e < ·)) :
    p ≠ before head (level height i l) e := by
  obtain ⟨hmem, hep⟩ := List.mem_filter.1 hp
  rintro rfl
  exact lt_asymm (before_lt hmem (R.head_notMem_level i)) (of_decide_eq_true hep)

/-- **Insertion**: at every level of `e`, the pointer before `e` leads to `e` and that of `e` leads
where the former did. -/
theorem insert (he : e ∉ l) (hnull : e ≠ null) (hhead : e ≠ head) (hpos : 0 < height e)
    (hcap : height e ≤ cap)
    (hlast : ∀ i < height e, next' i (before head (level height i l) e) = e)
    (hnew : ∀ i < height e, next' i e = next i (before head (level height i l) e))
    (hrest : ∀ i < cap, ∀ p ∈ head :: level height i l,
      height e ≤ i ∨ p ≠ before head (level height i l) e → next' i p = next i p) :
    Represents cap next' null head height (max levels (height e)) (insertAt e l) where
  sorted := sorted_insertAt R.sorted
  null_notMem := by
    rw [mem_insertAt]
    rintro (h | ⟨h, -⟩)
    · exact hnull h.symm
    · exact R.null_notMem h
  head_notMem := by
    rw [mem_insertAt]
    rintro (h | ⟨h, -⟩)
    · exact hhead h.symm
    · exact R.head_notMem h
  height_pos := by
    intro a ha
    rcases mem_insertAt.1 ha with rfl | ⟨ha, -⟩
    · exact hpos
    · exact R.height_pos a ha
  height_le := by
    intro a ha
    rcases mem_insertAt.1 ha with rfl | ⟨ha, -⟩
    · exact le_max_right _ _
    · exact (R.height_le a ha).trans (le_max_left _ _)
  levels_le := max_le R.levels_le hcap
  levels_eq := by
    refine .inr ?_
    rcases le_total levels (height e) with h | h
    · exact ⟨e, mem_insertAt.2 (.inl rfl), (max_eq_right h).symm⟩
    · rcases R.levels_eq with h0 | ⟨a, ha, haeq⟩
      · omega
      · exact ⟨a, mem_insertAt.2 (.inr ⟨ha, fun h => he (h ▸ ha)⟩), by rw [haeq, max_eq_left h]⟩
  linked := by
    intro i hi
    have hsplit := filter_append_filter (R.sorted_level i) e
    rw [filter_le_of_notMem fun h => he (mem_level.1 h).1] at hsplit
    rcases lt_or_ge i (height e) with hie | hie
    · rw [level_insertAt hie]
      have hlinked := R.linked i hi
      rw [← hsplit] at hlinked
      refine hlinked.insert (R.nodup_head_filter i _) (hlast i hie) (hnew i hie) ?_ ?_
      · intro p hp hne
        exact hrest i hi p (List.cons_subset_cons head List.filter_sublist.subset hp) (.inr hne)
      · intro p hp
        refine hrest i hi p (List.mem_cons_of_mem head (List.mem_filter.1 hp).1) (.inr ?_)
        exact R.ne_before hp
    · have hlevel : level height i (insertAt e l) = level height i l := by
        rw [level, insertAt, List.filter_append,
          List.filter_cons_of_neg (by simpa using hie), ← List.filter_append,
          ← filter_le_of_notMem he, filter_append_filter R.sorted]
        rfl
      rw [hlevel]
      exact (R.linked i hi).congr fun p hp => hrest i hi p hp (.inl hie)

/-- **Removal**: at every level of `e`, the pointer before `e` leads where that of `e` did, and the
empty levels at the top are given up. -/
theorem erase (he : e ∈ l)
    (hlast : ∀ i < height e, next' i (before head (level height i l) e) = next i e)
    (hrest : ∀ i < cap, ∀ p ∈ head :: level height i l, p ≠ e →
      height e ≤ i ∨ p ≠ before head (level height i l) e → next' i p = next i p)
    (hlevels : levels' ≤ levels) (htop : levels' = 0 ∨ next' (levels' - 1) head ≠ null)
    (hempty : ∀ i, levels' ≤ i → i < levels → next' i head = null) :
    Represents cap next' null head height levels' (l.filter (· ≠ e)) := by
  have hne : e ≠ head := fun h => R.head_notMem (h ▸ he)
  have hlinked : ∀ i < cap, Linked (next' i) null head (level height i (l.filter (· ≠ e))) := by
    intro i hi
    have hcomm : level height i (l.filter (· ≠ e)) = (level height i l).filter (· ≠ e) := by
      rw [level, level, List.filter_filter, List.filter_filter]
      exact List.filter_congr fun a _ => Bool.and_comm _ _
    have hsplit := filter_append_filter (R.sorted_level i) e
    have hlinked := R.linked i hi
    rw [hcomm, filter_ne_eq (R.sorted_level i)]
    rcases lt_or_ge i (height e) with hie | hie
    · rw [filter_le_of_mem (R.sorted_level i) (mem_level.2 ⟨he, hie⟩)] at hsplit
      rw [← hsplit] at hlinked
      refine hlinked.erase (R.nodup_head_filter i _) (hlast i hie) ?_ ?_
      · intro p hp hpne
        have hpl := List.cons_subset_cons head List.filter_sublist.subset hp
        refine hrest i hi p hpl ?_ (.inr hpne)
        rcases List.mem_cons.1 hp with rfl | hp
        · exact hne.symm
        · exact ne_of_lt (of_decide_eq_true (List.mem_filter.1 hp).2)
      · intro p hp
        obtain ⟨hmem, hep⟩ := List.mem_filter.1 hp
        exact hrest i hi p (List.mem_cons_of_mem head hmem) (of_decide_eq_true hep).ne'
          (.inr (R.ne_before hp))
    · have hnot : e ∉ level height i l := fun h => by
        have := (mem_level.1 h).2
        omega
      rw [filter_le_of_notMem hnot] at hsplit
      rw [hsplit]
      refine hlinked.congr fun p hp => hrest i hi p hp ?_ (.inl hie)
      rintro rfl
      rcases List.mem_cons.1 hp with h | h
      · exact hne h
      · exact hnot h
  have hmem_level {i : ℕ} {a : α} (ha : a ∈ l.filter (· ≠ e)) (hi : i < height a) :
      next' i head ≠ null := by
    have hia : i < cap := hi.trans_le
      ((R.height_le a (List.mem_filter.1 ha).1).trans R.levels_le)
    have hin : a ∈ level height i (l.filter (· ≠ e)) := mem_level.2 ⟨ha, hi⟩
    exact (hlinked i hia).next_ne (fun h => R.null_notMem (List.mem_filter.1 (mem_level.1 h).1).1)
      hin
  have hheight_le : ∀ a ∈ l.filter (· ≠ e), height a ≤ levels' := by
    intro a ha
    by_contra hlt
    have hle := R.height_le a (List.mem_filter.1 ha).1
    have hpos := R.height_pos a (List.mem_filter.1 ha).1
    exact hmem_level ha (i := height a - 1) (by omega) (hempty _ (by omega) (by omega))
  exact
    { sorted := R.sorted.filter _
      null_notMem := fun h => R.null_notMem (List.mem_filter.1 h).1
      head_notMem := fun h => R.head_notMem (List.mem_filter.1 h).1
      height_pos := fun a ha => R.height_pos a (List.mem_filter.1 ha).1
      height_le := hheight_le
      levels_le := hlevels.trans R.levels_le
      levels_eq := by
        rcases htop with h0 | htop
        · exact .inl h0
        rcases Nat.eq_zero_or_pos levels' with h0 | hpos
        · exact .inl h0
        have hcap := R.levels_le
        obtain ⟨a, ha⟩ : ∃ a, a ∈ level height (levels' - 1) (l.filter (· ≠ e)) := by
          refine List.exists_mem_of_ne_nil _ fun hnil => htop ?_
          have hnext := (hlinked (levels' - 1) (by omega)).next_eq
          rwa [hnil] at hnext
        obtain ⟨hmem, hia⟩ := mem_level.1 ha
        have hle := hheight_le a hmem
        exact .inr ⟨a, hmem, by omega⟩
      linked := hlinked }

end Represents

/-- The levels that are left when the empty ones at the top are given up. -/
def trim (next : ℕ → α → α) (null head : α) : ℕ → ℕ
  | 0 => 0
  | i + 1 => if next i head = null then trim next null head i else i + 1

theorem trim_le (n : ℕ) : trim next null head n ≤ n := by
  induction n with
  | zero => exact le_rfl
  | succ n ih =>
    rw [trim]
    split_ifs
    · exact ih.trans (Nat.le_succ n)
    · exact le_rfl

theorem next_of_trim_le {n i : ℕ} (hi : trim next null head n ≤ i) (hin : i < n) :
    next i head = null := by
  induction n with
  | zero => omega
  | succ n ih =>
    rw [trim] at hi
    split_ifs at hi with h
    · rcases Nat.lt_succ_iff_lt_or_eq.1 hin with hlt | rfl
      · exact ih hi hlt
      · exact h
    · omega

theorem trim_eq_zero_or (n : ℕ) :
    trim next null head n = 0 ∨ next (trim next null head n - 1) head ≠ null := by
  induction n with
  | zero => exact .inl rfl
  | succ n ih =>
    rw [trim]
    split_ifs with h
    · exact ih
    · exact .inr h

end SkipList

end SkipList

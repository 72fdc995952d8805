import BugInsight.SkipList
import BugInsight.LowLevelAlloc.Levels

/-!
# The free list of an arena

The free blocks of an arena are a skip list in address order.  Its pointers lie in the blocks
themselves, so memory is a function from addresses to words and every field has its address.

* `LLA_SkiplistSearch`, `LLA_SkiplistInsert`, `LLA_SkiplistDelete`: the operations, with the loops
  of the source; `none` stands for a failed assertion or a walk that does not end;
* `Freelist m head l`: memory holds the skip list of the blocks `l`, and the fields of its blocks do
  not overlap (`Layout`);
* `Freelist.search_spec`, `Freelist.insert_spec`, `Freelist.delete_spec`: what they do to `l`, and
  that they write nothing but pointers of the list.
-/

namespace BugInsight.LowLevelAlloc

open SkipList

/-- The words of memory by their addresses. -/
abbrev Memory := ℕ → ℕ

/-! ### The fields of a block at `p` -/

namespace AllocList

def size (p : ℕ) : ℕ := p

def magic (p : ℕ) : ℕ := p + 8

def arena (p : ℕ) : ℕ := p + 16

def levels (p : ℕ) : ℕ := p + sizeofHeader

def next (p i : ℕ) : ℕ := p + offsetofNext + sizeofPointer * i

end AllocList

open AllocList

/-! ### The operations -/

/-- The loops of `LLA_SkiplistSearch` over the levels below `n`, from the block `p`. -/
def searchLevels (m : Memory) (e : ℕ) : ℕ → ℕ → (ℕ → ℕ) → Option (ℕ → ℕ)
  | 0, _, prev => some prev
  | level + 1, p, prev => do
      let p ← Loop.iterate (walk (fun p => m (next p level)) 0 e) (e + 1) p
      searchLevels m e level p (Function.update prev level p)

/-- The first element that is not below `e`, and the last element below `e` at every level. -/
def LLA_SkiplistSearch (m : Memory) (head e : ℕ) (prev : ℕ → ℕ) : Option (ℕ × (ℕ → ℕ)) := do
  let prev ← searchLevels m e (m (levels head)) head prev
  return (if m (levels head) = 0 then 0 else m (next (prev 0) 0), prev)

/-- `n` rounds of `for(; head->levels < e->levels; head->levels++) prev[head->levels]=head`. -/
def extendLevels (head : ℕ) : ℕ → Memory → (ℕ → ℕ) → Memory × (ℕ → ℕ)
  | 0, m, prev => (m, prev)
  | n + 1, m, prev =>
      extendLevels head n (Function.update m (levels head) (m (levels head) + 1))
        (Function.update prev (m (levels head)) head)

/-- The first `n` rounds of the loop that adds `e` to the list. -/
def splice (m : Memory) (prev : ℕ → ℕ) (e : ℕ) : ℕ → Memory
  | 0 => m
  | i + 1 =>
      let m := splice m prev e i
      let m := Function.update m (next e i) (m (next (prev i) i))
      Function.update m (next (prev i) i) e

def LLA_SkiplistInsert (m : Memory) (head e : ℕ) (prev : ℕ → ℕ) : Option (Memory × (ℕ → ℕ)) := do
  let (_, prev) ← LLA_SkiplistSearch m head e prev
  let (m, prev) := extendLevels head (m (levels e) - m (levels head)) m prev
  return (splice m prev e (m (levels e)), prev)

/-- At most `n` rounds, from level `i`, of the loop that takes `e` off the list. -/
def unlink (prev : ℕ → ℕ) (e : ℕ) : ℕ → ℕ → Memory → Memory
  | 0, _, m => m
  | n + 1, i, m =>
      if m (next (prev i) i) = e then
        unlink prev e n (i + 1) (Function.update m (next (prev i) i) (m (next e i)))
      else m

def LLA_SkiplistDelete (m : Memory) (head e : ℕ) (prev : ℕ → ℕ) : Option (Memory × (ℕ → ℕ)) := do
  let (found, prev) ← LLA_SkiplistSearch m head e prev
  if found = e then
    let m := unlink prev e (m (levels e)) 0 m
    let top := trim (fun i p => m (next p i)) 0 head (m (levels head))
    return (Function.update m (levels head) top, prev)
  else none

/-! ### The invariant -/

/-- The pointers that the block `p` has room for. -/
def room (m : Memory) (head p : ℕ) : ℕ := if p = head then kMaxLevel else m (levels p)

/-- The fields of distinct blocks do not overlap. -/
def Layout (m : Memory) (head : ℕ) (l : List ℕ) : Prop :=
  ∀ p ∈ head :: l, ∀ q ∈ head :: l, p ≠ q →
    next p (room m head p) ≤ q ∨ next q (room m head q) ≤ p

/-- Memory holds the skip list of `l`. -/
structure Freelist (m : Memory) (head : ℕ) (l : List ℕ) : Prop where
  layout : Layout m head l
  represents : Represents kMaxLevel (fun i p => m (next p i)) 0 head (fun p => m (levels p))
    (m (levels head)) l

/-- The address of a pointer of one of the blocks. -/
def InLinks (m : Memory) (head : ℕ) (l : List ℕ) (x : ℕ) : Prop :=
  x = levels head ∨ ∃ p ∈ head :: l, ∃ i < room m head p, x = next p i

section Layout

variable {m : Memory} {head p q i j : ℕ} {l : List ℕ}

theorem room_head : room m head head = kMaxLevel := if_pos rfl

theorem room_of_ne (h : p ≠ head) : room m head p = m (levels p) := if_neg h

theorem Layout.mono {l' : List ℕ} (hl : l' ⊆ l) (h : Layout m head l) : Layout m head l' :=
  fun p hp q hq => h p (List.cons_subset_cons head hl hp) q (List.cons_subset_cons head hl hq)

theorem Layout.congr {m' : Memory} (hlevels : ∀ p ∈ l, p ≠ head → m' (levels p) = m (levels p))
    (h : Layout m head l) : Layout m' head l := by
  have hroom : ∀ p ∈ head :: l, room m' head p = room m head p := by
    intro p hp
    by_cases hph : p = head
    · rw [hph, room_head, room_head]
    · rw [room_of_ne hph, room_of_ne hph]
      exact hlevels p ((List.mem_cons.1 hp).resolve_left hph) hph
  intro p hp q hq hpq
  rw [hroom p hp, hroom q hq]
  exact h p hp q hq hpq

theorem InLinks.mono {l' : List ℕ} {x : ℕ} (hl : l ⊆ l') (h : InLinks m head l x) :
    InLinks m head l' x :=
  h.imp_right fun ⟨p, hp, hi⟩ => ⟨p, List.cons_subset_cons head hl hp, hi⟩

variable (h : Layout m head l) (hp : p ∈ head :: l) (hq : q ∈ head :: l)
include h hp hq

theorem Layout.next_inj (hi : i < room m head p) (hj : j < room m head q)
    (heq : next p i = next q j) : p = q ∧ i = j := by
  by_cases hpq : p = q
  · subst hpq
    simp only [next, sizeofPointer] at heq
    exact ⟨rfl, by omega⟩
  · have hapart := h p hp q hq hpq
    simp only [next, offsetofNext, sizeofPointer] at hapart heq
    omega

theorem Layout.next_ne_levels (hi : i < room m head p) : next p i ≠ levels q := by
  intro heq
  by_cases hpq : p = q
  · subst hpq
    simp only [next, levels, offsetofNext, sizeofPointer, sizeofHeader] at heq
    omega
  · have hapart := h p hp q hq hpq
    simp only [next, levels, offsetofNext, sizeofPointer, sizeofHeader] at hapart heq
    omega

end Layout

/-! ### The loops -/

section Loops

variable {m : Memory} {head e n : ℕ} {prev : ℕ → ℕ} {l : List ℕ}

theorem splice_of_ne {x : ℕ} (hx : ∀ i < n, x ≠ next (prev i) i ∧ x ≠ next e i) :
    splice m prev e n x = m x := by
  induction n with
  | zero => rfl
  | succ n ih =>
    obtain ⟨hprev, he⟩ := hx n (Nat.lt_succ_self n)
    rw [splice, Function.update_of_ne hprev, Function.update_of_ne he,
      ih fun i hi => hx i (Nat.lt_succ_of_lt hi)]

/-- At each of the first `n` levels, the pointer before `e` leads to `e` and that of `e` leads where
the former did. -/
theorem splice_eq (hprev : ∀ i < n, ∀ j < n, next (prev i) i = next (prev j) j → i = j)
    (he : ∀ i < n, ∀ j < n, next (prev i) i ≠ next e j) {i : ℕ} (hi : i < n) :
    splice m prev e n (next (prev i) i) = e ∧
      splice m prev e n (next e i) = m (next (prev i) i) := by
  induction n with
  | zero => omega
  | succ n ih =>
    have hn : n < n + 1 := Nat.lt_succ_self n
    have hne_e : ∀ i < n, next e i ≠ next e n := fun i hi heq => by
      simp only [next, sizeofPointer] at heq
      omega
    rw [splice]
    rcases Nat.lt_succ_iff_lt_or_eq.1 hi with hlt | rfl
    · obtain ⟨h₁, h₂⟩ := ih (fun i hi j hj => hprev i (hi.trans hn) j (hj.trans hn))
        (fun i hi j hj => he i (hi.trans hn) j (hj.trans hn)) hlt
      have hne : next (prev i) i ≠ next (prev n) n := fun heq => by
        have := hprev i hi n hn heq
        omega
      rw [Function.update_of_ne hne, Function.update_of_ne (he i hi n hn),
        Function.update_of_ne (he n hn i hi).symm, Function.update_of_ne (hne_e i hlt)]
      exact ⟨h₁, h₂⟩
    · refine ⟨Function.update_self _ _ _, ?_⟩
      rw [Function.update_of_ne (he i hn i hn).symm, Function.update_self]
      refine splice_of_ne fun j hj => ⟨fun heq => ?_, he i hn j (hj.trans hn)⟩
      have := hprev i hn j (hj.trans hn) heq
      omega

theorem splice_congr {prev' : ℕ → ℕ} (h : ∀ i < n, prev i = prev' i) :
    splice m prev e n = splice m prev' e n := by
  induction n with
  | zero => rfl
  | succ n ih =>
    rw [splice, splice, ih fun i hi => h i (Nat.lt_succ_of_lt hi), h n (Nat.lt_succ_self n)]

theorem unlink_of_ne {x i : ℕ} (hx : ∀ j, i ≤ j → j < i + n → x ≠ next (prev j) j) :
    unlink prev e n i m x = m x := by
  induction n generalizing i m with
  | zero => rfl
  | succ n ih =>
    rw [unlink]
    split_ifs
    · rw [ih fun j hij hj => hx j (by omega) (by omega),
        Function.update_of_ne (hx i le_rfl (by omega))]
    · rfl

/-- At the levels from `i` on, the pointer before `e` leads where that of `e` did. -/
theorem unlink_eq {i : ℕ} (hm : ∀ j, i ≤ j → j < i + n → m (next (prev j) j) = e)
    (hprev : ∀ j < i + n, ∀ k < i + n, next (prev j) j = next (prev k) k → j = k)
    (he : ∀ j < i + n, ∀ k < i + n, next (prev j) j ≠ next e k) {j : ℕ} (hij : i ≤ j)
    (hj : j < i + n) : unlink prev e n i m (next (prev j) j) = m (next e j) := by
  induction n generalizing i m with
  | zero => omega
  | succ n ih =>
    rw [unlink, if_pos (hm i le_rfl (by omega))]
    rcases Nat.eq_or_lt_of_le hij with rfl | hlt
    · rw [unlink_of_ne, Function.update_self]
      intro k hik hk heq
      have := hprev i (by omega) k (by omega) heq
      omega
    · rw [ih ?_ (fun j hj k hk => hprev j (by omega) k (by omega))
        (fun j hj k hk => he j (by omega) k (by omega)) hlt (by omega),
        Function.update_of_ne (he i (by omega) j (by omega)).symm]
      intro k hik hk
      rw [Function.update_of_ne, hm k (by omega) (by omega)]
      intro heq
      have := hprev k (by omega) i (by omega) heq
      omega

theorem unlink_congr {prev' : ℕ → ℕ} {i : ℕ} (h : ∀ j < i + n, prev j = prev' j) :
    unlink prev e n i m = unlink prev' e n i m := by
  induction n generalizing i m with
  | zero => rfl
  | succ n ih =>
    rw [unlink, unlink, h i (by omega)]
    split_ifs
    · exact ih fun j hj => h j (by omega)
    · rfl

theorem extendLevels_eq (head n : ℕ) (m : Memory) (prev : ℕ → ℕ) :
    (extendLevels head n m prev).1 = Function.update m (levels head) (m (levels head) + n) ∧
      ∀ i, (extendLevels head n m prev).2 i
        = if m (levels head) ≤ i ∧ i < m (levels head) + n then head else prev i := by
  induction n generalizing m prev with
  | zero =>
    refine ⟨(Function.update_eq_self _ m).symm, fun i => ?_⟩
    rw [if_neg (by omega)]
    rfl
  | succ n ih =>
    rw [extendLevels]
    obtain ⟨h₁, h₂⟩ := ih (Function.update m (levels head) (m (levels head) + 1))
      (Function.update prev (m (levels head)) head)
    rw [Function.update_self] at h₁ h₂
    refine ⟨?_, fun i => ?_⟩
    · rw [h₁, Function.update_idem, add_assoc, add_comm 1 n]
    · rw [h₂]
      by_cases hi : i = m (levels head)
      · rw [if_neg (by omega), if_pos (by omega), hi, Function.update_self]
      · rw [Function.update_of_ne hi]
        exact if_congr (by omega) rfl rfl

end Loops

/-! ### What the operations do -/

/-- The last block below `e` that takes part in level `i`, or the head. -/
def pred (m : Memory) (head : ℕ) (l : List ℕ) (e i : ℕ) : ℕ :=
  before head (level (fun p => m (levels p)) i l) e

/-- Fewer than `e` blocks lie below the address `e`. -/
theorem length_filter_lt {l : List ℕ} (hl : l.Pairwise (· < ·)) (e : ℕ) :
    (l.filter (· < e)).length < e + 1 := by
  have hnodup : (l.filter (· < e)).Nodup := (hl.filter _).imp ne_of_lt
  have hsub : l.filter (· < e) ⊆ List.range e := fun a ha => by
    simpa using (List.mem_filter.1 ha).2
  have hle := (List.subperm_of_subset hnodup hsub).length_le
  rw [List.length_range] at hle
  omega

theorem pred_mem (m : Memory) (head : ℕ) (l : List ℕ) (e i : ℕ) : pred m head l e i ∈ head :: l :=
  List.cons_subset_cons head List.filter_sublist.subset before_mem

theorem pred_ne {m : Memory} {head e : ℕ} {l : List ℕ} (he : e ≠ head) (i : ℕ) :
    pred m head l e i ≠ e := by
  intro heq
  have hmem : pred m head l e i ∈
      head :: (level (fun p => m (levels p)) i l).filter (· < e) := List.getLastD_mem_cons
  rw [heq] at hmem
  rcases List.mem_cons.1 hmem with h | h
  · exact he h
  · exact lt_irrefl e (of_decide_eq_true (List.mem_filter.1 h).2)

theorem Layout.not_inLinks_levels {m : Memory} {head p : ℕ} {l : List ℕ} (h : Layout m head l)
    (hp : p ∈ l) (hne : p ≠ head) : ¬InLinks m head l (levels p) := by
  rintro (heq | ⟨q, hq, i, hi, heq⟩)
  · simp only [levels] at heq
    omega
  · exact h.next_ne_levels hq (List.mem_cons_of_mem head hp) hi heq.symm

namespace Freelist

variable {m : Memory} {head : ℕ} {l : List ℕ} (F : Freelist m head l)
include F

theorem lt_room {i p : ℕ} (hi : i < kMaxLevel)
    (hp : p ∈ head :: level (fun p => m (levels p)) i l) : i < room m head p := by
  rcases List.mem_cons.1 hp with rfl | hp
  · rwa [room_head]
  · obtain ⟨hmem, hlt⟩ := mem_level.1 hp
    have hne : p ≠ head := fun heq => F.represents.head_notMem (heq.symm ▸ hmem)
    rwa [room_of_ne hne]

theorem lt_room_pred {i : ℕ} (hi : i < kMaxLevel) (e : ℕ) : i < room m head (pred m head l e i) :=
  F.lt_room hi before_mem

/-- The pointers before `e` at distinct levels are distinct. -/
theorem next_pred_inj {e i j : ℕ} (hi : i < kMaxLevel) (hj : j < kMaxLevel)
    (heq : next (pred m head l e i) i = next (pred m head l e j) j) : i = j :=
  (F.layout.next_inj (pred_mem m head l e i) (pred_mem m head l e j) (F.lt_room_pred hi e)
    (F.lt_room_pred hj e) heq).2

theorem pred_of_le {e i : ℕ} (hi : m (levels head) ≤ i) : pred m head l e i = head := by
  rw [pred, F.represents.level_of_le hi]
  rfl

theorem searchLevels_eq {n : ℕ} (hn : n ≤ kMaxLevel) (e p : ℕ) (prev : ℕ → ℕ)
    (hp : n = 0 ∨ p ∈ head :: (level (fun p => m (levels p)) (n - 1) l).filter (· < e)) :
    ∃ prev', searchLevels m e n p prev = some prev' ∧ (∀ i < n, prev' i = pred m head l e i) ∧
      ∀ i, n ≤ i → prev' i = prev i := by
  induction n generalizing p prev with
  | zero => exact ⟨prev, rfl, fun i hi => by omega, fun _ _ => rfl⟩
  | succ n ih =>
    have hwalk := iterate_walk_of_mem (F.represents.linked n hn) (F.represents.sorted_level n)
      (F.represents.null_notMem_level n) (hp.resolve_left (Nat.succ_ne_zero n))
      (length_filter_lt (F.represents.sorted_level n) e)
    -- the block where the walk ends takes part in the levels below as well
    have hstart : n = 0 ∨ pred m head l e n ∈
        head :: (level (fun p => m (levels p)) (n - 1) l).filter (· < e) := by
      refine .inr (List.cons_subset_cons head (fun a ha => ?_) List.getLastD_mem_cons)
      obtain ⟨hmem, hlt⟩ := List.mem_filter.1 ha
      obtain ⟨hal, hna⟩ := mem_level.1 hmem
      exact List.mem_filter.2 ⟨mem_level.2 ⟨hal, by omega⟩, hlt⟩
    obtain ⟨prev', hsearch, hlt, hge⟩ := ih (by omega) (pred m head l e n)
      (Function.update prev n (pred m head l e n)) hstart
    refine ⟨prev', ?_, fun i hi => ?_, fun i hi => ?_⟩
    · rw [searchLevels, hwalk]
      exact hsearch
    · rcases Nat.lt_succ_iff_lt_or_eq.1 hi with hi | rfl
      · exact hlt i hi
      · rw [hge i le_rfl, Function.update_self]
    · rw [hge i (by omega), Function.update_of_ne (by omega)]

/-- **The search** finds the first block that is not below `e`, and at every level the last one
below `e`. -/
theorem search_spec (e : ℕ) (prev : ℕ → ℕ) :
    ∃ prev', LLA_SkiplistSearch m head e prev = some ((l.filter (e ≤ ·)).headD 0, prev') ∧
      ∀ i < m (levels head), prev' i = pred m head l e i := by
  obtain ⟨prev', hsearch, hlt, -⟩ := F.searchLevels_eq F.represents.levels_le e head prev
    (.inr List.mem_cons_self)
  refine ⟨prev', ?_, hlt⟩
  rw [LLA_SkiplistSearch, hsearch]
  by_cases h0 : m (levels head) = 0
  · rw [F.represents.levels_eq_zero_iff.1 h0]
    simp [h0]
  · have hnext := (F.represents.linked 0 (by decide)).next_before (F.represents.sorted_level 0) e
    rw [F.represents.level_zero] at hnext
    have hpred : prev' 0 = before head l e := by
      rw [hlt 0 (Nat.pos_of_ne_zero h0), pred, F.represents.level_zero]
    simp only [Option.bind_eq_bind, Option.bind_some, if_neg h0, hpred, hnext]
    rfl

section Insert

variable {e : ℕ}

theorem insert_eq (hhead : e ≠ head) (prev : ℕ → ℕ) :
    ∃ prev', LLA_SkiplistInsert m head e prev
        = some (splice (Function.update m (levels head) (max (m (levels head)) (m (levels e))))
            (pred m head l e) e (m (levels e)), prev') ∧
      ∀ i < m (levels e), prev' i = pred m head l e i := by
  obtain ⟨prev₁, hsearch, hprev₁⟩ := F.search_spec e prev
  obtain ⟨hm, hprev⟩ := extendLevels_eq head (m (levels e) - m (levels head)) m prev₁
  have hpred : ∀ i < m (levels e),
      (extendLevels head (m (levels e) - m (levels head)) m prev₁).2 i = pred m head l e i := by
    intro i hi
    rw [hprev]
    split_ifs with h
    · exact (F.pred_of_le h.1).symm
    · exact hprev₁ i (by omega)
  have hmax : m (levels head) + (m (levels e) - m (levels head))
      = max (m (levels head)) (m (levels e)) := by omega
  have hne : levels e ≠ levels head := by
    simp only [levels]
    omega
  refine ⟨_, ?_, hpred⟩
  simp only [LLA_SkiplistInsert, hsearch, Option.bind_eq_bind, Option.bind_some, Option.pure_def]
  rw [hm, hmax, Function.update_of_ne hne, splice_congr hpred]

variable (hhead : e ≠ head) (hlayout : Layout m head (e :: l)) (hmax : m (levels e) ≤ kMaxLevel)
include hhead hlayout hmax

theorem next_pred_ne {i j : ℕ} (hi : i < m (levels e)) (hj : j < m (levels e)) :
    next (pred m head l e i) i ≠ next e j := by
  intro heq
  refine pred_ne hhead i (hlayout.next_inj ?_ ?_ (F.lt_room_pred (hi.trans_le hmax) e) ?_ heq).1
  · exact List.cons_subset_cons head (List.subset_cons_self e l) (pred_mem m head l e i)
  · exact List.mem_cons_of_mem head List.mem_cons_self
  · rwa [room_of_ne hhead]

/-- What the loop that adds `e` does to the pointers of the other blocks. -/
theorem splice_next {i p : ℕ} (he : e ∉ l) (hi : i < kMaxLevel)
    (hp : p ∈ head :: level (fun p => m (levels p)) i l)
    (hor : m (levels e) ≤ i ∨ p ≠ pred m head l e i) (m₁ : Memory) :
    splice m₁ (pred m head l e) e (m (levels e)) (next p i) = m₁ (next p i) := by
  have hpl : p ∈ head :: l := List.cons_subset_cons head List.filter_sublist.subset hp
  refine splice_of_ne fun j hj => ⟨fun heq => ?_, fun heq => ?_⟩
  · obtain ⟨hpj, rfl⟩ := F.layout.next_inj hpl (pred_mem m head l e j) (F.lt_room hi hp)
      (F.lt_room_pred (hj.trans_le hmax) e) heq
    exact hor.elim (fun h => by omega) fun h => h hpj
  · have hpe := (hlayout.next_inj (List.cons_subset_cons head (List.subset_cons_self e l) hpl)
      (List.mem_cons_of_mem head List.mem_cons_self) (F.lt_room hi hp)
      (by rwa [room_of_ne hhead]) heq).1
    exact (List.mem_cons.1 hpl).elim (fun h => hhead (hpe.symm.trans h)) fun h => he (hpe ▸ h)

omit hlayout in
theorem splice_frame {x : ℕ} (hx : ¬InLinks m head (e :: l) x) (m₁ : Memory) :
    splice m₁ (pred m head l e) e (m (levels e)) x = m₁ x := by
  refine splice_of_ne fun i hi => ⟨fun heq => hx (.inr ?_), fun heq => hx (.inr ?_)⟩
  · exact ⟨_, List.cons_subset_cons head (List.subset_cons_self e l) (pred_mem m head l e i), i,
      F.lt_room_pred (hi.trans_le hmax) e, heq⟩
  · exact ⟨e, List.mem_cons_of_mem head List.mem_cons_self, i, by rwa [room_of_ne hhead], heq⟩

/-- **Insertion** of a block that has its number of levels: the list is in address order again, and
only pointers of the list have been written. -/
theorem insert_spec (he : e ∉ l) (h0 : e ≠ 0) (hpos : 0 < m (levels e)) (prev : ℕ → ℕ) :
    ∃ m' prev', LLA_SkiplistInsert m head e prev = some (m', prev') ∧
      Freelist m' head (insertAt e l) ∧ prev' 0 = before head l e ∧
      ∀ x, ¬InLinks m head (e :: l) x → m' x = m x := by
  obtain ⟨prev', hinsert, hprev'⟩ := F.insert_eq hhead prev
  set m₁ := Function.update m (levels head) (max (m (levels head)) (m (levels e))) with hm₁
  have hnext {i p : ℕ} (hp : p ∈ head :: e :: l) (hi : i < room m head p) :
      m₁ (next p i) = m (next p i) :=
    Function.update_of_ne (hlayout.next_ne_levels hp List.mem_cons_self hi) _ _
  have hcons : head :: l ⊆ head :: e :: l := List.cons_subset_cons head (List.subset_cons_self e l)
  have hsub : insertAt e l ⊆ e :: l := fun p hp =>
    List.mem_cons.2 ((mem_insertAt.1 hp).imp_right And.left)
  set m' := splice m₁ (pred m head l e) e (m (levels e)) with hm'
  have hinj : ∀ i < m (levels e), ∀ j < m (levels e),
      next (pred m head l e i) i = next (pred m head l e j) j → i = j :=
    fun i hi j hj => F.next_pred_inj (hi.trans_le hmax) (hj.trans_le hmax)
  have hne : ∀ i < m (levels e), ∀ j < m (levels e), next (pred m head l e i) i ≠ next e j :=
    fun i hi j hj => F.next_pred_ne hhead hlayout hmax hi hj
  have hframe : ∀ x, ¬InLinks m head (e :: l) x → m' x = m x := fun x hx => by
    rw [hm', F.splice_frame hhead hmax hx, hm₁, Function.update_of_ne fun h => hx (.inl h)]
  have hlevels : ∀ p ∈ insertAt e l, p ≠ head → m' (levels p) = m (levels p) := fun p hp hpne =>
    hframe _ (hlayout.not_inLinks_levels (hsub hp) hpne)
  have hlevels_head : m' (levels head) = max (m (levels head)) (m (levels e)) := by
    rw [hm', splice_of_ne fun i hi => ⟨?_, ?_⟩, hm₁, Function.update_self]
    · exact (F.layout.next_ne_levels (pred_mem m head l e i) List.mem_cons_self
        (F.lt_room_pred (hi.trans_le hmax) e)).symm
    · exact (hlayout.next_ne_levels (List.mem_cons_of_mem head List.mem_cons_self)
        List.mem_cons_self (by rwa [room_of_ne hhead])).symm
  have R : Represents kMaxLevel (fun i p => m' (next p i)) 0 head (fun p => m (levels p))
      (max (m (levels head)) (m (levels e))) (insertAt e l) :=
    F.represents.insert he h0 hhead hpos hmax
    (fun i hi => (splice_eq hinj hne hi).1)
    (fun i hi => (splice_eq hinj hne hi).2.trans
      (hnext (hcons (pred_mem m head l e i)) (F.lt_room_pred (hi.trans_le hmax) e)))
    (fun i hi p hp hor => (F.splice_next hhead hlayout hmax he hi hp hor m₁).trans
      (hnext (hcons (List.cons_subset_cons head List.filter_sublist.subset hp)) (F.lt_room hi hp)))
  refine ⟨m', prev', hinsert, ⟨(hlayout.mono hsub).congr hlevels, ?_⟩, ?_, hframe⟩
  · rw [hlevels_head]
    exact R.congr (fun p hp => hlevels p hp fun heq => R.head_notMem (heq.symm ▸ hp))
      fun i hi p hp => rfl
  · rw [hprev' 0 hpos, pred, F.represents.level_zero]

end Insert

section Delete

variable {e : ℕ} (he : e ∈ l)
include he

theorem layout_cons : Layout m head (e :: l) :=
  F.layout.mono (List.cons_subset.2 ⟨he, List.Subset.refl l⟩)

theorem ne_head : e ≠ head := fun h => F.represents.head_notMem (h ▸ he)

theorem levels_le : m (levels e) ≤ kMaxLevel :=
  (F.represents.height_le e he).trans F.represents.levels_le

/-- At every level of `e`, the pointer before `e` leads to `e`. -/
theorem next_pred {i : ℕ} (hi : i < m (levels e)) : m (next (pred m head l e i) i) = e := by
  have hlinked := F.represents.linked i (hi.trans_le (F.levels_le he))
  rw [pred, hlinked.next_before (F.represents.sorted_level i),
    filter_le_of_mem (F.represents.sorted_level i) (mem_level.2 ⟨he, hi⟩), List.headD_cons]

theorem unlink_next_pred {i : ℕ} (hi : i < m (levels e)) :
    unlink (pred m head l e) e (m (levels e)) 0 m (next (pred m head l e i) i) = m (next e i) := by
  have hmax := F.levels_le he
  refine unlink_eq (fun j _ hj => F.next_pred he (by omega)) (fun j hj k hk => ?_)
    (fun j hj k hk => ?_) (Nat.zero_le i) (by omega)
  · exact F.next_pred_inj (by omega) (by omega)
  · exact F.next_pred_ne (F.ne_head he) (F.layout_cons he) hmax (by omega) (by omega)

/-- What the loop that takes `e` off does to the other pointers. -/
theorem unlink_next {i p : ℕ} (hi : i < kMaxLevel)
    (hp : p ∈ head :: level (fun p => m (levels p)) i l)
    (hor : m (levels e) ≤ i ∨ p ≠ pred m head l e i) :
    unlink (pred m head l e) e (m (levels e)) 0 m (next p i) = m (next p i) := by
  have hpl : p ∈ head :: l := List.cons_subset_cons head List.filter_sublist.subset hp
  have hmax := F.levels_le he
  refine unlink_of_ne fun j _ hj heq => ?_
  obtain ⟨hpj, rfl⟩ := F.layout.next_inj hpl (pred_mem m head l e j) (F.lt_room hi hp)
    (F.lt_room_pred (by omega) e) heq
  exact hor.elim (fun h => by omega) fun h => h hpj

theorem delete_eq (prev : ℕ → ℕ) :
    ∃ prev', LLA_SkiplistDelete m head e prev
      = some (Function.update (unlink (pred m head l e) e (m (levels e)) 0 m) (levels head)
          (trim (fun i p => unlink (pred m head l e) e (m (levels e)) 0 m (next p i)) 0 head
            (m (levels head))), prev') := by
  obtain ⟨prev', hsearch, hprev'⟩ := F.search_spec e prev
  have hle := F.represents.height_le e he
  have hfound : (l.filter (e ≤ ·)).headD 0 = e := by
    rw [filter_le_of_mem F.represents.sorted he, List.headD_cons]
  have hhead : unlink (pred m head l e) e (m (levels e)) 0 m (levels head) = m (levels head) := by
    refine unlink_of_ne fun j _ hj => (F.layout.next_ne_levels (pred_mem m head l e j)
      List.mem_cons_self (F.lt_room_pred ?_ e)).symm
    have := F.represents.levels_le
    omega
  refine ⟨prev', ?_⟩
  simp only [LLA_SkiplistDelete, hsearch, Option.bind_eq_bind, Option.bind_some, hfound,
    if_true, Option.pure_def]
  rw [unlink_congr fun j hj => hprev' j (by omega), hhead]

/-- **Removal** of a block: only pointers of the list have been written. -/
theorem delete_spec (prev : ℕ → ℕ) :
    ∃ m' prev', LLA_SkiplistDelete m head e prev = some (m', prev') ∧
      Freelist m' head (l.filter (· ≠ e)) ∧ ∀ x, ¬InLinks m head l x → m' x = m x := by
  obtain ⟨prev', hdelete⟩ := F.delete_eq he prev
  have hmax := F.levels_le he
  set m₁ := unlink (pred m head l e) e (m (levels e)) 0 m with hm₁
  set top := trim (fun i p => m₁ (next p i)) 0 head (m (levels head)) with htop
  set m' := Function.update m₁ (levels head) top with hm'
  have hframe : ∀ x, ¬InLinks m head l x → m' x = m x := by
    intro x hx
    rw [hm', Function.update_of_ne fun h => hx (.inl h), hm₁, unlink_of_ne]
    intro j _ hj heq
    exact hx (.inr ⟨_, pred_mem m head l e j, j, F.lt_room_pred (by omega) e, heq⟩)
  have hnext {i p : ℕ} (hp : p ∈ head :: l) (hi : i < room m head p) :
      m' (next p i) = m₁ (next p i) :=
    Function.update_of_ne (F.layout.next_ne_levels hp List.mem_cons_self hi) _ _
  have hnext_head {i : ℕ} (hi : i < kMaxLevel) : m' (next head i) = m₁ (next head i) :=
    hnext List.mem_cons_self (by rwa [room_head])
  have hlevels : ∀ p ∈ l.filter (· ≠ e), p ≠ head → m' (levels p) = m (levels p) := fun p hp hpne =>
    hframe _ (F.layout.not_inLinks_levels (List.mem_filter.1 hp).1 hpne)
  have htop_le : top ≤ m (levels head) := trim_le _
  have hlevels_le := F.represents.levels_le
  have R : Represents kMaxLevel (fun i p => m' (next p i)) 0 head (fun p => m (levels p)) top
      (l.filter (· ≠ e)) := F.represents.erase he
    (fun i hi => (hnext (pred_mem m head l e i) (F.lt_room_pred (by omega) e)).trans
      (F.unlink_next_pred he hi))
    (fun i hi p hp _ hor =>
      (hnext (List.cons_subset_cons head List.filter_sublist.subset hp) (F.lt_room hi hp)).trans
        (F.unlink_next he hi hp hor))
    htop_le ?_ ?_
  · refine ⟨m', prev', hdelete, ⟨?_, ?_⟩, hframe⟩
    · exact (F.layout.mono List.filter_sublist.subset).congr hlevels
    · rw [show m' (levels head) = top from Function.update_self _ _ _]
      exact R.congr (fun p hp => hlevels p hp fun heq => R.head_notMem (heq.symm ▸ hp))
        fun i hi p hp => rfl
  · have htrim : top = 0 ∨ m₁ (next head (top - 1)) ≠ 0 := trim_eq_zero_or (m (levels head))
    rcases htrim with h | h
    · exact .inl h
    · rcases Nat.eq_zero_or_pos top with h0 | hpos
      · exact .inl h0
      · exact .inr fun h' => h ((hnext_head (by omega)).symm.trans h')
  · intro i hi hi'
    exact (hnext_head (by omega)).trans (next_of_trim_le hi hi')

end Delete

end Freelist

end BugInsight.LowLevelAlloc

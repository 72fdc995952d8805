import Mathlib.Tactic
import Mathlib.Logic.Relation

/-!
# Searches and topological orders

A relation `E` on `V` and a rank function on `V`, independent of how either is stored.

* `Search` is the invariant of a work-list search from `start`: at its end the vertices done are
  those that can be reached (`Search.done_iff`);
* `Frames` relates the stack of a depth-first search with markers to its way down;
* `Increasing` says that ranks increase along edges, so that there is no cycle
  (`Increasing.acyclic`);
* `Affected` describes the vertices that the Pearce-Kelly algorithm reorders for a new edge
  `x → y`, `Reordered` the new ranks; `Affected.increasing` says that these admit the new edge.
-/

open Relation

namespace TopoOrder

variable {V : Type*}

/-! ### Searches -/

/-- A search from `start`: the vertices of `todo` are still to be looked at. -/
structure Search (E : V → V → Prop) (start : V) (done todo : Set V) : Prop where
  start_mem : start ∈ done ∪ todo
  reach : ∀ v ∈ done ∪ todo, ReflTransGen E start v
  closed : ∀ v ∈ done, ∀ w, E v w → w ∈ done ∪ todo

namespace Search

variable {E : V → V → Prop} {start v : V} {done todo : Set V}

theorem init (E : V → V → Prop) (start : V) : Search E start ∅ {start} where
  start_mem := Or.inr rfl
  reach := by
    rintro v (hv | rfl)
    · cases hv
    · exact ReflTransGen.refl
  closed := fun v hv => by cases hv

/-- A vertex that is done already is dropped. -/
theorem drop (h : Search E start done (insert v todo)) (hv : v ∈ done) :
    Search E start done todo := by
  have hsub : ∀ w, w ∈ done ∪ insert v todo → w ∈ done ∪ todo := by
    rintro w (hw | rfl | hw)
    · exact Or.inl hw
    · exact Or.inl hv
    · exact Or.inr hw
  exact ⟨hsub _ h.start_mem, fun w hw => h.reach w (hw.imp id Or.inr),
    fun u hu w huw => hsub _ (h.closed u hu w huw)⟩

/-- A vertex is done once its successors are done or still to be looked at. -/
theorem visit (h : Search E start done (insert v todo)) {todo' : Set V}
    (hkeep : ∀ w ∈ todo, w ∈ todo') (hnew : ∀ w ∈ todo', w ∈ todo ∨ E v w)
    (hsucc : ∀ w, E v w → w ∈ insert v done ∪ todo') :
    Search E start (insert v done) todo' := by
  have hsub : ∀ w, w ∈ done ∪ insert v todo → w ∈ insert v done ∪ todo' := by
    rintro w (hw | rfl | hw)
    · exact Or.inl (Or.inr hw)
    · exact Or.inl (Or.inl rfl)
    · exact Or.inr (hkeep w hw)
  refine ⟨hsub _ h.start_mem, ?_, ?_⟩
  · rintro w ((rfl | hw) | hw)
    · exact h.reach w (Or.inr (Or.inl rfl))
    · exact h.reach w (Or.inl hw)
    · rcases hnew w hw with hw | hvw
      · exact h.reach w (Or.inr (Or.inr hw))
      · exact (h.reach v (Or.inr (Or.inl rfl))).tail hvw
  · rintro u (rfl | hu) w huw
    · exact hsucc w huw
    · exact hsub _ (h.closed u hu w huw)

/-- **A finished search** has done exactly the vertices that can be reached. -/
theorem done_iff (h : Search E start done ∅) : v ∈ done ↔ ReflTransGen E start v := by
  constructor
  · exact fun hv => h.reach v (Or.inl hv)
  · intro hv
    induction hv with
    | refl => exact h.start_mem.resolve_right id
    | tail _ huw ih => exact (h.closed _ ih _ huw).resolve_right id

end Search

/-! ### Depth-first searches -/

/-- A path from `start`, with the deepest vertex first. -/
structure Descent (E : V → V → Prop) (start : V) (vs : List V) : Prop where
  chain : vs.IsChain (flip E)
  last : vs.getLast? = some start

/-- The stack of a depth-first search on its way down `vs`: there is a marker (`none`) for every
vertex of `vs`, and above the marker of a vertex there are successors of it. -/
inductive Frames (E : V → V → Prop) (start : V) : List (Option V) → List V → Prop
  | start : Frames E start [some start] []
  | done : Frames E start [] []
  | enter {stack : List (Option V)} {v : V} {vs : List V} (h : Frames E start stack vs)
      (hv : Descent E start (v :: vs)) : Frames E start (none :: stack) (v :: vs)
  | push {stack : List (Option V)} {v w : V} {vs : List V} (h : Frames E start stack (v :: vs))
      (hvw : E v w) : Frames E start (some w :: stack) (v :: vs)

section Frames

variable {E : V → V → Prop} {start v w : V} {vs : List V} {stack : List (Option V)}

theorem Descent.init (E : V → V → Prop) (start : V) : Descent E start [start] :=
  ⟨List.isChain_singleton _, rfl⟩

theorem Descent.down (h : Descent E start (v :: vs)) (hvw : E v w) :
    Descent E start (w :: v :: vs) :=
  ⟨List.isChain_cons_cons.2 ⟨hvw, h.chain⟩, by rw [List.getLast?_cons_cons, h.last]⟩

/-- The way down, from the start. -/
theorem Descent.reverse (h : Descent E start vs) :
    vs.reverse.IsChain E ∧ vs.reverse.head? = some start :=
  ⟨List.isChain_reverse.2 h.chain, by rw [List.head?_reverse, h.last]⟩

theorem Descent.reachable (h : Descent E start vs) : ∀ v ∈ vs, ReflTransGen E start v := by
  induction vs with
  | nil => exact List.forall_mem_nil _
  | cons v vs ih =>
    cases vs with
    | nil =>
      have hv : v = start := Option.some_inj.1 h.last
      rw [List.forall_mem_singleton, hv]
    | cons u vs =>
      obtain ⟨huv, hchain⟩ := List.isChain_cons_cons.1 h.chain
      have ih' := ih ⟨hchain, by rw [← h.last, List.getLast?_cons_cons]⟩
      exact List.forall_mem_cons.2 ⟨(ih' u List.mem_cons_self).tail huv, ih'⟩

theorem Frames.descent (h : Frames E start stack vs) (hvs : vs ≠ []) : Descent E start vs := by
  induction h with
  | start | done => exact absurd rfl hvs
  | enter _ hv => exact hv
  | push _ _ ih => exact ih hvs

/-- A vertex is taken from the stack. -/
theorem Frames.pop (h : Frames E start (some w :: stack) vs) :
    Descent E start (w :: vs) ∧ Frames E start stack vs := by
  cases h with
  | start => exact ⟨.init E start, .done⟩
  | push h hvw => exact ⟨(h.descent (List.cons_ne_nil _ _)).down hvw, h⟩

/-- A marker is taken from the stack. -/
theorem Frames.leave (h : Frames E start (none :: stack) vs) :
    ∃ v vs', vs = v :: vs' ∧ Frames E start stack vs' := by
  cases h with
  | enter h _ => exact ⟨_, _, rfl, h⟩

theorem Frames.pushAll (h : Frames E start stack (v :: vs)) {ws : List V} (hws : ∀ w ∈ ws, E v w) :
    Frames E start (ws.map some ++ stack) (v :: vs) := by
  induction ws with
  | nil => exact h
  | cons w ws ih =>
    rw [List.forall_mem_cons] at hws
    exact (ih hws.2).push hws.1

end Frames

/-! ### Ranks -/

variable {R : Type*} [LinearOrder R]

/-- Ranks increase along edges. -/
def Increasing (E : V → V → Prop) (rank : V → R) : Prop := ∀ v w, E v w → rank v < rank w

theorem Increasing.lt {E : V → V → Prop} {rank : V → R} (h : Increasing E rank) {v w : V}
    (hvw : TransGen E v w) : rank v < rank w := by
  induction hvw with
  | single h1 => exact h _ _ h1
  | tail _ h1 ih => exact ih.trans (h _ _ h1)

theorem Increasing.le {E : V → V → Prop} {rank : V → R} (h : Increasing E rank) {v w : V}
    (hvw : ReflTransGen E v w) : rank v ≤ rank w := by
  rcases reflTransGen_iff_eq_or_transGen.1 hvw with rfl | hvw
  · exact le_rfl
  · exact (h.lt hvw).le

/-- A relation that ranks increase along has no cycle. -/
theorem Increasing.acyclic {E : V → V → Prop} {rank : V → R} (h : Increasing E rank) (v : V) :
    ¬ TransGen E v v := fun hv => lt_irrefl _ (h.lt hv)

/-- A path along which ranks increase meets no vertex twice. -/
theorem Increasing.nodup {E : V → V → Prop} {rank : V → R} (h : Increasing E rank) {vs : List V}
    (hvs : vs.IsChain E) : vs.Nodup := by
  have hranks : (vs.map rank).IsChain (· < ·) :=
    (List.isChain_map rank).2 (hvs.imp fun v w hvw => h v w hvw)
  exact hranks.pairwise.nodup.of_map

/-! ### Permuted ranks -/

section Permuted

variable (rank rank' : V → R) (l₁ l₂ : List V) {a : V}

/-- New ranks that permute the old ones and increase along the list do not move a vertex up that
has no larger one before it. -/
theorem le_of_prefix_le (hperm : ((l₁ ++ a :: l₂).map rank').Perm ((l₁ ++ a :: l₂).map rank))
    (hsorted : (l₁ ++ a :: l₂).Pairwise fun v w => rank' v < rank' w)
    (hle : ∀ v ∈ l₁, rank v ≤ rank a) : rank' a ≤ rank a := by
  by_contra hlt
  rw [not_le] at hlt
  -- the vertices of rank at most `rank a`, counted with the old and with the new ranks
  have hcount := hperm.countP_eq (fun k => decide (k ≤ rank a))
  rw [List.countP_map, List.countP_map, List.countP_append, List.countP_append,
    List.countP_cons, List.countP_cons] at hcount
  have hold : l₁.countP ((fun k => decide (k ≤ rank a)) ∘ rank) = l₁.length :=
    List.countP_eq_length.2 fun v hv => by simpa using hle v hv
  have hnew : l₂.countP ((fun k => decide (k ≤ rank a)) ∘ rank') = 0 := by
    rw [List.countP_eq_zero]
    intro v hv
    have hav : rank' a < rank' v :=
      List.rel_of_pairwise_cons (List.pairwise_append.1 hsorted).2.1 hv
    simpa using hlt.trans hav
  have hfront := List.countP_le_length (p := (fun k => decide (k ≤ rank a)) ∘ rank') (l := l₁)
  have ha : ((fun k => decide (k ≤ rank a)) ∘ rank') a = false := by simpa using hlt
  have ha' : ((fun k => decide (k ≤ rank a)) ∘ rank) a = true := by simp
  simp only [hold, hnew, ha, ha', Bool.false_eq_true, if_true, if_false] at hcount
  omega

/-- New ranks that permute the old ones and increase along the list do not move a vertex down that
has no smaller one behind it. -/
theorem le_of_le_suffix (hperm : ((l₁ ++ a :: l₂).map rank').Perm ((l₁ ++ a :: l₂).map rank))
    (hsorted : (l₁ ++ a :: l₂).Pairwise fun v w => rank' v < rank' w)
    (hle : ∀ v ∈ l₂, rank a ≤ rank v) : rank a ≤ rank' a := by
  have hrev : (l₁ ++ a :: l₂).reverse = l₂.reverse ++ a :: l₁.reverse := by simp
  have hdual : OrderDual.toDual (rank' a) ≤ OrderDual.toDual (rank a) := by
    refine le_of_prefix_le (fun v => OrderDual.toDual (rank v))
      (fun v => OrderDual.toDual (rank' v)) l₂.reverse l₁.reverse ?_ ?_ ?_
    · rw [← hrev, List.map_reverse, List.map_reverse]
      have hmap := hperm.map OrderDual.toDual
      rw [List.map_map, List.map_map] at hmap
      exact (List.reverse_perm _).trans (hmap.trans (List.reverse_perm _).symm)
    · rw [← hrev, List.pairwise_reverse]
      exact hsorted
    · intro v hv
      exact hle v (List.mem_reverse.1 hv)
  exact hdual

end Permuted

/-! ### Reordering -/

/-- The affected vertices of a new edge `x → y` that runs against the ranks: `B` those that lead
to `x` and `F` those that `y` leads to, within the ranks between `y` and `x`. -/
structure Affected (E : V → V → Prop) (rank : V → R) (x y : V) (B F : List V) : Prop where
  source_mem : x ∈ B
  target_mem : y ∈ F
  le_source : ∀ v ∈ B, rank v ≤ rank x
  target_le : ∀ v ∈ B ++ F, rank y ≤ rank v
  lt_source : ∀ v ∈ F, rank v < rank x
  forward : ∀ v ∈ F, ∀ w, E v w → w ≠ x ∧ (rank w < rank x → w ∈ F)
  backward : ∀ w ∈ B, ∀ v, E v w → rank y < rank v → v ∈ B ++ F
  disjoint : ∀ v ∈ B, v ∉ F

/-- The order of the two lists does not matter. -/
theorem Affected.perm {E : V → V → Prop} {rank : V → R} {x y : V} {B F B' F' : List V}
    (h : Affected E rank x y B F) (hB : B'.Perm B) (hF : F'.Perm F) :
    Affected E rank x y B' F' := by
  obtain ⟨h1, h2, h3, h4, h5, h6, h7, h8⟩ := h
  simp only [List.mem_append] at h4 h7
  constructor <;> simp only [hB.mem_iff, hF.mem_iff, List.mem_append] <;> assumption

/-- The vertices of the list exchange their ranks so that these increase along the list; the
others keep theirs. -/
structure Reordered (rank rank' : V → R) (l : List V) : Prop where
  perm : (l.map rank').Perm (l.map rank)
  sorted : l.Pairwise fun v w => rank' v < rank' w
  same : ∀ v, v ∉ l → rank' v = rank v

variable {E : V → V → Prop} {rank rank' : V → R} {x y : V} {B F : List V}

/-- The new ranks of the list are the old ones. -/
theorem Reordered.exists_eq {l : List V} (h : Reordered rank rank' l) {v : V} (hv : v ∈ l) :
    ∃ u ∈ l, rank' v = rank u := by
  have : rank' v ∈ l.map rank := h.perm.mem_iff.1 (List.mem_map_of_mem hv)
  obtain ⟨u, hu, huv⟩ := List.mem_map.1 this
  exact ⟨u, hu, huv.symm⟩

/-- Reordering keeps the ranks distinct. -/
theorem Reordered.injOn {l : List V} (h : Reordered rank rank' l) {s : Set V}
    (hinj : Set.InjOn rank s) (hl : ∀ v ∈ l, v ∈ s) : Set.InjOn rank' s := by
  have hmixed : ∀ v w, v ∈ s → w ∈ s → v ∈ l → w ∉ l → rank' v ≠ rank' w := by
    intro v w hv hw hvl hwl heq
    obtain ⟨u, hu, huv⟩ := h.exists_eq hvl
    rw [huv, h.same w hwl] at heq
    exact hwl (hinj (hl u hu) hw heq ▸ hu)
  have hlist : ∀ v ∈ l, ∀ w ∈ l, rank' v = rank' w → v = w := by
    intro v hv w hw
    have hnd : (l.map rank').Nodup := List.pairwise_map.2 (h.sorted.imp ne_of_lt)
    exact List.inj_on_of_nodup_map hnd hv hw
  intro v hv w hw heq
  by_cases hvl : v ∈ l
  · by_cases hwl : w ∈ l
    · exact hlist v hvl w hwl heq
    · exact absurd heq (hmixed v w hv hw hvl hwl)
  · by_cases hwl : w ∈ l
    · exact absurd heq.symm (hmixed w v hw hv hwl hvl)
    · rw [h.same v hvl, h.same w hwl] at heq
      exact hinj hv hw heq

/-- No vertex of the first part moves up. -/
theorem Reordered.le_of_mem_left (h : Reordered rank rank' (B ++ F))
    (hB : B.Pairwise fun v w => rank v < rank w) {v : V} (hv : v ∈ B) : rank' v ≤ rank v := by
  obtain ⟨l₁, l₂, rfl⟩ := List.append_of_mem hv
  refine le_of_prefix_le rank rank' l₁ (l₂ ++ F) (by simpa using h.perm)
    (by simpa using h.sorted) fun u hu => ?_
  exact ((List.pairwise_append.1 hB).2.2 u hu v (by simp)).le

/-- No vertex of the second part moves down. -/
theorem Reordered.le_of_mem_right (h : Reordered rank rank' (B ++ F))
    (hF : F.Pairwise fun v w => rank v < rank w) {v : V} (hv : v ∈ F) : rank v ≤ rank' v := by
  obtain ⟨l₁, l₂, rfl⟩ := List.append_of_mem hv
  refine le_of_le_suffix rank rank' (B ++ l₁) l₂ (by simpa using h.perm)
    (by simpa using h.sorted) fun u hu => ?_
  exact (List.rel_of_pairwise_cons (List.pairwise_append.1 hF).2.1 hu).le

/-- Two vertices of a list sorted by their ranks stand in the order of these. -/
theorem lt_of_sorted {l : List V} (hl : l.Pairwise fun v w => rank v < rank w)
    (hl' : l.Pairwise fun v w => rank' v < rank' w) {v w : V} (hv : v ∈ l) (hw : w ∈ l)
    (hvw : rank v < rank w) : rank' v < rank' w := by
  induction l with
  | nil => cases hv
  | cons u l ih =>
    rw [List.pairwise_cons] at hl hl'
    rcases List.mem_cons.1 hv with rfl | hvl
    · rcases List.mem_cons.1 hw with rfl | hwl
      · exact absurd hvw (lt_irrefl _)
      · exact hl'.1 w hwl
    · rcases List.mem_cons.1 hw with rfl | hwl
      · exact absurd (hvw.trans (hl.1 v hvl)) (lt_irrefl _)
      · exact ih hl.2 hl'.2 hvl hwl

/-- **The Pearce-Kelly reordering** admits the new edge: the ranks increase along all edges. -/
theorem Affected.increasing (h : Affected E rank x y B F) (hE : Increasing E rank)
    (hinj : ∀ v w, E v w → (rank v = rank y → v = y) ∧ (rank w = rank x → w = x))
    (hB : B.Pairwise fun v w => rank v < rank w) (hF : F.Pairwise fun v w => rank v < rank w)
    (hr : Reordered rank rank' (B ++ F)) :
    Increasing (fun v w => E v w ∨ v = x ∧ w = y) rank' := by
  obtain ⟨hsB, hsF, hsBF⟩ := List.pairwise_append.1 hr.sorted
  rintro v w (hvw | ⟨rfl, rfl⟩)
  swap
  · exact hsBF _ h.source_mem _ h.target_mem
  have hlt := hE v w hvw
  by_cases hv : v ∈ B ++ F <;> by_cases hw : w ∈ B ++ F
  · rcases List.mem_append.1 hv with hvB | hvF
    · rcases List.mem_append.1 hw with hwB | hwF
      · exact lt_of_sorted hB hsB hvB hwB hlt
      · exact hsBF v hvB w hwF
    · rcases List.mem_append.1 hw with hwB | hwF
      · -- an edge from `F` into `B` would close a cycle
        obtain ⟨hwx, hwF⟩ := h.forward v hvF w hvw
        rcases (h.le_source w hwB).lt_or_eq with hlt' | heq
        · exact absurd (hwF hlt') (h.disjoint w hwB)
        · exact absurd ((hinj v w hvw).2 heq) hwx
      · exact lt_of_sorted hF hsF hvF hwF hlt
  · rw [hr.same w hw]
    rcases List.mem_append.1 hv with hvB | hvF
    · exact (hr.le_of_mem_left hB hvB).trans_lt hlt
    · -- `w` lies above the window, and with it above every rank that is exchanged
      obtain ⟨hwx, hwF⟩ := h.forward v hvF w hvw
      have hxw : rank x < rank w := by
        rcases lt_trichotomy (rank w) (rank x) with hc | hc | hc
        · exact absurd (List.mem_append_right _ (hwF hc)) hw
        · exact absurd ((hinj v w hvw).2 hc) hwx
        · exact hc
      obtain ⟨u, hu, huv⟩ := hr.exists_eq hv
      rw [huv]
      rcases List.mem_append.1 hu with huB | huF
      · exact (h.le_source u huB).trans_lt hxw
      · exact (h.lt_source u huF).trans hxw
  · rw [hr.same v hv]
    rcases List.mem_append.1 hw with hwB | hwF
    · -- `v` lies below the window, and with it below every rank that is exchanged
      have hvy : rank v < rank y := by
        rcases lt_trichotomy (rank v) (rank y) with hc | hc | hc
        · exact hc
        · exact absurd ((hinj v w hvw).1 hc ▸ List.mem_append_right _ h.target_mem) hv
        · exact absurd (h.backward w hwB v hvw hc) hv
      obtain ⟨u, hu, huw⟩ := hr.exists_eq hw
      rw [huw]
      exact hvy.trans_le (h.target_le u hu)
    · exact hlt.trans_le (hr.le_of_mem_right hF hwF)
  · rw [hr.same v hv, hr.same w hw]
    exact hlt

end TopoOrder

import BugInsight.GraphCycles.Graph
import BugInsight.TopoOrder

/-!
# What the searches find

`ForwardDFS` and `BackwardDFS` are one search with two parameters, `dfs`; `dfs_spec` says which
nodes it marks and when it is stopped.  `isReachable_iff` is the same for `FindPath` without an
array.  Both are searches in the sense of `TopoOrder.Search`.
-/

open Relation TopoOrder

namespace BugInsight

namespace Rep

/-! ### Updates of several nodes -/

/-- The same update of all nodes of a list. -/
theorem node_foldl_modifyNode (f : Node → Node) {l : List ℕ} (hnd : l.Nodup) (r : Rep) (j : ℕ) :
    (l.foldl (fun r w => r.modifyNode w f) r).node j =
      if j ∈ l ∧ j < r.nodes.length then f (r.node j) else r.node j := by
  induction l generalizing r with
  | nil => simp
  | cons w l ih =>
    obtain ⟨hw, hnd'⟩ := List.nodup_cons.1 hnd
    rw [List.foldl_cons, ih hnd', length_modifyNode, node_modifyNode]
    by_cases hjw : w = j
    · subst hjw
      by_cases hj : w < r.nodes.length <;> simp [hw, hj]
    · have hjw' : j ≠ w := fun hc => hjw hc.symm
      simp [hjw, hjw']

/-- What updates of nodes leave alone. -/
structure SameShape (r r' : Rep) : Prop where
  length : r'.nodes.length = r.nodes.length
  freeNodes : r'.freeNodes = r.freeNodes
  table : r'.table = r.table

theorem SameShape.rfl {r : Rep} : r.SameShape r := ⟨Eq.refl _, Eq.refl _, Eq.refl _⟩

theorem SameShape.trans {r r' r'' : Rep} (h : r.SameShape r') (h' : r'.SameShape r'') :
    r.SameShape r'' :=
  ⟨h'.length.trans h.length, h'.freeNodes.trans h.freeNodes, h'.table.trans h.table⟩

theorem sameShape_modifyNode (r : Rep) (i : ℕ) (f : Node → Node) :
    r.SameShape (r.modifyNode i f) := ⟨length_modifyNode .., rfl, rfl⟩

theorem sameShape_foldl {α : Type*} (f : Rep → α → Rep) (hf : ∀ r a, SameShape r (f r a))
    (l : List α) (r : Rep) : r.SameShape (l.foldl f r) := by
  induction l generalizing r with
  | nil => exact SameShape.rfl
  | cons a l ih => exact (hf r a).trans (ih (f r a))

/-- A field that each step leaves alone. -/
theorem field_foldl {α β : Type*} (g : Node → β) (f : Rep → α → Rep)
    (hf : ∀ r a j, g ((f r a).node j) = g (r.node j)) (l : List α) (r : Rep) (j : ℕ) :
    g ((l.foldl f r).node j) = g (r.node j) := by
  induction l generalizing r with
  | nil => rfl
  | cons a l ih => rw [List.foldl_cons, ih, hf]

theorem sameShape_setVisited (r : Rep) (b : Bool) (l : List ℕ) : r.SameShape (r.setVisited b l) :=
  sameShape_foldl _ (fun r w => sameShape_modifyNode r w _) l r

theorem node_setVisited {l : List ℕ} (hnd : l.Nodup) (r : Rep) (b : Bool) (j : ℕ) :
    (r.setVisited b l).node j =
      if j ∈ l ∧ j < r.nodes.length then (r.node j).setVisited b else r.node j :=
  node_foldl_modifyNode _ hnd r j

/-- A field other than the visited mark. -/
theorem field_setVisited {α : Type*} (g : Node → α) (hg : ∀ n b, g (n.setVisited b) = g n)
    (r : Rep) (b : Bool) (l : List ℕ) (j : ℕ) : g ((r.setVisited b l).node j) = g (r.node j) := by
  exact field_foldl g (fun r w => r.modifyNode w (.setVisited b))
    (fun r w j => field_modifyNode r w j _ g fun n => hg n b) l r j

/-! ### Depth-first search -/

section Dfs

variable (d : Direction) (stop keep : Node → Bool) (r : Rep) (n : ℕ)

/-- The edges a search goes along. -/
def Follows (v w : ℕ) : Prop :=
  w ∈ d.next (r.node v) ∧ keep (r.node w) = true ∧ (r.node w).visited = false

/-- The invariant of a search. -/
structure DfsInv (s : Dfs) : Prop where
  marks : s.r = r.setVisited true s.delta
  nodup : s.delta.Nodup
  search : Search (r.Follows d keep) n {v | v ∈ s.delta} {v | v ∈ s.stack}
  unstopped : ∀ v ∈ s.delta, ∀ w ∈ d.next (r.node v), stop (r.node w) = false

/-- What a search returns. -/
structure DfsSpec (r' : Rep) (delta : List ℕ) (completed : Bool) : Prop where
  marks : r' = r.setVisited true delta
  nodup : delta.Nodup
  reach : ∀ v ∈ delta, ReflTransGen (r.Follows d keep) n v
  complete : completed = true → (∀ v, v ∈ delta ↔ ReflTransGen (r.Follows d keep) n v) ∧
    ∀ v ∈ delta, ∀ w ∈ d.next (r.node v), stop (r.node w) = false
  stopped : completed = false → ∃ v ∈ delta, ∃ w ∈ d.next (r.node v), stop (r.node w) = true

variable {d stop keep r n}

theorem follows_lt (hn : n < r.nodes.length) (hunv : (r.node n).visited = false)
    (hnext : ∀ v w, w ∈ d.next (r.node v) → w < r.nodes.length) {v : ℕ}
    (h : ReflTransGen (r.Follows d keep) n v) :
    v < r.nodes.length ∧ (r.node v).visited = false := by
  cases h with
  | refl => exact ⟨hn, hunv⟩
  | tail _ hvw => exact ⟨hnext _ _ hvw.1, hvw.2.2⟩

theorem field_next (d : Direction) (n : Node) (b : Bool) : d.next (n.setVisited b) = d.next n := by
  cases d <;> rfl

/-- A round that marks a node. -/
theorem DfsInv.visit (hlt : ∀ v, ReflTransGen (r.Follows d keep) n v →
      v < r.nodes.length ∧ (r.node v).visited = false)
    {r₁ : Rep} {v : ℕ} {stack delta : List ℕ} (h : DfsInv d stop keep r n ⟨r₁, v :: stack, delta⟩)
    (hv : (r₁.node v).visited = false) :
    v ∉ delta ∧ r₁.modifyNode v (.setVisited true) = r.setVisited true (delta ++ [v]) ∧
      (delta ++ [v]).Nodup ∧ ReflTransGen (r.Follows d keep) n v ∧
      d.next (r₁.node v) = d.next (r.node v) := by
  obtain ⟨hmarks, hnd, hsearch, -⟩ := h
  have hreach := hsearch.reach v (Or.inr (by simp))
  have hnot : v ∉ delta := by
    intro hc
    dsimp only at hmarks
    rw [hmarks, node_setVisited hnd, if_pos ⟨hc, (hlt v hreach).1⟩] at hv
    cases hv
  refine ⟨hnot, ?_, ?_, hreach, ?_⟩
  · dsimp only at hmarks
    rw [hmarks]
    unfold setVisited
    rw [List.foldl_append]
    rfl
  · exact List.nodup_append.2 ⟨hnd, List.nodup_singleton v, by
      intro a ha b hb
      rw [List.mem_singleton.1 hb]
      exact fun hc => hnot (hc ▸ ha)⟩
  · dsimp only at hmarks
    rw [hmarks]
    exact field_setVisited _ (fun n b => field_next d n b) _ _ _ _

theorem dfsBody_inv (hstop : ∀ n b, stop (Node.setVisited b n) = stop n)
    (hkeep : ∀ n b, keep (Node.setVisited b n) = keep n)
    (hlt : ∀ v, ReflTransGen (r.Follows d keep) n v →
      v < r.nodes.length ∧ (r.node v).visited = false)
    (s s' : Dfs) (h : DfsInv d stop keep r n s) (hb : dfsBody d stop keep s = .inl s') :
    DfsInv d stop keep r n s' := by
  obtain ⟨r₁, stack, delta⟩ := s
  cases stack with
  | nil => simp [dfsBody] at hb
  | cons v stack =>
    have hinsert : {w | w ∈ v :: stack} = insert v {w | w ∈ stack} := by
      ext w; simp
    have hsearch := h.search
    dsimp only at hsearch
    rw [hinsert] at hsearch
    simp only [dfsBody] at hb
    split_ifs at hb with hv hany
    · cases hb
      have hmarks := h.marks
      dsimp only at hmarks
      have hvd : v ∈ delta := by
        by_contra hc
        have hreach := hsearch.reach v (Or.inr (Or.inl rfl))
        rw [hmarks, node_setVisited h.nodup, if_neg fun hc' => hc hc'.1, (hlt v hreach).2] at hv
        cases hv
      exact ⟨hmarks, h.nodup, hsearch.drop hvd, h.unstopped⟩
    · cases hb
      obtain ⟨hnot, hmarks', hnd', hreach, hnext⟩ :=
        h.visit hlt (by simpa using hv)
      have hdelta : {w | w ∈ delta ++ [v]} = insert v {w | w ∈ delta} := by
        ext w; simp [or_comm]
      have hstop' : ∀ w, stop ((r.setVisited true (delta ++ [v])).node w) = stop (r.node w) :=
        fun w => field_setVisited stop hstop _ _ _ _
      have hkeep' : ∀ w, keep ((r.setVisited true (delta ++ [v])).node w) = keep (r.node w) :=
        fun w => field_setVisited keep hkeep _ _ _ _
      rw [hmarks', hnext] at hany ⊢
      refine ⟨rfl, hnd', ?_, ?_⟩
      · dsimp only
        rw [hdelta]
        refine hsearch.visit (fun w hw => ?_) (fun w hw => ?_) (fun w hw => ?_)
        · exact List.mem_append_right _ hw
        · rcases List.mem_append.1 hw with hw | hw
          · rw [List.mem_reverse, List.mem_filter] at hw
            obtain ⟨hwn, hwk⟩ := hw
            simp only [hkeep', Bool.and_eq_true, Bool.not_eq_true'] at hwk
            refine Or.inr ⟨hwn, hwk.2, ?_⟩
            rw [node_setVisited hnd'] at hwk
            split_ifs at hwk with hc
            · exact absurd hwk.1 (by simp [Node.setVisited])
            · exact hwk.1
          · exact Or.inl hw
        · by_cases hwd : w ∈ delta ++ [v]
          · exact Or.inl (hdelta ▸ hwd)
          · refine Or.inr (List.mem_append_left _ ?_)
            rw [List.mem_reverse, List.mem_filter]
            refine ⟨hw.1, ?_⟩
            rw [hkeep', node_setVisited hnd', if_neg fun hc => hwd hc.1]
            simp [hw.2.1, hw.2.2]
      · intro u hu w hw
        rcases List.mem_append.1 hu with hu | hu
        · exact h.unstopped u hu w hw
        · rw [List.mem_singleton.1 hu] at hw
          have := List.any_eq_false.1 (Bool.not_eq_true _ ▸ hany) w hw
          rw [hstop'] at this
          simpa using this

/-- **`ForwardDFS` and `BackwardDFS`** mark what can be reached inside the window, or stop at a
marked node with a neighbour that ends the search. -/
theorem dfs_spec (hstop : ∀ n b, stop (Node.setVisited b n) = stop n)
    (hkeep : ∀ n b, keep (Node.setVisited b n) = keep n)
    (hn : n < r.nodes.length) (hunv : (r.node n).visited = false)
    (hnext : ∀ v w, w ∈ d.next (r.node v) → w < r.nodes.length) :
    DfsSpec d stop keep r n (dfs d stop keep r n).1 (dfs d stop keep r n).2.1
      (dfs d stop keep r n).2.2 := by
  have hlt : ∀ v, ReflTransGen (r.Follows d keep) n v →
      v < r.nodes.length ∧ (r.node v).visited = false := fun v hv => follows_lt hn hunv hnext hv
  have hinit : DfsInv d stop keep r n ⟨r, [n], []⟩ :=
    ⟨rfl, List.nodup_nil, by simpa using Search.init (r.Follows d keep) n, by simp⟩
  unfold dfs
  refine Loop.run_spec (I := DfsInv d stop keep r n)
    (Q := fun p => DfsSpec d stop keep r n p.1.r p.1.delta p.2)
    (fun s s' hs hb => dfsBody_inv hstop hkeep hlt s s' hs hb) ?_ _ hinit
  rintro ⟨r₁, stack, delta⟩ b h hb
  cases stack with
  | nil =>
    cases hb
    have hsearch := h.search
    simp only [List.not_mem_nil, Set.ofPred_false] at hsearch
    exact ⟨h.marks, h.nodup, fun v hv => hsearch.reach v (Or.inl hv),
      fun _ => ⟨fun v => hsearch.done_iff, h.unstopped⟩, fun hc => by cases hc⟩
  | cons v stack =>
    simp only [dfsBody] at hb
    split_ifs at hb with hv hany
    cases hb
    obtain ⟨-, hmarks', hnd', hreach, hnext'⟩ := h.visit hlt (by simpa using hv)
    rw [hmarks', hnext'] at hany
    refine ⟨hmarks', hnd', fun u hu => ?_, fun hc => (by cases hc), fun _ => ?_⟩
    · rcases List.mem_append.1 hu with hu | hu
      · exact h.search.reach u (Or.inl hu)
      · rw [List.mem_singleton.1 hu]
        exact hreach
    · obtain ⟨w, hw, hsw⟩ := List.any_eq_true.1 hany
      rw [field_setVisited stop hstop] at hsw
      exact ⟨v, by simp, w, hw, hsw⟩

end Dfs

/-! ### Paths -/

section FindPath

variable {r : Rep} {x y : ℕ}

/-- The edges of the graph. -/
def Edge (r : Rep) (v w : ℕ) : Prop := w ∈ (r.node v).outSet

/-- The invariant of `FindPath`, as far as its result `0` goes. -/
def PathInv (r : Rep) (x y : ℕ) (s : PathSearch) : Prop :=
  ∃ done : Set ℕ, Search r.Edge x done {v | some v ∈ s.stack} ∧ y ∉ done ∧
    ∀ v ∈ s.seen, v ∈ done ∪ {v | some v ∈ s.stack}

theorem findPathBody_inv (maxPathLen : ℕ) (s s' : PathSearch) (h : PathInv r x y s)
    (hb : r.findPathBody y maxPathLen s = .inl s') : PathInv r x y s' := by
  obtain ⟨stack, seen, pathLen, path⟩ := s
  obtain ⟨done, hsearch, hy, hseen⟩ := h
  rcases stack with _ | ⟨_ | v, stack⟩
  · simp [findPathBody] at hb
  · cases hb
    simp only [List.mem_cons, reduceCtorEq, false_or] at hsearch hseen
    exact ⟨done, hsearch, hy, hseen⟩
  · simp only [findPathBody] at hb
    split_ifs at hb with hvy
    cases hb
    have hinsert : {w | some w ∈ some v :: stack} = insert v {w | some w ∈ stack} := by
      ext w; simp
    dsimp only at hsearch hseen
    rw [hinsert] at hsearch hseen
    obtain ⟨hseen', hstack'⟩ :=
      pushUnseen_spec (r.node v).outSet.nodup_elems seen (none :: stack)
    have hmem : ∀ w, some w ∈ (pushUnseen (r.node v).outSet.elems seen (none :: stack)).2 ↔
        (r.Edge v w ∧ w ∉ seen) ∨ some w ∈ stack := fun w => by
      rw [hstack']
      simp [Edge]
    refine ⟨insert v done, hsearch.visit (fun w hw => ?_) (fun w hw => ?_) (fun w hw => ?_), ?_,
      fun w hw => ?_⟩
    · exact (hmem w).2 (Or.inr hw)
    · exact ((hmem w).1 hw).symm.imp id And.left
    · by_cases hws : w ∈ seen
      · rcases hseen w hws with hw' | rfl | hw'
        · exact Or.inl (Or.inr hw')
        · exact Or.inl (Or.inl rfl)
        · exact Or.inr ((hmem w).2 (Or.inr hw'))
      · exact Or.inr ((hmem w).2 (Or.inl ⟨hw, hws⟩))
    · rintro (rfl | hyd)
      · exact hvy rfl
      · exact hy hyd
    · by_cases hws : w ∈ seen
      · rcases hseen w hws with hw' | rfl | hw'
        · exact Or.inl (Or.inr hw')
        · exact Or.inl (Or.inl rfl)
        · exact Or.inr ((hmem w).2 (Or.inr hw'))
      · exact Or.inr ((hmem w).2 (Or.inl ⟨((hseen' w).1 hw).resolve_right hws, hws⟩))

/-- **`FindPath`** finds a path exactly if there is one. -/
theorem findPath_pos_iff {idx idy : ℕ} (maxPathLen : ℕ) (path : List ℕ)
    (hx : (r.findNode idx).isSome = true) (hy : (r.findNode idy).isSome = true) :
    0 < (r.findPath idx idy maxPathLen path).1 ↔
      ReflTransGen r.Edge (nodeIndex idx) (nodeIndex idy) := by
  have hinit : PathInv r (nodeIndex idx) (nodeIndex idy)
      ⟨[some (nodeIndex idx)], NodeSet.empty, 0, path⟩ :=
    ⟨∅, by simpa using Search.init r.Edge (nodeIndex idx), fun hc => hc,
      fun v hv => absurd hv (NodeSet.not_mem_empty v)⟩
  unfold findPath
  rw [if_neg (by simp [Option.isNone_iff_eq_none, ← Option.not_isSome_iff_eq_none, hx, hy])]
  refine Loop.run_spec (I := PathInv r (nodeIndex idx) (nodeIndex idy))
    (Q := fun p => 0 < p.1 ↔ ReflTransGen r.Edge (nodeIndex idx) (nodeIndex idy))
    (fun s s' hs hb => findPathBody_inv maxPathLen s s' hs hb) ?_ _ hinit
  rintro ⟨stack, seen, pathLen, path'⟩ p ⟨done, hsearch, hyd, -⟩ hb
  rcases stack with _ | ⟨_ | v, stack⟩
  · cases hb
    simp only [List.not_mem_nil, Set.ofPred_false] at hsearch
    simp [← hsearch.done_iff, hyd]
  · simp [findPathBody] at hb
  · simp only [findPathBody] at hb
    split_ifs at hb with hvy
    cases hb
    exact ⟨fun _ => hsearch.reach _ (Or.inr (by simp [hvy])), fun _ => Nat.succ_pos _⟩

/-- **`IsReachable`** decides reachability. -/
theorem isReachable_iff {idx idy : ℕ} (hx : (r.findNode idx).isSome = true)
    (hy : (r.findNode idy).isSome = true) :
    r.isReachable idx idy = true ↔ ReflTransGen r.Edge (nodeIndex idx) (nodeIndex idy) := by
  unfold isReachable
  rw [decide_eq_true_eq, findPath_pos_iff 0 [] hx hy]

theorem isReachable_expired {idx idy : ℕ}
    (h : ¬ ((r.findNode idx).isSome = true ∧ (r.findNode idy).isSome = true)) :
    r.isReachable idx idy = false := by
  unfold isReachable findPath
  rw [if_pos]
  · rfl
  · rw [Bool.or_eq_true, ← Bool.not_eq_false, ← Bool.not_eq_false, Option.isNone_eq_false_iff,
      Option.isNone_eq_false_iff, ← not_and_or]
    exact h

end FindPath

end Rep

end BugInsight

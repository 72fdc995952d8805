import BugInsight.GraphCycles.Representation

/-!
# The path that `FindPath` finds

`FindPath` searches in depth, with a marker on its stack for every node of the current path.  The
array `path` is overwritten as the path changes, so that behind the path it may hold ids of nodes
that the search has left.

* `IsPath`: a path between two nodes of the graph;
* `findPath_spec`: what `FindPath` returns, and what it writes;
* `findPathFits_of_few`: its set of 32 bits has room for `3 * 2 ^ 29 - 1` nodes.
-/

open Relation TopoOrder

namespace BugInsight

namespace Rep

/-- A path from `x` to `y` over different live nodes. -/
structure IsPath (r : Rep) (x y : ℕ) (vs : List ℕ) : Prop where
  head : vs.head? = some x
  last : vs.getLast? = some y
  edge : vs.IsChain r.Edge
  nodup : vs.Nodup
  live : ∀ v ∈ vs, r.LiveNode v

/-- What `FindPath` does: `len` is its result, and `path'` the array `path` afterwards. -/
structure PathFound (r : Rep) (x y maxPathLen : ℕ) (path : List ℕ) (len : ℕ) (path' : List ℕ) :
    Prop where
  length : path'.length = path.length
  /-- nothing is written behind the first `maxPathLen` places -/
  drop : path'.drop maxPathLen = path.drop maxPathLen
  zero_iff : len = 0 ↔ ¬ ReflTransGen r.Edge x y
  found : len ≠ 0 → ∃ vs, r.IsPath x y vs ∧ vs.length = len ∧
    path'.take (min len maxPathLen) = (vs.map r.idOf).take maxPathLen

variable {r : Rep} {m : ℕ → Option ℕ} {x y v maxPathLen : ℕ} {path path' vs : List ℕ}

/-- A path between two nodes has two of them. -/
theorem IsPath.two_le (h : r.IsPath x y vs) (hxy : x ≠ y) : 2 ≤ vs.length := by
  rcases vs with _ | ⟨v, _ | ⟨w, vs⟩⟩
  · cases h.head
  · exact absurd (Option.some_inj.1 (h.head.symm.trans h.last)) hxy
  · simp

/-! ### The array -/

/-- The ids of the current path `vs`, whose deepest node comes first, are in the array. -/
structure Written (f : ℕ → ℕ) (maxPathLen : ℕ) (path vs path' : List ℕ) : Prop where
  length : path'.length = path.length
  drop : path'.drop maxPathLen = path.drop maxPathLen
  take : path'.take (min vs.length maxPathLen) = (vs.reverse.map f).take maxPathLen

namespace Written

variable {f : ℕ → ℕ}

theorem nil : Written f maxPathLen path [] path :=
  ⟨rfl, rfl, by simp⟩

/-- A node is entered. -/
theorem enter (h : Written f maxPathLen path vs path') (hlen : maxPathLen ≤ path.length) (v : ℕ) :
    Written f maxPathLen path (v :: vs) (writePath path' vs.length maxPathLen (f v)) := by
  obtain ⟨hlength, hdrop, htake⟩ := h
  obtain ⟨ids, hids⟩ : ∃ ids, ids = vs.reverse.map f := ⟨_, rfl⟩
  have hn : vs.length = ids.length := by simp [hids]
  have hreverse : (v :: vs).reverse.map f = ids ++ [f v] := by simp [hids]
  rw [hn, ← hids] at htake
  unfold writePath
  rw [hn]
  by_cases hlt : ids.length < maxPathLen
  · rw [if_pos hlt]
    refine ⟨by rw [List.length_set, hlength], by rw [List.drop_set_of_lt hlt, hdrop], ?_⟩
    rw [Nat.min_eq_left hlt.le, List.take_of_length_le (l := ids) hlt.le] at htake
    rw [hreverse, List.length_cons, hn, Nat.min_eq_left hlt, List.take_add_one,
      List.take_set_of_le le_rfl, htake, List.getElem?_set_self (by omega),
      List.take_of_length_le (l := ids ++ [f v]) (by simpa using hlt)]
    rfl
  · rw [if_neg hlt]
    have hle := Nat.not_lt.1 hlt
    refine ⟨hlength, hdrop, ?_⟩
    rw [Nat.min_eq_right hle] at htake
    rw [hreverse, List.length_cons, hn, Nat.min_eq_right (by omega), htake,
      List.take_append_of_le_length hle]

/-- A node is left; its id stays in the array. -/
theorem leave (h : Written f maxPathLen path (v :: vs) path') :
    Written f maxPathLen path vs path' := by
  refine ⟨h.length, h.drop, ?_⟩
  have htake := congrArg (List.take (min vs.length maxPathLen)) h.take
  rw [List.take_take, List.take_take, List.length_cons] at htake
  rw [show min (min vs.length maxPathLen) (min (vs.length + 1) maxPathLen) =
    min vs.length maxPathLen by omega, show min (min vs.length maxPathLen) maxPathLen =
    min maxPathLen vs.length by omega] at htake
  rw [htake, List.reverse_cons, List.map_append, ← List.take_take, List.take_append_of_le_length
    (by simp), List.take_of_length_le (by simp : (vs.reverse.map f).length ≤ vs.length)]

end Written

/-! ### The search -/

/-- The invariant of `FindPath`: its stack, its counter and its array belong to the same path. -/
def DescentInv (r : Rep) (x maxPathLen : ℕ) (path : List ℕ) (s : PathSearch) : Prop :=
  ∃ vs, Frames r.Edge x s.stack vs ∧ s.pathLen = vs.length ∧
    Written r.idOf maxPathLen path vs s.path

theorem findPathBody_descent (hlen : maxPathLen ≤ path.length) (s s' : PathSearch)
    (h : DescentInv r x maxPathLen path s) (hb : r.findPathBody y maxPathLen s = .inl s') :
    DescentInv r x maxPathLen path s' := by
  obtain ⟨stack, seen, pathLen, path'⟩ := s
  obtain ⟨vs, hframes, rfl, hwritten⟩ := h
  rcases stack with _ | ⟨_ | v, stack⟩
  · simp [findPathBody] at hb
  · cases hb
    obtain ⟨v, vs', rfl, hframes'⟩ := hframes.leave
    exact ⟨vs', hframes', rfl, hwritten.leave⟩
  · simp only [findPathBody] at hb
    split_ifs at hb
    cases hb
    obtain ⟨hdescent, hframes'⟩ := hframes.pop
    refine ⟨v :: vs, ?_, rfl, hwritten.enter hlen v⟩
    dsimp only
    rw [(pushUnseen_spec (r.node v).outSet.nodup_elems seen (none :: stack)).2]
    apply (hframes'.enter hdescent).pushAll
    intro w hw
    rw [List.mem_reverse, List.mem_filter] at hw
    exact hw.1

/-- The nodes that can be reached from a live node are live. -/
theorem LiveEdges.live_of_reachable (hl : LiveEdges r) (hx : r.LiveNode x)
    (hv : ReflTransGen r.Edge x v) : r.LiveNode v := by
  rcases hv.cases_tail with rfl | ⟨u, -, huv⟩
  · exact hx
  · exact (hl u v huv).2

/-- A way down from a live node is a path. -/
theorem isPath_of_descent (hr : Inv r m) (hl : LiveEdges r) (hx : r.LiveNode x)
    (h : Descent r.Edge x (y :: vs)) : r.IsPath x y (y :: vs).reverse := by
  obtain ⟨hchain, hhead⟩ := h.reverse
  have hinc : Increasing r.Edge fun v => (r.node v).rank := hr.increasing
  refine ⟨hhead, by simp, hchain, hinc.nodup hchain, fun v hv => ?_⟩
  exact hl.live_of_reachable hx (h.reachable v (List.mem_reverse.1 hv))

/-- **`FindPath`** returns the length of a path and its first ids, or `0` if there is no path. -/
theorem findPath_spec {idx idy : ℕ} (hr : Inv r m) (hl : LiveEdges r)
    (hx : r.LiveNode (nodeIndex idx)) (hfx : (r.findNode idx).isSome = true)
    (hfy : (r.findNode idy).isSome = true) (hlen : maxPathLen ≤ path.length) :
    PathFound r (nodeIndex idx) (nodeIndex idy) maxPathLen path
      (r.findPath idx idy maxPathLen path).1 (r.findPath idx idy maxPathLen path).2 := by
  have hpos := findPath_pos_iff maxPathLen path hfx hfy
  have hinit : DescentInv r (nodeIndex idx) maxPathLen path
      ⟨[some (nodeIndex idx)], NodeSet.empty, 0, path⟩ := ⟨[], .start, rfl, .nil⟩
  suffices H : ∀ len path', r.findPath idx idy maxPathLen path = (len, path') →
      path'.length = path.length ∧ path'.drop maxPathLen = path.drop maxPathLen ∧
        (len ≠ 0 → ∃ vs, r.IsPath (nodeIndex idx) (nodeIndex idy) vs ∧ vs.length = len ∧
          path'.take (min len maxPathLen) = (vs.map r.idOf).take maxPathLen) by
    obtain ⟨hlength, hdrop, hfound⟩ := H _ _ rfl
    exact ⟨hlength, hdrop, by rw [← hpos, Nat.pos_iff_ne_zero, not_not], hfound⟩
  intro len path' hfind
  unfold findPath at hfind
  rw [if_neg (by simp [Option.isNone_iff_eq_none, ← Option.not_isSome_iff_eq_none, hfx, hfy])]
    at hfind
  rw [show len = (len, path').1 from rfl, show path' = (len, path').2 from rfl, ← hfind]
  refine Loop.run_spec (I := DescentInv r (nodeIndex idx) maxPathLen path)
    (Q := fun p => p.2.length = path.length ∧ p.2.drop maxPathLen = path.drop maxPathLen ∧
      (p.1 ≠ 0 → ∃ vs, r.IsPath (nodeIndex idx) (nodeIndex idy) vs ∧ vs.length = p.1 ∧
        p.2.take (min p.1 maxPathLen) = (vs.map r.idOf).take maxPathLen))
    (fun s s' hs hb => findPathBody_descent hlen s s' hs hb) ?_ _ hinit
  rintro ⟨stack, seen, pathLen, path₁⟩ p ⟨vs, hframes, rfl, hwritten⟩ hb
  rcases stack with _ | ⟨_ | v, stack⟩
  · cases hb
    exact ⟨hwritten.length, hwritten.drop, fun hc => absurd rfl hc⟩
  · simp [findPathBody] at hb
  · simp only [findPathBody] at hb
    split_ifs at hb with hvy
    cases hb
    have hwritten' := hwritten.enter hlen v
    refine ⟨hwritten'.length, hwritten'.drop, fun _ => ⟨(v :: vs).reverse, ?_, by simp, ?_⟩⟩
    · rw [← hvy]
      exact isPath_of_descent hr hl hx hframes.pop.1
    · exact hwritten'.take

/-! ### The size of the search -/

/-- The set of the seen nodes has only grown, they can be reached, and all entries of the stack but
one belong to different ones of them. -/
structure SeenBound (r : Rep) (x : ℕ) (seen : NodeSet) (stack : List (Option ℕ)) : Prop where
  grown : seen.Grown
  reached : ∀ v ∈ seen, TransGen r.Edge x v
  entries : ∀ v, some v ∈ stack → ReflTransGen r.Edge x v
  length : stack.length ≤ seen.elems.length + 1

/-- A marker takes the place of the node that is entered. -/
theorem SeenBound.marker {n : ℕ} {seen : NodeSet} {stack : List (Option ℕ)}
    (h : SeenBound r x seen (some n :: stack)) : SeenBound r x seen (none :: stack) := by
  refine ⟨h.grown, h.reached, fun v hv => ?_, h.length⟩
  rcases List.mem_cons.1 hv with heq | hv
  · cases heq
  · exact h.entries v (List.mem_cons_of_mem _ hv)

theorem length_lt_of_encard {α : Type*} [DecidableEq α] {s : Set α} {n : ℕ} {l : List α}
    (h : s.encard < n) (hnodup : l.Nodup) (hl : ∀ a ∈ l, a ∈ s) : l.length < n := by
  have hsub : (l.toFinset : Set α) ⊆ s := fun a ha => hl a (List.mem_toFinset.1 ha)
  have hle := (Set.encard_le_encard hsub).trans_lt h
  rwa [Set.encard_coe_eq_coe_finsetCard, List.toFinset_card_of_nodup hnodup, Nat.cast_lt] at hle

/-- The successors of a node are pushed. -/
theorem SeenBound.push {ws : List ℕ} {seen : NodeSet} {stack : List (Option ℕ)}
    (hfew : {v | TransGen r.Edge x v}.encard < (3 * 2 ^ 29 : ℕ)) (h : SeenBound r x seen stack)
    (hws : ∀ w ∈ ws, TransGen r.Edge x w) :
    SeenFits ws seen stack ∧
      SeenBound r x (pushUnseen ws seen stack).1 (pushUnseen ws seen stack).2 := by
  induction ws generalizing seen stack with
  | nil => exact ⟨trivial, h⟩
  | cons w ws ih =>
    obtain ⟨hw, hws'⟩ := List.forall_mem_cons.1 hws
    rw [SeenFits, pushUnseen_cons]
    by_cases hmem : w ∈ seen
    · have hfit : ¬ seen.Overfills w := fun hover => (h.grown.overfills_iff.1 hover).1 hmem
      rw [NodeSet.insert_of_mem hmem]
      obtain ⟨hfits, hbound⟩ := ih h hws'
      exact ⟨⟨hfit, fun habs => absurd hmem habs, hfits⟩, hbound⟩
    · -- with one more node there are still fewer than can be reached
      have hnodup : (w :: seen.elems).Nodup := List.nodup_cons.2 ⟨hmem, seen.nodup_elems⟩
      have hlt : seen.elems.length + 1 < 3 * 2 ^ 29 :=
        length_lt_of_encard hfew hnodup (List.forall_mem_cons.2 ⟨hw, h.reached⟩)
      have hfit : ¬ seen.Overfills w := fun hover => hlt.ne (h.grown.overfills_iff.1 hover).2
      have hins : (seen.insert w).2 = true := NodeSet.insert_snd.2 hmem
      have hroom : stack.length < maxVecSize := by
        have := h.length
        unfold maxVecSize
        omega
      have hnext : SeenBound r x (seen.insert w).1 (some w :: stack) := by
        refine ⟨h.grown.insert hfit, fun v hv => ?_, fun v hv => ?_, ?_⟩
        · rcases NodeSet.mem_insert.1 hv with rfl | hv
          · exact hw
          · exact h.reached v hv
        · rcases List.mem_cons.1 hv with heq | hv
          · cases heq
            exact hw.to_reflTransGen
          · exact h.entries v hv
        · rw [NodeSet.length_elems_insert hmem, List.length_cons]
          exact Nat.succ_le_succ h.length
      rw [if_pos hins]
      obtain ⟨hfits, hbound⟩ := ih hnext hws'
      exact ⟨⟨hfit, fun _ => hroom, hfits⟩, hbound⟩

/-- **`FindPath`** has room if few nodes can be reached. -/
theorem findPathFits_of_few {idx idy : ℕ}
    (hfew : {v | TransGen r.Edge (nodeIndex idx) v}.encard < (3 * 2 ^ 29 : ℕ)) :
    r.FindPathFits idx idy maxPathLen path := by
  intro _ _ s hreach
  have hbound : SeenBound r (nodeIndex idx) s.seen s.stack := by
    induction hreach with
    | refl =>
      refine ⟨NodeSet.grown_empty, fun v hv => absurd hv (NodeSet.not_mem_empty v), fun v hv => ?_,
        le_rfl⟩
      cases List.mem_singleton.1 hv
      exact .refl
    | @tail s s' _ hb ih =>
      obtain ⟨stack, seen, pathLen, path'⟩ := s
      rcases stack with _ | ⟨_ | n, stack⟩
      · simp [findPathBody] at hb
      · cases hb
        exact ⟨ih.grown, ih.reached, fun v hv => ih.entries v (List.mem_cons_of_mem _ hv),
          (Nat.le_succ _).trans ih.length⟩
      · simp only [findPathBody] at hb
        split_ifs at hb
        cases hb
        exact (ih.marker.push hfew fun w hw => .tail' (ih.entries n List.mem_cons_self) hw).2
  obtain ⟨stack, seen, pathLen, path'⟩ := s
  rintro n stack' rfl
  have hlt : seen.elems.length < 3 * 2 ^ 29 :=
    length_lt_of_encard hfew seen.nodup_elems hbound.reached
  refine ⟨?_, fun _ => (hbound.marker.push hfew fun w hw =>
    .tail' (hbound.entries n List.mem_cons_self) hw).1⟩
  have hle : stack'.length + 1 ≤ seen.elems.length + 1 := hbound.length
  unfold maxVecSize
  omega

/-- In a small graph few nodes can be reached. -/
theorem EdgesInv.encard_reachable_le (hr : EdgesInv r) (x : ℕ) :
    {v | TransGen r.Edge x v}.encard ≤ r.nodes.length := by
  have hsub : {v | TransGen r.Edge x v} ⊆ (Finset.range r.nodes.length : Set ℕ) := by
    intro v hv
    obtain ⟨u, -, huv⟩ := TransGen.tail'_iff.1 hv
    exact Finset.mem_coe.2 (Finset.mem_range.2 (hr.used u v huv).2.1)
  have hle := Set.encard_le_encard hsub
  rwa [Set.encard_coe_eq_coe_finsetCard, Finset.card_range] at hle

/-- **`FindPath`** with its set and its stack of 32 bits returns. -/
theorem findPath32_spec {idx idy : ℕ} (hr : Inv r m) (hl : LiveEdges r)
    (hx : r.LiveNode (nodeIndex idx)) (hfx : (r.findNode idx).isSome = true)
    (hfy : (r.findNode idy).isSome = true) (hlen : maxPathLen ≤ path.length)
    (hfew : {v | TransGen r.Edge (nodeIndex idx) v}.encard < (3 * 2 ^ 29 : ℕ)) :
    ∃ len path', r.findPath32 idx idy maxPathLen path = some (len, path') ∧
      PathFound r (nodeIndex idx) (nodeIndex idy) maxPathLen path len path' :=
  ⟨_, _, findPath32_of_fits (findPathFits_of_few hfew), findPath_spec hr hl hx hfx hfy hlen⟩

end Rep

end BugInsight

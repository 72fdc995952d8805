import BugInsight.GraphCycles.Registrations

/-!
# CheckInvariants

The self-check of the lock graph goes through all nodes: a node that has a pointer is found under
it, no mark is left, no rank occurs twice, and ranks increase along the edges.

* `checkInvariants_iff`: what the loop over the nodes checks;
* `checkInvariants_of_reached`: the check passes after every sequence of operations, if the set of
  the ranks does not get too large, and a graph that passes it has no cycle.
-/

open Relation

namespace BugInsight

namespace Rep

/-- The body of the loop of `CheckInvariants` over the nodes; `none` is an assertion that fails, a
search in the pointer map that does not end, or a set of ranks that is too large. -/
def checkNode (r : Rep) (ranks : NodeSet) (x : ℕ) : Option NodeSet :=
  let nx := r.node x
  if nx.maskedPtr ≠ nullptr ∧ r.find nx.maskedPtr ≠ some (some x) then none
  else if nx.visited then none
  else do
    let (ranks, inserted) ← ranks.insert32 nx.rank
    if inserted = false then none
    else if nx.outSet.elems.any fun y => (r.node y).rank ≤ nx.rank then none
    else some ranks

/-- `CheckInvariants`. -/
def checkInvariants (r : Rep) : Option Bool :=
  ((List.range r.nodes.length).foldlM r.checkNode NodeSet.empty).map fun _ => true

variable {r r' : Rep} {m : ℕ → Option ℕ} {ranks ranks' : NodeSet} {x : ℕ}

/-- What is checked of one node by itself. -/
structure NodeChecked (r : Rep) (x : ℕ) : Prop where
  find : (r.node x).maskedPtr ≠ nullptr → r.find (r.node x).maskedPtr = some (some x)
  unvisited : (r.node x).visited = false
  increasing : ∀ y, r.Edge x y → (r.node x).rank < (r.node y).rank

/-- One node passes if its rank did not occur before, and the set has room for it. -/
theorem checkNode_eq_some : r.checkNode ranks x = some ranks' ↔
    r.NodeChecked x ∧ (r.node x).rank ∉ ranks ∧ ¬ ranks.Overfills (r.node x).rank ∧
      ranks' = (ranks.insert (r.node x).rank).1 := by
  have hedges : ((r.node x).outSet.elems.any fun y => (r.node y).rank ≤ (r.node x).rank) = true ↔
      ¬ ∀ y, r.Edge x y → (r.node x).rank < (r.node y).rank := by
    simp [Edge]
  unfold checkNode
  dsimp only
  by_cases hover : ranks.Overfills (r.node x).rank
  · simp only [NodeSet.insert32_overfills hover, Option.bind_eq_bind, Option.bind_none]
    refine iff_of_false (fun h => ?_) fun h => h.2.2.1 hover
    split_ifs at h
  · simp only [NodeSet.insert32_of_fits hover, Option.bind_eq_bind, Option.bind_some]
    constructor
    · intro h
      split_ifs at h with hfind hvisited hinserted hrank
      cases h
      rw [not_and_not_right] at hfind
      rw [hedges, not_not] at hrank
      refine ⟨⟨hfind, Bool.eq_false_iff.2 hvisited, hrank⟩, ?_, hover, rfl⟩
      exact NodeSet.insert_snd.1 (Bool.not_eq_false _ ▸ hinserted)
    · rintro ⟨hx, hrank, -, rfl⟩
      rw [if_neg fun hc => hc.2 (hx.find hc.1), if_neg (by rw [hx.unvisited]; decide),
        if_neg (by rw [NodeSet.insert_snd.2 hrank]; decide),
        if_neg fun hc => hedges.1 hc hx.increasing]

/-- The loop over some of the nodes. -/
theorem foldlM_checkNode {xs : List ℕ} (hranks : ranks.Grown) :
    (xs.foldlM r.checkNode ranks).isSome = true ↔
      (∀ x ∈ xs, r.NodeChecked x ∧ (r.node x).rank ∉ ranks) ∧
        (xs.map fun x => (r.node x).rank).Nodup ∧
        ranks.elems.length + xs.length < 3 * 2 ^ 29 := by
  induction xs generalizing ranks with
  | nil => simpa using hranks.length_lt
  | cons x xs ih =>
    rw [List.foldlM_cons, List.map_cons, List.nodup_cons, List.forall_mem_cons, List.length_cons]
    have hover : (r.node x).rank ∉ ranks → (ranks.Overfills (r.node x).rank ↔
        ranks.elems.length + 1 = 3 * 2 ^ 29) := fun hrank => by
      rw [hranks.overfills_iff, and_iff_right hrank]
    cases hx : r.checkNode ranks x with
    | none =>
      refine iff_of_false (by simp) fun h => ?_
      have hfit : ¬ ranks.Overfills (r.node x).rank := fun hc => by
        have := (hover h.1.1.2).1 hc
        omega
      rw [checkNode_eq_some.2 ⟨h.1.1.1, h.1.1.2, hfit, rfl⟩] at hx
      cases hx
    | some ranks' =>
      obtain ⟨hchecked, hrank, hfit, rfl⟩ := checkNode_eq_some.1 hx
      show (xs.foldlM r.checkNode (ranks.insert (r.node x).rank).1).isSome = true ↔ _
      rw [ih (hranks.insert hfit), NodeSet.length_elems_insert hrank]
      simp only [NodeSet.mem_insert, not_or, List.mem_map, not_exists, not_and]
      grind

/-- **What `CheckInvariants` checks.** -/
theorem checkInvariants_iff : r.checkInvariants = some true ↔
    (∀ x < r.nodes.length, r.NodeChecked x) ∧
      Set.InjOn (fun i => (r.node i).rank) {i | i < r.nodes.length} ∧
      r.nodes.length < 3 * 2 ^ 29 := by
  have hsome : r.checkInvariants = some true ↔
      ((List.range r.nodes.length).foldlM r.checkNode NodeSet.empty).isSome = true := by
    unfold checkInvariants
    cases (List.range r.nodes.length).foldlM r.checkNode NodeSet.empty <;> simp
  have hempty : NodeSet.empty.elems.length = 0 := rfl
  rw [hsome, foldlM_checkNode NodeSet.grown_empty, List.nodup_map_iff_inj_on List.nodup_range,
    hempty, List.length_range, Nat.zero_add]
  simp only [List.mem_range, NodeSet.not_mem_empty, not_false_iff, and_true]
  refine and_congr_right fun _ => and_congr_left fun _ => ?_
  exact ⟨fun h i hi j hj => h i hi j hj, fun h i hi j hj => h hi hj⟩

/-- The invariant of the graph passes the check, unless there are too many nodes. -/
theorem Inv.checkInvariants_iff (h : Inv r m) :
    r.checkInvariants = some true ↔ r.nodes.length < 3 * 2 ^ 29 := by
  rw [Rep.checkInvariants_iff, and_iff_right h.rank_inj, and_iff_right]
  refine fun x hx => ⟨fun hptr => ?_, h.unvisited x, h.increasing x⟩
  -- a node with a pointer is mapped
  obtain ⟨p, hp⟩ : ∃ p, m p = some x := by
    by_contra hc
    exact hptr (h.null x fun p hp => hc ⟨p, hp⟩)
  rw [h.map.maskedPtr hp, h.map.find, hp]

/-- Ranks increase along the edges of a graph that passes. -/
theorem increasing_of_checkInvariants (h : r.checkInvariants = some true) :
    TopoOrder.Increasing r.Edge fun v => (r.node v).rank := by
  intro v w hvw
  by_cases hv : v < r.nodes.length
  · exact ((checkInvariants_iff.1 h).1 v hv).increasing w hvw
  · rw [Edge, node_eq_default (Nat.not_lt.1 hv)] at hvw
    exact absurd hvw (NodeSet.not_mem_empty w)

/-- **`CheckInvariants` never fails** in a graph of fewer than `3 * 2 ^ 29` nodes: it passes after
every sequence of operations.  And it is enough to pass it: no graph that does has a cycle. -/
theorem checkInvariants_of_reached :
    (∀ {h : History} {r : Rep}, Reached32 h r →
      (r.checkInvariants = some true ↔ r.nodes.length < 3 * 2 ^ 29)) ∧
      ∀ r : Rep, r.checkInvariants = some true → ∀ v, ¬ TransGen r.Edge v v := by
  refine ⟨fun hrun => ?_, fun r h v => (increasing_of_checkInvariants h).acyclic v⟩
  obtain ⟨m, ht⟩ := hrun.reached.tracked
  exact ht.inv.checkInvariants_iff

/-- Two locks, and an edge that is rejected because the other direction is there. -/
theorem checkInvariants_of_reached_two : ∃ h r, Reached32 h r ∧
    (.insertEdge 4294967297 4294967296, .bool false) ∈ h ∧
    r.hasEdge 4294967296 4294967297 = true ∧ r.checkInvariants = some true ∧
    ∀ v, ¬ TransGen r.Edge v v := by
  obtain ⟨r, hr, hedge, hlen⟩ : ∃ r, Reached32 [(.getId 1 16, .id 4294967296),
      (.getId 1 32, .id 4294967297), (.insertEdge 4294967296 4294967297, .bool true),
      (.insertEdge 4294967297 4294967296, .bool false)] r ∧
      r.hasEdge 4294967296 4294967297 = true ∧ r.nodes.length < 3 * 2 ^ 29 := by
    refine ⟨_, .step (.step (.step (.step .nil ?_ rfl) ?_ rfl) ?_ rfl) ?_ rfl, by decide +kernel,
      by decide +kernel⟩
    · simp [Op.ids]
    · simp [Op.ids]
    · simp [Op.ids, History.issued]
    · simp [Op.ids, History.issued]
  have hpass := (checkInvariants_of_reached.1 hr).2 hlen
  exact ⟨_, r, hr, by simp, hedge, hpass, checkInvariants_of_reached.2 r hpass⟩

end Rep

end BugInsight

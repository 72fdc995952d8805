import BugInsight.GraphCycles.Nodes

/-!
# RemoveEdge and InsertEdge

The operations on edges keep the invariant.  `insertEdge_spec` says that `InsertEdge` between two
nodes in use adds the edge unless that would close a cycle, and reports which: the two searches
collect the affected nodes of `TopoOrder.Affected`, and `Reorder` gives them new ranks as in
`TopoOrder.Reordered`.
-/

open Relation TopoOrder

namespace BugInsight

namespace Rep

variable {r r' : Rep} {m : ℕ → Option ℕ} {x y : ℕ}

/-! ### Adding and erasing both halves of an edge -/

/-- A field that neither half of an edge touches. -/
theorem field_addEdge {α : Type*} (g : Node → α) (hin : ∀ n f, g (Node.updateIn f n) = g n)
    (hout : ∀ n f, g (Node.updateOut f n) = g n) (r : Rep) (x y j : ℕ) :
    g ((r.addEdge x y).node j) = g (r.node j) := by
  unfold addEdge
  rw [field_modifyNode _ y j _ g fun n => hin n _, field_modifyNode r x j _ g fun n => hout n _]

theorem field_eraseEdge {α : Type*} (g : Node → α) (hin : ∀ n f, g (Node.updateIn f n) = g n)
    (hout : ∀ n f, g (Node.updateOut f n) = g n) (r : Rep) (x y j : ℕ) :
    g ((r.eraseEdge x y).node j) = g (r.node j) := by
  unfold eraseEdge
  rw [field_modifyNode _ y j _ g fun n => hin n _, field_modifyNode r x j _ g fun n => hout n _]

theorem outSet_addEdge (hx : x < r.nodes.length) (v w : ℕ) :
    w ∈ ((r.addEdge x y).node v).outSet ↔ w ∈ (r.node v).outSet ∨ v = x ∧ w = y := by
  unfold addEdge
  rw [field_modifyNode _ y v (.updateIn fun s => (s.insert x).1) Node.outSet fun n => rfl,
    node_modifyNode]
  by_cases hv : x = v
  · subst hv
    simp [Node.updateOut, hx, or_comm]
  · simp [hv, Ne.symm hv]

theorem inSet_addEdge (hy : y < r.nodes.length) (v w : ℕ) :
    v ∈ ((r.addEdge x y).node w).inSet ↔ v ∈ (r.node w).inSet ∨ v = x ∧ w = y := by
  unfold addEdge
  rw [node_modifyNode, length_modifyNode]
  have hin : ((r.modifyNode x (.updateOut fun s => (s.insert y).1)).node w).inSet =
      (r.node w).inSet := field_modifyNode r x w _ Node.inSet fun n => rfl
  by_cases hw : y = w
  · subst hw
    simp [Node.updateIn, hy, hin, or_comm]
  · simp [hw, Ne.symm hw, hin]

theorem outSet_eraseEdge (v w : ℕ) :
    w ∈ ((r.eraseEdge x y).node v).outSet ↔ w ∈ (r.node v).outSet ∧ ¬ (v = x ∧ w = y) := by
  unfold eraseEdge
  rw [field_modifyNode _ y v (.updateIn (·.erase x)) Node.outSet fun n => rfl, node_modifyNode]
  by_cases hv : x = v
  · subst hv
    by_cases hx : x < r.nodes.length
    · simp [Node.updateOut, hx, and_comm]
    · have : w ∉ (r.node x).outSet := by
        rw [node_eq_default (Nat.not_lt.1 hx)]
        exact NodeSet.not_mem_empty w
      simp [hx, this]
  · simp [hv, Ne.symm hv]

theorem inSet_eraseEdge (v w : ℕ) :
    v ∈ ((r.eraseEdge x y).node w).inSet ↔ v ∈ (r.node w).inSet ∧ ¬ (v = x ∧ w = y) := by
  unfold eraseEdge
  rw [node_modifyNode, length_modifyNode]
  have hin : ((r.modifyNode x (.updateOut (·.erase y))).node w).inSet = (r.node w).inSet :=
    field_modifyNode r x w _ Node.inSet fun n => rfl
  by_cases hw : y = w
  · subst hw
    by_cases hy : y < r.nodes.length
    · simp [Node.updateIn, hy, hin, and_comm]
    · have : v ∉ (r.node y).inSet := by
        rw [node_eq_default (Nat.not_lt.1 hy)]
        exact NodeSet.not_mem_empty v
      simp [hy, hin, this]
  · simp [hw, Ne.symm hw, hin]

/-! ### Keeping the edges in order -/

/-- A step that leaves the nodes alone and has edges, ranks and marks in order keeps the
invariant. -/
theorem SameNodes.inv (h : SameNodes r r') (hr : Inv r m)
    (hunvisited : ∀ i, (r'.node i).visited = false)
    (hlt : ∀ i < r.nodes.length, (r'.node i).rank < r.nodes.length)
    (hinj : Set.InjOn (fun i => (r'.node i).rank) {i | i < r.nodes.length})
    (hmirror : ∀ v w, v ∈ (r'.node w).inSet ↔ r'.Edge v w)
    (hused : ∀ v w, r'.Edge v w → r.Used v ∧ r.Used w)
    (hinc : Increasing r'.Edge fun v => (r'.node v).rank) : Inv r' m where
  toNodesInv := h.nodesInv hr.toNodesInv
  unvisited := hunvisited
  rank_lt := by rw [h.length]; exact hlt
  rank_inj := by rw [h.length]; exact hinj
  mirror := hmirror
  used := fun v w hvw => by rw [h.used, h.used]; exact hused v w hvw
  increasing := hinc

/-- Erasing edges keeps the invariant. -/
theorem eraseEdge_inv (h : Inv r m) (x y : ℕ) :
    Inv (r.eraseEdge x y) m ∧
      ∀ v w, (r.eraseEdge x y).Edge v w ↔ r.Edge v w ∧ ¬ (v = x ∧ w = y) := by
  have hedge : ∀ v w, (r.eraseEdge x y).Edge v w ↔ r.Edge v w ∧ ¬ (v = x ∧ w = y) :=
    outSet_eraseEdge
  have hrank := field_eraseEdge Node.rank (fun _ _ => rfl) (fun _ _ => rfl) r x y
  refine ⟨(sameNodes_eraseEdge r x y).inv h (fun i => ?_) (fun i hi => ?_) ?_ (fun v w => ?_)
    (fun v w hvw => h.used v w ((hedge v w).1 hvw).1) (fun v w hvw => ?_), hedge⟩
  · rw [field_eraseEdge Node.visited (fun _ _ => rfl) fun _ _ => rfl]
    exact h.unvisited i
  · rw [hrank]
    exact h.rank_lt i hi
  · simp only [hrank]
    exact h.rank_inj
  · rw [inSet_eraseEdge, hedge, h.mirror]
  · dsimp only
    rw [hrank, hrank]
    exact h.increasing v w ((hedge v w).1 hvw).1

/-- **`RemoveEdge`** removes exactly the edge between the nodes of two ids that are found. -/
theorem removeEdge_spec (h : Inv r m) (idx idy : ℕ) :
    Inv (r.removeEdge idx idy) m ∧ SameNodes r (r.removeEdge idx idy) ∧
      ∀ v w, (r.removeEdge idx idy).Edge v w ↔ r.Edge v w ∧
        ¬ ((r.findNode idx).isSome = true ∧ (r.findNode idy).isSome = true ∧
          v = nodeIndex idx ∧ w = nodeIndex idy) := by
  unfold removeEdge
  cases hx : r.findNode idx with
  | none => exact ⟨h, SameNodes.rfl, fun v w => by simp⟩
  | some nx =>
    cases hy : r.findNode idy with
    | none => exact ⟨h, SameNodes.rfl, fun v w => by simp⟩
    | some ny =>
      obtain ⟨hinv, hedge⟩ := eraseEdge_inv h (nodeIndex idx) (nodeIndex idy)
      exact ⟨hinv, sameNodes_eraseEdge .., fun v w => by simpa using hedge v w⟩

/-! ### Reordering -/

section Reorder

variable {B F : List ℕ}

theorem sort_perm (r : Rep) (l : List ℕ) : (r.sort l).Perm l := List.perm_insertionSort _ l

/-- `Sort` sorts strictly when the ranks differ. -/
theorem sort_sorted {l : List ℕ} (hnd : l.Nodup)
    (hinj : ∀ v ∈ l, ∀ w ∈ l, (r.node v).rank = (r.node w).rank → v = w) :
    (r.sort l).Pairwise fun v w => (r.node v).rank < (r.node w).rank := by
  have hperm := r.sort_perm l
  have hle : (r.sort l).Pairwise fun v w => (r.node v).rank ≤ (r.node w).rank := by
    have : Std.Total fun v w => (r.node v).rank ≤ (r.node w).rank := ⟨fun v w => Nat.le_total _ _⟩
    have : IsTrans ℕ fun v w => (r.node v).rank ≤ (r.node w).rank :=
      ⟨fun _ _ _ h1 h2 => Nat.le_trans h1 h2⟩
    exact List.pairwise_insertionSort _ l
  have hne : (r.sort l).Pairwise fun v w => v ≠ w := hperm.nodup_iff.2 hnd
  refine (hle.and hne).imp_of_mem fun hv hw hvw => lt_of_le_of_ne hvw.1 fun heq => hvw.2 ?_
  exact hinj _ (hperm.mem_iff.1 hv) _ (hperm.mem_iff.1 hw) heq

/-- Assigning as many ranks as there are nodes in the list. -/
theorem assignRanks_spec (r : Rep) {list : List ℕ} (merged : List ℕ) (hnd : list.Nodup)
    (hlt : ∀ v ∈ list, v < r.nodes.length) (hlen : list.length = merged.length) :
    (list.map fun v => ((r.assignRanks list merged).node v).rank) = merged ∧
      ∀ v, v ∉ list → (r.assignRanks list merged).node v = r.node v := by
  unfold assignRanks
  induction list generalizing r merged with
  | nil => exact ⟨(List.length_eq_zero_iff.1 hlen.symm).symm, fun v _ => rfl⟩
  | cons u list ih =>
    cases merged with
    | nil => simp at hlen
    | cons k merged =>
      obtain ⟨hu, hnd'⟩ := List.nodup_cons.1 hnd
      obtain ⟨hmap, hsame⟩ := ih (r.modifyNode u (.setRank k)) merged hnd'
        (fun v hv => by rw [length_modifyNode]; exact hlt v (List.mem_cons_of_mem u hv))
        (by simpa using hlen)
      rw [List.zip_cons_cons, List.foldl_cons]
      refine ⟨?_, fun v hv => ?_⟩
      · rw [List.map_cons, hmap, hsame u hu, node_modifyNode_self (hlt u (by simp))]
        rfl
      · rw [List.mem_cons, not_or] at hv
        rw [hsame v hv.2, node_modifyNode_of_ne (Ne.symm hv.1)]

/-- Clearing marks. -/
theorem visited_clear {l : List ℕ} (hnd : l.Nodup) (v : ℕ) :
    ((r.setVisited false l).node v).visited = if v ∈ l then false else (r.node v).visited := by
  rw [node_setVisited hnd]
  by_cases hv : v ∈ l
  · by_cases hlt : v < r.nodes.length
    · rw [if_pos ⟨hv, hlt⟩, if_pos hv]
      rfl
    · rw [if_neg fun hc => hlt hc.2, if_pos hv, node_eq_default (Nat.not_lt.1 hlt)]
      rfl
  · rw [if_neg fun hc => hv hc.1, if_neg hv]

/-- A field other than the rank and the visited mark. -/
theorem field_reorder {α : Type*} (g : Node → α) (hrank : ∀ n k, g (Node.setRank k n) = g n)
    (hvisited : ∀ n b, g (Node.setVisited b n) = g n) (r : Rep) (B F : List ℕ) (j : ℕ) :
    g ((r.reorder B F).node j) = g (r.node j) := by
  unfold reorder assignRanks
  rw [field_foldl g _ fun r p k => field_modifyNode r p.1 k _ g fun n => hrank n _]
  exact (field_setVisited g hvisited _ _ _ j).trans (field_setVisited g hvisited _ _ _ j)

/-- **`Reorder`** exchanges the ranks of the two lists, the first list in front, and clears the
marks. -/
theorem reorder_spec (hnd : (B ++ F).Nodup) (hlt : ∀ v ∈ B ++ F, v < r.nodes.length)
    (hinj : Set.InjOn (fun i => (r.node i).rank) {i | i < r.nodes.length}) :
    Reordered (fun v => (r.node v).rank) (fun v => ((r.reorder B F).node v).rank)
        (r.sort B ++ r.sort F) ∧
      ∀ v, ((r.reorder B F).node v).visited =
        if v ∈ B ++ F then false else (r.node v).visited := by
  set B' := r.sort B with hB'
  set F' := r.sort F with hF'
  set r₁ := r.setVisited false B' with hr₁
  set r₂ := r₁.setVisited false F' with hr₂
  set merged := (B'.map fun v => (r.node v).rank).merge (F'.map fun v => (r₁.node v).rank) with hm
  have hr : r.reorder B F = r₂.assignRanks (B' ++ F') merged := rfl
  have hperm : (B' ++ F').Perm (B ++ F) := (r.sort_perm B).append (r.sort_perm F)
  have hnd' : (B' ++ F').Nodup := hperm.nodup_iff.2 hnd
  have hlt' : ∀ v ∈ B' ++ F', v < r.nodes.length := fun v hv => hlt v (hperm.mem_iff.1 hv)
  have hrank₁ : ∀ v, (r₁.node v).rank = (r.node v).rank := fun v =>
    field_setVisited Node.rank (fun _ _ => rfl) _ _ _ v
  have hrank₂ : ∀ v, (r₂.node v).rank = (r.node v).rank := fun v =>
    (field_setVisited Node.rank (fun _ _ => rfl) _ _ _ v).trans (hrank₁ v)
  have hlen₂ : r₂.nodes.length = r.nodes.length :=
    (sameShape_setVisited _ _ _).length.trans (sameShape_setVisited _ _ _).length
  simp only [hrank₁] at hm
  have hinjOn : ∀ l : List ℕ, (∀ v ∈ l, v < r.nodes.length) → ∀ v ∈ l, ∀ w ∈ l,
      (r.node v).rank = (r.node w).rank → v = w := fun l hl v hv w hw heq =>
    hinj (hl v hv) (hl w hw) heq
  obtain ⟨hndB, hndF, -⟩ := List.nodup_append.1 hnd
  have hsB : (B'.map fun v => (r.node v).rank).Pairwise (· ≤ ·) := by
    rw [List.pairwise_map]
    exact (sort_sorted hndB (hinjOn B fun v hv => hlt v (List.mem_append_left F hv))).imp le_of_lt
  have hsF : (F'.map fun v => (r.node v).rank).Pairwise (· ≤ ·) := by
    rw [List.pairwise_map]
    exact (sort_sorted hndF (hinjOn F fun v hv => hlt v (List.mem_append_right B hv))).imp le_of_lt
  have hmperm : merged.Perm ((B' ++ F').map fun v => (r.node v).rank) := by
    rw [hm, List.map_append]
    exact List.merge_perm_append _
  have hmle : merged.Pairwise (· ≤ ·) := by
    rw [hm]
    exact hsB.merge hsF
  have hmnd : merged.Nodup :=
    hmperm.nodup_iff.2 (hnd'.map_on fun v hv w hw heq => hinj (hlt' v hv) (hlt' w hw) heq)
  have hmlt : merged.Pairwise (· < ·) := (hmle.and hmnd).imp fun hab => lt_of_le_of_ne hab.1 hab.2
  obtain ⟨hmap, hsame⟩ := assignRanks_spec r₂ merged hnd' (fun v hv => hlen₂ ▸ hlt' v hv)
    (by rw [hmperm.length_eq, List.length_map])
  rw [← hr] at hmap hsame
  refine ⟨⟨?_, ?_, fun v hv => ?_⟩, fun v => ?_⟩
  · rw [hmap]
    exact hmperm
  · rw [← hmap, List.pairwise_map] at hmlt
    exact hmlt
  · rw [hsame v hv, hrank₂]
  · have hvisited : ((r.reorder B F).node v).visited = (r₂.node v).visited := by
      rw [hr]
      exact field_foldl Node.visited _
        (fun r p k => field_modifyNode r p.1 k (.setRank p.2) Node.visited fun _ => rfl) _ _ v
    obtain ⟨hndB', hndF', -⟩ := List.nodup_append.1 hnd'
    rw [hvisited, hr₂, visited_clear hndF', hr₁, visited_clear hndB', ← ite_or]
    have hmem : v ∈ F' ∨ v ∈ B' ↔ v ∈ B ++ F := by
      rw [← hperm.mem_iff, List.mem_append, or_comm]
    simp only [hmem]

end Reorder

/-! ### InsertEdge -/

/-- What `InsertEdge` does between the nodes `x` and `y`, with result `b`. -/
structure EdgeInserted (r : Rep) (m : ℕ → Option ℕ) (x y : ℕ) (r' : Rep) (b : Bool) : Prop where
  inv : Inv r' m
  same : SameNodes r r'
  edge : ∀ v w, r'.Edge v w ↔ r.Edge v w ∨ b = true ∧ v = x ∧ w = y
  rejected : b = false ↔ x = y ∨ ReflTransGen r.Edge y x

/-- Once the edge is there, it closes no cycle. -/
theorem not_reachable_of_edge (hinv : Inv r' m) (hxy : r'.Edge x y)
    (hsub : ∀ v w, r.Edge v w → r'.Edge v w) : ¬ (x = y ∨ ReflTransGen r.Edge y x) := by
  rintro (rfl | hyx)
  · exact lt_irrefl _ (hinv.increasing x x hxy)
  · exact hinv.increasing.acyclic x
      (TransGen.head' hxy (ReflTransGen.mono hsub _ _ hyx))

section Insert

/-- What `ForwardDFS` returns on the graph with the new edge. -/
abbrev ForwardSpec (r : Rep) (x y : ℕ) : Rep → List ℕ → Bool → Prop :=
  DfsSpec .forward (fun n => decide (n.rank = (r.node x).rank))
    (fun n => decide (n.rank < (r.node x).rank)) (r.addEdge x y) y

/-- What `BackwardDFS` returns after it. -/
abbrev BackwardSpec (r : Rep) (x y : ℕ) (r₂ : Rep) : Rep → List ℕ → Bool → Prop :=
  DfsSpec .backward (fun _ => false) (fun n => decide ((r.node y).rank < n.rank)) r₂ x

variable (h : Inv r m) (hx : r.Used x) (hy : r.Used y)

include h hx hy

/-- The new edge agrees with the ranks. -/
theorem addEdge_of_le (hne : x ≠ y) (hlt : (r.node x).rank ≤ (r.node y).rank) :
    EdgeInserted r m x y (r.addEdge x y) true := by
  have hedge : ∀ v w, (r.addEdge x y).Edge v w ↔ r.Edge v w ∨ v = x ∧ w = y :=
    outSet_addEdge hx.1
  have hrank := field_addEdge Node.rank (fun _ _ => rfl) (fun _ _ => rfl) r x y
  have hinv : Inv (r.addEdge x y) m := by
    refine (sameNodes_addEdge r x y).inv h (fun i => ?_) (fun i hi => ?_) ?_ (fun v w => ?_)
      (fun v w hvw => ?_) (fun v w hvw => ?_)
    · rw [field_addEdge Node.visited (fun _ _ => rfl) fun _ _ => rfl]
      exact h.unvisited i
    · rw [hrank]
      exact h.rank_lt i hi
    · simp only [hrank]
      exact h.rank_inj
    · rw [inSet_addEdge hy.1, hedge, h.mirror]
    · rcases (hedge v w).1 hvw with hvw | ⟨rfl, rfl⟩
      · exact h.used v w hvw
      · exact ⟨hx, hy⟩
    · dsimp only
      rw [hrank, hrank]
      rcases (hedge v w).1 hvw with hvw | ⟨rfl, rfl⟩
      · exact h.increasing v w hvw
      · exact lt_of_le_of_ne hlt fun heq => hne (h.rank_inj hx.1 hy.1 heq)
  refine ⟨hinv, sameNodes_addEdge r x y, fun v w => by simpa using hedge v w, ?_⟩
  have hno := not_reachable_of_edge hinv ((hedge x y).2 (Or.inr ⟨rfl, rfl⟩))
    fun v w hvw => (hedge v w).2 (Or.inl hvw)
  simp [hno]

/-- What `ForwardDFS` reaches in the graph with the new edge. -/
theorem forward_reach (hlt : (r.node y).rank < (r.node x).rank) {v : ℕ}
    (hv : ReflTransGen ((r.addEdge x y).Follows .forward
      fun n => decide (n.rank < (r.node x).rank)) y v) :
    v < r.nodes.length ∧ (r.node v).rank < (r.node x).rank ∧ (r.node y).rank ≤ (r.node v).rank ∧
      ReflTransGen r.Edge y v := by
  have hrank := field_addEdge Node.rank (fun _ _ => rfl) (fun _ _ => rfl) r x y
  induction hv with
  | refl => exact ⟨hy.1, hlt, le_rfl, ReflTransGen.refl⟩
  | @tail v w _ hvw ih =>
    obtain ⟨-, hvx, hyv, hpath⟩ := ih
    obtain ⟨hout, hkeep, -⟩ := hvw
    rw [decide_eq_true_eq, hrank] at hkeep
    rcases (outSet_addEdge hx.1 v w).1 hout with hedge | ⟨rfl, -⟩
    · exact ⟨(h.used v w hedge).2.1, hkeep, hyv.trans (h.increasing v w hedge).le,
        hpath.tail hedge⟩
    · exact absurd hvx (lt_irrefl _)

theorem lt_of_mem_next (d : Direction) (v w : ℕ)
    (hw : w ∈ d.next ((r.addEdge x y).node v)) : w < (r.addEdge x y).nodes.length := by
  rw [(sameNodes_addEdge r x y).length]
  cases d with
  | forward =>
    rcases (outSet_addEdge hx.1 v w).1 hw with hedge | ⟨-, rfl⟩
    · exact (h.used v w hedge).2.1
    · exact hy.1
  | backward =>
    rcases (inSet_addEdge hy.1 w v).1 hw with hin | ⟨rfl, -⟩
    · exact (h.used w v ((h.mirror w v).1 hin)).1.1
    · exact hx.1

/-- `ForwardDFS` on the graph with the new edge. -/
theorem forwardDFS_addEdge :
    ForwardSpec r x y ((r.addEdge x y).forwardDFS y (r.node x).rank).1
      ((r.addEdge x y).forwardDFS y (r.node x).rank).2.1
      ((r.addEdge x y).forwardDFS y (r.node x).rank).2.2 := by
  refine dfs_spec (fun _ _ => rfl) (fun _ _ => rfl) ?_ ?_ (lt_of_mem_next h hx hy .forward)
  · rw [(sameNodes_addEdge r x y).length]
    exact hy.1
  · rw [field_addEdge Node.visited (fun _ _ => rfl) fun _ _ => rfl]
    exact h.unvisited y

/-- `ForwardDFS` has found a cycle, and the edge is taken back. -/
theorem insertEdge_rejected (hlt : (r.node y).rank < (r.node x).rank) {r₂ : Rep} {F : List ℕ}
    (hnew : ¬ r.Edge x y) (hF : ForwardSpec r x y r₂ F false) :
    EdgeInserted r m x y ((r₂.eraseEdge x y).setVisited false F) false := by
  have hsame : SameNodes r ((r₂.eraseEdge x y).setVisited false F) := by
    rw [hF.marks]
    exact ((sameNodes_addEdge r x y).trans (sameNodes_setVisited _ _ _)).trans
      ((sameNodes_eraseEdge _ _ _).trans (sameNodes_setVisited _ _ _))
  have hedge : ∀ v w, ((r₂.eraseEdge x y).setVisited false F).Edge v w ↔ r.Edge v w := by
    intro v w
    unfold Edge
    rw [field_setVisited Node.outSet fun _ _ => rfl, outSet_eraseEdge, hF.marks,
      field_setVisited Node.outSet fun _ _ => rfl, outSet_addEdge hx.1]
    constructor
    · exact fun hvw => hvw.1.resolve_right hvw.2
    · refine fun hvw => ⟨Or.inl hvw, ?_⟩
      rintro ⟨rfl, rfl⟩
      exact hnew hvw
  have hrank : ∀ v, (((r₂.eraseEdge x y).setVisited false F).node v).rank = (r.node v).rank := by
    intro v
    rw [field_setVisited Node.rank fun _ _ => rfl,
      field_eraseEdge Node.rank (fun _ _ => rfl) fun _ _ => rfl, hF.marks,
      field_setVisited Node.rank fun _ _ => rfl,
      field_addEdge Node.rank (fun _ _ => rfl) fun _ _ => rfl]
  refine ⟨hsame.inv h (fun v => ?_) (fun v hv => ?_) ?_ (fun v w => ?_)
    (fun v w hvw => h.used v w ((hedge v w).1 hvw)) (fun v w hvw => ?_), hsame,
    fun v w => by simpa using hedge v w, iff_of_true rfl (Or.inr ?_)⟩
  · rw [visited_clear hF.nodup, field_eraseEdge Node.visited (fun _ _ => rfl) fun _ _ => rfl,
      hF.marks, node_setVisited hF.nodup]
    by_cases hv : v ∈ F
    · rw [if_pos hv]
    · rw [if_neg hv, if_neg fun hc => hv hc.1,
        field_addEdge Node.visited (fun _ _ => rfl) fun _ _ => rfl]
      exact h.unvisited v
  · rw [hrank]
    exact h.rank_lt v hv
  · simp only [hrank]
    exact h.rank_inj
  · rw [hedge, field_setVisited Node.inSet fun _ _ => rfl, inSet_eraseEdge, hF.marks,
      field_setVisited Node.inSet fun _ _ => rfl, inSet_addEdge hy.1, h.mirror]
    constructor
    · exact fun hvw => hvw.1.resolve_right hvw.2
    · refine fun hvw => ⟨Or.inl hvw, ?_⟩
      rintro ⟨rfl, rfl⟩
      exact hnew hvw
  · dsimp only
    rw [hrank, hrank]
    exact h.increasing v w ((hedge v w).1 hvw)
  · -- the search came upon the rank of `x`, which only `x` has
    obtain ⟨v, hv, w, hw, hstop⟩ := hF.stopped rfl
    obtain ⟨-, hvx, -, hpath⟩ := forward_reach h hx hy hlt (hF.reach v hv)
    rw [decide_eq_true_eq, field_addEdge Node.rank (fun _ _ => rfl) fun _ _ => rfl] at hstop
    rcases (outSet_addEdge hx.1 v w).1 hw with hvw | ⟨rfl, -⟩
    · have hwx : w = x := h.rank_inj (h.used v w hvw).2.1 hx.1 hstop
      exact hwx ▸ hpath.tail hvw
    · exact absurd hvx (lt_irrefl _)

/-- `BackwardDFS` collects what leads to `x` inside the window, and meets nothing that `y` leads
to. -/
theorem affected_of_searches (hlt : (r.node y).rank < (r.node x).rank) {r₂ r₃ : Rep}
    {F B : List ℕ} {b : Bool}
    (hF : ForwardSpec r x y r₂ F true) (hB : BackwardSpec r x y r₂ r₃ B b) :
    Affected r.Edge (fun v => (r.node v).rank) x y B F := by
  obtain ⟨hFiff, hFstop⟩ := hF.complete rfl
  have hb : b = true := by
    cases b with
    | true => rfl
    | false =>
      obtain ⟨_, _, _, _, hc⟩ := hB.stopped rfl
      cases hc
  obtain ⟨hBiff, -⟩ := hB.complete hb
  have hrank₁ := field_addEdge Node.rank (fun _ _ => rfl) (fun _ _ => rfl) r x y
  have hFspec : ∀ v ∈ F, v < r.nodes.length ∧ (r.node v).rank < (r.node x).rank ∧
      (r.node y).rank ≤ (r.node v).rank := fun v hv => by
    obtain ⟨h1, h2, h3, -⟩ := forward_reach h hx hy hlt (hF.reach v hv)
    exact ⟨h1, h2, h3⟩
  have hyF : y ∈ F := (hFiff y).2 ReflTransGen.refl
  have hrank₂ : ∀ v, (r₂.node v).rank = (r.node v).rank := fun v => by
    rw [hF.marks, field_setVisited Node.rank fun _ _ => rfl, hrank₁]
  have hvisited₂ : ∀ v, (r₂.node v).visited = false ↔ v ∉ F := fun v => by
    rw [hF.marks, node_setVisited hF.nodup, (sameNodes_addEdge r x y).length]
    by_cases hv : v ∈ F
    · rw [if_pos ⟨hv, (hFspec v hv).1⟩]
      simp [Node.setVisited, hv]
    · rw [if_neg fun hc => hv hc.1,
        field_addEdge Node.visited (fun _ _ => rfl) fun _ _ => rfl, h.unvisited]
      simp [hv]
  have hin₂ : ∀ u v, u ∈ Direction.backward.next (r₂.node v) ↔ r.Edge u v ∨ u = x ∧ v = y := by
    intro u v
    show u ∈ (r₂.node v).inSet ↔ _
    rw [hF.marks, field_setVisited Node.inSet fun _ _ => rfl, inSet_addEdge hy.1, h.mirror]
  have hBspec : ∀ v ∈ B, v ∉ F ∧ (r.node y).rank < (r.node v).rank ∧
      (r.node v).rank ≤ (r.node x).rank := by
    intro v hv
    have hreach := hB.reach v hv
    clear hv
    induction hreach with
    | refl => exact ⟨fun hc => lt_irrefl _ (hFspec x hc).2.1, hlt, le_rfl⟩
    | @tail v u _ hvu ih =>
      obtain ⟨hvF, -, hvx⟩ := ih
      obtain ⟨hin, hkeep, hunv⟩ := hvu
      rw [decide_eq_true_eq, hrank₂] at hkeep
      rcases (hin₂ u v).1 hin with hedge | ⟨-, rfl⟩
      · exact ⟨(hvisited₂ u).1 hunv, hkeep, (h.increasing u v hedge).le.trans hvx⟩
      · exact absurd hyF hvF
  refine ⟨(hBiff x).2 ReflTransGen.refl, hyF, fun v hv => (hBspec v hv).2.2, fun v hv => ?_,
    fun v hv => (hFspec v hv).2.1, fun v hv w hvw => ⟨?_, fun hwx => ?_⟩, fun w hw v hvw hyv => ?_,
    fun v hv => (hBspec v hv).1⟩
  · rcases List.mem_append.1 hv with hv | hv
    · exact (hBspec v hv).2.1.le
    · exact (hFspec v hv).2.2
  · rintro rfl
    have := hFstop v hv w ((outSet_addEdge hx.1 v w).2 (Or.inl hvw))
    rw [hrank₁, decide_eq_false_iff_not] at this
    exact this rfl
  · refine (hFiff w).2 (((hFiff v).1 hv).tail ⟨(outSet_addEdge hx.1 v w).2 (Or.inl hvw), ?_, ?_⟩)
    · simpa [hrank₁] using hwx
    · rw [field_addEdge Node.visited (fun _ _ => rfl) fun _ _ => rfl]
      exact h.unvisited w
  · rw [List.mem_append]
    by_cases hvF : v ∈ F
    · exact Or.inr hvF
    · refine Or.inl ((hBiff v).2 (((hBiff w).1 hw).tail ⟨(hin₂ v w).2 (Or.inl hvw), ?_,
        (hvisited₂ v).2 hvF⟩))
      simpa [hrank₂] using hyv

/-- `BackwardDFS` after a complete `ForwardDFS`. -/
theorem backwardDFS_addEdge (hlt : (r.node y).rank < (r.node x).rank) {r₂ : Rep} {F : List ℕ}
    (hF : ForwardSpec r x y r₂ F true) :
    ∃ b, BackwardSpec r x y r₂ (r₂.backwardDFS x (r.node y).rank).1
      (r₂.backwardDFS x (r.node y).rank).2 b := by
  have hlen₂ : r₂.nodes.length = r.nodes.length := by
    rw [hF.marks, (sameShape_setVisited _ _ _).length, (sameNodes_addEdge r x y).length]
  have hxF : x ∉ F := fun hc => lt_irrefl _ (forward_reach h hx hy hlt (hF.reach x hc)).2.1
  refine ⟨_, dfs_spec (fun _ _ => rfl) (fun _ _ => rfl) (hlen₂ ▸ hx.1) ?_ fun v w hw => ?_⟩
  · rw [hF.marks, node_setVisited hF.nodup, if_neg fun hc => hxF hc.1,
      field_addEdge Node.visited (fun _ _ => rfl) fun _ _ => rfl]
    exact h.unvisited x
  · rw [hF.marks, field_setVisited (Direction.next .backward) fun _ _ => rfl] at hw
    rw [hlen₂, ← (sameNodes_addEdge r x y).length]
    exact lt_of_mem_next h hx hy .backward v w hw

omit h hx hy in
/-- A field other than the marks, after both searches. -/
theorem field_searches {r₂ r₃ : Rep} {F B : List ℕ} {b : Bool}
    (hF : ForwardSpec r x y r₂ F true) (hB : BackwardSpec r x y r₂ r₃ B b) {α : Type}
    (g : Node → α) (hg : ∀ n b, g (Node.setVisited b n) = g n) (v : ℕ) :
    g (r₃.node v) = g ((r.addEdge x y).node v) := by
  rw [hB.marks, field_setVisited g hg, hF.marks, field_setVisited g hg]

/-- Both searches collect nodes of the graph. -/
theorem searches_lt (hlt : (r.node y).rank < (r.node x).rank) {r₂ r₃ : Rep} {F B : List ℕ}
    {b : Bool} (hF : ForwardSpec r x y r₂ F true) (hB : BackwardSpec r x y r₂ r₃ B b) :
    ∀ v ∈ B ++ F, v < r.nodes.length := by
  intro v hv
  rcases List.mem_append.1 hv with hvB | hvF
  · rcases ReflTransGen.cases_tail (hB.reach v hvB) with hxv | ⟨u, -, hu⟩
    · exact hxv ▸ hx.1
    · have hin := hu.1
      rw [hF.marks, field_setVisited (Direction.next .backward) fun _ _ => rfl] at hin
      rw [← (sameNodes_addEdge r x y).length]
      exact lt_of_mem_next h hx hy .backward u v hin
  · exact (forward_reach h hx hy hlt (hF.reach v hvF)).1

/-- After both searches, `Reorder` exchanges the ranks of what they have collected, and clears all
marks. -/
theorem reorder_searches (hlt : (r.node y).rank < (r.node x).rank) {r₂ r₃ : Rep} {F B : List ℕ}
    {b : Bool} (hF : ForwardSpec r x y r₂ F true) (hB : BackwardSpec r x y r₂ r₃ B b) :
    Reordered (fun v => (r.node v).rank) (fun v => ((r₃.reorder B F).node v).rank)
        (r₃.sort B ++ r₃.sort F) ∧
      ∀ v, ((r₃.reorder B F).node v).visited = false := by
  have hrank₃ : ∀ v, (r₃.node v).rank = (r.node v).rank := fun v => by
    rw [field_searches hF hB Node.rank fun _ _ => rfl,
      field_addEdge Node.rank (fun _ _ => rfl) fun _ _ => rfl]
  have hlen₃ : r₃.nodes.length = r.nodes.length := by
    rw [hB.marks, (sameShape_setVisited _ _ _).length, hF.marks,
      (sameShape_setVisited _ _ _).length, (sameNodes_addEdge r x y).length]
  have hdisjoint := (affected_of_searches h hx hy hlt hF hB).disjoint
  have hnd : (B ++ F).Nodup := List.nodup_append.2
    ⟨hB.nodup, hF.nodup, fun v hv w hw hc => hdisjoint v hv (hc ▸ hw)⟩
  have hinj₃ : Set.InjOn (fun i => (r₃.node i).rank) {i | i < r₃.nodes.length} := by
    simp only [hrank₃, hlen₃]
    exact h.rank_inj
  obtain ⟨hreord, hvisited⟩ := reorder_spec (r := r₃) (B := B) (F := F) hnd
    (fun v hv => hlen₃ ▸ searches_lt h hx hy hlt hF hB v hv) hinj₃
  simp only [hrank₃] at hreord
  refine ⟨hreord, fun v => ?_⟩
  rw [hvisited]
  by_cases hv : v ∈ B ++ F
  · rw [if_pos hv]
  · rw [List.mem_append, not_or] at hv
    rw [if_neg (by simpa using hv), hB.marks, node_setVisited hB.nodup,
      if_neg fun hc => hv.1 hc.1, hF.marks, node_setVisited hF.nodup,
      if_neg fun hc => hv.2 hc.1, field_addEdge Node.visited (fun _ _ => rfl) fun _ _ => rfl]
    exact h.unvisited v

/-- The new ranks increase along all edges. -/
theorem increasing_reorder (hlt : (r.node y).rank < (r.node x).rank) {r₂ r₃ : Rep}
    {F B : List ℕ} {b : Bool} (hF : ForwardSpec r x y r₂ F true)
    (hB : BackwardSpec r x y r₂ r₃ B b) :
    Increasing (fun v w => r.Edge v w ∨ v = x ∧ w = y)
      fun v => ((r₃.reorder B F).node v).rank := by
  have hltBF := searches_lt h hx hy hlt hF hB
  have hrank₃ : ∀ v, (r₃.node v).rank = (r.node v).rank := fun v => by
    rw [field_searches hF hB Node.rank fun _ _ => rfl,
      field_addEdge Node.rank (fun _ _ => rfl) fun _ _ => rfl]
  have hsorted : ∀ l : List ℕ, l.Nodup → (∀ v ∈ l, v < r.nodes.length) →
      (r₃.sort l).Pairwise fun v w => (r.node v).rank < (r.node w).rank := fun l hl hll => by
    have hsort := sort_sorted (r := r₃) hl fun v hv w hw heq => by
      rw [hrank₃, hrank₃] at heq
      exact h.rank_inj (hll v hv) (hll w hw) heq
    simpa only [hrank₃] using hsort
  have haff := (affected_of_searches h hx hy hlt hF hB).perm (r₃.sort_perm B) (r₃.sort_perm F)
  refine haff.increasing h.increasing (fun v w hvw => ?_)
    (hsorted B hB.nodup fun v hv => hltBF v (List.mem_append_left F hv))
    (hsorted F hF.nodup fun v hv => hltBF v (List.mem_append_right B hv))
    (reorder_searches h hx hy hlt hF hB).1
  obtain ⟨hv, hw⟩ := h.used v w hvw
  exact ⟨fun heq => h.rank_inj hv.1 hy.1 heq, fun heq => h.rank_inj hw.1 hx.1 heq⟩

/-- Neither search has found a cycle, and `Reorder` makes room for the edge. -/
theorem insertEdge_reordered (hlt : (r.node y).rank < (r.node x).rank) {r₂ r₃ : Rep}
    {F B : List ℕ} {b : Bool} (hF : ForwardSpec r x y r₂ F true)
    (hB : BackwardSpec r x y r₂ r₃ B b) : EdgeInserted r m x y (r₃.reorder B F) true := by
  have hltBF := searches_lt h hx hy hlt hF hB
  obtain ⟨hreord, hvisited⟩ := reorder_searches h hx hy hlt hF hB
  have hperm : (r₃.sort B ++ r₃.sort F).Perm (B ++ F) :=
    (r₃.sort_perm B).append (r₃.sort_perm F)
  have hedge : ∀ v w, (r₃.reorder B F).Edge v w ↔ r.Edge v w ∨ v = x ∧ w = y := fun v w => by
    unfold Edge
    rw [field_reorder Node.outSet (fun _ _ => rfl) fun _ _ => rfl,
      field_searches hF hB Node.outSet fun _ _ => rfl, outSet_addEdge hx.1]
  have hsame : SameNodes r (r₃.reorder B F) := by
    refine SameNodes.trans ?_ (sameNodes_reorder r₃ B F)
    rw [hB.marks, hF.marks]
    exact ((sameNodes_addEdge r x y).trans (sameNodes_setVisited _ _ _)).trans
      (sameNodes_setVisited _ _ _)
  have hinv : Inv (r₃.reorder B F) m := by
    refine hsame.inv h hvisited (fun v hv => ?_) ?_ (fun v w => ?_) (fun v w hvw => ?_)
      (fun v w hvw => increasing_reorder h hx hy hlt hF hB v w ((hedge v w).1 hvw))
    · by_cases hvl : v ∈ r₃.sort B ++ r₃.sort F
      · obtain ⟨u, hu, huv⟩ := hreord.exists_eq hvl
        rw [huv]
        exact h.rank_lt u (hltBF u (hperm.mem_iff.1 hu))
      · rw [hreord.same v hvl]
        exact h.rank_lt v hv
    · exact hreord.injOn h.rank_inj fun v hv => hltBF v (hperm.mem_iff.1 hv)
    · rw [hedge, field_reorder Node.inSet (fun _ _ => rfl) fun _ _ => rfl,
        field_searches hF hB Node.inSet fun _ _ => rfl, inSet_addEdge hy.1, h.mirror]
    · rcases (hedge v w).1 hvw with hvw | ⟨rfl, rfl⟩
      · exact h.used v w hvw
      · exact ⟨hx, hy⟩
  refine ⟨hinv, hsame, fun v w => by simpa using hedge v w, ?_⟩
  have hno := not_reachable_of_edge hinv ((hedge x y).2 (Or.inr ⟨rfl, rfl⟩))
    fun v w hvw => (hedge v w).2 (Or.inl hvw)
  simp [hno]

end Insert

/-- **`InsertEdge`** between the nodes of two ids that are found adds the edge, unless it would
close a cycle. -/
theorem insertEdge_spec (h : Inv r m) {idx idy : ℕ} (hfx : (r.findNode idx).isSome = true)
    (hfy : (r.findNode idy).isSome = true) (hx : r.Used (nodeIndex idx))
    (hy : r.Used (nodeIndex idy)) :
    EdgeInserted r m (nodeIndex idx) (nodeIndex idy) (r.insertEdge idx idy).1
      (r.insertEdge idx idy).2 := by
  obtain ⟨nx, hnx⟩ := Option.isSome_iff_exists.1 hfx
  obtain ⟨ny, hny⟩ := Option.isSome_iff_exists.1 hfy
  have hnode : ∀ {id n}, r.Used (nodeIndex id) → r.findNode id = some n →
      n = r.node (nodeIndex id) := fun hu hn => by
    rw [findNode_of_lt hu.1] at hn
    split_ifs at hn
    exact (Option.some_inj.1 hn).symm
  have hnx' := hnode hx hnx
  have hny' := hnode hy hny
  set x := nodeIndex idx with hxdef
  set y := nodeIndex idy with hydef
  unfold insertEdge
  rw [hnx, hny, ← hxdef, ← hydef]
  dsimp only
  split_ifs with hxy hedge hle
  · exact ⟨h, SameNodes.rfl, fun v w => by simp, by simp [hxy]⟩
  · have hmem : r.Edge x y := by
      rw [← Bool.not_eq_true, NodeSet.insert_snd, not_not, hnx'] at hedge
      exact hedge
    refine ⟨h, SameNodes.rfl, fun v w => ⟨Or.inl, ?_⟩, ?_⟩
    · rintro (hvw | ⟨-, rfl, rfl⟩)
      · exact hvw
      · exact hmem
    · simp [not_reachable_of_edge h hmem fun _ _ hvw => hvw]
  · rw [hnx', hny'] at hle
    exact addEdge_of_le h hx hy hxy hle
  · have hnew : ¬ r.Edge x y := by
      rw [← Bool.not_eq_true, NodeSet.insert_snd, not_not, hnx'] at hedge
      exact hedge
    rw [hnx', hny', not_le] at hle
    have hF := forwardDFS_addEdge h hx hy
    rw [hnx', hny']
    split
    · rename_i r₂ F heq
      rw [heq] at hF
      exact insertEdge_rejected h hx hy hle hnew hF
    · rename_i r₂ F heq
      rw [heq] at hF
      obtain ⟨b, hB⟩ := backwardDFS_addEdge h hx hy hle hF
      exact insertEdge_reordered h hx hy hle hF hB

/-- `InsertEdge` with an expired id. -/
theorem insertEdge_expired {idx idy : ℕ}
    (h : ¬ ((r.findNode idx).isSome = true ∧ (r.findNode idy).isSome = true)) :
    r.insertEdge idx idy = (r, true) := by
  unfold insertEdge
  cases hx : r.findNode idx with
  | none => rfl
  | some nx =>
    cases hy : r.findNode idy with
    | none => rfl
    | some ny => exact absurd ⟨by rw [hx]; rfl, by rw [hy]; rfl⟩ h

end Rep

end BugInsight

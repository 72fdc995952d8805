import BugInsight.GraphCycles.Registrations

/-!
# The representation of the lock graph

`Representation h r` is what `CheckInvariants` tests, and more: the ranks number the nodes, they
increase along edges, the two halves of the edges agree, no mark is left, and the pointer table and
the list of unused nodes know which nodes are live.

* `LiveEdges`: edges are between live nodes only;
* `representation_run`: this holds after every sequence of operations, if `InsertEdge` is not called
  with the last id of a node that is not used again.
-/

namespace BugInsight

/-- The pointer was registered with this id, and it was not removed since. -/
def History.Live (h : History) (p id : ℕ) : Prop :=
  ∃ before tid later, h = before ++ (.getId tid p, .id id) :: later ∧
    Op.removeNode p ∉ later.map Prod.fst

namespace Rep

/-- The node is in the pointer table. -/
def LiveNode (r : Rep) (i : ℕ) : Prop := ∃ p, r.find p = some (some i)

/-- All edges are between live nodes. -/
def LiveEdges (r : Rep) : Prop := ∀ v w, r.Edge v w → r.LiveNode v ∧ r.LiveNode w

/-- **What holds of the representation** after a sequence of operations. -/
structure Representation (h : History) (r : Rep) : Prop where
  ranks : ((List.range r.nodes.length).map fun i => (r.node i).rank).Perm
    (List.range r.nodes.length)
  increasing : ∀ x y, y ∈ (r.node x).outSet → (r.node x).rank < (r.node y).rank
  mirror : ∀ x y, y ∈ (r.node x).outSet ↔ x ∈ (r.node y).inSet
  unvisited : ∀ i, (r.node i).visited = false
  /-- a node that is not the one of a live pointer -/
  dead : ∀ i < r.nodes.length, (∀ p id, h.Live p id → nodeIndex id ≠ i) →
    (∀ w, w ∉ (r.node i).inSet) ∧ (∀ w, w ∉ (r.node i).outSet) ∧ (r.node i).maskedPtr = nullptr
  found : ∀ p id, h.Live p id → nodeIndex id < r.nodes.length ∧
    (r.node (nodeIndex id)).maskedPtr = p ∧ r.find p = some (some (nodeIndex id))
  not_found : ∀ p, (∀ id, ¬ h.Live p id) → r.find p = some none
  free_nodup : r.freeNodes.Nodup
  free : ∀ i ∈ r.freeNodes, i < r.nodes.length ∧ ∀ p id, h.Live p id → nodeIndex id ≠ i

variable {r r' : Rep} {m m' : ℕ → Option ℕ} {id p i : ℕ} {op : Op} {res : Result} {h : History}

/-! ### Edges between live nodes -/

theorem NodesInv.liveNode_iff (hr : NodesInv r m) : r.LiveNode i ↔ ∃ p, m p = some i := by
  unfold LiveNode
  simp only [hr.map.find, Option.some_inj]

/-- The node of a current id. -/
theorem Current.liveNode (hr : NodesInv r m) (hid : Current r m id p) :
    r.LiveNode (nodeIndex id) := hr.liveNode_iff.2 ⟨p, (hid.index hr).1⟩

/-- An operation adds no edge, and the ends of the edges that it leaves stay live. -/
theorem LiveEdges.transfer (hl : LiveEdges r) (hr : NodesInv r m) (hr' : NodesInv r' m')
    (hedge : ∀ v w, r'.Edge v w → r.Edge v w ∧ (∀ p, m p = some v → m' p = some v) ∧
      (∀ p, m p = some w → m' p = some w)) : LiveEdges r' := by
  intro v w hvw
  obtain ⟨hvw', hv, hw⟩ := hedge v w hvw
  obtain ⟨hlv, hlw⟩ := hl v w hvw'
  rw [hr.liveNode_iff] at hlv hlw
  rw [hr'.liveNode_iff, hr'.liveNode_iff]
  exact ⟨hlv.imp hv, hlw.imp hw⟩

theorem liveEdges_empty : LiveEdges empty := fun _ w hvw =>
  absurd hvw (NodeSet.not_mem_empty w)

theorem liveEdges_getId {tid : ℕ} (hr : Inv r m) (hl : LiveEdges r)
    (hg : r.getId tid p = some (r', id)) : LiveEdges r' := by
  cases hp : m p with
  | some i =>
    rw [getId_known hr hp] at hg
    cases hg
    exact hl
  | none =>
    obtain ⟨i, hreg, -⟩ := getId_new hr hp hg
    have hkeep : ∀ j q, m q = some j → Function.update m p (some i) q = some j := by
      intro j q hq
      rw [Function.update_of_ne, hq]
      rintro rfl
      rw [hp] at hq
      cases hq
    exact hl.transfer hr.toNodesInv hreg.inv.toNodesInv fun v w hvw =>
      ⟨(hreg.edge v w).1 hvw, hkeep v, hkeep w⟩

theorem liveEdges_removeNode (hr : Inv r m) (hl : LiveEdges r)
    (hg : r.removeNode p = some r') : LiveEdges r' := by
  cases hp : m p with
  | none =>
    rw [removeNode_unmapped hr hp] at hg
    cases hg
    exact hl
  | some i =>
    obtain ⟨r'', hr'', hrem⟩ := removeNode_mapped hr hp
    cases hg.symm.trans hr''
    have hkeep : ∀ j, j ≠ i → ∀ q, m q = some j → Function.update m p none q = some j :=
      fun j hj q hq => (hr.map.update_none hp q j).2 ⟨hq, hj⟩
    refine hl.transfer hr.toNodesInv hrem.inv.toNodesInv fun v w hvw => ?_
    obtain ⟨hvw', hv, hw⟩ := (hrem.edge v w).1 hvw
    exact ⟨hvw', hkeep v hv, hkeep w hw⟩

/-- `InsertEdge` adds an edge between live nodes, if it finds live nodes only. -/
theorem liveEdges_insertEdge {x y : ℕ} (hr : Inv r m) (hl : LiveEdges r)
    (hx : ∃ p, Issued r m x p) (hy : ∃ p, Issued r m y p)
    (hlive : (r.findNode x).isSome = true → (r.findNode y).isSome = true →
      nodeIndex x ≠ nodeIndex y → r.LiveNode (nodeIndex x) ∧ r.LiveNode (nodeIndex y)) :
    LiveEdges (r.insertEdge x y).1 := by
  by_cases hfound : (r.findNode x).isSome = true ∧ (r.findNode y).isSome = true
  · obtain ⟨px, hx⟩ := hx
    obtain ⟨py, hy⟩ := hy
    have hins := insertEdge_spec hr hfound.1 hfound.2 (hx.used hr.toNodesInv hfound.1)
      (hy.used hr.toNodesInv hfound.2)
    have hkeep : ∀ j, r.LiveNode j → (r.insertEdge x y).1.LiveNode j := fun j hj =>
      hins.inv.toNodesInv.liveNode_iff.2 (hr.toNodesInv.liveNode_iff.1 hj)
    intro v w hvw
    rcases (hins.edge v w).1 hvw with hold | ⟨hb, rfl, rfl⟩
    · exact ⟨hkeep v (hl v w hold).1, hkeep w (hl v w hold).2⟩
    · have hne : nodeIndex x ≠ nodeIndex y := fun hc => by
        rw [hins.rejected.2 (Or.inl hc)] at hb
        cases hb
      obtain ⟨hlx, hly⟩ := hlive hfound.1 hfound.2 hne
      exact ⟨hkeep _ hlx, hkeep _ hly⟩
  · rw [insertEdge_expired hfound]
    exact hl

theorem liveEdges_removeEdge {x y : ℕ} (hr : Inv r m) (hl : LiveEdges r) :
    LiveEdges (r.removeEdge x y) := by
  obtain ⟨hinv, -, hedge⟩ := removeEdge_spec hr x y
  exact hl.transfer hr.toNodesInv hinv.toNodesInv fun v w hvw =>
    ⟨((hedge v w).1 hvw).1, fun _ => id, fun _ => id⟩

/-! ### The representation -/

/-- The ranks number the nodes. -/
theorem EdgesInv.ranks (hr : EdgesInv r) :
    ((List.range r.nodes.length).map fun i => (r.node i).rank).Perm
      (List.range r.nodes.length) := by
  have hnd : ((List.range r.nodes.length).map fun i => (r.node i).rank).Nodup := by
    refine List.Nodup.map_on (fun i hi j hj hij => ?_) List.nodup_range
    exact hr.rank_inj (List.mem_range.1 hi) (List.mem_range.1 hj) hij
  have hsub : ((List.range r.nodes.length).map fun i => (r.node i).rank) ⊆
      List.range r.nodes.length := by
    intro k hk
    obtain ⟨i, hi, rfl⟩ := List.mem_map.1 hk
    exact List.mem_range.2 (hr.rank_lt i (List.mem_range.1 hi))
  exact (List.subperm_of_subset hnd hsub).perm_of_length_le (by simp)

/-- **The invariant of a sequence** of operations. -/
structure Living (h : History) (r : Rep) (m : ℕ → Option ℕ) : Prop extends Tracked h r m where
  live : ∀ id p, Current r m id p → h.Live p id
  edges : LiveEdges r

namespace Living

theorem current (hr : Living h r m) (hl : h.Live p id) : Current r m id p := by
  obtain ⟨before, tid, later, hh, hkept⟩ := hl
  exact (hr.issued before tid p id later hh).2.2 hkept

theorem mapped_iff (hr : Living h r m) : m p = some i ↔ ∃ id, h.Live p id ∧ nodeIndex id = i := by
  constructor
  · intro hp
    have hc : Current r m (makeId i (r.node i).version) p := ⟨i, hp, rfl⟩
    exact ⟨_, hr.live _ p hc, nodeIndex_makeId (hr.inv.lt_maxVecSize (hr.inv.lt hp))⟩
  · rintro ⟨id, hl, rfl⟩
    exact ((hr.current hl).index hr.inv.toNodesInv).1

theorem representation (hr : Living h r m) : Representation h r := by
  have hdead : ∀ i, (∀ p id, h.Live p id → nodeIndex id ≠ i) → ∀ p, m p ≠ some i :=
    fun i hi p hp => by
      obtain ⟨id, hl, hid⟩ := hr.mapped_iff.1 hp
      exact hi p id hl hid
  refine ⟨hr.inv.ranks, hr.inv.increasing, fun x y => (hr.inv.mirror x y).symm, hr.inv.unvisited,
    fun i _ hi => ?_, fun p id hl => ?_, fun p hp => ?_, hr.inv.free_nodup, fun i hi => ?_⟩
  · have hnot : ¬ r.LiveNode i := fun hc => by
      obtain ⟨p, hp⟩ := hr.inv.toNodesInv.liveNode_iff.1 hc
      exact hdead i hi p hp
    exact ⟨fun w hw => hnot (hr.edges w i ((hr.inv.mirror w i).1 hw)).2,
      fun w hw => hnot (hr.edges i w hw).1, hr.inv.null i (hdead i hi)⟩
  · have hp : m p = some (nodeIndex id) := hr.mapped_iff.2 ⟨id, hl, rfl⟩
    exact ⟨hr.inv.lt hp, hr.inv.map.maskedPtr hp, by rw [hr.inv.map.find, hp]⟩
  · rw [hr.inv.map.find]
    cases hm : m p with
    | none => rfl
    | some i =>
      obtain ⟨id, hl, -⟩ := hr.mapped_iff.1 hm
      exact absurd hl (hp id)
  · refine ⟨hr.inv.free_lt i hi, ?_⟩
    rintro p id hl rfl
    exact hr.inv.free_unmapped _ hi p (hr.mapped_iff.2 ⟨id, hl, rfl⟩)

end Living

/-! ### Sequences -/

/-- `InsertEdge` is not called with ids of different nodes that are both found, although the pointer
of one of them was removed. -/
def Safe (h : History) (r : Rep) : Op → Prop
  | .insertEdge x y => (r.findNode x).isSome = true → (r.findNode y).isSome = true →
      nodeIndex x ≠ nodeIndex y → (∃ p, h.Live p x) ∧ ∃ p, h.Live p y
  | _ => True

/-- Only the last id of a node is found after its pointer was removed. -/
theorem Living.live_of_lt (hr : Living h r m) (hid : id ∈ h.issued)
    (hlt : nodeVersion id < maxVersion) (hfind : (r.findNode id).isSome = true) :
    ∃ p, h.Live p id := by
  obtain ⟨p, hissued⟩ := hr.toTracked.of_issued hid
  rcases (hissued.findNode hr.inv.toNodesInv).1 hfind with hc | ⟨-, hmax, -⟩
  · exact ⟨p, hr.live id p hc⟩
  · exact absurd hmax hlt.ne

theorem living_nil : Living [] empty fun _ => none where
  toTracked := tracked_nil
  live := fun id p ⟨i, hi, _⟩ => by cases hi
  edges := liveEdges_empty

/-- **One operation** keeps the invariant. -/
theorem Living.step (hr : Living h r m) (hids : ∀ id ∈ op.ids, id ∈ h.issued)
    (hsafe : Safe h r op) (hexec : r.exec op = some (r', res)) :
    ∃ m', Living (h ++ [(op, res)]) r' m' := by
  obtain ⟨m', ht, honly⟩ := hr.toTracked.step hids hexec
  refine ⟨m', ht, fun id p hc => ?_, ?_⟩
  · rcases honly id p hc with hold | ⟨tid, rfl, rfl⟩
    · -- the pointer was not removed, or the id would not be current
      obtain ⟨before, tid, later, hh, hkept⟩ := hr.live id p hold
      have hkept' := (ht.issued before tid p id (later ++ [(op, res)]) (by simp [hh])).2.1 hc
      exact ⟨before, tid, later ++ [(op, res)], by simp [hh], hkept'⟩
    · exact ⟨h, tid, [], rfl, by simp⟩
  · cases op with
    | getId tid p =>
      obtain ⟨⟨r'', id⟩, hg, heq⟩ := Option.map_eq_some_iff.1 hexec
      cases heq
      exact liveEdges_getId hr.inv hr.edges hg
    | removeNode p =>
      obtain ⟨r'', hg, heq⟩ := Option.map_eq_some_iff.1 hexec
      cases heq
      exact liveEdges_removeNode hr.inv hr.edges hg
    | insertEdge x y =>
      cases hexec
      refine liveEdges_insertEdge hr.inv hr.edges (hr.toTracked.of_issued (hids x (by simp [Op.ids])))
        (hr.toTracked.of_issued (hids y (by simp [Op.ids]))) fun hfx hfy hne => ?_
      obtain ⟨⟨p, hp⟩, q, hq⟩ := hsafe hfx hfy hne
      exact ⟨(hr.current hp).liveNode hr.inv.toNodesInv, (hr.current hq).liveNode hr.inv.toNodesInv⟩
    | removeEdge x y =>
      cases hexec
      exact liveEdges_removeEdge hr.inv hr.edges
    | hasEdge | ptr | isReachable =>
      cases hexec
      exact hr.edges

theorem Reached32.living (hrun : Reached32 h r)
    (hsafe : ∀ before op res later r₁, h = before ++ (op, res) :: later → Reached32 before r₁ →
      Safe before r₁ op) : ∃ m, Living h r m := by
  induction hrun with
  | nil => exact ⟨_, living_nil⟩
  | @step h r r' op res hrun hids hexec ih =>
    obtain ⟨m, hr⟩ := ih fun before op' res' later r₁ hh =>
      hsafe before op' res' (later ++ [(op, res)]) r₁ (by simp [hh])
    exact hr.step hids (hsafe h op res [] r rfl hrun) (exec_of_exec32 hexec).2

/-- **The representation invariant** holds after every sequence of operations in which `InsertEdge`
is not called with the id of a node that is still found after its pointer was removed.  The next
operation returns exactly if it overfills no set and its stack has room, unless the nodes are
`2 ^ 31` already. -/
theorem representation_run (hrun : Reached32 h r)
    (hsafe : ∀ before op res later r₁, h = before ++ (op, res) :: later → Reached32 before r₁ →
      Safe before r₁ op) :
    Representation h r ∧ (r.nodes.length < maxVecSize →
      ∀ op, (∃ r' res, r.exec32 op = some (r', res)) ↔ r.Fits op) := by
  obtain ⟨m, hr⟩ := hrun.living hsafe
  exact ⟨hr.representation, fun hlen _ => exec32_isSome_iff hr.inv hlen⟩

/-- Two pointers with an edge, the other edge rejected, and one of the pointers removed. -/
theorem representation_run_removed : ∃ h r, Reached32 h r ∧ Representation h r ∧
    h.map Prod.snd = [.id (makeId 0 1), .id (makeId 1 1), .bool true, .bool false, .unit] := by
  have hrun : ∃ r, Reached32 [(.getId 1 16, .id (makeId 0 1)), (.getId 1 32, .id (makeId 1 1)),
      (.insertEdge (makeId 0 1) (makeId 1 1), .bool true),
      (.insertEdge (makeId 1 1) (makeId 0 1), .bool false), (.removeNode 16, .unit)] r := by
    refine ⟨_, .step (.step (.step (.step (.step .nil ?_ rfl) ?_ rfl) ?_ rfl) ?_ rfl) ?_ rfl⟩
    · simp [Op.ids]
    · simp [Op.ids]
    · simp only [Op.ids, List.forall_mem_cons, List.not_mem_nil, false_imp_iff, implies_true]
      exact ⟨⟨1, 16, by simp⟩, ⟨1, 32, by simp⟩, trivial⟩
    · simp only [Op.ids, List.forall_mem_cons, List.not_mem_nil, false_imp_iff, implies_true]
      exact ⟨⟨1, 32, by simp⟩, ⟨1, 16, by simp⟩, trivial⟩
    · simp [Op.ids]
  obtain ⟨r, hr⟩ := hrun
  refine ⟨_, r, hr, (representation_run hr fun before op res later r₁ hh _ => ?_).1, rfl⟩
  have hlive : ∀ later, Op.removeNode 16 ∉ later.map Prod.fst →
      Op.removeNode 32 ∉ later.map Prod.fst →
      (∃ p, History.Live ((.getId 1 16, .id (makeId 0 1)) ::
        (.getId 1 32, .id (makeId 1 1)) :: later) p (makeId 0 1)) ∧
      ∃ p, History.Live ((.getId 1 16, .id (makeId 0 1)) ::
        (.getId 1 32, .id (makeId 1 1)) :: later) p (makeId 1 1) := fun later h16 h32 =>
    ⟨⟨16, [], 1, _, rfl, by simpa using h16⟩, ⟨32, [_], 1, _, rfl, h32⟩⟩
  -- the five places that a step can have in the history
  rcases before with _ | ⟨_, _ | ⟨_, _ | ⟨_, _ | ⟨_, _ | ⟨_, before⟩⟩⟩⟩⟩
  · cases hh
    trivial
  · cases hh
    trivial
  · cases hh
    exact fun _ _ _ => hlive [] (by simp) (by simp)
  · cases hh
    exact fun _ _ _ => (hlive [_] (by simp) (by simp)).symm
  · cases hh
    trivial
  · simp at hh

/-! ### The last id of a node -/

/-- A pointer is registered and removed; the version of the node is `k + 1`. -/
def round (k : ℕ) : History := [(.getId 1 16, .id (makeId 0 (k + 1))), (.removeNode 16, .unit)]

/-- This is done `n` times. -/
def rounds (n : ℕ) : History := (List.range n).flatMap round

theorem rounds_succ (n : ℕ) : rounds (n + 1) = rounds n ++ round n := by
  unfold rounds
  rw [List.range_succ, List.flatMap_append, List.flatMap_singleton]

/-- The graph after `k + 1` rounds: one node, which can be used again or not. -/
structure AfterRound (k : ℕ) (r : Rep) : Prop where
  inv : Inv r fun _ => none
  edge : ∀ v w, ¬ r.Edge v w
  length : r.nodes.length = 1
  outSet : (r.node 0).outSet = NodeSet.empty
  state : k + 1 = maxVersion ∧ (r.node 0).version = maxVersion ∧ r.freeNodes = [] ∨
    k + 1 < maxVersion ∧ (r.node 0).version = k + 2 ∧ r.freeNodes = [0]

/-- The end of a round. -/
theorem afterRound_removeNode {k : ℕ} {r r₁ : Rep} (hreg : Registered r (fun _ => none) 16 r₁ 0)
    (hfree : ∀ j ∈ r.freeNodes, j = 0) (hedge : ∀ v w, ¬ r.Edge v w) (hlen : r₁.nodes.length = 1)
    (hversion : (r₁.node 0).version = k + 1) :
    ∃ r₂, r₁.removeNode 16 = some r₂ ∧ AfterRound k r₂ := by
  have hmapped : Function.update (fun _ => none) 16 (some 0) 16 = some 0 := Function.update_self ..
  obtain ⟨r₂, hr₂, hrem⟩ := removeNode_mapped hreg.inv hmapped
  have hm : Function.update (Function.update (fun _ => none) 16 (some 0)) 16 none =
      fun _ => (none : Option ℕ) := by
    rw [Function.update_idem]
    exact Function.update_eq_self 16 _
  have hfree₁ : r₁.freeNodes = [] := List.eq_nil_iff_forall_not_mem.2 fun j hj =>
    ((hreg.freeNodes j).1 hj).2 (hfree j ((hreg.freeNodes j).1 hj).1)
  have hle := hreg.inv.version_le 0 (by omega)
  refine ⟨r₂, hr₂, hm ▸ hrem.inv, fun v w hvw => ?_, hrem.length.trans hlen,
    (removeNode_sets hreg.inv hmapped hr₂).2, ?_⟩
  · exact hedge v w ((hreg.edge v w).1 ((hrem.edge v w).1 hvw).1)
  · rw [hversion] at hle
    rcases hrem.retire with ⟨hmax, hmax', hf⟩ | ⟨hv, hf⟩
    · exact Or.inl ⟨hversion.symm.trans hmax, hmax', hf.trans hfree₁⟩
    · have hle' := hrem.inv.version_le 0 (by rw [hrem.length, hlen]; exact Nat.one_pos)
      rw [hv, hversion] at hle'
      exact Or.inr ⟨hle', by rw [hv, hversion], by rw [hf, hfree₁]⟩

/-- The first round. -/
theorem afterRound_zero : ∃ r, Reached32 (rounds 1) r ∧ AfterRound 0 r := by
  obtain ⟨r₁, hr₁, hreg, hversion, hlen⟩ :=
    getId_append inv_empty 1 16 rfl rfl (show 0 < maxVecSize by decide)
  obtain ⟨r₂, hr₂, hafter⟩ := afterRound_removeNode (k := 0) hreg (fun j hj => by cases hj)
    (fun v w hvw => absurd hvw (NodeSet.not_mem_empty w)) hlen hversion
  refine ⟨r₂, ?_, hafter⟩
  have hget : Reached32 [(.getId 1 16, .id (makeId 0 1))] r₁ :=
    .step .nil (by simp [Op.ids]) (by rw [exec32, hr₁]; rfl)
  exact .step hget (by simp [Op.ids]) (by rw [exec32, hr₂]; rfl)

/-- One more round. -/
theorem AfterRound.next {k : ℕ} {h : History} (hr : AfterRound k r) (hrun : Reached32 h r)
    (hlt : k + 1 < maxVersion) :
    ∃ r', Reached32 (h ++ round (k + 1)) r' ∧ AfterRound (k + 1) r' := by
  obtain ⟨-, hversion, hfree⟩ := hr.state.resolve_left fun hc => hlt.ne hc.1
  obtain ⟨r₁, hr₁, hreg, hlen⟩ := getId_reuse hr.inv 1 16 rfl hfree
  have hversion₁ : (r₁.node 0).version = k + 1 + 1 := by
    rw [hreg.version 0 (by rw [hr.length]; exact Nat.one_pos), hversion]
  obtain ⟨r₂, hr₂, hafter⟩ := afterRound_removeNode hreg (by simp [hfree]) hr.edge
    (hlen.trans hr.length) hversion₁
  refine ⟨r₂, ?_, hafter⟩
  rw [hversion] at hr₁
  have hget : Reached32 (h ++ [(.getId 1 16, .id (makeId 0 (k + 1 + 1)))]) r₁ :=
    .step hrun (by simp [Op.ids]) (by rw [exec32, hr₁]; rfl)
  rw [show h ++ round (k + 1) =
    (h ++ [(.getId 1 16, .id (makeId 0 (k + 1 + 1)))]) ++ [(.removeNode 16, .unit)] by
      simp [round]]
  exact .step hget (by simp [Op.ids]) (by rw [exec32, hr₂]; rfl)

theorem reached_rounds (k : ℕ) (hk : k + 1 ≤ maxVersion) :
    ∃ r, Reached32 (rounds (k + 1)) r ∧ AfterRound k r := by
  induction k with
  | zero => exact afterRound_zero
  | succ k ih =>
    obtain ⟨r, hrun, hr⟩ := ih (by omega)
    obtain ⟨r', hrun', hr'⟩ := hr.next hrun (by omega)
    exact ⟨r', by rwa [rounds_succ], hr'⟩

/-- The node of the pointer at 16 is used up, and then there is an edge from its last id. -/
def retiredHistory : History :=
  rounds maxVersion ++ [(.getId 1 32, .id (makeId 1 1))] ++
    [(.insertEdge (makeId 0 maxVersion) (makeId 1 1), .bool true)]

theorem mem_rounds {k n : ℕ} (hk : k < n) : makeId 0 (k + 1) ∈ (rounds n).issued :=
  ⟨1, 16, List.mem_flatMap.2 ⟨k, List.mem_range.2 hk, List.mem_cons_self⟩⟩

/-- The end of this history. -/
theorem reached_retired : ∃ r, Reached32 retiredHistory r ∧ r.Edge 0 1 ∧
    Inv r (Function.update (fun _ => none) 32 (some 1)) := by
  obtain ⟨r, hrun, hr⟩ := reached_rounds (maxVersion - 1) (by decide)
  rw [show maxVersion - 1 + 1 = maxVersion from rfl] at hrun
  obtain ⟨-, hversion, hfree⟩ := hr.state.resolve_right fun hc => absurd hc.1 (by decide)
  obtain ⟨r₁, hr₁, hreg, hversion₁, hlen₁⟩ := getId_append hr.inv 1 32 rfl hfree
    (by rw [hr.length]; decide)
  rw [hr.length] at hr₁ hreg hversion₁ hlen₁
  have hget : Reached32 (rounds maxVersion ++ [(.getId 1 32, .id (makeId 1 1))]) r₁ :=
    .step hrun (by simp [Op.ids]) (by rw [exec32, hr₁]; rfl)
  have hversion₀ : (r₁.node 0).version = maxVersion := by
    rw [hreg.version 0 (by rw [hr.length]; exact Nat.one_pos), hversion]
  have hfree₁ : r₁.freeNodes = [] := List.eq_nil_iff_forall_not_mem.2 fun j hj => by
    have hj' := ((hreg.freeNodes j).1 hj).1
    rw [hfree] at hj'
    cases hj'
  have hused : ∀ j < 2, r₁.Used j := fun j hj => by
    unfold Used
    rw [hfree₁, hlen₁]
    exact ⟨hj, by simp⟩
  -- both ids are found, and there is no edge yet
  have hzero : nodeIndex (makeId 0 maxVersion) = 0 := by decide
  have hone : nodeIndex (makeId 1 1) = 1 := by decide
  have hfind₀ : r₁.findNode (makeId 0 maxVersion) = some (r₁.node 0) := by
    rw [findNode_of_lt (by rw [hzero, hlen₁]; exact Nat.two_pos), hzero, hversion₀]
    rfl
  have hfind₁ : r₁.findNode (makeId 1 1) = some (r₁.node 1) := by
    rw [findNode_of_lt (by rw [hone, hlen₁]; exact Nat.one_lt_two), hone, hversion₁]
    rfl
  have hins := insertEdge_spec hreg.inv (Option.isSome_of_mem hfind₀) (Option.isSome_of_mem hfind₁)
    (by rw [hzero]; exact hused 0 (by decide)) (by rw [hone]; exact hused 1 (by decide))
  rw [hzero, hone] at hins
  have hnone : ∀ v w, ¬ r₁.Edge v w := fun v w hvw => hr.edge v w ((hreg.edge v w).1 hvw)
  have htrue : (r₁.insertEdge (makeId 0 maxVersion) (makeId 1 1)).2 = true := by
    apply Bool.eq_true_of_not_eq_false
    intro hc
    rcases hins.rejected.1 hc with heq | hpath
    · exact absurd heq (by decide)
    · rcases hpath.cases_head with heq | ⟨v, hv, -⟩
      · exact absurd heq (by decide)
      · exact hnone 1 v hv
  -- their sets are empty, and the ranks are in order
  have hnode := getId_append_node hr.inv rfl hfree (by rw [hr.length]; decide) hr₁
  rw [hr.length] at hnode
  have hfits : r₁.InsertEdgeFits (makeId 0 maxVersion) (makeId 1 1) := by
    refine insertEdgeFits_of_rank_le hfind₀ hfind₁ ?_ ?_ ?_
    · rw [(hnode 0).2.1, hr.outSet]
      exact NodeSet.not_overfills_of_lt (by decide)
    · rw [(hnode 1).1, node_eq_default (by rw [hr.length])]
      exact NodeSet.not_overfills_of_lt (by decide)
    · rw [(hnode 0).2.2, (hnode 1).2.2, if_neg (by decide), if_pos rfl]
      have hlt := hr.inv.rank_lt 0 (by rw [hr.length]; exact Nat.one_pos)
      rw [hr.length] at hlt
      exact hlt.le
  refine ⟨_, .step hget (fun id hid => ?_) ?_, (hins.edge 0 1).2 (Or.inr ⟨htrue, rfl, rfl⟩),
    hins.inv⟩
  · rcases List.mem_pair.1 hid with rfl | rfl
    · obtain ⟨tid, p, hmem⟩ := mem_rounds (show maxVersion - 1 < maxVersion by decide)
      exact ⟨tid, p, List.mem_append_left _ hmem⟩
    · exact ⟨1, 32, by simp⟩
  · rw [exec32, insertEdge32_of_fits hfits, Option.map_some, htrue]

/-- The node that is not used again gets an edge. -/
theorem retired_edge : ∃ r, Reached32 retiredHistory r ∧ ¬ Representation retiredHistory r := by
  obtain ⟨r, hrun, hedge, hinv⟩ := reached_retired
  refine ⟨r, hrun, fun hrep => ?_⟩
  obtain ⟨m, ht⟩ := hrun.reached.tracked
  have hdead : ∀ p id, retiredHistory.Live p id → nodeIndex id ≠ 0 := by
    rintro p id ⟨before, tid, later, hh, hkept⟩ hid
    have hc := (((ht.issued before tid p id later hh).2.2 hkept).index ht.inv.toNodesInv).1
    -- the only pointer that is mapped is the one at 32
    have hfind := hinv.map.find p
    rw [ht.inv.map.find, hc, hid, Option.some_inj, Function.update_apply] at hfind
    split_ifs at hfind
    cases hfind
  have hlt : 0 < r.nodes.length := by
    have h32 : Function.update (fun _ => none) 32 (some 1) 32 = some 1 := Function.update_self ..
    have := hinv.toNodesInv.lt h32
    omega
  exact (hrep.dead 0 hlt hdead).2.1 1 hedge

end Rep

end BugInsight

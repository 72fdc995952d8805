import BugInsight.GraphCycles.Search

/-!
# The invariant of the graph

`Inv r m` is the representation invariant of `GraphCycles::Rep`: the pointer map is `m`, the
unused entries are free, the two halves of the edges agree and the ranks are distinct and increase
along edges.

* `NodesInv` and `EdgesInv` are its two parts; `SameNodes` is a step that cannot break the first;
* `Issued` follows an id from the `GetId` that returns it: `Issued.ptr` says that it never means
  another pointer.
-/

open Relation TopoOrder

namespace BugInsight

/-! ### Ids -/

theorem makeId_eq {i v : ℕ} (hi : i < maxVecSize) : makeId i v = v * 2 ^ 32 + i := by
  unfold makeId maxVecSize at *
  rw [Nat.mod_eq_of_lt (by omega), ← Nat.shiftLeft_add_eq_or_of_lt (by omega),
    Nat.shiftLeft_eq]

theorem nodeIndex_makeId {i v : ℕ} (hi : i < maxVecSize) : nodeIndex (makeId i v) = i := by
  rw [makeId_eq hi]
  unfold nodeIndex maxVecSize at *
  omega

theorem nodeVersion_makeId {i v : ℕ} (hi : i < maxVecSize) (hv : v ≤ maxVersion) :
    nodeVersion (makeId i v) = v := by
  rw [makeId_eq hi]
  unfold nodeVersion maxVersion maxVecSize at *
  rw [Nat.shiftRight_eq_div_pow]
  omega

theorem makeId_index_version {id : ℕ} (hid : id < 2 ^ 64) (hi : nodeIndex id < maxVecSize) :
    makeId (nodeIndex id) (nodeVersion id) = id := by
  rw [makeId_eq hi]
  unfold nodeIndex nodeVersion
  rw [Nat.shiftRight_eq_div_pow]
  omega

theorem makeId_lt {i v : ℕ} (hi : i < maxVecSize) (hv : v ≤ maxVersion) :
    makeId i v < 2 ^ 64 := by
  rw [makeId_eq hi]
  unfold maxVersion maxVecSize at *
  omega

theorem makeId_inj {i j v w : ℕ} (hi : i < maxVecSize) (hj : j < maxVecSize)
    (hv : v ≤ maxVersion) (hw : w ≤ maxVersion) (h : makeId i v = makeId j w) :
    i = j ∧ v = w :=
  ⟨by rw [← nodeIndex_makeId (v := v) hi, h, nodeIndex_makeId hj],
    by rw [← nodeVersion_makeId hi hv, h, nodeVersion_makeId hj hw]⟩

theorem makeId_ne_invalid {i v : ℕ} (hi : i < maxVecSize) (hv : 0 < v) :
    makeId i v ≠ invalidGraphId := by
  rw [makeId_eq hi]
  unfold invalidGraphId
  omega

/-- The fields that say which lock a node is for. -/
def Node.identity (n : Node) : ℕ × ℕ × Option ℕ := (n.version, n.maskedPtr, n.nextHash)

namespace Rep

/-! ### The invariant -/

/-- A node is in use: it is not on the list of unused entries. -/
def Used (r : Rep) (i : ℕ) : Prop := i < r.nodes.length ∧ i ∉ r.freeNodes

/-- The nodes: which are free, and which pointers the others are for.  A node whose version
cannot be incremented is neither. -/
structure NodesInv (r : Rep) (m : ℕ → Option ℕ) : Prop where
  size : r.nodes.length ≤ maxVecSize
  map : r.Represents m
  free_nodup : r.freeNodes.Nodup
  free_lt : ∀ i ∈ r.freeNodes, i < r.nodes.length
  free_unmapped : ∀ i ∈ r.freeNodes, ∀ p, m p ≠ some i
  version_pos : ∀ i < r.nodes.length, 0 < (r.node i).version
  version_le : ∀ i < r.nodes.length, (r.node i).version ≤ maxVersion
  mapped : ∀ i, r.Used i → (∃ p, m p = some i) ∨ (r.node i).version = maxVersion
  null : ∀ i, (∀ p, m p ≠ some i) → (r.node i).maskedPtr = nullptr

/-- The edges and the ranks. -/
structure EdgesInv (r : Rep) : Prop where
  unvisited : ∀ i, (r.node i).visited = false
  rank_lt : ∀ i < r.nodes.length, (r.node i).rank < r.nodes.length
  rank_inj : Set.InjOn (fun i => (r.node i).rank) {i | i < r.nodes.length}
  mirror : ∀ v w, v ∈ (r.node w).inSet ↔ r.Edge v w
  used : ∀ v w, r.Edge v w → r.Used v ∧ r.Used w
  increasing : Increasing r.Edge fun v => (r.node v).rank

/-- **The representation invariant.** -/
structure Inv (r : Rep) (m : ℕ → Option ℕ) : Prop extends NodesInv r m, EdgesInv r

theorem inv_empty : Inv empty fun _ => none where
  size := Nat.zero_le _
  map := Represents.empty
  free_nodup := List.nodup_nil
  free_lt := fun i hi => by cases hi
  free_unmapped := fun i hi => by cases hi
  version_pos := fun i hi => by cases hi
  version_le := fun i hi => by cases hi
  mapped := fun i hi => by cases hi.1
  null := fun i _ => rfl
  unvisited := fun i => rfl
  rank_lt := fun i hi => by cases hi
  rank_inj := fun i hi => by cases hi
  mirror := fun v w => ⟨fun h => absurd h (NodeSet.not_mem_empty v),
    fun h => absurd h (NodeSet.not_mem_empty w)⟩
  used := fun v w h => absurd h (NodeSet.not_mem_empty w)
  increasing := fun v w h => absurd h (NodeSet.not_mem_empty w)

namespace NodesInv

variable {r r' : Rep} {m : ℕ → Option ℕ} {p i : ℕ}

theorem lt (h : NodesInv r m) (hp : m p = some i) : i < r.nodes.length := h.map.lt hp

theorem lt_maxVecSize (h : NodesInv r m) (hi : i < r.nodes.length) : i < maxVecSize :=
  hi.trans_le h.size

theorem used_of_mapped (h : NodesInv r m) (hp : m p = some i) : r.Used i :=
  ⟨h.lt hp, fun hc => h.free_unmapped i hc p hp⟩

end NodesInv

/-! ### Operations that leave the nodes alone -/

/-- Nothing changes but edges, ranks, marks and recorded acquisitions. -/
structure SameNodes (r r' : Rep) : Prop extends SameShape r r' where
  identity : ∀ i, (r'.node i).identity = (r.node i).identity

namespace SameNodes

variable {r r' r'' : Rep} {m : ℕ → Option ℕ}

theorem rfl : SameNodes r r := ⟨SameShape.rfl, fun _ => Eq.refl _⟩

theorem trans (h : SameNodes r r') (h' : SameNodes r' r'') : SameNodes r r'' :=
  ⟨h.toSameShape.trans h'.toSameShape, fun i => (h'.identity i).trans (h.identity i)⟩

theorem version (h : SameNodes r r') (i : ℕ) : (r'.node i).version = (r.node i).version :=
  congrArg Prod.fst (h.identity i)

theorem maskedPtr (h : SameNodes r r') (i : ℕ) : (r'.node i).maskedPtr = (r.node i).maskedPtr :=
  congrArg (fun t => t.2.1) (h.identity i)

theorem nextHash (h : SameNodes r r') (i : ℕ) : (r'.node i).nextHash = (r.node i).nextHash :=
  congrArg (fun t => t.2.2) (h.identity i)

theorem used (h : SameNodes r r') (i : ℕ) : r'.Used i ↔ r.Used i := by
  unfold Used
  rw [h.length, h.freeNodes]

theorem nodesInv (h : SameNodes r r') (hr : NodesInv r m) : NodesInv r' m where
  size := h.length ▸ hr.size
  map := hr.map.congr h.length h.table fun _ i _ => ⟨h.nextHash i, h.maskedPtr i⟩
  free_nodup := h.freeNodes ▸ hr.free_nodup
  free_lt := by rw [h.freeNodes, h.length]; exact hr.free_lt
  free_unmapped := by rw [h.freeNodes]; exact hr.free_unmapped
  version_pos := fun i hi => by rw [h.version]; exact hr.version_pos i (h.length ▸ hi)
  version_le := fun i hi => by rw [h.version]; exact hr.version_le i (h.length ▸ hi)
  mapped := fun i hi => by rw [h.version]; exact hr.mapped i ((h.used i).1 hi)
  null := fun i hi => by rw [h.maskedPtr]; exact hr.null i hi

end SameNodes

theorem sameNodes_modifyNode (r : Rep) (i : ℕ) (f : Node → Node)
    (hf : ∀ n, (f n).identity = n.identity) : SameNodes r (r.modifyNode i f) :=
  ⟨sameShape_modifyNode r i f, fun j => field_modifyNode r i j f Node.identity hf⟩

theorem sameNodes_foldl {α : Type*} (f : Rep → α → Rep) (hf : ∀ r a, SameNodes r (f r a))
    (l : List α) (r : Rep) : SameNodes r (l.foldl f r) :=
  ⟨sameShape_foldl f (fun r a => (hf r a).toSameShape) l r,
    field_foldl Node.identity f (fun r a => (hf r a).identity) l r⟩

theorem sameNodes_setVisited (r : Rep) (b : Bool) (l : List ℕ) : SameNodes r (r.setVisited b l) :=
  sameNodes_foldl _ (fun r w => sameNodes_modifyNode r w (.setVisited b) fun _ => rfl) l r

theorem sameNodes_updateOut (r : Rep) (i : ℕ) (f : NodeSet → NodeSet) :
    SameNodes r (r.modifyNode i (.updateOut f)) :=
  sameNodes_modifyNode r i (.updateOut f) fun _ => rfl

theorem sameNodes_updateIn (r : Rep) (i : ℕ) (f : NodeSet → NodeSet) :
    SameNodes r (r.modifyNode i (.updateIn f)) :=
  sameNodes_modifyNode r i (.updateIn f) fun _ => rfl

theorem sameNodes_addEdge (r : Rep) (x y : ℕ) : SameNodes r (r.addEdge x y) :=
  (sameNodes_updateOut r x _).trans (sameNodes_updateIn _ y _)

theorem sameNodes_eraseEdge (r : Rep) (x y : ℕ) : SameNodes r (r.eraseEdge x y) :=
  (sameNodes_updateOut r x _).trans (sameNodes_updateIn _ y _)

theorem sameNodes_assignRanks (r : Rep) (list merged : List ℕ) :
    SameNodes r (r.assignRanks list merged) :=
  sameNodes_foldl _ (fun r (p : ℕ × ℕ) => sameNodes_modifyNode r p.1 (.setRank p.2) fun _ => rfl) _ r

theorem sameNodes_reorder (r : Rep) (deltab deltaf : List ℕ) :
    SameNodes r (r.reorder deltab deltaf) :=
  ((sameNodes_setVisited r false _).trans (sameNodes_setVisited _ false _)).trans
    (sameNodes_assignRanks _ _ _)

/-! ### Ids in use -/

section Issued

variable {r r' : Rep} {m : ℕ → Option ℕ} {id p : ℕ}

/-- `GetId` has returned the id for this pointer. -/
structure Issued (r : Rep) (m : ℕ → Option ℕ) (id p : ℕ) : Prop where
  lt_two_pow : id < 2 ^ 64
  index_lt : nodeIndex id < r.nodes.length
  version_pos : 0 < nodeVersion id
  version : nodeVersion id < (r.node (nodeIndex id)).version ∨
    nodeVersion id = (r.node (nodeIndex id)).version ∧ nodeIndex id ∉ r.freeNodes ∧
      ∀ q, m q = some (nodeIndex id) → q = p

/-- The id that `GetId` returns for this pointer now. -/
def Current (r : Rep) (m : ℕ → Option ℕ) (id p : ℕ) : Prop :=
  ∃ i, m p = some i ∧ id = makeId i (r.node i).version

theorem SameNodes.issued (h : SameNodes r r') (hid : Issued r m id p) : Issued r' m id p :=
  ⟨hid.lt_two_pow, by rw [h.length]; exact hid.index_lt, hid.version_pos, by
    rw [h.version, h.freeNodes]; exact hid.version⟩

theorem SameNodes.current (h : SameNodes r r') : Current r' m id p ↔ Current r m id p := by
  unfold Current
  simp only [h.version]

theorem Current.index (h : NodesInv r m) (hid : Current r m id p) :
    m p = some (nodeIndex id) ∧ nodeVersion id = (r.node (nodeIndex id)).version := by
  obtain ⟨i, hi, rfl⟩ := hid
  have hlt := h.lt_maxVecSize (h.lt hi)
  rw [nodeIndex_makeId hlt, nodeVersion_makeId hlt (h.version_le i (h.lt hi))]
  exact ⟨hi, rfl⟩

theorem Current.issued (h : NodesInv r m) (hid : Current r m id p) : Issued r m id p := by
  obtain ⟨hi, hv⟩ := hid.index h
  have hlt : nodeIndex id < r.nodes.length := h.lt hi
  have hpos := h.version_pos _ hlt
  refine ⟨?_, hlt, hv ▸ hpos, Or.inr ⟨hv, (h.used_of_mapped hi).2, fun q hq => ?_⟩⟩
  · obtain ⟨i, hp, rfl⟩ := hid
    exact makeId_lt (h.lt_maxVecSize (h.lt hp)) (h.version_le i (h.lt hp))
  · exact h.map.inj hq hi

theorem Issued.current_iff (h : NodesInv r m) (hid : Issued r m id p) :
    Current r m id p ↔
      m p = some (nodeIndex id) ∧ nodeVersion id = (r.node (nodeIndex id)).version := by
  refine ⟨Current.index h, fun ⟨hi, hv⟩ => ⟨nodeIndex id, hi, ?_⟩⟩
  rw [← hv, makeId_index_version hid.lt_two_pow (h.lt_maxVecSize hid.index_lt)]

theorem findNode_of_lt (h : nodeIndex id < r.nodes.length) :
    r.findNode id =
      if (r.node (nodeIndex id)).version = nodeVersion id then some (r.node (nodeIndex id))
      else none := by
  have hnode : r.node (nodeIndex id) = r.nodes[nodeIndex id] := by simp [node, h]
  simp [findNode, h, hnode]

/-- The node of an id is found while the id is current; the last id of a node that cannot be used
again is found for ever. -/
theorem Issued.findNode (h : NodesInv r m) (hid : Issued r m id p) :
    (r.findNode id).isSome = true ↔
      Current r m id p ∨ r.Used (nodeIndex id) ∧ nodeVersion id = maxVersion ∧
        (r.node (nodeIndex id)).version = maxVersion ∧ ∀ q, m q ≠ some (nodeIndex id) := by
  rw [findNode_of_lt hid.index_lt, hid.current_iff h]
  have hle := h.version_le _ hid.index_lt
  constructor
  · intro hs
    split_ifs at hs with hv
    · rcases hid.version with hlt | ⟨-, hfree, hq⟩
      · omega
      · rcases h.mapped _ ⟨hid.index_lt, hfree⟩ with ⟨q, hqm⟩ | hmax
        · exact Or.inl ⟨hq q hqm ▸ hqm, hv.symm⟩
        · by_cases hex : ∃ q, m q = some (nodeIndex id)
          · obtain ⟨q, hqm⟩ := hex
            exact Or.inl ⟨hq q hqm ▸ hqm, hv.symm⟩
          · exact Or.inr ⟨⟨hid.index_lt, hfree⟩, hv ▸ hmax, hmax, fun q hc => hex ⟨q, hc⟩⟩
    · cases hs
  · rintro (⟨-, hv⟩ | ⟨-, hv, hmax, -⟩)
    · rw [if_pos hv.symm]; rfl
    · rw [if_pos (hmax.trans hv.symm)]; rfl

/-- **`Ptr`** is the pointer the id was issued for as long as the id is current, and `nullptr`
ever after. -/
theorem Issued.ptr (h : NodesInv r m) (hid : Issued r m id p) :
    (Current r m id p → r.ptr id = p) ∧ (¬ Current r m id p → r.ptr id = nullptr) := by
  have hfind := hid.findNode h
  constructor
  · intro hc
    obtain ⟨hi, hv⟩ := hc.index h
    unfold Rep.ptr
    rw [findNode_of_lt hid.index_lt, if_pos hv.symm]
    exact h.map.maskedPtr hi
  · intro hc
    unfold Rep.ptr
    cases hf : r.findNode id with
    | none => rfl
    | some n =>
      obtain ⟨-, -, -, hun⟩ := (hfind.1 (by rw [hf]; rfl)).resolve_left hc
      rw [findNode_of_lt hid.index_lt] at hf
      split_ifs at hf
      cases hf
      exact h.null _ hun

end Issued

end Rep

end BugInsight

import BugInsight.GraphCycles.Invariant

/-!
# GetId and RemoveNode

The two operations on nodes keep the invariant, and every id issued before stays an issued id:

* `Prepared`: a node for a pointer that is not in the map yet, allocated or taken off the list of
  unused ones; `getId_known` and `getId_new` for a pointer that is in the map and for one that is
  not;
* `Detached`: a node without edges and pointer; `removeNode_unmapped` and `removeNode_mapped`
  likewise.
-/

open Relation TopoOrder

namespace BugInsight

namespace Rep

/-! ### GetId -/

/-- What `GetId` does for a pointer that is not in the map: the node `i`, unused so far, is
assigned to it. -/
structure Registered (r : Rep) (m : ℕ → Option ℕ) (p : ℕ) (r' : Rep) (i : ℕ) : Prop where
  inv : Inv r' (Function.update m p (some i))
  length_le : r.nodes.length ≤ r'.nodes.length
  fresh : i ∈ r.freeNodes ∨ i = r.nodes.length
  freeNodes : ∀ j, j ∈ r'.freeNodes ↔ j ∈ r.freeNodes ∧ j ≠ i
  version : ∀ j < r.nodes.length, (r'.node j).version = (r.node j).version
  edge : ∀ v w, r'.Edge v w ↔ r.Edge v w

/-- The edges are kept by an operation that leaves the sets and ranks of the nodes alone. -/
theorem EdgesInv.transfer {r r' : Rep} (h : EdgesInv r)
    (hin : ∀ j, (r'.node j).inSet = (r.node j).inSet)
    (hout : ∀ j, (r'.node j).outSet = (r.node j).outSet)
    (hvisited : ∀ j, (r'.node j).visited = false) (hused : ∀ j, r.Used j → r'.Used j)
    (hrank : ∀ j < r.nodes.length, (r'.node j).rank = (r.node j).rank)
    (hlt : ∀ j < r'.nodes.length, (r'.node j).rank < r'.nodes.length)
    (hinj : Set.InjOn (fun j => (r'.node j).rank) {j | j < r'.nodes.length}) : EdgesInv r' := by
  have hedge : ∀ v w, r'.Edge v w ↔ r.Edge v w := fun v w => by unfold Edge; rw [hout]
  refine ⟨hvisited, hlt, hinj, fun v w => ?_, fun v w hvw => ?_, fun v w hvw => ?_⟩
  · rw [hin, hedge]
    exact h.mirror v w
  · obtain ⟨hv, hw⟩ := h.used v w ((hedge v w).1 hvw)
    exact ⟨hused v hv, hused w hw⟩
  · have hvw' := (hedge v w).1 hvw
    obtain ⟨hv, hw⟩ := h.used v w hvw'
    dsimp only
    rw [hrank v hv.1, hrank w hw.1]
    exact h.increasing v w hvw'

/-! ### Links -/

namespace SameButLinks

variable {r r' : Rep}

/-- A field that is not a link. -/
theorem field (h : r.SameButLinks r') {α : Type} (g : Node → α)
    (hg : ∀ n l, g (Node.setNextHash l n) = g n) (j : ℕ) : g (r'.node j) = g (r.node j) := by
  obtain ⟨l, hl⟩ := h.node j
  rw [hl, hg]

theorem edge (h : r.SameButLinks r') (v w : ℕ) : r'.Edge v w ↔ r.Edge v w := by
  unfold Edge
  rw [h.field Node.outSet fun _ _ => rfl]

theorem edgesInv (h : r.SameButLinks r') (hr : EdgesInv r) : EdgesInv r' := by
  have hrank := h.field Node.rank fun _ _ => rfl
  refine hr.transfer (h.field Node.inSet fun _ _ => rfl) (h.field Node.outSet fun _ _ => rfl)
    (fun j => ?_) (fun j hj => ?_) (fun j _ => hrank j) (fun j hj => ?_) ?_
  · rw [h.field Node.visited fun _ _ => rfl]
    exact hr.unvisited j
  · exact ⟨h.length ▸ hj.1, h.freeNodes ▸ hj.2⟩
  · rw [hrank, h.length]
    exact hr.rank_lt j (h.length ▸ hj)
  · simp only [hrank, h.length]
    exact hr.rank_inj

end SameButLinks

theorem sameButLinks_add (r : Rep) (p i : ℕ) : r.SameButLinks (r.add p i) := by
  refine ⟨length_add .., rfl, fun j => ?_⟩
  rw [node_add]
  split_ifs
  · exact ⟨_, rfl⟩
  · exact ⟨_, rfl⟩

section GetId

variable {r r' : Rep} {m : ℕ → Option ℕ} {p id tid : ℕ}

theorem getId_known (h : Inv r m) {i : ℕ} (hp : m p = some i) :
    r.getId tid p = some (r, makeId i (r.node i).version) := by
  simp [getId, h.map.find, hp]

theorem unmapped_of_update {i j : ℕ} (hp : m p = none)
    (hj : ∀ q, Function.update m p (some i) q ≠ some j) : j ≠ i ∧ ∀ q, m q ≠ some j := by
  refine ⟨fun hc => hj p (by rw [hc, Function.update_self]), fun q hq => hj q ?_⟩
  have hqp : q ≠ p := by
    rintro rfl
    rw [hp] at hq
    cases hq
  rwa [Function.update_of_ne hqp]

/-- The node `i`, unused so far, is there for the pointer, but not in the map yet. -/
structure Prepared (r : Rep) (m : ℕ → Option ℕ) (p : ℕ) (r' : Rep) (i : ℕ) : Prop where
  map : r'.Represents m
  edges : EdgesInv r'
  edge : ∀ v w, r'.Edge v w ↔ r.Edge v w
  node : ∀ j, j ≠ i → r'.node j = r.node j
  ptr : (r'.node i).maskedPtr = p
  version_pos : 0 < (r'.node i).version
  version_le : (r'.node i).version ≤ maxVersion
  version : i < r.nodes.length → (r'.node i).version = (r.node i).version
  size : r'.nodes.length ≤ maxVecSize
  lt : i < r'.nodes.length
  length_le : r.nodes.length ≤ r'.nodes.length
  lt_of_ne : ∀ j < r'.nodes.length, j ≠ i → j < r.nodes.length
  fresh : i ∈ r.freeNodes ∨ i = r.nodes.length
  free_nodup : r'.freeNodes.Nodup
  freeNodes : ∀ j, j ∈ r'.freeNodes ↔ j ∈ r.freeNodes ∧ j ≠ i

/-- A fresh node is not in the map. -/
theorem Prepared.unmapped {i : ℕ} (h : Prepared r m p r' i) (hr : NodesInv r m) (q : ℕ) :
    m q ≠ some i := by
  rcases h.fresh with hfree | hlen
  · exact hr.free_unmapped i hfree q
  · intro hq
    exact absurd (hr.lt hq) (by omega)

/-- `GetId` adds the node to the map. -/
theorem Prepared.registered {i : ℕ} (h : Prepared r m p r' i) (hr : NodesInv r m)
    (hp : m p = none) : Registered r m p (r'.add p i) i := by
  have hlinks := sameButLinks_add r' p i
  have hversion := hlinks.field Node.version fun _ _ => rfl
  have hsame : ∀ j, j ≠ i → ((r'.add p i).node j).version = (r.node j).version := fun j hj => by
    rw [hversion, h.node j hj]
  refine ⟨⟨⟨hlinks.length ▸ h.size, ?_, h.free_nodup, fun j hj => ?_, fun j hj q hq => ?_,
    fun j hj => ?_, fun j hj => ?_, fun j hj => ?_, fun j hj => ?_⟩, hlinks.edgesInv h.edges⟩,
    hlinks.length ▸ h.length_le, h.fresh, h.freeNodes, fun j hj => ?_, fun v w => ?_⟩
  · exact h.map.add h.lt (h.unmapped hr) h.ptr hp
  · rw [hlinks.length]
    exact (hr.free_lt j ((h.freeNodes j).1 hj).1).trans_le h.length_le
  · obtain ⟨hfree, hji⟩ := (h.freeNodes j).1 hj
    by_cases hqp : q = p
    · rw [hqp, Function.update_self] at hq
      exact hji (Option.some_inj.1 hq).symm
    · rw [Function.update_of_ne hqp] at hq
      exact hr.free_unmapped j hfree q hq
  · rw [hlinks.length] at hj
    by_cases hji : j = i
    · rw [hji, hversion]
      exact h.version_pos
    · rw [hsame j hji]
      exact hr.version_pos j (h.lt_of_ne j hj hji)
  · rw [hlinks.length] at hj
    by_cases hji : j = i
    · rw [hji, hversion]
      exact h.version_le
    · rw [hsame j hji]
      exact hr.version_le j (h.lt_of_ne j hj hji)
  · by_cases hji : j = i
    · exact Or.inl ⟨p, by rw [hji, Function.update_self]⟩
    · have hlt : j < r.nodes.length := h.lt_of_ne j (hlinks.length ▸ hj.1) hji
      have hused : r.Used j := ⟨hlt, fun hc => hj.2 ((h.freeNodes j).2 ⟨hc, hji⟩)⟩
      rw [hsame j hji]
      rcases hr.mapped j hused with ⟨q, hq⟩ | hmax
      · refine Or.inl ⟨q, ?_⟩
        rw [Function.update_of_ne, hq]
        rintro rfl
        rw [hp] at hq
        cases hq
      · exact Or.inr hmax
  · obtain ⟨hji, hj'⟩ := unmapped_of_update hp hj
    rw [hlinks.field Node.maskedPtr fun _ _ => rfl, h.node j hji]
    exact hr.null j hj'
  · by_cases hji : j = i
    · rw [hji] at hj ⊢
      rw [hversion]
      exact h.version hj
    · exact hsame j hji
  · exact (hlinks.edge v w).trans (h.edge v w)

/-- A new node does not change the map. -/
theorem Represents.append (h : r.Represents m) (n : Node) :
    ({ r with nodes := r.nodes ++ [n] } : Rep).Represents m := by
  obtain ⟨ch, hch, hm⟩ := h
  have hnode : ∀ j < r.nodes.length,
      ({ r with nodes := r.nodes ++ [n] } : Rep).node j = r.node j := fun j hj => by
    simp [node, List.getElem?_append_left hj]
  have hchain : ∀ (l : List ℕ) (start : Option ℕ), r.Chain start l →
      ({ r with nodes := r.nodes ++ [n] } : Rep).Chain start l := by
    intro l
    induction l with
    | nil => exact fun start hl => hl
    | cons j l ih =>
      rintro start ⟨hs, hj, hl⟩
      refine ⟨hs, ?_, ?_⟩
      · rw [List.length_append]
        exact hj.trans_le (Nat.le_add_right ..)
      · rw [hnode j hj]
        exact ih _ hl
  refine ⟨ch, ⟨fun b => hchain _ _ (hch.chain b), hch.nodup, fun b j hj => ?_⟩, fun q j => ?_⟩
  · rw [hnode j ((hch.chain b).lt j hj)]
    exact hch.hash_eq b j hj
  · rw [hm]
    exact and_congr_right fun hj => by rw [hnode j ((hch.chain _).lt j hj)]

/-- A new node, without edges, whose rank is above all others. -/
theorem EdgesInv.append (h : EdgesInv r) (tid p : ℕ) :
    EdgesInv { r with nodes := r.nodes ++ [newNode tid p r.nodes.length] } := by
  set r₁ : Rep := { r with nodes := r.nodes ++ [newNode tid p r.nodes.length] } with hr₁
  set n := r.nodes.length with hn
  have hlen : r₁.nodes.length = n + 1 := by simp [hr₁, hn]
  have hnode : ∀ j < n, r₁.node j = r.node j := fun j hj => by
    simp [node, hr₁, List.getElem?_append_left hj]
  have hself : r₁.node n = newNode tid p n := by simp [node, hr₁, hn]
  -- a field that is the same in the new node and in none
  have hfield : ∀ {α : Type} (g : Node → α), g (newNode tid p n) = g default →
      ∀ j, g (r₁.node j) = g (r.node j) := fun g hg j => by
    rcases lt_trichotomy j n with hj | rfl | hj
    · rw [hnode j hj]
    · rw [hself, hg, node_eq_default le_rfl]
    · rw [node_eq_default (by omega), node_eq_default (by omega)]
  refine h.transfer (hfield Node.inSet rfl) (hfield Node.outSet rfl) (fun j => ?_)
    (fun j hj => ⟨by have := hj.1; omega, hj.2⟩) (fun j hj => by rw [hnode j hj])
    (fun j hj => ?_) ?_
  · rw [hfield Node.visited rfl]
    exact h.unvisited j
  · rcases Nat.lt_succ_iff_lt_or_eq.1 (hlen ▸ hj) with hj | rfl
    · rw [hnode j hj, hlen]
      exact (h.rank_lt j hj).trans (Nat.lt_succ_self n)
    · rw [hself, hlen]
      exact Nat.lt_succ_self _
  · intro j hj k hk hjk
    dsimp only at hjk
    rcases Nat.lt_succ_iff_lt_or_eq.1 (hlen ▸ hj : j < n + 1) with hj | rfl <;>
      rcases Nat.lt_succ_iff_lt_or_eq.1 (hlen ▸ hk : k < n + 1) with hk | rfl
    · rw [hnode j hj, hnode k hk] at hjk
      exact h.rank_inj hj hk hjk
    · rw [hnode j hj, hself] at hjk
      exact absurd hjk (h.rank_lt j hj).ne
    · rw [hnode k hk, hself] at hjk
      exact absurd hjk.symm (h.rank_lt k hk).ne
    · rfl

/-- `GetId` allocates a node. -/
theorem prepared_append (h : Inv r m) (hfree : r.freeNodes = [])
    (hlen : r.nodes.length < maxVecSize) (tid p : ℕ) :
    Prepared r m p { r with nodes := r.nodes ++ [newNode tid p r.nodes.length] }
      r.nodes.length := by
  set r₁ : Rep := { r with nodes := r.nodes ++ [newNode tid p r.nodes.length] } with hr₁
  set n := r.nodes.length with hn
  have hlen₁ : r₁.nodes.length = n + 1 := by simp [hr₁, hn]
  have hnode : ∀ j, j ≠ n → r₁.node j = r.node j := fun j hj => by
    by_cases hjn : j < n
    · simp [node, hr₁, List.getElem?_append_left hjn]
    · rw [node_eq_default (by omega), node_eq_default (by omega)]
  have hself : r₁.node n = newNode tid p n := by simp [node, hr₁, hn]
  refine ⟨h.map.append _, h.toEdgesInv.append tid p, fun v w => ?_, hnode, ?_, ?_, ?_,
    fun hc => absurd hc (lt_irrefl n), by omega, by omega, by omega, fun j hj hjn => by omega,
    Or.inr rfl, h.free_nodup, fun j => ?_⟩
  · unfold Edge
    by_cases hv : v = n
    · rw [hv, hself, node_eq_default (r := r) le_rfl]
      rfl
    · rw [hnode v hv]
  · rw [hself]
    rfl
  · rw [hself]
    exact Nat.one_pos
  · rw [hself]
    exact show 1 ≤ maxVersion by decide
  · rw [hr₁, hfree]
    simp

/-- `GetId` takes a node off the list of unused ones. -/
theorem prepared_reuse (h : Inv r m) {i : ℕ} {rest : List ℕ} (hfree : r.freeNodes = i :: rest)
    (p : ℕ) :
    Prepared r m p (({ r with freeNodes := rest } : Rep).modifyNode i (reuseNode p)) i := by
  set r₁ : Rep := { r with freeNodes := rest } with hr₁
  set r₂ := r₁.modifyNode i (reuseNode p) with hr₂
  have hmem : i ∈ r.freeNodes := by rw [hfree]; exact List.mem_cons_self
  have hi : i < r.nodes.length := h.free_lt i hmem
  have hlen : r₂.nodes.length = r.nodes.length := length_modifyNode ..
  obtain ⟨hnot, hnd⟩ := List.nodup_cons.1 (hfree ▸ h.free_nodup)
  have hself : r₂.node i = reuseNode p (r.node i) := node_modifyNode_self (r := r₁) hi _
  have hnode : ∀ j, j ≠ i → r₂.node j = r.node j := fun j hj =>
    node_modifyNode_of_ne (r := r₁) hj.symm _
  -- a field that reuse leaves alone
  have hfield : ∀ {α : Type} (g : Node → α), (∀ n, g (reuseNode p n) = g n) →
      ∀ j, g (r₂.node j) = g (r.node j) := fun g hg j => field_modifyNode r₁ i j (reuseNode p) g hg
  have hrank := hfield Node.rank fun _ => rfl
  refine ⟨?_, ?_, fun v w => ?_, hnode, by rw [hself]; rfl, ?_, ?_,
    fun _ => hfield Node.version (fun _ => rfl) i, hlen ▸ h.size, hlen ▸ hi, hlen.ge,
    fun j hj _ => hlen ▸ hj, Or.inl hmem, hnd, fun j => ?_⟩
  · refine h.map.congr hlen rfl fun q j hj => ?_
    have hji : j ≠ i := fun hc => h.free_unmapped i hmem q (hc ▸ hj)
    rw [hnode j hji]
    exact ⟨rfl, rfl⟩
  · refine h.toEdgesInv.transfer (hfield Node.inSet fun _ => rfl)
      (hfield Node.outSet fun _ => rfl) (fun j => ?_) (fun j hj => ⟨by rw [hlen]; exact hj.1, ?_⟩)
      (fun j _ => hrank j) (fun j hj => ?_) ?_
    · rw [hfield Node.visited fun _ => rfl]
      exact h.unvisited j
    · exact fun hc => hj.2 (by rw [hfree]; exact List.mem_cons_of_mem i hc)
    · rw [hrank, hlen]
      exact h.rank_lt j (hlen ▸ hj)
    · simp only [hrank, hlen]
      exact h.rank_inj
  · unfold Edge
    rw [hfield Node.outSet fun _ => rfl]
  · rw [hfield Node.version fun _ => rfl]
    exact h.version_pos i hi
  · rw [hfield Node.version fun _ => rfl]
    exact h.version_le i hi
  · rw [show r₂.freeNodes = rest from rfl, hfree, List.mem_cons]
    constructor
    · exact fun hj => ⟨Or.inr hj, fun hc => hnot (hc ▸ hj)⟩
    · exact fun hj => hj.1.resolve_left hj.2

/-- **`GetId`** for a pointer that is not in the map appends a node if none is unused. -/
theorem getId_append (h : Inv r m) (tid p : ℕ) (hp : m p = none) (hfree : r.freeNodes = [])
    (hlen : r.nodes.length < maxVecSize) :
    ∃ r', r.getId tid p = some (r', makeId r.nodes.length 1) ∧
      Registered r m p r' r.nodes.length ∧ (r'.node r.nodes.length).version = 1 ∧
      r'.nodes.length = r.nodes.length + 1 := by
  refine ⟨_, ?_, (prepared_append h hfree hlen tid p).registered h.toNodesInv hp, ?_, ?_⟩
  · simp only [getId, h.map.find, hp, hfree, pushBack, if_pos hlen, Option.bind_eq_bind,
      Option.bind_some, Option.pure_def]
    rfl
  · rw [node_add, if_pos ⟨rfl, by simp⟩]
    simp [node, newNode, Node.setNextHash]
  · rw [(sameButLinks_add _ _ _).length]
    simp

/-- A node that `GetId` appends has the sets of a new node and the next rank. -/
theorem getId_append_node (h : Inv r m) (hp : m p = none) (hfree : r.freeNodes = [])
    (hlen : r.nodes.length < maxVecSize) (hg : r.getId tid p = some (r', id)) (j : ℕ) :
    (r'.node j).inSet = (r.node j).inSet ∧ (r'.node j).outSet = (r.node j).outSet ∧
      (r'.node j).rank = if j = r.nodes.length then j else (r.node j).rank := by
  simp only [getId, h.map.find, hp, hfree, pushBack, if_pos hlen, Option.bind_eq_bind,
    Option.bind_some, Option.pure_def, Option.some.injEq, Prod.mk.injEq] at hg
  obtain ⟨rfl, -⟩ := hg
  obtain ⟨l, hl⟩ := (sameButLinks_add
    { r with nodes := r.nodes ++ [newNode tid p r.nodes.length], freeNodes := [] } p
    (newNode tid p r.nodes.length).rank).node j
  have hnode : ({ r with nodes := r.nodes ++ [newNode tid p r.nodes.length], freeNodes := [] } :
      Rep).node j = if j = r.nodes.length then newNode tid p j else r.node j := by
    unfold node
    rw [List.getD_eq_getElem?_getD, List.getD_eq_getElem?_getD, List.getElem?_append]
    rcases Nat.lt_trichotomy j r.nodes.length with hlt | rfl | hgt
    · rw [if_pos hlt, if_neg hlt.ne]
    · simp
    · rw [if_neg hgt.not_gt, if_neg hgt.ne', List.getElem?_eq_none hgt.le,
        List.getElem?_eq_none (by simp; omega)]
  rw [hl, hnode]
  simp only [Node.setNextHash]
  split_ifs with hj
  · rw [node_eq_default hj.ge]
    exact ⟨rfl, rfl, rfl⟩
  · exact ⟨rfl, rfl, rfl⟩

/-- **`GetId`** for a pointer that is not in the map takes an unused node if there is one. -/
theorem getId_reuse (h : Inv r m) (tid p : ℕ) (hp : m p = none) {i : ℕ} {rest : List ℕ}
    (hfree : r.freeNodes = i :: rest) :
    ∃ r', r.getId tid p = some (r', makeId i (r.node i).version) ∧ Registered r m p r' i ∧
      r'.nodes.length = r.nodes.length := by
  have hreg := (prepared_reuse h hfree p).registered h.toNodesInv hp
  set r₁ := ({ r with freeNodes := rest } : Rep).modifyNode i (reuseNode p) with hr₁
  have hversion : (r₁.node i).version = (r.node i).version :=
    field_modifyNode { r with freeNodes := rest } i i (reuseNode p) Node.version fun _ => rfl
  refine ⟨r₁.add p i, ?_, hreg, ?_⟩
  · rw [← hversion]
    simp only [getId, h.map.find, hp, hfree, Option.bind_eq_bind, Option.bind_some, Option.pure_def,
      ← hr₁]
  · rw [(sameButLinks_add _ _ _).length]
    exact length_modifyNode ..

/-- **`GetId`** for a pointer that is not in the map. -/
theorem getId_new (h : Inv r m) (hp : m p = none) (hg : r.getId tid p = some (r', id)) :
    ∃ i, Registered r m p r' i ∧ id = makeId i (r'.node i).version := by
  cases hfree : r.freeNodes with
  | nil =>
    by_cases hlen : r.nodes.length < maxVecSize
    · obtain ⟨r₁, hr₁, hreg, hversion, -⟩ := getId_append h tid p hp hfree hlen
      cases hg.symm.trans hr₁
      exact ⟨_, hreg, by rw [hversion]⟩
    · simp [getId, h.map.find, hp, hfree, pushBack, hlen] at hg
  | cons i rest =>
    obtain ⟨r₁, hr₁, hreg, -⟩ := getId_reuse h tid p hp hfree
    cases hg.symm.trans hr₁
    refine ⟨i, hreg, ?_⟩
    rw [hreg.version i (h.free_lt i (hfree ▸ List.mem_cons_self))]

/-- `GetId` returns as long as there is room for a node. -/
theorem getId_isSome (h : Inv r m) (hlen : r.nodes.length < maxVecSize) (tid p : ℕ) :
    ∃ res, r.getId tid p = some res := by
  unfold getId
  rw [h.map.find]
  cases hp : m p with
  | some i => exact ⟨_, rfl⟩
  | none =>
    simp only [Option.bind_eq_bind, Option.bind_some, Option.pure_def]
    split
    · rw [pushBack, if_pos hlen]
      exact ⟨_, rfl⟩
    · exact ⟨_, rfl⟩

/-- `GetId` changes nothing for a pointer that is in the map, and only then. -/
theorem getId_same_iff (h : Inv r m) (hg : r.getId tid p = some (r', id)) :
    r' = r ↔ ∃ i, r.find p = some (some i) := by
  cases hp : m p with
  | some i =>
    rw [getId_known h hp] at hg
    cases hg
    exact iff_of_true rfl ⟨i, by rw [h.map.find, hp]⟩
  | none =>
    obtain ⟨i, hreg, -⟩ := getId_new h hp hg
    have hfind : r'.find p = some (some i) := by
      rw [hreg.inv.map.find, Function.update_self]
    have hnone : r.find p = some none := by rw [h.map.find, hp]
    refine iff_of_false (fun hc => ?_) fun ⟨j, hj⟩ => ?_
    · rw [hc, hnone] at hfind
      cases hfind
    · cases hnone.symm.trans hj

end GetId

/-- Ids issued before stay issued, and none of them is the new one. -/
theorem Registered.issued {r r' : Rep} {m : ℕ → Option ℕ} {p q i id : ℕ}
    (h : Registered r m p r' i) (hid : Issued r m id q) :
    Issued r' (Function.update m p (some i)) id q ∧ id ≠ makeId i (r'.node i).version := by
  have hv := h.version _ hid.index_lt
  have hi : i < r'.nodes.length := h.inv.lt (Function.update_self p (some i) m)
  have hne : nodeIndex id = i → nodeVersion id < (r.node (nodeIndex id)).version := by
    intro hc
    refine hid.version.resolve_right fun hr => ?_
    rcases h.fresh with hfree | hlen
    · exact hr.2.1 (hc ▸ hfree)
    · exact absurd hid.index_lt (by omega)
  refine ⟨⟨hid.lt_two_pow, hid.index_lt.trans_le h.length_le, hid.version_pos, ?_⟩, ?_⟩
  · rw [hv]
    by_cases hc : nodeIndex id = i
    · exact Or.inl (hne hc)
    · rcases hid.version with hlt | ⟨heq, hfree, hq⟩
      · exact Or.inl hlt
      · refine Or.inr ⟨heq, fun hf => hfree ((h.freeNodes _).1 hf).1, fun q' hq' => ?_⟩
        by_cases hqp : q' = p
        · rw [hqp, Function.update_self] at hq'
          exact absurd (Option.some_inj.1 hq').symm hc
        · rw [Function.update_of_ne hqp] at hq'
          exact hq q' hq'
  · intro hc
    have hsize := h.inv.lt_maxVecSize hi
    have hidx : nodeIndex id = i := by rw [hc, nodeIndex_makeId hsize]
    have hver : nodeVersion id = (r'.node i).version := by
      rw [hc, nodeVersion_makeId hsize (h.inv.version_le i hi)]
    have := hne hidx
    rw [← hv, hidx] at this
    omega

theorem Registered.current_iff {r r' : Rep} {m : ℕ → Option ℕ} {p q i id : ℕ}
    (h : Registered r m p r' i) (hr : NodesInv r m) :
    Current r' (Function.update m p (some i)) id q ↔
      if q = p then id = makeId i (r'.node i).version else Current r m id q := by
  unfold Current
  by_cases hqp : q = p
  · rw [if_pos hqp, hqp, Function.update_self]
    simp
  · rw [if_neg hqp, Function.update_of_ne hqp]
    refine exists_congr fun j => and_congr_right fun hj => ?_
    rw [h.version j (hr.lt hj)]

/-! ### RemoveNode -/

/-- What `RemoveNode` does to the node `i` of the pointer: its edges are erased, and it is added
to the unused ones unless its version cannot be incremented. -/
structure Removed (r : Rep) (m : ℕ → Option ℕ) (p : ℕ) (r' : Rep) (i : ℕ) : Prop where
  inv : Inv r' (Function.update m p none)
  length : r'.nodes.length = r.nodes.length
  version : ∀ j, j ≠ i → (r'.node j).version = (r.node j).version
  retire : (r.node i).version = maxVersion ∧ (r'.node i).version = maxVersion ∧
      r'.freeNodes = r.freeNodes ∨
    (r'.node i).version = (r.node i).version + 1 ∧ r'.freeNodes = i :: r.freeNodes
  edge : ∀ v w, r'.Edge v w ↔ r.Edge v w ∧ v ≠ i ∧ w ≠ i

section RemoveNode

variable {r r' : Rep} {m : ℕ → Option ℕ} {p i : ℕ}

theorem removeNode_unmapped (h : Inv r m) (hp : m p = none) : r.removeNode p = some r := by
  obtain ⟨r', hr', -, -, hsame⟩ := h.map.remove p
  simp [removeNode, hr', hp, hsame hp]

theorem sameNodes_eraseEdges (r : Rep) (i : ℕ) : SameNodes r (r.eraseEdges i) :=
  (sameNodes_foldl _ (fun r y => sameNodes_updateIn r y _) _ r).trans
    (sameNodes_foldl _ (fun r y => sameNodes_updateOut r y _) _ _)

/-- Erasing edges leaves the other fields alone. -/
theorem field_eraseEdges {α : Type*} (g : Node → α) (hin : ∀ n f, g (Node.updateIn f n) = g n)
    (hout : ∀ n f, g (Node.updateOut f n) = g n) (r : Rep) (i j : ℕ) :
    g ((r.eraseEdges i).node j) = g (r.node j) := by
  unfold eraseEdges
  rw [field_foldl g _ fun r y k => field_modifyNode r y k _ g fun n => hout n _,
    field_foldl g _ fun r y k => field_modifyNode r y k _ g fun n => hin n _]

/-- The edges that `RemoveNode` erases are those of the node. -/
theorem node_eraseEdges (h : EdgesInv r) (i : ℕ) :
    (∀ v w, (r.eraseEdges i).Edge v w ↔ r.Edge v w ∧ w ≠ i) ∧
      ∀ v w, v ∈ ((r.eraseEdges i).node w).inSet ↔ r.Edge v w ∧ v ≠ i := by
  set r₁ := (r.node i).outSet.elems.foldl (fun r y => r.modifyNode y (.updateIn (·.erase i))) r
    with hr₁
  have hr : r.eraseEdges i =
      (r₁.node i).inSet.elems.foldl (fun r y => r.modifyNode y (.updateOut (·.erase i))) r₁ := rfl
  have hnode₁ := node_foldl_modifyNode (.updateIn (·.erase i)) (r.node i).outSet.nodup_elems r
  rw [← hr₁] at hnode₁
  have hlen₁ : r₁.nodes.length = r.nodes.length :=
    (sameShape_foldl _ (fun r y => sameShape_modifyNode r y _) _ _).length
  have hin₁ : ∀ v w, v ∈ (r₁.node w).inSet ↔ r.Edge v w ∧ v ≠ i := by
    intro v w
    rw [hnode₁, ← h.mirror]
    split_ifs with hc
    · simp [Node.updateIn, and_comm]
    · refine ⟨fun hv => ⟨hv, ?_⟩, And.left⟩
      rintro rfl
      have hedge := (h.mirror v w).1 hv
      exact hc ⟨hedge, (h.used v w hedge).2.1⟩
  have hout₁ : ∀ v, (r₁.node v).outSet = (r.node v).outSet := fun v => by
    rw [hnode₁]
    split_ifs <;> rfl
  have hnode := node_foldl_modifyNode (.updateOut (·.erase i)) (r₁.node i).inSet.nodup_elems r₁
  rw [← hr] at hnode
  refine ⟨fun v w => ?_, fun v w => ?_⟩
  · unfold Edge
    rw [hnode]
    split_ifs with hc
    · simp [Node.updateOut, hout₁, and_comm]
    · rw [hout₁]
      refine ⟨fun hw => ⟨hw, ?_⟩, And.left⟩
      rintro rfl
      have hvw : v ≠ w := fun hc' => lt_irrefl _ (hc' ▸ h.increasing v w hw)
      exact hc ⟨(hin₁ v w).2 ⟨hw, hvw⟩, hlen₁ ▸ (h.used v w hw).1.1⟩
  · have hin : ((r.eraseEdges i).node w).inSet = (r₁.node w).inSet := by
      rw [hnode]
      split_ifs <;> rfl
    rw [hin, hin₁]

/-- The end of `RemoveNode` touches the version and the list of unused nodes only. -/
theorem recycle_spec (r : Rep) (hi : i < r.nodes.length) :
    (r.recycle i).nodes.length = r.nodes.length ∧ (r.recycle i).table = r.table ∧
      (∀ {α : Type} (g : Node → α), (∀ n k, g { n with version := k } = g n) →
        ∀ j, g ((r.recycle i).node j) = g (r.node j)) ∧
      (∀ j, j ≠ i → ((r.recycle i).node j).version = (r.node j).version) ∧
      ((r.node i).version = maxVersion ∧ ((r.recycle i).node i).version = maxVersion ∧
          (r.recycle i).freeNodes = r.freeNodes ∨
        (r.node i).version ≠ maxVersion ∧
          ((r.recycle i).node i).version = (r.node i).version + 1 ∧
          (r.recycle i).freeNodes = i :: r.freeNodes) := by
  unfold recycle
  split_ifs with hmax
  · exact ⟨rfl, rfl, fun g hg j => rfl, fun j _ => rfl, Or.inl ⟨hmax, hmax, rfl⟩⟩
  · refine ⟨length_modifyNode .., rfl, fun g hg j => ?_, fun j hj => ?_, Or.inr ⟨hmax, ?_, rfl⟩⟩
    · exact field_modifyNode r i j (fun n => { n with version := n.version + 1 }) g
        fun n => hg n _
    · exact congrArg Node.version (node_modifyNode_of_ne hj.symm _)
    · exact congrArg Node.version (node_modifyNode_self hi _)

/-- What the end of `RemoveNode` does to the nodes: `i` loses its edges and its pointer, and is put
on the list of unused nodes, unless its version cannot be incremented. -/
structure Detached (r r' : Rep) (i : ℕ) : Prop where
  length : r'.nodes.length = r.nodes.length
  rank : ∀ j, (r'.node j).rank = (r.node j).rank
  visited : ∀ j, (r'.node j).visited = (r.node j).visited
  null : (r'.node i).maskedPtr = nullptr
  maskedPtr : ∀ j, j ≠ i → (r'.node j).maskedPtr = (r.node j).maskedPtr
  version : ∀ j, j ≠ i → (r'.node j).version = (r.node j).version
  retire : (r.node i).version = maxVersion ∧ (r'.node i).version = maxVersion ∧
      r'.freeNodes = r.freeNodes ∨
    (r.node i).version ≠ maxVersion ∧ (r'.node i).version = (r.node i).version + 1 ∧
      r'.freeNodes = i :: r.freeNodes
  edge : ∀ v w, r'.Edge v w ↔ r.Edge v w ∧ v ≠ i ∧ w ≠ i
  mirror : ∀ v w, v ∈ (r'.node w).inSet ↔ r'.Edge v w

/-- Edges, pointer and version of the node are dealt with one after the other. -/
theorem detached_recycle (h : EdgesInv r) (hi : i < r.nodes.length) :
    Detached r (((r.eraseEdges i).modifyNode i clearNode).recycle i) i := by
  obtain ⟨hout₁, hin₁⟩ := node_eraseEdges h i
  set r₁ := r.eraseEdges i with hr₁
  have hnodes₁ : SameNodes r r₁ := sameNodes_eraseEdges r i
  set r₂ := r₁.modifyNode i clearNode with hr₂
  have hlen₂ : r₂.nodes.length = r.nodes.length := by rw [hr₂, length_modifyNode, hnodes₁.length]
  have hself₂ : r₂.node i = clearNode (r₁.node i) := node_modifyNode_self (hnodes₁.length ▸ hi) _
  have hnode₂ : ∀ j, j ≠ i → r₂.node j = r₁.node j := fun j hj =>
    node_modifyNode_of_ne hj.symm _
  have hversion₂ : ∀ j, (r₂.node j).version = (r.node j).version := fun j => by
    rw [hr₂, field_modifyNode r₁ i j clearNode Node.version fun _ => rfl, hnodes₁.version]
  have hfree₂ : r₂.freeNodes = r.freeNodes := by
    rw [hr₂, freeNodes_modifyNode, hnodes₁.freeNodes]
  obtain ⟨hlen, -, hfield, hversion, hretire⟩ := recycle_spec r₂ (hlen₂ ▸ hi)
  set r' := r₂.recycle i with hr'
  rw [hversion₂, hfree₂] at hretire
  -- a field that neither the edges, the pointer nor the version touch
  have hkept : ∀ {α : Type} (g : Node → α), (∀ n f, g (Node.updateIn f n) = g n) →
      (∀ n f, g (Node.updateOut f n) = g n) → (∀ n, g (clearNode n) = g n) →
      (∀ n k, g { n with version := k } = g n) → ∀ j, g (r'.node j) = g (r.node j) :=
    fun g h1 h2 h3 h4 j => by
      rw [hfield g h4, hr₂, field_modifyNode r₁ i j clearNode g h3, hr₁, field_eraseEdges g h1 h2]
  have hout : ∀ v w, r'.Edge v w ↔ r.Edge v w ∧ v ≠ i ∧ w ≠ i := fun v w => by
    have hvw : w ∈ (r₁.node v).outSet ↔ r.Edge v w ∧ w ≠ i := hout₁ v w
    unfold Edge
    rw [hfield Node.outSet fun _ _ => rfl]
    by_cases hv : v = i
    · rw [hv, hself₂]
      simp [clearNode]
    · rw [hnode₂ v hv, hvw]
      simp [hv, Edge]
  have hin : ∀ v w, v ∈ (r'.node w).inSet ↔ r.Edge v w ∧ v ≠ i ∧ w ≠ i := fun v w => by
    rw [hfield Node.inSet fun _ _ => rfl]
    by_cases hw : w = i
    · rw [hw, hself₂]
      simp [clearNode]
    · rw [hnode₂ w hw, hin₁]
      simp [hw]
  refine ⟨hlen.trans hlen₂, hkept Node.rank (fun _ _ => rfl) (fun _ _ => rfl) (fun _ => rfl)
    (fun _ _ => rfl), hkept Node.visited (fun _ _ => rfl) (fun _ _ => rfl) (fun _ => rfl)
    (fun _ _ => rfl), ?_, fun j hj => ?_, fun j hj => ?_, hretire, hout,
    fun v w => (hin v w).trans (hout v w).symm⟩
  · rw [hfield Node.maskedPtr fun _ _ => rfl, hself₂]
    rfl
  · rw [hfield Node.maskedPtr fun _ _ => rfl, hnode₂ j hj, hnodes₁.maskedPtr]
  · rw [hversion j hj, hversion₂]

/-- The end of `RemoveNode` leaves the pointer map alone, but for the node itself. -/
theorem represents_recycle (h : r.Represents m) (hp : ∀ q, m q ≠ some i)
    (hi : i < r.nodes.length) :
    (((r.eraseEdges i).modifyNode i clearNode).recycle i).Represents m := by
  have hnodes : SameNodes r (r.eraseEdges i) := sameNodes_eraseEdges r i
  have hlen : ((r.eraseEdges i).modifyNode i clearNode).nodes.length = r.nodes.length := by
    rw [length_modifyNode, hnodes.length]
  obtain ⟨hlen', htable, hfield, -, -⟩ :=
    recycle_spec ((r.eraseEdges i).modifyNode i clearNode) (hlen ▸ hi)
  refine h.congr (hlen'.trans hlen) ?_ fun q j hj => ?_
  · rw [htable, table_modifyNode, hnodes.table]
  · have hji : i ≠ j := fun hc => hp q (hc ▸ hj)
    rw [hfield Node.nextHash fun _ _ => rfl, hfield Node.maskedPtr fun _ _ => rfl,
      node_modifyNode_of_ne hji, hnodes.nextHash, hnodes.maskedPtr]
    exact ⟨rfl, rfl⟩

theorem SameButLinks.detached {r₀ : Rep} (h : r.SameButLinks r₀) (h' : Detached r₀ r' i) :
    Detached r r' i where
  length := h'.length.trans h.length
  rank := fun j => (h'.rank j).trans (h.field Node.rank (fun _ _ => rfl) j)
  visited := fun j => (h'.visited j).trans (h.field Node.visited (fun _ _ => rfl) j)
  null := h'.null
  maskedPtr := fun j hj =>
    (h'.maskedPtr j hj).trans (h.field Node.maskedPtr (fun _ _ => rfl) j)
  version := fun j hj => (h'.version j hj).trans (h.field Node.version (fun _ _ => rfl) j)
  retire := by
    have hretire := h'.retire
    rwa [h.field Node.version (fun _ _ => rfl), h.freeNodes] at hretire
  edge := fun v w => by rw [h'.edge, h.edge]
  mirror := h'.mirror

namespace Detached

variable (h : Detached r r' i)

include h

theorem mem_freeNodes {j : ℕ} (hj : j ≠ i) : j ∈ r'.freeNodes ↔ j ∈ r.freeNodes := by
  rcases h.retire with ⟨-, -, hf⟩ | ⟨-, -, hf⟩
  · rw [hf]
  · rw [hf, List.mem_cons]
    simp [hj]

theorem edgesInv (hr : EdgesInv r) : EdgesInv r' := by
  have hused : ∀ j, r.Used j → j ≠ i → r'.Used j := fun j hj hji =>
    ⟨h.length ▸ hj.1, fun hf => hj.2 ((h.mem_freeNodes hji).1 hf)⟩
  refine ⟨fun j => ?_, fun j hj => ?_, ?_, h.mirror, fun v w hvw => ?_, fun v w hvw => ?_⟩
  · rw [h.visited]
    exact hr.unvisited j
  · rw [h.rank, h.length]
    exact hr.rank_lt j (h.length ▸ hj)
  · simp only [h.rank, h.length]
    exact hr.rank_inj
  · obtain ⟨hvw', hv, hw⟩ := (h.edge v w).1 hvw
    obtain ⟨huv, huw⟩ := hr.used v w hvw'
    exact ⟨hused v huv hv, hused w huw hw⟩
  · dsimp only
    rw [h.rank, h.rank]
    exact hr.increasing v w ((h.edge v w).1 hvw).1

/-- The nodes, if the pointer map has lost the pointer of `i` only. -/
theorem nodesInv {m' : ℕ → Option ℕ} (hr : NodesInv r m) (hi : r.Used i)
    (hmap : r'.Represents m') (hm' : ∀ q j, m' q = some j ↔ m q = some j ∧ j ≠ i) :
    NodesInv r' m' := by
  refine ⟨h.length ▸ hr.size, hmap, ?_, fun j hj => ?_, fun j hj q hq => ?_, fun j hj => ?_,
    fun j hj => ?_, fun j hj => ?_, fun j hj => ?_⟩
  · rcases h.retire with ⟨-, -, hf⟩ | ⟨-, -, hf⟩
    · rw [hf]
      exact hr.free_nodup
    · rw [hf]
      exact List.nodup_cons.2 ⟨hi.2, hr.free_nodup⟩
  · by_cases hji : j = i
    · rw [hji, h.length]
      exact hi.1
    · rw [h.length]
      exact hr.free_lt j ((h.mem_freeNodes hji).1 hj)
  · obtain ⟨hq', hji⟩ := (hm' q j).1 hq
    exact hr.free_unmapped j ((h.mem_freeNodes hji).1 hj) q hq'
  · by_cases hji : j = i
    · have := hr.version_pos i hi.1
      rw [hji]
      rcases h.retire with ⟨hmax, hv, -⟩ | ⟨-, hv, -⟩ <;> omega
    · rw [h.version j hji]
      exact hr.version_pos j (h.length ▸ hj)
  · by_cases hji : j = i
    · have := hr.version_le i hi.1
      rw [hji]
      rcases h.retire with ⟨hmax, hv, -⟩ | ⟨hmax, hv, -⟩ <;> omega
    · rw [h.version j hji]
      exact hr.version_le j (h.length ▸ hj)
  · by_cases hji : j = i
    · rw [hji] at hj ⊢
      rcases h.retire with ⟨-, hv, -⟩ | ⟨-, -, hf⟩
      · exact Or.inr hv
      · exact absurd hj.2 (by simp [hf])
    · rw [h.version j hji]
      rcases hr.mapped j ⟨h.length ▸ hj.1, fun hf => hj.2 ((h.mem_freeNodes hji).2 hf)⟩ with
        ⟨q, hq⟩ | hmax
      · exact Or.inl ⟨q, (hm' q j).2 ⟨hq, hji⟩⟩
      · exact Or.inr hmax
  · by_cases hji : j = i
    · rw [hji]
      exact h.null
    · rw [h.maskedPtr j hji]
      exact hr.null j fun q hq => hj q ((hm' q j).2 ⟨hq, hji⟩)

end Detached

/-- The map without the pointer of a node. -/
theorem Represents.update_none (h : r.Represents m) (hp : m p = some i) (q j : ℕ) :
    Function.update m p none q = some j ↔ m q = some j ∧ j ≠ i := by
  by_cases hqp : q = p
  · rw [hqp, Function.update_self, hp]
    simp only [reduceCtorEq, Option.some_inj, false_iff, not_and, not_not]
    exact Eq.symm
  · rw [Function.update_of_ne hqp]
    exact ⟨fun hq => ⟨hq, fun hc => hqp (h.inj (hc ▸ hq) hp)⟩, And.left⟩

/-- **`RemoveNode`** for a pointer that is in the map. -/
theorem removeNode_mapped (h : Inv r m) (hp : m p = some i) :
    ∃ r', r.removeNode p = some r' ∧ Removed r m p r' i := by
  obtain ⟨r₀, hr₀, hlinks, hmap₀, -⟩ := h.map.remove p
  have hi : i < r₀.nodes.length := hlinks.length ▸ h.lt hp
  have hupdate := h.map.update_none hp
  have hunmapped : ∀ q, Function.update m p none q ≠ some i := fun q hq =>
    ((hupdate q i).1 hq).2 rfl
  have hdet : Detached r (((r₀.eraseEdges i).modifyNode i clearNode).recycle i) i :=
    hlinks.detached (detached_recycle (hlinks.edgesInv h.toEdgesInv) hi)
  have hmap := represents_recycle hmap₀ hunmapped hi
  refine ⟨_, by simp [removeNode, hr₀, hp], ⟨hdet.nodesInv h.toNodesInv (h.used_of_mapped hp) hmap
    hupdate, hdet.edgesInv h.toEdgesInv⟩, hdet.length, hdet.version, ?_, hdet.edge⟩
  rcases hdet.retire with hmax | ⟨-, hv, hf⟩
  · exact Or.inl hmax
  · exact Or.inr ⟨hv, hf⟩

/-- The sets of the node that is removed are cleared. -/
theorem removeNode_sets (h : Inv r m) (hp : m p = some i) (hg : r.removeNode p = some r') :
    (r'.node i).inSet = NodeSet.empty ∧ (r'.node i).outSet = NodeSet.empty := by
  obtain ⟨r₀, hr₀, hlinks, -⟩ := h.map.remove p
  have hi : i < (r₀.eraseEdges i).nodes.length := by
    rw [(sameNodes_eraseEdges r₀ i).length, hlinks.length]
    exact h.lt hp
  simp only [removeNode, hr₀, hp, Option.bind_eq_bind, Option.bind_some, Option.pure_def,
    Option.some.injEq] at hg
  subst hg
  obtain ⟨-, -, hfield, -⟩ := recycle_spec ((r₀.eraseEdges i).modifyNode i clearNode)
    ((length_modifyNode ..).symm ▸ hi)
  rw [hfield Node.inSet fun _ _ => rfl, hfield Node.outSet fun _ _ => rfl, node_modifyNode_self hi]
  exact ⟨rfl, rfl⟩

/-- Ids issued before stay issued. -/
theorem Removed.issued {q id : ℕ} (h : Removed r m p r' i) (hr : NodesInv r m) (hp : m p = some i)
    (hid : Issued r m id q) : Issued r' (Function.update m p none) id q := by
  refine ⟨hid.lt_two_pow, h.length ▸ hid.index_lt, hid.version_pos, ?_⟩
  by_cases hc : nodeIndex id = i
  · rcases h.retire with ⟨hmax, hmax', hf⟩ | ⟨hv, -⟩
    · rcases hid.version with hlt | ⟨heq, hfree, -⟩
      · rw [hc] at hlt ⊢
        exact Or.inl (by omega)
      · rw [hc] at heq hfree ⊢
        refine Or.inr ⟨by omega, hf ▸ hfree, fun q' hq' => ?_⟩
        by_cases hqp : q' = p
        · rw [hqp, Function.update_self] at hq'
          cases hq'
        · rw [Function.update_of_ne hqp] at hq'
          exact absurd (hr.map.inj hq' hp) hqp
    · left
      rw [hc, hv]
      rcases hid.version with hlt | ⟨heq, -, -⟩
      · rw [hc] at hlt; omega
      · rw [hc] at heq; omega
  · rw [h.version _ hc]
    refine hid.version.imp_right fun ⟨heq, hfree, hq⟩ => ⟨heq, ?_, fun q' hq' => ?_⟩
    · rcases h.retire with ⟨-, -, hf⟩ | ⟨-, hf⟩
      · rwa [hf]
      · rw [hf, List.mem_cons]
        exact fun hor => hor.elim hc hfree
    · by_cases hqp : q' = p
      · rw [hqp, Function.update_self] at hq'
        cases hq'
      · rw [Function.update_of_ne hqp] at hq'
        exact hq q' hq'

theorem Removed.current_iff {q id : ℕ} (h : Removed r m p r' i) (hr : NodesInv r m)
    (hp : m p = some i) :
    Current r' (Function.update m p none) id q ↔ q ≠ p ∧ Current r m id q := by
  unfold Current
  by_cases hqp : q = p
  · rw [hqp, Function.update_self]
    simp
  · rw [Function.update_of_ne hqp]
    simp only [ne_eq, hqp, not_false_eq_true, true_and]
    refine exists_congr fun j => and_congr_right fun hj => ?_
    rw [h.version j fun hc => hqp (hr.map.inj (hc ▸ hj) hp)]

end RemoveNode

end Rep

end BugInsight

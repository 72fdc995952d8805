import Mathlib.Tactic

/-!
# The largest values of a function

`IsLargest M l`: the list `l` holds the largest values of the function `M`, with their keys, in any
order.  The value `⊥` marks a free slot.

* `maxOf`: the largest values of the keys of a list;
* `IsLargest.replace`, `IsLargest.raise`: what an update of one value of `M` does to the list;
* `IsLargest.countP_eq`: how many values satisfy a condition that larger values satisfy, too;
* `IsLargest.perm`: two such lists of one length hold the same values.
-/

namespace Largest

variable {κ α : Type*} [LinearOrder α] [OrderBot α]

/-- The values that are not `⊥` belong to different keys, and no other key has a larger value than
one in the list. -/
structure IsLargest (M : κ → α) (l : List (κ × α)) : Prop where
  distinct : l.Pairwise fun a b => a.2 ≠ ⊥ → b.2 ≠ ⊥ → a.1 ≠ b.1
  value : ∀ a ∈ l, a.2 ≠ ⊥ → a.2 = M a.1
  rest : ∀ k, (∀ a ∈ l, a.2 ≠ ⊥ → a.1 ≠ k) → ∀ a ∈ l, M k ≤ a.2

variable {M : κ → α} {l l' pre post : List (κ × α)} {s : κ × α} {k : κ} {v : α}

theorem isLargest_free (n : ℕ) (k : κ) :
    IsLargest (fun _ : κ => (⊥ : α)) (List.replicate n (k, ⊥)) where
  distinct := List.pairwise_replicate.2 (Or.inr fun h => absurd rfl h)
  value _ ha h := absurd (List.eq_of_mem_replicate ha ▸ rfl) h
  rest _ _ _ _ := bot_le

theorem IsLargest.of_perm (h : IsLargest M l) (hl : l.Perm l') : IsLargest M l' where
  distinct := (hl.pairwise_iff fun hab hb ha => (hab ha hb).symm).1 h.distinct
  value a ha := h.value a (hl.mem_iff.2 ha)
  rest k hk a ha := h.rest k (fun b hb => hk b (hl.mem_iff.1 hb)) a (hl.mem_iff.2 ha)

section Update

variable [DecidableEq κ]

/-- The function after a further value of a key. -/
def record (M : κ → α) (k : κ) (v : α) : κ → α := Function.update M k (M k ⊔ v)

omit [OrderBot α] in
@[simp] theorem record_self : record M k v k = M k ⊔ v := Function.update_self ..

omit [OrderBot α] in
theorem record_of_ne {k' : κ} (h : k' ≠ k) : record M k v k' = M k' := Function.update_of_ne h ..

/-- A larger value of a key that is not in the list takes the place of a smallest one. -/
theorem IsLargest.replace (h : IsLargest M (pre ++ s :: post))
    (hk : ∀ a ∈ pre ++ s :: post, a.2 ≠ ⊥ → a.1 ≠ k) (hs : ∀ a ∈ pre ++ s :: post, s.2 ≤ a.2)
    (hv : s.2 < v) : IsLargest (record M k v) (pre ++ (k, v) :: post) := by
  refine IsLargest.of_perm ?_ List.perm_middle.symm
  have hold := h.of_perm List.perm_middle
  have hmem : ∀ {x a : κ × α}, a ∈ pre ++ x :: post ↔ a = x ∨ a ∈ pre ++ post := fun {x a} =>
    List.perm_middle.mem_iff.trans List.mem_cons
  have hbot : v ≠ ⊥ := (bot_le.trans_lt hv).ne'
  refine ⟨List.pairwise_cons.2 ⟨fun b hb _ hne => ?_, (List.pairwise_cons.1 hold.distinct).2⟩,
    fun a ha hne => ?_, fun k' hk' a ha => ?_⟩
  · exact (hk b (hmem.2 (Or.inr hb)) hne).symm
  · rcases List.mem_cons.1 ha with rfl | ha
    · have hle : M k ≤ v := (h.rest k hk s (hmem.2 (Or.inl rfl))).trans hv.le
      rw [record_self, sup_eq_right.2 hle]
    · rw [record_of_ne (hk a (hmem.2 (Or.inr ha)) hne)]
      exact h.value a (hmem.2 (Or.inr ha)) hne
  · rw [record_of_ne (hk' (k, v) List.mem_cons_self hbot).symm]
    -- the key is one that was not in the list before, or the one whose place is taken
    have hle : ∀ a ∈ pre ++ s :: post, M k' ≤ a.2 := by
      by_cases hs' : s.2 ≠ ⊥ ∧ s.1 = k'
      · rw [← hs'.2, ← h.value s (hmem.2 (Or.inl rfl)) hs'.1]
        exact hs
      · refine h.rest k' fun b hb hne hb' => ?_
        rcases hmem.1 hb with rfl | hb
        · exact hs' ⟨hne, hb'⟩
        · exact hk' b (List.mem_cons_of_mem _ hb) hne hb'
    rcases List.mem_cons.1 ha with rfl | ha
    · exact (hle s (hmem.2 (Or.inl rfl))).trans hv.le
    · exact hle a (hmem.2 (Or.inr ha))

/-- A value that is not larger than those in the list changes nothing. -/
theorem IsLargest.keep (h : IsLargest M l) (hk : ∀ a ∈ l, a.2 ≠ ⊥ → a.1 ≠ k)
    (hv : ∀ a ∈ l, v ≤ a.2) : IsLargest (record M k v) l := by
  refine ⟨h.distinct, fun a ha hne => ?_, fun k' hk' a ha => ?_⟩
  · rw [record_of_ne (hk a ha hne)]
    exact h.value a ha hne
  · by_cases hkk : k' = k
    · subst hkk
      rw [record_self]
      exact sup_le (h.rest k' hk a ha) (hv a ha)
    · rw [record_of_ne hkk]
      exact h.rest k' hk' a ha

/-- A further value of a key in the list. -/
theorem IsLargest.raise (h : IsLargest M (pre ++ s :: post)) (hs : s.2 ≠ ⊥) :
    IsLargest (record M s.1 v) (pre ++ (s.1, s.2 ⊔ v) :: post) := by
  refine IsLargest.of_perm ?_ List.perm_middle.symm
  have hold := h.of_perm List.perm_middle
  obtain ⟨hdistinct, htail⟩ := List.pairwise_cons.1 hold.distinct
  have hbot : s.2 ⊔ v ≠ ⊥ := fun hc => hs (sup_eq_bot_iff.1 hc).1
  refine ⟨List.pairwise_cons.2 ⟨fun b hb _ => hdistinct b hb hs, htail⟩, fun a ha hne => ?_,
    fun k hk a ha => ?_⟩
  · rcases List.mem_cons.1 ha with rfl | ha
    · rw [record_self, ← hold.value s List.mem_cons_self hs]
    · rw [record_of_ne (hdistinct a ha hs hne).symm]
      exact hold.value a (List.mem_cons_of_mem s ha) hne
  · rw [record_of_ne (hk _ List.mem_cons_self hbot).symm]
    have hle := hold.rest k fun b hb hne => by
      rcases List.mem_cons.1 hb with rfl | hb
      · exact hk (b.1, b.2 ⊔ v) List.mem_cons_self hbot
      · exact hk b (List.mem_cons_of_mem _ hb) hne
    rcases List.mem_cons.1 ha with rfl | ha
    · exact (hle s List.mem_cons_self).trans le_sup_left
    · exact hle a (List.mem_cons_of_mem s ha)

/-- The largest value that a list has for each key. -/
def maxOf (l : List (κ × α)) : κ → α := l.foldl (fun M a => record M a.1 a.2) fun _ => ⊥

theorem maxOf_concat (l : List (κ × α)) (a : κ × α) :
    maxOf (l ++ [a]) = record (maxOf l) a.1 a.2 := by
  unfold maxOf
  rw [List.foldl_append]
  rfl

theorem maxOf_le_iff (l : List (κ × α)) (k : κ) :
    maxOf l k ≤ v ↔ ∀ a ∈ l, a.1 = k → a.2 ≤ v := by
  induction l using List.reverseRecOn with
  | nil => simp [maxOf]
  | append_singleton l a ih =>
    rw [maxOf_concat]
    by_cases hk : a.1 = k
    · subst hk
      rw [record_self, sup_le_iff, ih]
      simp [or_imp, forall_and]
    · rw [record_of_ne (Ne.symm hk), ih]
      simp [or_imp, forall_and, hk]

theorem le_maxOf {l : List (κ × α)} {a : κ × α} (ha : a ∈ l) : a.2 ≤ maxOf l a.1 :=
  (maxOf_le_iff l a.1).1 le_rfl a ha rfl

/-- A value that is not `⊥` is in the list. -/
theorem maxOf_mem {l : List (κ × α)} {k : κ} (h : maxOf l k ≠ ⊥) : (k, maxOf l k) ∈ l := by
  induction l using List.reverseRecOn with
  | nil => exact absurd rfl h
  | append_singleton l a ih =>
    rw [maxOf_concat] at h ⊢
    by_cases hk : a.1 = k
    · subst hk
      rw [record_self] at h ⊢
      rcases le_total (maxOf l a.1) a.2 with hle | hle
      · rw [sup_eq_right.2 hle]
        exact List.mem_append_right l List.mem_cons_self
      · rw [sup_eq_left.2 hle] at h ⊢
        exact List.mem_append_left _ (ih h)
    · rw [record_of_ne (Ne.symm hk)] at h ⊢
      exact List.mem_append_left _ (ih h)

theorem maxOf_perm {l l' : List (κ × α)} (h : l.Perm l') : maxOf l = maxOf l' := by
  funext k
  refine le_antisymm ?_ ?_
  · exact (maxOf_le_iff l k).2 fun a ha hk => hk ▸ le_maxOf (h.mem_iff.1 ha)
  · exact (maxOf_le_iff l' k).2 fun a ha hk => hk ▸ le_maxOf (h.mem_iff.2 ha)

end Update

section Count

variable {P : α → Prop} [DecidablePred P] {K : Finset κ}

/-- **How many values are large**: as many as the function has, as far as there is room. -/
theorem IsLargest.countP_eq (h : IsLargest M l) (hP : ∀ v w, v ≤ w → P v → P w) (hbot : ¬ P ⊥)
    (hK : ∀ k, P (M k) → k ∈ K) :
    l.countP (fun a => P a.2) = min l.length (K.filter fun k => P (M k)).card := by
  classical
  -- the keys of the large values in the list are different, and have large values
  let large := (l.filter fun a => P a.2).map Prod.fst
  have hne : ∀ a : κ × α, P a.2 → a.2 ≠ ⊥ := fun a ha hc => hbot (hc ▸ ha)
  have hmem : ∀ a ∈ l, P a.2 → a.1 ∈ large := fun a ha hPa =>
    List.mem_map.2 ⟨a, List.mem_filter.2 ⟨ha, decide_eq_true hPa⟩, rfl⟩
  have hnodup : large.Nodup := by
    refine List.pairwise_map.2 (List.Pairwise.imp_of_mem ?_ (h.distinct.filter _))
    intro a b ha hb hab
    exact hab (hne a (of_decide_eq_true (List.mem_filter.1 ha).2))
      (hne b (of_decide_eq_true (List.mem_filter.1 hb).2))
  have hlarge : large.toFinset ⊆ K.filter fun k => P (M k) := by
    intro k hk
    obtain ⟨a, ha, rfl⟩ := List.mem_map.1 (List.mem_toFinset.1 hk)
    obtain ⟨hal, hPa⟩ := List.mem_filter.1 ha
    have hval := h.value a hal (hne a (of_decide_eq_true hPa))
    have hPM : P (M a.1) := hval ▸ of_decide_eq_true hPa
    exact Finset.mem_filter.2 ⟨hK _ hPM, hPM⟩
  have hcount : l.countP (fun a => P a.2) = large.toFinset.card := by
    rw [List.toFinset_card_of_nodup hnodup, List.length_map, List.countP_eq_length_filter]
  have hle := Finset.card_le_card hlarge
  by_cases hall : (K.filter fun k => P (M k)) ⊆ large.toFinset
  · have heq := Finset.Subset.antisymm hlarge hall
    rw [← heq, ← hcount, min_eq_right List.countP_le_length]
  · -- a large value that is not in the list: all values in the list are large
    obtain ⟨k, hk, hnot⟩ := Finset.not_subset.1 hall
    have hPk := (Finset.mem_filter.1 hk).2
    have hrest : ∀ a ∈ l, P a.2 := by
      refine fun a ha => hP _ _ (h.rest k (fun b hb hb0 hbk => hnot ?_) a ha) hPk
      rw [List.mem_toFinset, ← hbk]
      refine hmem b hb ?_
      rw [h.value b hb hb0, hbk]
      exact hPk
    have hfull : l.countP (fun a => P a.2) = l.length :=
      List.countP_eq_length.2 fun a ha => decide_eq_true (hrest a ha)
    rw [← hcount, hfull] at hle
    rw [hfull, min_eq_left hle]

end Count

/-- **The values are determined** by the function and the length of the list. -/
theorem IsLargest.perm (h : IsLargest M l) (h' : IsLargest M l') (hlen : l.length = l'.length)
    (K : Finset κ) (hK : ∀ k, M k ≠ ⊥ → k ∈ K) : (l.map Prod.snd).Perm (l'.map Prod.snd) := by
  classical
  have hcount : ∀ (P : α → Prop) [DecidablePred P], (∀ v w, v ≤ w → P v → P w) →
      l.countP (fun a => P a.2) = l'.countP (fun a => P a.2) := by
    intro P _ hP
    by_cases hbot : P ⊥
    · have hall : ∀ v, P v := fun v => hP ⊥ v bot_le hbot
      simp only [hall, decide_true, List.countP_true, hlen]
    · have hKP : ∀ k, P (M k) → k ∈ K := fun k hk => hK k fun hc => hbot (hc ▸ hk)
      rw [h.countP_eq hP hbot hKP, h'.countP_eq hP hbot hKP, hlen]
  have hsplit : ∀ (m : List (κ × α)) (v : α),
      (m.map Prod.snd).count v + m.countP (fun a => v < a.2) = m.countP (fun a => v ≤ a.2) := by
    intro m v
    induction m with
    | nil => rfl
    | cons a m ih =>
      rw [List.map_cons, List.count_cons, List.countP_cons, List.countP_cons, ← ih]
      rcases lt_trichotomy v a.2 with hv | hv | hv
      · simp [hv, hv.le, hv.ne', add_assoc]
      · simp [hv, add_right_comm]
      · simp [hv.not_gt, hv.not_ge, hv.ne]
  refine List.perm_iff_count.2 fun v => ?_
  have h₁ := hcount (v ≤ ·) fun _ _ hvw hv => hv.trans hvw
  have h₂ := hcount (v < ·) fun _ _ hvw hv => hv.trans_le hvw
  have h₃ := hsplit l v
  have h₄ := hsplit l' v
  omega

end Largest

import BugInsight.Leak.Grouping

/-!
# The call stacks of the leaks

`generate_callstacks2`, which prints the used slots that `group_leaks2` has filled.  How a call
stack is rendered is in `BugInsight.Leak.Symbols`; here `hash` is any hash of it, which is compared
with the ids to suppress.

* `generateCallstacks2`: the sections, with the call stacks that are printed;
* `recorded_foldl`: a used slot has the call stack of a leak, unless it has the hash `0`;
* `persists_foldl`: in some order of the visit, a leak with the hash `0` keeps a slot without a
  call stack;
* `every_callstack_iff`: when every section has call stacks, and these are the ones of leaks.
-/

namespace BugInsight

open Largest CallstackSizeHash

/-- The section of an API function. -/
structure ApiSection where
  apiFunction : ApiFunction
  hitCount : ℕ
  totalBytes : ℕ
  callstacks : List Callstack
  deriving DecidableEq

/-- `generate_callstacks2`: the sections, and whether a call stack was suppressed. -/
def generateCallstacks2 (hash : Callstack → ℕ) (infos : List UsedApiInfo)
    (idsToSuppress : List ℕ) : List ApiSection × Bool :=
  let printed := infos.filter fun info => info.hitCount ≠ 0
  let callstacks := fun info : UsedApiInfo =>
    (info.callstackAndSize.filter fun s => s.sizeBytes ≠ 0).map fun s => s.callstack
  let suppressed := fun c => idsToSuppress.contains (hash c)
  (printed.map fun info =>
      { apiFunction := info.apiFunction
        hitCount := info.hitCount
        totalBytes := info.totalBytes
        callstacks := (callstacks info).filter fun c => !suppressed c },
    printed.any fun info => (callstacks info).any suppressed)

/-- Every section has a call stack, and every printed call stack is the one of a leak. -/
def EveryCallstack (std : StdSort moreBytes) (hash : Callstack → ℕ) (leaks : List MemoryLeakData) :
    Prop :=
  ∀ sec ∈ (generateCallstacks2 hash (groupLeaks2 std usedApiInfos leaks) []).1,
    sec.callstacks ≠ [] ∧
      ∀ c ∈ sec.callstacks, ∃ d ∈ leaksOf leaks sec.apiFunction, d.callstack = c

/-! ### The recorded call stacks -/

section Recorded

variable {leaks : List MemoryLeakData} {slots : List CallstackSizeHash}

/-- The slot has the call stack of a leak, or the hash `0` and none. -/
def Recorded (leaks : List MemoryLeakData) (s : CallstackSizeHash) : Prop :=
  (∃ d ∈ leaks, d.callstack = s.callstack) ∨ s.hash = 0 ∧ s.callstack = {}

theorem Recorded.append {s : CallstackSizeHash} (h : Recorded leaks s)
    (leaks' : List MemoryLeakData) : Recorded (leaks ++ leaks') s :=
  h.imp_left fun ⟨d, hd, heq⟩ => ⟨d, List.mem_append_left _ hd, heq⟩

theorem recorded_record (h : ∀ s ∈ slots, Recorded leaks s) (hslots : slots ≠ [])
    (d : MemoryLeakData) : ∀ s ∈ recordCallstack slots d, Recorded (leaks ++ [d]) s := by
  -- only one slot changes
  have hset : ∀ (pre : List CallstackSizeHash) (s t : CallstackSizeHash)
      (post : List CallstackSizeHash), slots = pre ++ s :: post → Recorded (leaks ++ [d]) t →
      ∀ x ∈ pre ++ t :: post, Recorded (leaks ++ [d]) x := by
    rintro pre s t post rfl ht x hx
    rcases List.mem_append.1 hx with hx | hx
    · exact (h x (List.mem_append_left _ hx)).append [d]
    · rcases List.mem_cons.1 hx with rfl | hx
      · exact ht
      · exact (h x (List.mem_append_right _ (List.mem_cons_of_mem _ hx))).append [d]
  rcases recordCallstack_cases hslots d with ⟨pre, s, post, hs, -, -, heq⟩ |
    ⟨-, pre, s, post, hs, -, -, heq⟩
  · rw [heq]
    refine hset pre s _ post hs ?_
    have hs' := (h s (hs ▸ List.mem_append_right _ List.mem_cons_self)).append [d]
    unfold CallstackSizeHash.raise
    split_ifs
    · exact hs'
    · exact hs'
  · rw [heq]
    refine hset pre s _ post hs ?_
    split_ifs
    · exact Or.inl ⟨d, List.mem_append_right _ List.mem_cons_self, rfl⟩
    · exact (h s (hs ▸ List.mem_append_right _ List.mem_cons_self)).append [d]

theorem Slots.ne_nil (h : Slots leaks slots) : slots ≠ [] :=
  List.ne_nil_of_length_pos (h.length ▸ Nat.succ_pos 9)

/-- **All leaks** of an API function. -/
theorem recorded_foldl (leaks : List MemoryLeakData) :
    ∀ s ∈ leaks.foldl recordCallstack (List.replicate 10 {}), Recorded leaks s := by
  induction leaks using List.reverseRecOn with
  | nil =>
    intro s hs
    rw [List.eq_of_mem_replicate hs]
    exact Or.inr ⟨rfl, rfl⟩
  | append_singleton leaks d ih =>
    rw [List.foldl_append]
    exact recorded_record ih (slots_foldl leaks).ne_nil d

end Recorded

/-! ### The slot of the hash `0` -/

section Persists

variable {slots : List CallstackSizeHash} {t : CallstackSizeHash}

/-- A leak leaves a slot alone that it neither raises nor replaces. -/
theorem persists (ht : t ∈ slots) (d : MemoryLeakData)
    (hraise : d.stackframeHash = t.hash → d.size ≤ t.sizeBytes)
    (hreplace : (∀ x ∈ slots, x.hash ≠ d.stackframeHash) →
      d.size ≤ t.sizeBytes ∨ ∃ x ∈ slots, x.sizeBytes < t.sizeBytes) :
    t ∈ recordCallstack slots d := by
  rcases recordCallstack_cases (List.ne_nil_of_mem ht) d with ⟨pre, s, post, rfl, hs, -, heq⟩ |
    ⟨hnone, pre, s, post, rfl, hpre, hpost, heq⟩
  · rw [heq]
    rcases List.mem_append.1 ht with ht | ht
    · exact List.mem_append_left _ ht
    · rcases List.mem_cons.1 ht with rfl | ht
      · have hself : t.raise d.size = t := if_neg (not_lt.2 (hraise hs.symm))
        rw [hself]
        exact List.mem_append_right _ List.mem_cons_self
      · exact List.mem_append_right _ (List.mem_cons_of_mem _ ht)
  · rw [heq]
    rcases List.mem_append.1 ht with ht | ht
    · exact List.mem_append_left _ ht
    · rcases List.mem_cons.1 ht with rfl | ht
      · have hself : ¬ d.size > t.sizeBytes := by
          rcases hreplace hnone with hle | ⟨x, hx, hlt⟩
          · exact not_lt.2 hle
          · -- the slot is a smallest one
            refine absurd hlt (not_lt.2 ?_)
            rcases List.mem_append.1 hx with hx | hx
            · exact (hpre x hx).le
            · rcases List.mem_cons.1 hx with rfl | hx
              · exact le_rfl
              · exact hpost x hx
        rw [if_neg hself]
        exact List.mem_append_right _ List.mem_cons_self
      · exact List.mem_append_right _ (List.mem_cons_of_mem _ ht)

/-- Small leaks leave a slot alone. -/
theorem persists_foldl_small (ht : t ∈ slots) (leaks : List MemoryLeakData)
    (hsmall : ∀ d ∈ leaks, d.size ≤ t.sizeBytes) : t ∈ leaks.foldl recordCallstack slots := by
  induction leaks generalizing slots with
  | nil => exact ht
  | cons d leaks ih =>
    have hd := hsmall d List.mem_cons_self
    refine ih (persists ht d (fun _ => hd) fun _ => Or.inl hd) ?_
    exact fun d' hd' => hsmall d' (List.mem_cons_of_mem _ hd')

/-- A first leak with the hash `0` uses a slot without a call stack. -/
theorem first_record (d : MemoryLeakData) (hhash : d.stackframeHash = 0) (hsize : d.size ≠ 0) :
    ⟨{}, d.size, 0⟩ ∈ recordCallstack (List.replicate 10 {}) d := by
  have hfree : ∀ x ∈ List.replicate 10 ({} : CallstackSizeHash), x = {} := fun x hx =>
    List.eq_of_mem_replicate hx
  have hne : List.replicate 10 ({} : CallstackSizeHash) ≠ [] := by decide
  rcases recordCallstack_cases hne d with
    ⟨pre, s, post, hs, -, -, heq⟩ | ⟨hnone, -⟩
  · have hs0 : s = {} := hfree s (hs ▸ List.mem_append_right _ List.mem_cons_self)
    have hraise : s.raise d.size = ⟨{}, d.size, 0⟩ := by
      rw [hs0]
      exact if_pos (Nat.pos_of_ne_zero hsize)
    rw [heq, hraise]
    exact List.mem_append_right _ List.mem_cons_self
  · exact absurd hhash.symm (hnone {} (List.mem_replicate.2 ⟨by decide, rfl⟩))

/-- While there are slots for all call stacks, none is replaced. -/
theorem persists_foldl_large (d : MemoryLeakData) (hhash : d.stackframeHash = 0)
    (hsize : d.size ≠ 0) (K : Finset ℕ) (h0 : 0 ∉ K) (hK : K.card < 10)
    (leaks : List MemoryLeakData) (hleaks : ∀ d' ∈ leaks, d'.stackframeHash ∈ K) :
    ⟨{}, d.size, 0⟩ ∈ (d :: leaks).foldl recordCallstack (List.replicate 10 {}) := by
  induction leaks using List.reverseRecOn with
  | nil => exact first_record d hhash hsize
  | append_singleton leaks d' ih =>
    have hd' := hleaks d' (List.mem_append_right _ List.mem_cons_self)
    obtain ⟨slots, heq⟩ : ∃ slots, slots =
        (d :: leaks).foldl recordCallstack (List.replicate 10 {}) := ⟨_, rfl⟩
    have hslots := slots_foldl (d :: leaks)
    rw [← List.cons_append, List.foldl_append]
    rw [← heq] at ih hslots ⊢
    have hne : d'.stackframeHash ≠ 0 := fun hc => h0 (hc ▸ hd')
    refine persists (ih fun x hx => hleaks x (List.mem_append_left _ hx)) d'
      (fun hc => absurd hc hne) fun hnone => Or.inr ?_
    -- ten used slots would have ten hashes, `0` or of `K`, and not the one of the leak
    by_contra! hlarge
    have hused : ∀ x ∈ slots, x.sizeBytes ≠ 0 := fun x hx hc =>
      hsize (Nat.le_zero.1 (hc ▸ hlarge x hx))
    have hnodup : (slots.map fun x => x.hash).Nodup :=
      List.pairwise_map.2 (hslots.exact.distinct.imp_of_mem fun {a b} ha hb hab =>
        hab (hused a ha) (hused b hb))
    have hsub : (slots.map fun x => x.hash).toFinset ⊆ (insert 0 K).erase d'.stackframeHash := by
      intro k hk
      obtain ⟨x, hx, rfl⟩ := List.mem_map.1 (List.mem_toFinset.1 hk)
      obtain ⟨⟨d₁, hd₁, hhash₁, -⟩, -⟩ := hslots.exact.greatest x hx (hused x hx)
      refine Finset.mem_erase.2 ⟨hnone x hx, ?_⟩
      rcases List.mem_cons.1 hd₁ with rfl | hd₁
      · exact Finset.mem_insert.2 (Or.inl (hhash₁.symm.trans hhash))
      · exact Finset.mem_insert_of_mem (hhash₁ ▸ hleaks d₁ (List.mem_append_left _ hd₁))
    have hcard := Finset.card_le_card hsub
    rw [List.toFinset_card_of_nodup hnodup, List.length_map, hslots.length,
      Finset.card_erase_of_mem (Finset.mem_insert_of_mem hd'), Finset.card_insert_of_notMem h0]
      at hcard
    omega

end Persists

/-! ### The condition -/

/-- The size of the largest leak with a hash. -/
def largestLeak (leaks : List MemoryLeakData) : ℕ → ℕ :=
  maxOf (leaks.map MemoryLeakData.entry)

/-- The hashes that have a larger leak than the hash `0`. -/
def largerHashes (leaks : List MemoryLeakData) : Finset ℕ :=
  (leaks.map fun d => d.stackframeHash).toFinset.filter fun h =>
    largestLeak leaks 0 < largestLeak leaks h

/-- The leaks of an API function are not all of zero bytes, and, unless one of them has no call
stack, those with the hash `0` are of zero bytes or come after ten larger ones. -/
def CallstacksKept (leaks : List MemoryLeakData) : Prop :=
  (∃ d ∈ leaks, d.size ≠ 0) ∧
    ((∃ d ∈ leaks, d.callstack = {}) ∨ (∀ d ∈ leaks, d.stackframeHash = 0 → d.size = 0) ∨
      10 ≤ (largerHashes leaks).card)

/-- Some slot is used, and the used slots have the call stacks of leaks. -/
def SlotsPrinted (leaks : List MemoryLeakData) (slots : List CallstackSizeHash) : Prop :=
  (∃ s ∈ slots, s.sizeBytes ≠ 0) ∧
    ∀ s ∈ slots, s.sizeBytes ≠ 0 → ∃ d ∈ leaks, d.callstack = s.callstack

section Condition

variable {leaks leaks' : List MemoryLeakData}

theorem largestLeak_of_mem {d : MemoryLeakData} (hd : d ∈ leaks) :
    d.size ≤ largestLeak leaks d.stackframeHash :=
  le_maxOf (List.mem_map_of_mem (f := MemoryLeakData.entry) hd)

theorem exists_largestLeak {h : ℕ} (hne : largestLeak leaks h ≠ 0) :
    ∃ d ∈ leaks, d.stackframeHash = h ∧ d.size = largestLeak leaks h := by
  obtain ⟨d, hd, heq⟩ := List.mem_map.1 (maxOf_mem hne)
  exact ⟨d, hd, congrArg Prod.fst heq, congrArg Prod.snd heq⟩

theorem mem_largerHashes {h : ℕ} :
    h ∈ largerHashes leaks ↔ largestLeak leaks 0 < largestLeak leaks h := by
  refine ⟨fun hh => (Finset.mem_filter.1 hh).2, fun hlt => Finset.mem_filter.2 ⟨?_, hlt⟩⟩
  obtain ⟨d, hd, rfl, -⟩ := exists_largestLeak (Nat.ne_zero_of_lt hlt)
  exact List.mem_toFinset.2 (List.mem_map_of_mem hd)

theorem CallstacksKept.of_perm (h : CallstacksKept leaks) (hp : leaks.Perm leaks') :
    CallstacksKept leaks' := by
  have hlargest : largestLeak leaks' = largestLeak leaks := (maxOf_perm (hp.map _)).symm
  have hlarger : largerHashes leaks' = largerHashes leaks := by
    ext h
    rw [mem_largerHashes, mem_largerHashes, hlargest]
  unfold CallstacksKept
  rw [hlarger]
  simp only [← hp.mem_iff]
  exact h

/-- The condition is enough. -/
theorem CallstacksKept.printed (h : CallstacksKept leaks) :
    SlotsPrinted leaks (leaks.foldl recordCallstack (List.replicate 10 {})) := by
  obtain ⟨⟨d, hd, hsize⟩, hcond⟩ := h
  have hslots := slots_foldl leaks
  have hrecorded := recorded_foldl leaks
  generalize leaks.foldl recordCallstack (List.replicate 10 {}) = slots at hslots hrecorded
  constructor
  · by_contra! hfree
    obtain ⟨s, hs⟩ := List.exists_mem_of_ne_nil slots hslots.ne_nil
    rcases hslots.exact.rest d hd (fun s hs hne => absurd (hfree s hs) hne) with h0 | hall
    · exact hsize h0
    · exact (hall s hs).1 (hfree s hs)
  · intro s hs hne
    rcases hrecorded s hs with hrec | ⟨hhash, hcallstack⟩
    · exact hrec
    -- a slot without a call stack holds the largest leak with the hash `0`
    have hval : s.sizeBytes = largestLeak leaks 0 :=
      hhash ▸ hslots.largest.value s.entry (List.mem_map_of_mem hs) hne
    rcases hcond with ⟨d', hd', heq⟩ | hzero | hten
    · exact ⟨d', hd', heq.trans hcallstack.symm⟩
    · obtain ⟨d', hd', hhash', hsize'⟩ := exists_largestLeak (hval ▸ hne)
      exact absurd (hval.trans (hsize'.symm.trans (hzero d' hd' hhash'))) hne
    · have hcount := hslots.largest.countP_eq (P := fun v => largestLeak leaks 0 < v)
        (K := largerHashes leaks) (fun v w hvw hv => hv.trans_le hvw) (Nat.not_lt_zero _)
        fun k hk => mem_largerHashes.2 hk
      have hall : (largerHashes leaks).filter (fun k => largestLeak leaks 0 <
          maxOf (leaks.map MemoryLeakData.entry) k) = largerHashes leaks :=
        Finset.filter_true_of_mem fun k hk => mem_largerHashes.1 hk
      rw [hall, List.length_map, hslots.length, min_eq_left hten] at hcount
      have hfull := List.countP_eq_length.1
        (hcount.trans (by rw [List.length_map, hslots.length]))
      have hlt := of_decide_eq_true (hfull s.entry (List.mem_map_of_mem hs))
      exact absurd hval hlt.ne'

/-- The condition is necessary, for some order. -/
theorem callstacksKept_of_printed (h : ∀ leaks', leaks.Perm leaks' →
    SlotsPrinted leaks' (leaks'.foldl recordCallstack (List.replicate 10 {}))) :
    CallstacksKept leaks := by
  constructor
  · obtain ⟨⟨s, hs, hne⟩, -⟩ := h leaks (List.Perm.refl _)
    obtain ⟨⟨d, hd, -, hsize⟩, -⟩ := (slots_foldl leaks).exact.greatest s hs hne
    exact ⟨d, hd, hsize ▸ hne⟩
  · by_contra! hcon
    obtain ⟨hnone, ⟨d₁, hd₁, hhash₁, hsize₁⟩, hten⟩ := hcon
    have hlargest : largestLeak leaks 0 ≠ 0 := fun hc =>
      hsize₁ (Nat.le_zero.1 (hc ▸ hhash₁ ▸ largestLeak_of_mem hd₁))
    obtain ⟨d, hd, hhash, hsize⟩ := exists_largestLeak hlargest
    obtain ⟨pre, post, rfl⟩ := List.append_of_mem hd
    -- first the largest leak with the hash `0`, then the larger ones, then the others
    let large := (pre ++ post).filter fun d' => d.size < d'.size
    let small := (pre ++ post).filter fun d' => !decide (d.size < d'.size)
    have hperm : (pre ++ d :: post).Perm ((d :: large) ++ small) :=
      List.perm_middle.trans ((List.filter_append_perm _ (pre ++ post)).symm.cons d)
    have hlarge : ∀ d' ∈ large, d'.stackframeHash ∈ largerHashes (pre ++ d :: post) := by
      intro d' hd'
      obtain ⟨hmem, hlt⟩ := List.mem_filter.1 hd'
      refine mem_largerHashes.2 ((hsize ▸ of_decide_eq_true hlt).trans_le ?_)
      exact largestLeak_of_mem (List.perm_middle.mem_iff.2 (List.mem_cons_of_mem _ hmem))
    have hslot := persists_foldl_large d hhash (hsize ▸ hlargest) (largerHashes (pre ++ d :: post))
      (fun hc => lt_irrefl _ (mem_largerHashes.1 hc)) hten large hlarge
    have hkept := persists_foldl_small hslot small fun d' hd' => by
      simpa using (List.mem_filter.1 hd').2
    rw [← List.foldl_append] at hkept
    obtain ⟨-, hprinted⟩ := h _ hperm
    obtain ⟨d', hd', heq⟩ := hprinted _ hkept (hsize ▸ hlargest)
    exact hnone d' (hperm.mem_iff.2 hd') heq

end Condition

/-! ### The sections -/

section Sections

variable {std : StdSort moreBytes} {hash : Callstack → ℕ} {leaks leaks' : List MemoryLeakData}

/-- **What the sections print**: the used slots of the API functions with leaks. -/
theorem everyCallstack_iff_slots : EveryCallstack std hash leaks ↔
    ∀ f, (leaksOf leaks f).length % 2 ^ 64 ≠ 0 → SlotsPrinted (leaksOf leaks f)
      ((leaksOf leaks f).foldl recordCallstack (List.replicate 10 {})) := by
  have hsections : (generateCallstacks2 hash (groupLeaks2 std usedApiInfos leaks) []).1 =
      ((groupLeaks2 std usedApiInfos leaks).filter fun info => info.hitCount ≠ 0).map fun info =>
        { apiFunction := info.apiFunction
          hitCount := info.hitCount
          totalBytes := info.totalBytes
          callstacks := (info.callstackAndSize.filter fun s => s.sizeBytes ≠ 0).map
            fun s => s.callstack } := by
    simp [generateCallstacks2]
  unfold EveryCallstack SlotsPrinted
  rw [hsections]
  simp only [List.forall_mem_map, List.mem_filter, (groupLeaks2_perm std leaks).mem_iff,
    mem_entries, and_imp, forall_exists_index, forall_apply_eq_imp_iff, apiInfo, foldl_add,
    decide_eq_true_eq, ne_eq, List.map_eq_nil_iff, List.filter_eq_nil_iff, not_forall,
    not_not, exists_prop]

/-- The leaks of one API function can be visited in any order. -/
theorem exists_leaksOf_eq (f : ApiFunction) {l : List MemoryLeakData}
    (hl : (leaksOf leaks f).Perm l) : ∃ leaks', leaks.Perm leaks' ∧ leaksOf leaks' f = l := by
  refine ⟨l ++ leaks.filter fun d => !decide (d.apiFunction = f),
    (List.filter_append_perm _ leaks).symm.trans (hl.append_right _), ?_⟩
  have hself : l.filter (fun d => decide (d.apiFunction = f)) = l :=
    List.filter_eq_self.2 fun d hd => (List.mem_filter.1 (hl.mem_iff.2 hd)).2
  unfold leaksOf
  rw [List.filter_append, hself, List.filter_filter]
  simp

end Sections

/-- **Every section comes with call stacks**, and these are the ones of leaks, in every order of the
visit, if and only if the leaks of every API function are not all of zero bytes and, unless one of
them has no call stack, those with the hash `0` are of zero bytes or come after ten larger ones. -/
theorem every_callstack_iff (std : StdSort moreBytes) (hash : Callstack → ℕ)
    (leaks : List MemoryLeakData) :
    (∀ leaks', leaks.Perm leaks' → EveryCallstack std hash leaks') ↔
      ∀ f, (leaksOf leaks f).length % 2 ^ 64 ≠ 0 → CallstacksKept (leaksOf leaks f) := by
  simp only [everyCallstack_iff_slots]
  constructor
  · intro h f hf
    refine callstacksKept_of_printed fun l hl => ?_
    obtain ⟨leaks', hperm, rfl⟩ := exists_leaksOf_eq f hl
    exact h leaks' hperm f (hl.length_eq ▸ hf)
  · intro h leaks' hperm f hf
    have hof : (leaksOf leaks f).Perm (leaksOf leaks' f) := hperm.filter _
    exact ((h f (hof.length_eq ▸ hf)).of_perm hof).printed

/-- A leak of zero bytes, with a call stack: its section has none. -/
theorem no_callstack_printed : ¬ EveryCallstack stableSort (fun c => c.ptr.sum)
    [{ size := 0, apiFamily := .malloc, apiFunction := .malloc, callstack := ⟨[4096], 1⟩,
       stackframeHash := 7 }] := by
  rw [everyCallstack_iff_slots]
  intro h
  obtain ⟨⟨s, hs, hne⟩, -⟩ := h .malloc (by decide)
  revert s
  decide

end BugInsight

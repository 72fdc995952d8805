import Mathlib.Tactic

/-!
# Command lines

The rules by which a Windows program splits its command line into arguments.  The name of the
program is in front: quotes are dropped from it, and it ends with the first blank that is not
between quotes.  In the other arguments backslashes in front of a quote stand for half as many
backslashes, and a quote behind an odd number of them, or a second quote behind the one that closes
a quoted part, stands for itself.

* `split` reads the characters one by one: `Scan` is the state between two of them;
* `flatten_split_sublist`: splitting only drops characters;
* `weight_split_lt`: a quote is always paid for with a quote or a backslash;
* `split_words`, `word_of_mem_words`: without quotes the arguments are the words of the command
  line.
-/

namespace CommandLine

/-- A string of UTF-16 code units. -/
abbrev WideString := List UInt16

def quote : UInt16 := 34

def backslash : UInt16 := 92

def space : UInt16 := 32

def tab : UInt16 := 9

/-- What separates arguments. -/
def Blank (c : UInt16) : Prop := c = space ∨ c = tab

instance (c : UInt16) : Decidable (Blank c) := by
  unfold Blank
  infer_instance

/-- Where the next character stands. -/
inductive Mode
  | between
  | unquoted
  | quoted
  /-- behind a quote in a quoted part, which closes it unless another quote follows -/
  | closing
  deriving DecidableEq

/-- The arguments that are complete, and the current one with the backslashes that it ends with so
far. -/
structure Scan where
  done : List WideString := []
  arg : WideString := []
  slashes : ℕ := 0
  mode : Mode := .between

namespace Scan

/-- The current argument with some of its backslashes. -/
def flush (s : Scan) (n : ℕ) : WideString := s.arg ++ List.replicate n backslash

/-- A character of an argument. -/
def next (s : Scan) (c : UInt16) : Scan :=
  if c = backslash then { s with slashes := s.slashes + 1 }
  else if c = quote then
    if s.slashes % 2 = 1 then { s with arg := s.flush (s.slashes / 2) ++ [quote], slashes := 0 }
    else
      { s with
        arg := s.flush (s.slashes / 2)
        slashes := 0
        mode := if s.mode = .quoted then .closing else .quoted }
  else if s.mode = .unquoted ∧ Blank c then
    { done := s.done ++ [s.flush s.slashes], arg := [], slashes := 0, mode := .between }
  else { s with arg := s.flush s.slashes ++ [c], slashes := 0 }

/-- A character of the command line. -/
def step (s : Scan) (c : UInt16) : Scan :=
  match s.mode with
  | .between => if Blank c then s else { s with mode := .unquoted }.next c
  | .closing =>
      if c = quote then { s with arg := s.flush s.slashes ++ [quote], slashes := 0, mode := .quoted }
      else { s with mode := .unquoted }.next c
  | .unquoted | .quoted => s.next c

/-- The end of the command line. -/
def finish (s : Scan) : List WideString :=
  if s.mode = .between then s.done else s.done ++ [s.flush s.slashes]

/-- What was read so far. -/
def text (s : Scan) : WideString := s.done.flatten ++ s.flush s.slashes

end Scan

/-- The arguments behind the name of the program. -/
def words (s : WideString) : List WideString := (s.foldl Scan.step {}).finish

/-- The name of the program, and what follows it. -/
def programName : Bool → WideString → WideString × WideString
  | _, [] => ([], [])
  | quoted, c :: cs =>
      if c = quote then programName (!quoted) cs
      else if quoted = false ∧ Blank c then ([], cs)
      else (c :: (programName quoted cs).1, (programName quoted cs).2)

/-- The path of an executable. -/
structure ProgramPath where
  path : WideString
  ne_nil : path ≠ []
  nul_notMem : (0 : UInt16) ∉ path

/-- The arguments of a command line, which ends at the first NUL.  For an empty command line the
path of the executable is the only one. -/
def split (program : ProgramPath) (s : WideString) : List WideString :=
  let line := s.takeWhile fun c => c ≠ 0
  if line = [] then [program.path]
  else (programName false line).1 :: words (programName false line).2

theorem split_of_ne_nil (program : ProgramPath) {s : WideString}
    (h : (s.takeWhile fun c => c ≠ 0) ≠ []) :
    split program s = (programName false (s.takeWhile fun c => c ≠ 0)).1 ::
      words (programName false (s.takeWhile fun c => c ≠ 0)).2 := if_neg h

/-! ### Splitting only drops characters -/

theorem text_mk (done : List WideString) (arg : WideString) (n : ℕ) (mode : Mode) :
    Scan.text ⟨done, arg, n, mode⟩ = done.flatten ++ arg ++ List.replicate n backslash :=
  (List.append_assoc _ _ _).symm

theorem text_next_sublist (s : Scan) (c : UInt16) : (s.next c).text.Sublist (s.text ++ [c]) := by
  obtain ⟨done, arg, n, mode⟩ := s
  have hhalf : (List.replicate (n / 2) backslash).Sublist (List.replicate n backslash) :=
    (List.replicate_sublist_replicate backslash).2 (Nat.div_le_self n 2)
  unfold Scan.next Scan.flush
  dsimp only
  by_cases hslash : c = backslash
  · rw [if_pos hslash, text_mk, text_mk, hslash, List.replicate_succ', ← List.append_assoc]
  by_cases hquote : c = quote
  · rw [if_neg hslash, if_pos hquote, hquote]
    split_ifs with hodd
    · rw [text_mk, text_mk, List.replicate_zero, List.append_nil, ← List.append_assoc,
        ← List.append_assoc]
      exact (hhalf.append_left _).append_right _
    all_goals
      rw [text_mk, text_mk, List.replicate_zero, List.append_nil, ← List.append_assoc]
      exact (hhalf.append_left _).trans (List.sublist_append_left _ _)
  · rw [if_neg hslash, if_neg hquote]
    split_ifs with hend
    · rw [text_mk, text_mk, List.replicate_zero, List.flatten_append, List.flatten_singleton,
        List.append_nil, List.append_nil, ← List.append_assoc]
      exact List.sublist_append_left _ _
    · rw [text_mk, text_mk, List.replicate_zero, List.append_nil, ← List.append_assoc,
        ← List.append_assoc]

theorem text_step_sublist (s : Scan) (c : UInt16) : (s.step c).text.Sublist (s.text ++ [c]) := by
  unfold Scan.step
  split
  · split_ifs
    · exact List.sublist_append_left _ _
    · exact text_next_sublist { s with mode := .unquoted } c
  · split_ifs with hquote
    · rw [hquote, text_mk, List.replicate_zero, List.append_nil, ← List.append_assoc]
      exact List.Sublist.refl _
    · exact text_next_sublist { s with mode := .unquoted } c
  · exact text_next_sublist s c
  · exact text_next_sublist s c

theorem text_foldl_sublist (s : Scan) (cs : WideString) :
    (cs.foldl Scan.step s).text.Sublist (s.text ++ cs) := by
  induction cs generalizing s with
  | nil => simp
  | cons c cs ih =>
    rw [List.foldl_cons, List.append_cons]
    exact (ih _).trans ((text_step_sublist s c).append_right cs)

theorem finish_sublist (s : Scan) : s.finish.flatten.Sublist s.text := by
  unfold Scan.finish Scan.text
  split_ifs
  · exact List.sublist_append_left _ _
  · simp

theorem flatten_words_sublist (cs : WideString) : (words cs).flatten.Sublist cs :=
  (finish_sublist _).trans (text_foldl_sublist {} cs)

theorem programName_sublist (quoted : Bool) (cs : WideString) :
    ((programName quoted cs).1 ++ (programName quoted cs).2).Sublist cs := by
  induction cs generalizing quoted with
  | nil => simp [programName]
  | cons c cs ih =>
    rw [programName]
    split_ifs
    · exact (ih _).cons c
    · exact (List.Sublist.refl _).cons c
    · exact (ih quoted).cons_cons c

/-- **Splitting only drops characters**, and those behind a NUL. -/
theorem flatten_split_sublist (program : ProgramPath) {cs : WideString}
    (h : (cs.takeWhile fun c => c ≠ 0) ≠ []) :
    (split program cs).flatten.Sublist (cs.takeWhile fun c => c ≠ 0) := by
  rw [split_of_ne_nil program h, List.flatten_cons]
  exact ((flatten_words_sublist _).append_left _).trans (programName_sublist false _)

/-! ### Quotes -/

/-- The number of quotes and backslashes. -/
def weight (cs : WideString) : ℕ := cs.countP fun c => c = quote ∨ c = backslash

theorem weight_append (cs ds : WideString) : weight (cs ++ ds) = weight cs + weight ds :=
  List.countP_append

theorem weight_cons (c : UInt16) (cs : WideString) : weight (c :: cs) = weight [c] + weight cs :=
  weight_append [c] cs

theorem weight_le {cs ds : WideString} (h : cs.Sublist ds) : weight cs ≤ weight ds :=
  h.countP_le

theorem weight_quote (cs : WideString) : weight (quote :: cs) = weight cs + 1 :=
  List.countP_cons_of_pos rfl

theorem weight_backslashes (n : ℕ) : weight (List.replicate n backslash) = n := by
  rw [weight, List.countP_replicate, if_pos (by decide)]

/-- A quote adds nothing: it is dropped, or a backslash is. -/
theorem weight_next_quote (s : Scan) : weight (s.next quote).text ≤ weight s.text := by
  obtain ⟨done, arg, n, mode⟩ := s
  have hslash : quote ≠ backslash := by decide
  unfold Scan.next Scan.flush
  dsimp only
  rw [if_neg hslash, if_pos rfl]
  split_ifs with hodd
  · simp only [text_mk, weight_append, weight_backslashes, List.replicate_zero, List.append_nil]
    rw [weight_quote, show weight [] = 0 from rfl]
    omega
  all_goals
    simp only [text_mk, weight_append, weight_backslashes, List.replicate_zero, List.append_nil]
    omega

theorem weight_step_quote {s : Scan} (hs : s.mode ≠ .closing) :
    weight (s.step quote).text ≤ weight s.text := by
  unfold Scan.step
  split
  · rw [if_neg (by decide)]
    exact weight_next_quote { s with mode := .unquoted }
  · exact absurd (by assumption) hs
  · exact weight_next_quote s
  · exact weight_next_quote s

theorem mode_next {s : Scan} {c : UInt16} (hs : s.mode ≠ .closing)
    (h : (s.next c).mode = .closing) : c = quote := by
  by_contra hquote
  unfold Scan.next at h
  rw [if_neg hquote] at h
  split_ifs at h
  · exact hs h
  · exact hs h

theorem mode_step {s : Scan} {c : UInt16} (h : (s.step c).mode = .closing) : c = quote := by
  unfold Scan.step at h
  split at h
  · next hmode =>
    split_ifs at h
    · rw [hmode] at h
      cases h
    · exact mode_next (by simp) h
  · by_contra hquote
    rw [if_neg hquote] at h
    exact hquote (mode_next (by simp) h)
  · next hmode => exact mode_next (by simp [hmode]) h
  · next hmode => exact mode_next (by simp [hmode]) h

/-- The quotes among the characters `cs` that were read have been paid for. -/
structure Paid (cs : WideString) (s : Scan) : Prop where
  closing : s.mode = .closing → quote ∈ cs
  le : weight s.text ≤ weight cs
  lt : quote ∈ cs → weight s.text < weight cs

theorem Paid.step {cs : WideString} {s : Scan} (h : Paid cs s) (c : UInt16) :
    Paid (cs ++ [c]) (s.step c) := by
  have hle := weight_le (text_step_sublist s c)
  rw [weight_append] at hle
  refine ⟨fun hmode => ?_, ?_, fun hquote => ?_⟩
  · rw [mode_step hmode]
    simp
  · rw [weight_append]
    exact hle.trans (Nat.add_le_add_right h.le _)
  · rw [weight_append]
    by_cases hcs : quote ∈ cs
    · have := h.lt hcs
      omega
    · obtain rfl : c = quote := by simpa [hcs, eq_comm] using hquote
      have hquote' := weight_step_quote fun hmode => hcs (h.closing hmode)
      have := h.le
      rw [weight_quote]
      omega

theorem paid_foldl (cs : WideString) : Paid cs (cs.foldl Scan.step {}) := by
  induction cs using List.reverseRecOn with
  | nil => exact ⟨fun h => (by cases h), le_rfl, fun h => (by cases h)⟩
  | append_singleton cs c ih =>
    rw [List.foldl_append]
    exact ih.step c

theorem weight_words_lt {cs : WideString} (h : quote ∈ cs) :
    weight (words cs).flatten < weight cs :=
  (weight_le (finish_sublist _)).trans_lt ((paid_foldl cs).lt h)

theorem weight_programName (quoted : Bool) {cs : WideString} (h : quote ∈ cs) :
    quote ∈ (programName quoted cs).2 ∨
      weight ((programName quoted cs).1 ++ (programName quoted cs).2) < weight cs := by
  induction cs generalizing quoted with
  | nil => cases h
  | cons c cs ih =>
    rw [programName]
    split_ifs with hquote
    · rw [hquote, weight_quote]
      exact Or.inr (Nat.lt_succ_of_le (weight_le (programName_sublist (!quoted) cs)))
    · exact Or.inl ((List.mem_cons.1 h).resolve_left (Ne.symm hquote))
    · refine (ih quoted ((List.mem_cons.1 h).resolve_left (Ne.symm hquote))).imp_right fun hlt => ?_
      rw [List.cons_append, weight_cons, weight_cons c cs]
      exact Nat.add_lt_add_left hlt _

/-- **A quote of the command line** is dropped, or something in front of it is. -/
theorem weight_split_lt (program : ProgramPath) {cs : WideString}
    (h : quote ∈ cs.takeWhile fun c => c ≠ 0) :
    weight (split program cs).flatten < weight (cs.takeWhile fun c => c ≠ 0) := by
  rw [split_of_ne_nil program (List.ne_nil_of_mem h)]
  obtain ⟨line, hline⟩ : ∃ line, line = cs.takeWhile fun c => c ≠ 0 := ⟨_, rfl⟩
  rw [← hline, List.flatten_cons, weight_append]
  rw [← hline] at h
  have hname := weight_le (programName_sublist false line)
  have hwords := weight_le (flatten_words_sublist (programName false line).2)
  rw [weight_append] at hname
  rcases weight_programName false h with hrest | hlt
  · have := weight_words_lt hrest
    omega
  · rw [weight_append] at hlt
    omega

/-! ### Command lines without quotes -/

/-- A character that only stands for itself. -/
def Ordinary (c : UInt16) : Prop := c ≠ quote ∧ ¬ Blank c

section Ordinary

variable {s : Scan} {c : UInt16} {w : WideString}

theorem next_ordinary (hc : Ordinary c) : (s.next c).done = s.done ∧ (s.next c).mode = s.mode ∧
    (s.next c).flush (s.next c).slashes = s.flush s.slashes ++ [c] := by
  obtain ⟨hquote, hblank⟩ := hc
  unfold Scan.next
  by_cases hslash : c = backslash
  · rw [if_pos hslash]
    refine ⟨rfl, rfl, ?_⟩
    rw [hslash, Scan.flush, List.replicate_succ', ← List.append_assoc]
    rfl
  · rw [if_neg hslash, if_neg hquote, if_neg fun h => hblank h.2]
    exact ⟨rfl, rfl, List.append_nil _⟩

/-- A blank ends an argument. -/
theorem next_blank (hs : s.mode = .unquoted) (hc : Blank c) :
    s.next c = ⟨s.done ++ [s.flush s.slashes], [], 0, .between⟩ := by
  have hslash : c ≠ backslash := by
    rintro rfl
    exact absurd hc (by decide)
  have hquote : c ≠ quote := by
    rintro rfl
    exact absurd hc (by decide)
  unfold Scan.next
  rw [if_neg hslash, if_neg hquote, if_pos ⟨hs, hc⟩]

theorem step_unquoted (hs : s.mode = .unquoted) (c : UInt16) : s.step c = s.next c := by
  unfold Scan.step
  rw [hs]

/-- The ordinary characters of an argument. -/
theorem foldl_ordinary (hs : s.mode = .unquoted) (hw : ∀ c ∈ w, Ordinary c) :
    (w.foldl Scan.step s).done = s.done ∧ (w.foldl Scan.step s).mode = .unquoted ∧
      (w.foldl Scan.step s).flush (w.foldl Scan.step s).slashes = s.flush s.slashes ++ w := by
  induction w generalizing s with
  | nil => exact ⟨rfl, hs, (List.append_nil _).symm⟩
  | cons c w ih =>
    obtain ⟨hc, hw'⟩ := List.forall_mem_cons.1 hw
    obtain ⟨hdone, hmode, hflush⟩ := next_ordinary (s := s) hc
    rw [List.foldl_cons, step_unquoted hs]
    obtain ⟨hdone', hmode', hflush'⟩ := ih (hmode.trans hs) hw'
    exact ⟨hdone'.trans hdone, hmode', by rw [hflush', hflush, List.append_assoc]; rfl⟩

/-- An argument behind a blank. -/
theorem foldl_word (done : List WideString) (hne : w ≠ []) (hw : ∀ c ∈ w, Ordinary c) :
    (w.foldl Scan.step ⟨done, [], 0, .between⟩).done = done ∧
      (w.foldl Scan.step ⟨done, [], 0, .between⟩).mode = .unquoted ∧
      (w.foldl Scan.step ⟨done, [], 0, .between⟩).flush
        (w.foldl Scan.step ⟨done, [], 0, .between⟩).slashes = w := by
  obtain ⟨c, w, rfl⟩ := List.exists_cons_of_ne_nil hne
  obtain ⟨hc, hw'⟩ := List.forall_mem_cons.1 hw
  have hstep : Scan.step ⟨done, [], 0, .between⟩ c = Scan.next ⟨done, [], 0, .unquoted⟩ c := by
    unfold Scan.step
    exact if_neg hc.2
  obtain ⟨hdone, hmode, hflush⟩ := next_ordinary (s := ⟨done, [], 0, .unquoted⟩) hc
  rw [List.foldl_cons, hstep]
  obtain ⟨hdone', hmode', hflush'⟩ := foldl_ordinary hmode hw'
  exact ⟨hdone'.trans hdone, hmode', by rw [hflush', hflush]; rfl⟩

/-- Strings that are arguments without quotes. -/
def Word (w : WideString) : Prop := w ≠ [] ∧ ∀ c ∈ w, Ordinary c

/-- More arguments, with one space in front of each. -/
theorem finish_words {ws : List WideString} (hs : s.mode = .unquoted) (hws : ∀ w ∈ ws, Word w) :
    ((ws.flatMap fun w => space :: w).foldl Scan.step s).finish =
      s.done ++ [s.flush s.slashes] ++ ws := by
  induction ws generalizing s with
  | nil =>
    rw [List.flatMap_nil, List.foldl_nil, Scan.finish, if_neg (by simp [hs]), List.append_nil]
  | cons w ws ih =>
    obtain ⟨⟨hne, hw⟩, hws'⟩ := List.forall_mem_cons.1 hws
    rw [List.flatMap_cons, List.cons_append, List.foldl_cons, step_unquoted hs,
      next_blank hs (Or.inl rfl), List.foldl_append]
    obtain ⟨hdone, hmode, hflush⟩ := foldl_word (s.done ++ [s.flush s.slashes]) hne hw
    rw [ih hmode hws', hdone, hflush, List.append_assoc _ [w]]
    rfl

theorem programName_append (hw : ∀ c ∈ w, Ordinary c) (rest : WideString) :
    programName false (w ++ rest) =
      (w ++ (programName false rest).1, (programName false rest).2) := by
  induction w with
  | nil => rfl
  | cons c w ih =>
    obtain ⟨hc, hw'⟩ := List.forall_mem_cons.1 hw
    rw [List.cons_append, programName, if_neg hc.1, if_neg fun h => hc.2 h.2, ih hw']
    rfl

theorem takeWhile_of_forall {p : UInt16 → Bool} (hw : ∀ c ∈ w, p c = true) : w.takeWhile p = w := by
  have h := @List.takeWhile_append_of_pos _ p w [] hw
  rwa [List.append_nil, List.takeWhile_nil, List.append_nil] at h

/-- **Words with one space between them** are the arguments of the command line. -/
theorem split_words (program : ProgramPath) {ws : List WideString} (hne : w ≠ [])
    (hw : ∀ c ∈ w, Ordinary c) (hws : ∀ w ∈ ws, Word w)
    (hnul : (0 : UInt16) ∉ w ∧ ∀ w ∈ ws, (0 : UInt16) ∉ w) :
    split program (w ++ ws.flatMap fun w => space :: w) = w :: ws := by
  have hline : (w ++ ws.flatMap fun w => space :: w).takeWhile (fun c => decide (c ≠ 0)) =
      w ++ ws.flatMap fun w => space :: w := by
    apply takeWhile_of_forall
    intro c hc
    apply decide_eq_true
    rintro rfl
    rcases List.mem_append.1 hc with hc | hc
    · exact hnul.1 hc
    · obtain ⟨w', hw', hc⟩ := List.mem_flatMap.1 hc
      exact hnul.2 w' hw' ((List.mem_cons.1 hc).resolve_left (by decide))
  rw [split_of_ne_nil program (by rw [hline]; exact List.append_ne_nil_of_left_ne_nil hne _), hline,
    programName_append hw]
  cases ws with
  | nil => simp [programName, words, Scan.finish]
  | cons w' ws =>
    obtain ⟨⟨hne, hw'⟩, hws'⟩ := List.forall_mem_cons.1 hws
    have hname : programName false ((w' :: ws).flatMap fun w => space :: w) =
        ([], w' ++ ws.flatMap fun w => space :: w) := by
      rw [List.flatMap_cons, List.cons_append, programName, if_neg (by decide), if_pos (by decide)]
    rw [hname, List.append_nil]
    dsimp only
    obtain ⟨hdone, hmode, hflush⟩ := foldl_word [] hne hw'
    rw [words, List.foldl_append, finish_words hmode hws', hdone, hflush]
    rfl

/-- What was read of a command line without quotes. -/
structure Separated (s : Scan) : Prop where
  mode : s.mode = .between ∧ s.flush s.slashes = [] ∨ s.mode = .unquoted ∧ Word (s.flush s.slashes)
  done : ∀ w ∈ s.done, Word w

theorem word_append_singleton (hw : ∀ c ∈ w, Ordinary c) (hc : Ordinary c) : Word (w ++ [c]) :=
  ⟨by simp, List.forall_mem_append.2 ⟨hw, List.forall_mem_singleton.2 hc⟩⟩

theorem Separated.step (h : Separated s) (hc : c ≠ quote) : Separated (s.step c) := by
  rcases h.mode with ⟨hmode, hflush⟩ | ⟨hmode, hflush⟩
  · unfold Scan.step
    rw [hmode]
    dsimp only
    split_ifs with hblank
    · exact h
    · obtain ⟨hdone, hmode', hflush'⟩ :=
        next_ordinary (s := { s with mode := .unquoted }) ⟨hc, hblank⟩
      refine ⟨Or.inr ⟨hmode', ?_⟩, by rw [hdone]; exact h.done⟩
      rw [hflush', show Scan.flush { s with mode := .unquoted } s.slashes = [] from hflush]
      exact word_append_singleton (List.forall_mem_nil _) ⟨hc, hblank⟩
  · rw [step_unquoted hmode]
    by_cases hblank : Blank c
    · rw [next_blank hmode hblank]
      exact ⟨Or.inl ⟨rfl, rfl⟩, List.forall_mem_append.2 ⟨h.done, List.forall_mem_singleton.2 hflush⟩⟩
    · obtain ⟨hdone, hmode', hflush'⟩ := next_ordinary (s := s) ⟨hc, hblank⟩
      refine ⟨Or.inr ⟨hmode'.trans hmode, ?_⟩, by rw [hdone]; exact h.done⟩
      rw [hflush']
      exact word_append_singleton hflush.2 ⟨hc, hblank⟩

theorem separated_foldl {cs : WideString} (h : Separated s) (hcs : ∀ c ∈ cs, c ≠ quote) :
    Separated (cs.foldl Scan.step s) := by
  induction cs generalizing s with
  | nil => exact h
  | cons c cs ih =>
    obtain ⟨hc, hcs'⟩ := List.forall_mem_cons.1 hcs
    exact ih (h.step hc) hcs'

/-- Without quotes the arguments are words. -/
theorem word_of_mem_words {cs : WideString} (hcs : quote ∉ cs) : ∀ w ∈ words cs, Word w := by
  have h : Separated (cs.foldl Scan.step {}) :=
    separated_foldl ⟨Or.inl ⟨rfl, rfl⟩, List.forall_mem_nil _⟩
      fun c hc => (ne_of_mem_of_not_mem hc hcs)
  unfold words Scan.finish
  rcases h.mode with ⟨hmode, -⟩ | ⟨hmode, hflush⟩
  · rw [if_pos hmode]
    exact h.done
  · rw [if_neg (by simp [hmode])]
    exact List.forall_mem_append.2 ⟨h.done, List.forall_mem_singleton.2 hflush⟩

/-- Without quotes the name of the program ends at the first blank. -/
theorem ordinary_of_mem_programName {cs : WideString} (hcs : quote ∉ cs) :
    ∀ c ∈ (programName false cs).1, Ordinary c := by
  induction cs with
  | nil => exact List.forall_mem_nil _
  | cons c cs ih =>
    obtain ⟨hc, hcs'⟩ := not_or.1 fun h => hcs (List.mem_cons.2 h)
    rw [programName, if_neg (Ne.symm hc)]
    split_ifs with hblank
    · exact List.forall_mem_nil _
    · exact List.forall_mem_cons.2 ⟨⟨Ne.symm hc, fun h => hblank ⟨rfl, h⟩⟩, ih hcs'⟩

theorem programName_ne_nil {cs : WideString} (hc : Ordinary c) :
    (programName false (c :: cs)).1 ≠ [] := by
  rw [programName, if_neg hc.1, if_neg fun h => hc.2 h.2]
  exact List.cons_ne_nil _ _

end Ordinary

end CommandLine

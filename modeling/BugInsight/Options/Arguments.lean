import BugInsight.CommandLine
import BugInsight.Strings

/-!
# The arguments of the application under test

`command_line_parser::parse` puts the tokens behind `--` one after the other, with a space between
them, and the application is started with that command line.

* `applicationFullNamePlusParameter_cons`: the command line when the first token is not empty;
* `arguments_iff`: the lists of tokens that the application gets back.
-/

namespace BugInsight

open CommandLine

/-- The conversion of a `char` to `wchar_t`, which keeps the sign. -/
def wcharOfChar (c : UInt8) : UInt16 := if c < 128 then c.toUInt16 else c.toUInt16 + 0xFF00

/-- `std::wstring(i.begin(), i.end())`. -/
def asWstring (i : NarrowString) : WideString := i.map wcharOfChar

/-- The body of the loop over `exe_and_parameter`. -/
def addArgument (result : WideString) (i : NarrowString) : WideString :=
  result ++ (if result = [] then [] else [space]) ++ asWstring i

/-- `p_application_full_name_plus_parameter`. -/
def applicationFullNamePlusParameter (exeAndParameter : List NarrowString) : WideString :=
  exeAndParameter.foldl addArgument []

/-- The same characters as UTF-16 code units. -/
def widen (s : NarrowString) : WideString := s.map UInt8.toUInt16

/-! ### Characters -/

theorem wcharOfChar_of_lt {c : UInt8} (hc : c < 128) : wcharOfChar c = c.toUInt16 := if_pos hc

/-- A character that is not ASCII becomes another one. -/
theorem wcharOfChar_ne {c : UInt8} (hc : ¬ c < 128) (d : UInt8) : wcharOfChar d ≠ c.toUInt16 := by
  intro h
  have hnat := congrArg UInt16.toNat h
  have hlt := d.toNat_lt
  have hlt' := c.toNat_lt
  rw [UInt8.lt_iff_toNat_lt, show (128 : UInt8).toNat = 128 from rfl] at hc
  unfold wcharOfChar at hnat
  split_ifs at hnat with hd
  · rw [UInt8.lt_iff_toNat_lt, show (128 : UInt8).toNat = 128 from rfl] at hd
    rw [UInt8.toNat_toUInt16, UInt8.toNat_toUInt16] at hnat
    omega
  · rw [UInt16.toNat_add, UInt8.toNat_toUInt16, UInt8.toNat_toUInt16,
      show (0xFF00 : UInt16).toNat = 65280 from rfl] at hnat
    rw [UInt8.lt_iff_toNat_lt, show (128 : UInt8).toNat = 128 from rfl] at hd
    omega

theorem wcharOfChar_eq_zero_iff {c : UInt8} : wcharOfChar c = 0 ↔ c = 0 := by
  refine ⟨fun h => ?_, fun h => by rw [h]; rfl⟩
  by_cases hlt : c < 128
  · rw [wcharOfChar_of_lt hlt] at h
    exact UInt8.toUInt16_inj.1 h
  · have hnat := congrArg UInt16.toNat h
    have hlt' := c.toNat_lt
    rw [wcharOfChar, if_neg hlt, UInt16.toNat_add, UInt8.toNat_toUInt16,
      show (0xFF00 : UInt16).toNat = 65280 from rfl, show (0 : UInt16).toNat = 0 from rfl] at hnat
    omega

/-- A character that a command line keeps inside an argument. -/
structure PlainChar (c : UInt8) : Prop where
  lt : c < 128
  ne_nul : c ≠ 0
  ordinary : Ordinary c.toUInt16

instance (c : UInt8) : Decidable (Ordinary c.toUInt16) := by
  unfold Ordinary
  infer_instance

theorem plainChar_iff {c : UInt8} : PlainChar c ↔ c < 128 ∧ c ≠ 0 ∧ Ordinary c.toUInt16 :=
  ⟨fun h => ⟨h.lt, h.ne_nul, h.ordinary⟩, fun h => ⟨h.1, h.2.1, h.2.2⟩⟩

instance (c : UInt8) : Decidable (PlainChar c) := decidable_of_iff _ plainChar_iff.symm

theorem asWstring_eq_widen {a : NarrowString} (ha : ∀ c ∈ a, c < 128) : asWstring a = widen a :=
  List.map_congr_left fun c hc => wcharOfChar_of_lt (ha c hc)

theorem widen_eq_nil_iff {a : NarrowString} : widen a = [] ↔ a = [] := List.map_eq_nil_iff

theorem asWstring_eq_nil_iff {a : NarrowString} : asWstring a = [] ↔ a = [] := List.map_eq_nil_iff

/-! ### The command line -/

section CommandLine

variable {line : WideString} (args : List NarrowString)

/-- More tokens. -/
theorem foldl_addArgument (hline : line ≠ []) :
    args.foldl addArgument line = line ++ (args.map asWstring).flatMap fun w => space :: w := by
  induction args generalizing line with
  | nil => exact (List.append_nil _).symm
  | cons a args ih =>
    have hne : addArgument line a ≠ [] := by
      unfold addArgument
      simp [hline]
    rw [List.foldl_cons, ih hne, addArgument, if_neg hline, List.map_cons, List.flatMap_cons]
    simp

theorem applicationFullNamePlusParameter_cons {a : NarrowString} (ha : a ≠ []) :
    applicationFullNamePlusParameter (a :: args) =
      asWstring a ++ (args.map asWstring).flatMap fun w => space :: w := by
  have hadd : addArgument [] a = asWstring a := by
    unfold addArgument
    simp
  rw [applicationFullNamePlusParameter, List.foldl_cons, hadd]
  exact foldl_addArgument args fun h => ha (asWstring_eq_nil_iff.1 h)

/-- An empty token in front leaves no trace. -/
theorem applicationFullNamePlusParameter_nil_cons :
    applicationFullNamePlusParameter ([] :: args) = applicationFullNamePlusParameter args := rfl

/-- The command line consists of spaces and characters of the tokens. -/
theorem mem_commandLine {c : UInt16} (hc : c ∈ applicationFullNamePlusParameter args) :
    c = space ∨ ∃ a ∈ args, c ∈ asWstring a := by
  induction args with
  | nil => cases hc
  | cons a args ih =>
    by_cases ha : a = []
    · rw [ha, applicationFullNamePlusParameter_nil_cons] at hc
      exact (ih hc).imp_right fun ⟨b, hb, hcb⟩ => ⟨b, List.mem_cons_of_mem _ hb, hcb⟩
    · rw [applicationFullNamePlusParameter_cons args ha, List.mem_append, List.mem_flatMap] at hc
      rcases hc with hc | ⟨w, hw, hc⟩
      · exact Or.inr ⟨a, List.mem_cons_self, hc⟩
      · obtain ⟨b, hb, rfl⟩ := List.mem_map.1 hw
        exact (List.mem_cons.1 hc).imp_right fun hc => ⟨b, List.mem_cons_of_mem _ hb, hc⟩

theorem weight_spaced (ws : List WideString) :
    weight (ws.flatMap fun w => space :: w) = weight ws.flatten := by
  induction ws with
  | nil => rfl
  | cons w ws ih =>
    rw [List.flatMap_cons, List.cons_append, weight_cons, weight_append, ih, List.flatten_cons,
      weight_append, show weight [space] = 0 from rfl, Nat.zero_add]

/-- The spaces between the tokens are neither quotes nor backslashes. -/
theorem weight_commandLine :
    weight (applicationFullNamePlusParameter args) = weight (args.map asWstring).flatten := by
  induction args with
  | nil => rfl
  | cons a args ih =>
    by_cases ha : a = []
    · rw [ha, applicationFullNamePlusParameter_nil_cons, ih]
      rfl
    · rw [applicationFullNamePlusParameter_cons args ha, weight_append, weight_spaced, List.map_cons,
        List.flatten_cons, weight_append]

end CommandLine

/-! ### The arguments of the application -/

/-- Tokens that are neither empty nor contain a character that means something to a command line. -/
def Survive (args : List NarrowString) : Prop :=
  ∀ a ∈ args, a ≠ [] ∧ ∀ c ∈ a, PlainChar c

section Arguments

variable {program : ProgramPath} {args : List NarrowString}

/-- The application, an executable with the path `program`, gets the tokens as its arguments. -/
def GivenBack (program : ProgramPath) (args : List NarrowString) : Prop :=
  split program (applicationFullNamePlusParameter args) = args.map widen

/-- The path of the executable, which an empty command line stands for, is no token of it. -/
theorem line_ne_nil_of_givenBack (h : GivenBack program args) :
    ((applicationFullNamePlusParameter args).takeWhile fun c => c ≠ 0) ≠ [] := by
  intro hnil
  have heq : [program.path] = args.map widen := (if_pos hnil).symm.trans h
  obtain ⟨a, rest, rfl⟩ : ∃ a rest, args = a :: rest :=
    List.exists_cons_of_ne_nil fun hc => by rw [hc] at heq; cases heq
  obtain ⟨hpath, -⟩ := List.cons.inj heq
  have ha : a ≠ [] := fun hc => program.ne_nil (hpath.trans (widen_eq_nil_iff.2 hc))
  obtain ⟨c, cs, rfl⟩ := List.exists_cons_of_ne_nil ha
  have hc : wcharOfChar c ≠ 0 := by
    intro hc
    obtain rfl := wcharOfChar_eq_zero_iff.1 hc
    exact program.nul_notMem (hpath ▸ List.mem_cons_self)
  rw [applicationFullNamePlusParameter_cons rest ha, asWstring, List.map_cons, List.cons_append,
    List.takeWhile_cons_of_pos (by simpa using hc)] at hnil
  cases hnil

/-- A character that the application gets back stands in the command line, and no NUL is in
front. -/
theorem mem_line_of_givenBack (h : GivenBack program args) {a : NarrowString} (ha : a ∈ args)
    {c : UInt8} (hc : c ∈ a) :
    c.toUInt16 ∈ (applicationFullNamePlusParameter args).takeWhile fun c => c ≠ 0 := by
  apply (flatten_split_sublist program (line_ne_nil_of_givenBack h)).subset
  rw [show split program _ = args.map widen from h]
  exact List.mem_flatten.2 ⟨widen a, List.mem_map_of_mem ha, List.mem_map_of_mem hc⟩

theorem lt_of_givenBack (h : GivenBack program args) {a : NarrowString} (ha : a ∈ args) {c : UInt8}
    (hc : c ∈ a) : c < 128 := by
  by_contra hlt
  have hline := (List.takeWhile_sublist _).subset (mem_line_of_givenBack h ha hc)
  rcases mem_commandLine args hline with hspace | ⟨b, -, hb⟩
  · exact wcharOfChar_ne hlt 32 hspace.symm
  · obtain ⟨d, -, hd⟩ := List.mem_map.1 hb
    exact wcharOfChar_ne hlt d hd

theorem ne_nul_of_givenBack (h : GivenBack program args) {a : NarrowString} (ha : a ∈ args) {c : UInt8}
    (hc : c ∈ a) : c ≠ 0 := by
  rintro rfl
  have hnul := List.all_eq_true.1 List.all_takeWhile _ (mem_line_of_givenBack h ha hc)
  exact absurd rfl (of_decide_eq_true hnul)

theorem asWstring_of_givenBack (h : GivenBack program args) : args.map asWstring = args.map widen :=
  List.map_congr_left fun _ ha => asWstring_eq_widen fun _ hc => lt_of_givenBack h ha hc

/-- There is no NUL in the command line. -/
theorem takeWhile_of_givenBack (h : GivenBack program args) :
    ((applicationFullNamePlusParameter args).takeWhile fun c => c ≠ 0) =
      applicationFullNamePlusParameter args := by
  apply takeWhile_of_forall
  intro c hc
  apply decide_eq_true
  rintro rfl
  rcases mem_commandLine args hc with hspace | ⟨a, ha, hca⟩
  · exact absurd hspace (by decide)
  · obtain ⟨d, hd, hd0⟩ := List.mem_map.1 hca
    rw [wcharOfChar_of_lt (lt_of_givenBack h ha hd)] at hd0
    have hnul : d = 0 := UInt8.toUInt16_inj.1 hd0
    exact ne_nul_of_givenBack h ha hd hnul

/-- A quote would have been paid for, but nothing is missing. -/
theorem quote_notMem_of_givenBack (h : GivenBack program args) :
    quote ∉ applicationFullNamePlusParameter args := by
  intro hquote
  rw [← takeWhile_of_givenBack h] at hquote
  have hlt := weight_split_lt program hquote
  rw [takeWhile_of_givenBack h, show split program _ = args.map widen from h, weight_commandLine,
    asWstring_of_givenBack h] at hlt
  exact lt_irrefl _ hlt

theorem widen_ordinary {a : NarrowString} (ha : ∀ c ∈ widen a, Ordinary c) {c : UInt8} (hc : c ∈ a) :
    Ordinary c.toUInt16 :=
  ha _ (List.mem_map_of_mem hc)

/-- A first token that is empty would have been the name of the program, but the next one is, or the
path of the executable. -/
theorem not_givenBack_nil_cons (hargs : ∀ a ∈ args, Word (widen a)) :
    ¬GivenBack program ([] :: args) := by
  intro h
  have hline := line_ne_nil_of_givenBack h
  cases args with
  | nil => exact hline rfl
  | cons a args =>
    obtain ⟨hne, hword⟩ := hargs a List.mem_cons_self
    have hnil : a ≠ [] := fun ha => hne (widen_eq_nil_iff.2 ha)
    obtain ⟨c, cs, rfl⟩ := List.exists_cons_of_ne_nil hnil
    have hc : c < 128 :=
      lt_of_givenBack h (List.mem_cons_of_mem _ List.mem_cons_self) List.mem_cons_self
    have hname := (List.cons.inj ((split_of_ne_nil program hline).symm.trans h)).1
    rw [takeWhile_of_givenBack h, applicationFullNamePlusParameter_nil_cons,
      applicationFullNamePlusParameter_cons args hnil, asWstring, List.map_cons, wcharOfChar_of_lt hc,
      List.cons_append] at hname
    exact absurd hname (programName_ne_nil (widen_ordinary hword List.mem_cons_self))

theorem survive_of_givenBack (hargs : args ≠ []) (h : GivenBack program args) :
    Survive args := by
  obtain ⟨a, rest, rfl⟩ := List.exists_cons_of_ne_nil hargs
  have hquote := quote_notMem_of_givenBack h
  obtain ⟨hname, hrest⟩ :=
    List.cons.inj ((split_of_ne_nil program (line_ne_nil_of_givenBack h)).symm.trans h)
  rw [takeWhile_of_givenBack h] at hname hrest
  have hrestQuote : quote ∉ (programName false (applicationFullNamePlusParameter (a :: rest))).2 :=
    fun hmem => hquote ((programName_sublist false _).subset (List.mem_append_right _ hmem))
  have hordinary : ∀ c ∈ widen a, Ordinary c := hname ▸ ordinary_of_mem_programName hquote
  have hwords : ∀ b ∈ rest, Word (widen b) := fun b hb =>
    word_of_mem_words hrestQuote _ (hrest ▸ List.mem_map_of_mem hb)
  have hplain : ∀ b ∈ a :: rest, (∀ c ∈ widen b, Ordinary c) → ∀ c ∈ b, PlainChar c :=
    fun b hb hord c hc =>
      ⟨lt_of_givenBack h hb hc, ne_nul_of_givenBack h hb hc, widen_ordinary hord hc⟩
  have htail : ∀ b ∈ rest, b ≠ [] ∧ ∀ c ∈ b, PlainChar c := fun b hb =>
    ⟨fun hnil => (hwords b hb).1 (widen_eq_nil_iff.2 hnil),
      hplain b (List.mem_cons_of_mem a hb) (hwords b hb).2⟩
  have ha : a ≠ [] := by
    rintro rfl
    exact not_givenBack_nil_cons hwords h
  exact List.forall_mem_cons.2 ⟨⟨ha, hplain a List.mem_cons_self hordinary⟩, htail⟩

theorem givenBack_of_survive (hargs : args ≠ []) (h : Survive args) : GivenBack program args := by
  obtain ⟨a, rest, rfl⟩ := List.exists_cons_of_ne_nil hargs
  obtain ⟨⟨ha, hplain⟩, hrest⟩ := List.forall_mem_cons.1 h
  have hwide : ∀ b ∈ a :: rest, asWstring b = widen b := fun b hb =>
    asWstring_eq_widen fun c hc => ((h b hb).2 c hc).lt
  have hnul : ∀ b ∈ a :: rest, (0 : UInt16) ∉ widen b := by
    intro b hb hmem
    obtain ⟨c, hc, hc0⟩ := List.mem_map.1 hmem
    exact ((h b hb).2 c hc).ne_nul (UInt8.toUInt16_inj.1 hc0)
  have hordinary : ∀ b ∈ a :: rest, ∀ c ∈ widen b, Ordinary c := by
    intro b hb c hc
    obtain ⟨d, hd, rfl⟩ := List.mem_map.1 hc
    exact ((h b hb).2 d hd).ordinary
  unfold GivenBack
  rw [applicationFullNamePlusParameter_cons rest ha, hwide a List.mem_cons_self,
    List.map_congr_left fun b hb => hwide b (List.mem_cons_of_mem a hb)]
  apply split_words program (widen_eq_nil_iff.not.2 ha) (hordinary a List.mem_cons_self)
  · intro w hw
    obtain ⟨b, hb, rfl⟩ := List.mem_map.1 hw
    exact ⟨fun hnil => (hrest b hb).1 (widen_eq_nil_iff.1 hnil),
      hordinary b (List.mem_cons_of_mem a hb)⟩
  · refine ⟨hnul a List.mem_cons_self, fun w hw => ?_⟩
    obtain ⟨b, hb, rfl⟩ := List.mem_map.1 hw
    exact hnul b (List.mem_cons_of_mem a hb)

/-- **The application gets back the tokens** exactly if none of them is empty or contains a space, a
tab, a quote, a NUL or a character that is not ASCII. -/
theorem arguments_iff (hargs : args ≠ []) :
    split program (applicationFullNamePlusParameter args) = args.map widen ↔ Survive args :=
  ⟨survive_of_givenBack hargs, givenBack_of_survive hargs⟩

theorem arguments_iff_option :
    split ⟨widen (bytes "C:\\app.exe"), by decide, by decide⟩
        (applicationFullNamePlusParameter [bytes "app.exe", bytes "-o\\x"]) =
      [widen (bytes "app.exe"), widen (bytes "-o\\x")] :=
  (arguments_iff (by decide)).2 <| List.forall_mem_cons.2
    ⟨⟨by decide, forall_mem_of_all (by decide)⟩,
      List.forall_mem_singleton.2 ⟨by decide, forall_mem_of_all (by decide)⟩⟩

/-- A space inside a token separates two arguments. -/
theorem token_with_space :
    [bytes "app.exe", bytes "a b"] ≠ [] ∧
      split ⟨widen (bytes "C:\\app.exe"), by decide, by decide⟩
          (applicationFullNamePlusParameter [bytes "app.exe", bytes "a b"]) =
        [widen (bytes "app.exe"), widen (bytes "a"), widen (bytes "b")] ∧
      split ⟨widen (bytes "C:\\app.exe"), by decide, by decide⟩
          (applicationFullNamePlusParameter [bytes "app.exe", bytes "a b"]) ≠
        [bytes "app.exe", bytes "a b"].map widen := by
  decide

end Arguments

end BugInsight

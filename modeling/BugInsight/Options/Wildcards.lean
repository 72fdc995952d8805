import BugInsight.Options.ModulePatterns
import BugInsight.Regex

/-!
# Wildcards

The name of a module in `ignore_modules` may contain `*`, which stands for any sequence of
characters. `patch_loaded_modules` matches the file name of a module, in lower case, against the
regular expression that `parse_to_blacklist_info` builds of the name.

* `WildcardMatch`: what the manual says;
* `parse_regexPattern`: the expression that is built is well-formed;
* `pattern_matches_iff`: it matches the file names that the wildcard stands for.
-/

open RegularExpression EcmaScript

namespace BugInsight

/-- A name with wildcards stands for a file name, whatever the case of the letters. -/
inductive WildcardMatch : NarrowString → NarrowString → Prop
  | nil : WildcardMatch [] []
  | star {name file : NarrowString} (skipped : NarrowString) (h : WildcardMatch name file) :
      WildcardMatch (byte '*' :: name) (skipped ++ file)
  | char {c d : UInt8} {name file : NarrowString} (hc : c ≠ byte '*') (hcd : toLower c = toLower d)
      (h : WildcardMatch name file) : WildcardMatch (c :: name) (d :: file)

/-! ### Characters -/

/-- Only letters are the lower case of another character. -/
theorem toLower_eq_iff {c d : UInt8} (hc : c < 65 ∨ 122 < c) : toLower d = c ↔ d = c := by
  unfold toLower
  split_ifs with h
  · simp only [UInt8.le_iff_toNat_le, UInt8.lt_iff_toNat_lt, ← UInt8.toNat_inj, UInt8.toNat_add] at *
    simp at *
    omega
  · rfl

theorem toLower_lineTerminator (d : UInt8) : toLower d ∈ lineTerminators ↔ d ∈ lineTerminators := by
  have h10 : toLower d = 10 ↔ d = 10 := toLower_eq_iff (by decide)
  have h13 : toLower d = 13 ↔ d = 13 := toLower_eq_iff (by decide)
  rw [lineTerminators, List.mem_pair, List.mem_pair, h10, h13]

theorem toLower_star (c : UInt8) : toLower c = byte '*' ↔ c = byte '*' := toLower_eq_iff (by decide)

/-! ### The expression -/

/-- The regular expression for a name in lower case. -/
def wildcardRegex : NarrowString → RegularExpression UInt8
  | [] => 1
  | c :: name => (if c = byte '*' then dot.star else char c) * wildcardRegex name

/-- The tokens of `regexPattern`. -/
def wildcardTokens (name : NarrowString) : List Token :=
  name.flatMap fun c => if c = byte '*' then [.atom dot, .quantifier .star] else [.atom (char c)]

/-- The expression for one character is read as one character, or as any sequence. -/
theorem lex_regexChar (c : UInt8) (s : NarrowString) : lex (regexChar c ++ s) = (lex s).map
    ((if c = byte '*' then [.atom dot, .quantifier .star] else [.atom (char c)]) ++ ·) := by
  unfold regexChar
  split_ifs with hstar hspecial
  · show lex (46 :: 42 :: s) = _
    have hdot : token 46 = some (.atom dot) := rfl
    have hquantifier : token 42 = some (.quantifier .star) := rfl
    rw [lex_literal (by decide) hdot, lex_literal (by decide) hquantifier, Option.map_map]
    rfl
  · have hall : ∀ d ∈ bytes "?.\\+^$|()[]\x7b\x7d", IdentityEscape d :=
      forall_mem_of_all (by decide)
    exact lex_escaped (hall c hspecial) s
  · have hbytes : bytes "?.\\+^$|()[]\x7b\x7d" =
        [63, 46, 92, 43, 94, 36, 124, 40, 41, 91, 93, 123, 125] := rfl
    have hstar' : c ≠ 42 := hstar
    simp only [hbytes, List.mem_cons, List.not_mem_nil, or_false, not_or] at hspecial
    obtain ⟨hopt, hdot, hescape, hplus, hcaret, hdollar, hbar, hopen, hclose, hopen', hclose', hopen'',
      hclose''⟩ := hspecial
    have htoken : token c = some (.atom (char c)) := by
      unfold token
      rw [if_neg hdot, if_neg hstar', if_neg hplus, if_neg hopt, if_neg hbar, if_neg]
      simp only [List.mem_cons, List.not_mem_nil, or_false, not_or]
      exact ⟨hdollar, hopen, hclose, hopen', hescape, hclose', hcaret, hopen'', hclose''⟩
    exact lex_literal hescape htoken s

theorem lex_regexPattern (name : NarrowString) :
    lex (regexPattern name) = some (wildcardTokens name) := by
  induction name with
  | nil => rfl
  | cons c name ih =>
    have hcons : regexPattern (c :: name) = regexChar c ++ regexPattern name := rfl
    rw [hcons, lex_regexChar, ih]
    rfl

theorem plain_wildcardTokens (name : NarrowString) : Plain (wildcardTokens name) := by
  intro q ts' h
  cases name with
  | nil => cases h
  | cons c name =>
    rw [wildcardTokens, List.flatMap_cons] at h
    split_ifs at h
    · cases h
    · cases h

theorem terms_wildcardTokens (name : NarrowString) :
    terms (wildcardTokens name) = some (wildcardRegex name, 0) := by
  induction name with
  | nil => rfl
  | cons c name ih =>
    have hplain := plain_wildcardTokens name
    rw [wildcardTokens, List.flatMap_cons, wildcardRegex]
    split_ifs
    · exact (terms_quantified dot .star hplain).trans (congrArg _ ih)
    · exact (terms_atom (char c) hplain).trans (congrArg _ ih)

/-- **The expression that is built is well-formed.** -/
theorem parse_regexPattern (name : NarrowString) :
    EcmaScript.parse (regexPattern name) = some (wildcardRegex name + 0) := by
  rw [EcmaScript.parse, lex_regexPattern, Option.bind_some, terms_wildcardTokens]
  rfl

/-! ### The file names that match -/

theorem wildcardMatch_nil_iff {file : NarrowString} : WildcardMatch [] file ↔ file = [] := by
  constructor
  · intro h
    cases h
    rfl
  · rintro rfl
    exact .nil

theorem wildcardMatch_star_iff {name file : NarrowString} : WildcardMatch (byte '*' :: name) file ↔
    ∃ skipped rest, file = skipped ++ rest ∧ WildcardMatch name rest := by
  constructor
  · intro h
    cases h with
    | star skipped h => exact ⟨skipped, _, rfl, h⟩
    | char hc => exact absurd rfl hc
  · rintro ⟨skipped, rest, rfl, h⟩
    exact .star skipped h

theorem wildcardMatch_char_iff {c : UInt8} {name file : NarrowString} (hc : c ≠ byte '*') :
    WildcardMatch (c :: name) file ↔
      ∃ d rest, file = d :: rest ∧ toLower c = toLower d ∧ WildcardMatch name rest := by
  constructor
  · intro h
    cases h with
    | star => exact absurd rfl hc
    | char _ hcd h => exact ⟨_, _, rfl, hcd, h⟩
  · rintro ⟨d, rest, rfl, hcd, h⟩
    exact .char hc hcd h

/-- **The regular expression of a name** matches the file names that the wildcard stands for. -/
theorem matches'_wildcardRegex {name file : NarrowString} (hfile : ∀ c ∈ file, c ∉ lineTerminators) :
    toLowerCopy file ∈ (wildcardRegex (toLowerCopy name)).matches' ↔ WildcardMatch name file := by
  induction name generalizing file with
  | nil =>
    rw [wildcardMatch_nil_iff, toLowerCopy, List.map_nil, wildcardRegex, matches'_epsilon,
      Language.mem_one, toLowerCopy, List.map_eq_nil_iff]
  | cons c name ih =>
    have hcons : toLowerCopy (c :: name) = toLower c :: toLowerCopy name := rfl
    rw [hcons, wildcardRegex, matches'_mul, Language.mem_mul]
    by_cases hc : c = byte '*'
    · rw [if_pos ((toLower_star c).2 hc), hc, wildcardMatch_star_iff]
      constructor
      · rintro ⟨a, -, b, hb, hab⟩
        obtain ⟨skipped, rest, rfl, -, rfl⟩ := List.map_eq_append_iff.1 hab.symm
        exact ⟨skipped, rest, rfl, (ih fun d hd => hfile d (List.mem_append_right _ hd)).1 hb⟩
      · rintro ⟨skipped, rest, rfl, h⟩
        refine ⟨toLowerCopy skipped, (matches'_dot_star _).2 fun d hd => ?_, toLowerCopy rest,
          (ih fun d hd => hfile d (List.mem_append_right _ hd)).2 h, List.map_append.symm⟩
        obtain ⟨d', hd', rfl⟩ := List.mem_map.1 hd
        rw [toLower_lineTerminator]
        exact hfile d' (List.mem_append_left _ hd')
    · rw [if_neg fun h => hc ((toLower_star c).1 h), wildcardMatch_char_iff hc, matches'_char]
      constructor
      · rintro ⟨a, ha, b, hb, hab⟩
        obtain rfl : a = [toLower c] := ha
        obtain ⟨d, rest, rfl, hd, rfl⟩ := List.map_eq_cons_iff.1 hab.symm
        exact ⟨d, rest, rfl, hd.symm, (ih fun d hd => hfile d (List.mem_cons_of_mem _ hd)).1 hb⟩
      · rintro ⟨d, rest, rfl, hcd, h⟩
        refine ⟨[toLower c], rfl, toLowerCopy rest,
          (ih fun d hd => hfile d (List.mem_cons_of_mem _ hd)).2 h, ?_⟩
        rw [hcd]
        rfl

/-- The expression of an item that is accepted. -/
theorem regexString_eq {s : NarrowString} {info : BlacklistInfo}
    (h : parseToBlacklistInfo s = .ok info) : ∃ name, info.regexString = regexPattern name := by
  unfold parseToBlacklistInfo at h
  split at h
  · split at h
    · cases h
    · dsimp only at h
      split_ifs at h
      cases h
      exact ⟨_, rfl⟩
  · split at h
    · cases h
    · cases h
      exact ⟨_, rfl⟩

/-- **Module patterns mean what the manual says.** -/
theorem pattern_matches_iff :
    (∀ name, byte '\x7b' ∉ name → byte '\x7d' ∉ name →
      ∃ info, parseToBlacklistInfo name = .ok info ∧
        ∀ file, (∀ c ∈ file, c ∉ lineTerminators) →
          ∃ b, regexMatch info.regexString (toLowerCopy file) = some b ∧
            (b = true ↔ WildcardMatch name file)) ∧
      ∀ s info, parseToBlacklistInfo s = .ok info →
        (EcmaScript.parse info.regexString).isSome = true := by
  refine ⟨fun name hopen hclose => ?_, fun s info h => ?_⟩
  · have hparse := parse_plain hopen
    rw [if_neg hclose] at hparse
    refine ⟨_, hparse, fun file hfile => ⟨(wildcardRegex (toLowerCopy name) + 0).rmatch
      (toLowerCopy file), ?_, ?_⟩⟩
    · rw [regexMatch, parse_regexPattern]
      rfl
    · rw [rmatch_iff_matches', matches'_add, matches'_zero, add_zero]
      exact matches'_wildcardRegex hfile
  · obtain ⟨name, hname⟩ := regexString_eq h
    rw [hname, parse_regexPattern]
    rfl

theorem pattern_matches_qt : ∃ info, parseToBlacklistInfo (bytes "Qt6*.dll") = .ok info ∧
    regexMatch info.regexString (toLowerCopy (bytes "Qt6Core.DLL")) = some true := by
  obtain ⟨info, hparse, hmatch⟩ := pattern_matches_iff.1 (bytes "Qt6*.dll") (by decide) (by decide)
  obtain ⟨b, hb, hiff⟩ := hmatch (bytes "Qt6Core.DLL") (forall_mem_of_all (by decide))
  have hend : WildcardMatch (bytes ".dll") (bytes ".DLL") :=
    .char (by decide) (by decide) <| .char (by decide) (by decide) <| .char (by decide) (by decide) <|
      .char (by decide) (by decide) .nil
  have hstar : WildcardMatch (bytes "*.dll") (bytes "Core.DLL") := .star (bytes "Core") hend
  have hall : WildcardMatch (bytes "Qt6*.dll") (bytes "Qt6Core.DLL") :=
    .char (by decide) (by decide) <| .char (by decide) (by decide) <| .char (by decide) (by decide)
      hstar
  exact ⟨info, hparse, by rw [hb, hiff.2 hall]⟩

end BugInsight

import BugInsight.Strings

/-!
# The items of `ignore_modules`

An item is the name of a module, which may contain wildcards, and optional letters in braces that
say which of the two checks is not done for the module.

* `ModuleItem` is the grammar that the manual gives;
* `parse_braces`, `parse_plain`: what `parse_to_blacklist_info` makes of a string;
* `itemRead_iff`: the strings that it reads as the grammar says.
-/

namespace BugInsight

/-- `blacklist_info_t`. -/
structure BlacklistInfo where
  regexString : NarrowString := []
  originalString : NarrowString := []
  ignoreMemoryLeak : Bool := false
  ignoreLock : Bool := false
  deriving DecidableEq

/-- The regular expression for one character of a module name. -/
def regexChar (c : UInt8) : NarrowString :=
  if c = byte '*' then bytes ".*"
  else if c ∈ bytes "?.\\+^$|()[]\x7b\x7d" then [byte '\\', c]
  else [c]

/-- The loop of `parse_to_blacklist_info` that builds the regular expression. -/
def regexPattern (moduleName : NarrowString) : NarrowString := moduleName.flatMap regexChar

/-- The text of an error about the braces. -/
def bracesError (s : NarrowString) : NarrowString :=
  bytes "Option 'ignore_modules' requires both '\x7b..\x7d' or no '\x7b\x7d', invalide value: '" ++ s ++
    bytes "'"

/-- The text of an error about the letters in the braces. -/
def lettersError (s : NarrowString) : NarrowString :=
  bytes "Option 'ignore_modules' '\x7b..\x7d' needs 'l' and/or 'm' inside brackets', invalide value: '" ++
    s ++ bytes "'"

/-- `parse_to_blacklist_info`; an error is the text that is logged. -/
def parseToBlacklistInfo (s : NarrowString) : Except NarrowString BlacklistInfo :=
  let moduleName := toLowerCopy s
  match findChar s (byte '\x7b') with
  | some bracketOpen =>
      match findChar s (byte '\x7d') with
      | none => .error (bracesError s)
      | some bracketClose =>
          let options := substr s (bracketOpen + 1) (sizeSub (sizeSub bracketClose bracketOpen) 1)
          if options = [] then .error (lettersError s)
          else
            let moduleName := substr moduleName 0 bracketOpen
            .ok
              { regexString := regexPattern moduleName
                originalString := moduleName
                ignoreMemoryLeak := (findChar options (byte 'm')).isSome
                ignoreLock := (findChar options (byte 'l')).isSome }
  | none =>
      match findChar s (byte '\x7d') with
      | some _ => .error (bracesError s)
      | none =>
          .ok
            { regexString := regexPattern moduleName
              originalString := moduleName
              ignoreMemoryLeak := true
              ignoreLock := true }

example : parseToBlacklistInfo (bytes "Qt6*.dll\x7bm\x7d") = .ok
    { regexString := bytes "qt6.*\\.dll"
      originalString := bytes "qt6*.dll"
      ignoreMemoryLeak := true
      ignoreLock := false } := by decide

/-! ### The grammar -/

/-- An item with the module name, and whether memory leaks and locks are ignored for it. -/
inductive ModuleItem : NarrowString → NarrowString → Bool → Bool → Prop
  | plain {name : NarrowString} (hopen : byte '\x7b' ∉ name) (hclose : byte '\x7d' ∉ name) :
      ModuleItem name name true true
  | options {name opts : NarrowString} (hopen : byte '\x7b' ∉ name) (hclose : byte '\x7d' ∉ name)
      (hne : opts ≠ []) (hletters : ∀ c ∈ opts, c = byte 'l' ∨ c = byte 'm') :
      ModuleItem (name ++ byte '\x7b' :: (opts ++ [byte '\x7d'])) name
        (decide (byte 'm' ∈ opts)) (decide (byte 'l' ∈ opts))

/-- An item that is accepted disables a check. -/
theorem ModuleItem.disables {s name : NarrowString} {m l : Bool} (h : ModuleItem s name m l) :
    m = true ∨ l = true := by
  cases h with
  | plain => exact Or.inl rfl
  | options _ _ hne hletters =>
    obtain ⟨c, hc⟩ := List.exists_mem_of_ne_nil _ hne
    rcases hletters c hc with rfl | rfl
    · exact Or.inr (decide_eq_true hc)
    · exact Or.inl (decide_eq_true hc)

/-! ### What is read -/

/-- What is read of a string with options. -/
def withOptions (name options : NarrowString) : BlacklistInfo where
  regexString := regexPattern (toLowerCopy name)
  originalString := toLowerCopy name
  ignoreMemoryLeak := decide (byte 'm' ∈ options)
  ignoreLock := decide (byte 'l' ∈ options)

variable {s name opts rest : NarrowString}

theorem isSome_findChar (s : NarrowString) (c : UInt8) : (findChar s c).isSome = decide (c ∈ s) := by
  by_cases hc : c ∈ s
  · rw [decide_eq_true hc, Option.isSome_iff_ne_none]
    exact fun h => findChar_eq_none_iff.1 h hc
  · rw [decide_eq_false hc, findChar_eq_none_iff.2 hc]
    rfl

/-- A string without an opening brace. -/
theorem parse_plain (hopen : byte '\x7b' ∉ s) : parseToBlacklistInfo s =
    if byte '\x7d' ∈ s then .error (bracesError s)
    else .ok
      { regexString := regexPattern (toLowerCopy s)
        originalString := toLowerCopy s
        ignoreMemoryLeak := true
        ignoreLock := true } := by
  unfold parseToBlacklistInfo
  rw [findChar_eq_none_iff.2 hopen]
  by_cases hclose : byte '\x7d' ∈ s
  · obtain ⟨i, hi⟩ := Option.isSome_iff_exists.1
      ((isSome_findChar s (byte '\x7d')).trans (decide_eq_true hclose))
    rw [if_pos hclose]
    dsimp only
    rw [hi]
  · rw [if_neg hclose]
    dsimp only
    rw [findChar_eq_none_iff.2 hclose]

/-- The part of a string that is read as the letters in the braces: all that follows the opening
brace, if the first closing brace stands in front of it. -/
def optionsText (name post : NarrowString) : NarrowString :=
  if byte '\x7d' ∈ name then post else post.takeWhile fun c => c ≠ byte '\x7d'

theorem optionsText_of_close (hname : byte '\x7d' ∉ name) (hopts : byte '\x7d' ∉ opts) :
    optionsText name (opts ++ byte '\x7d' :: rest) = opts := by
  have hkeep : ∀ c ∈ opts, decide (c ≠ byte '\x7d') = true := fun c hc =>
    decide_eq_true fun heq => hopts (heq ▸ hc)
  rw [optionsText, if_neg hname, List.takeWhile_append_of_pos hkeep, List.takeWhile_cons_of_neg
    (by simp), List.append_nil]

/-- The text between the positions of the two braces. -/
theorem substr_braces {post : NarrowString}
    (hlen : (name ++ byte '\x7b' :: post).length < 2 ^ 64) (hclose : byte '\x7d' ∈ name ++ post) :
    ∃ close, findChar (name ++ byte '\x7b' :: post) (byte '\x7d') = some close ∧
      substr (name ++ byte '\x7b' :: post) (name.length + 1)
        (sizeSub (sizeSub close name.length) 1) = optionsText name post := by
  have hdrop : (name ++ byte '\x7b' :: post).drop (name.length + 1) = post := by
    simp [List.drop_append]
  rw [List.length_append, List.length_cons] at hlen
  unfold substr
  rw [hdrop]
  by_cases hname : byte '\x7d' ∈ name
  · -- the length wraps around
    obtain ⟨a, b, hab, ha⟩ := List.eq_append_cons_of_mem hname
    have hlt : a.length < name.length := by
      rw [hab, List.length_append, List.length_cons]
      omega
    refine ⟨a.length, ?_, ?_⟩
    · rw [hab, List.append_assoc, List.cons_append]
      exact findChar_append ha _
    · rw [sizeSub_of_lt hlt, sizeSub_of_le (by omega) (by omega), List.take_of_length_le (by omega),
        optionsText, if_pos hname]
  · obtain ⟨opts, rest, rfl, hopts⟩ := List.eq_append_cons_of_mem
      ((List.mem_append.1 hclose).resolve_left hname)
    rw [List.length_append, List.length_cons] at hlen
    refine ⟨(name ++ byte '\x7b' :: opts).length, ?_, ?_⟩
    · rw [← List.cons_append, ← List.append_assoc]
      apply findChar_append
      rw [List.mem_append, List.mem_cons, not_or, not_or]
      exact ⟨hname, by decide, hopts⟩
    · have hfirst : sizeSub (name ++ byte '\x7b' :: opts).length name.length = opts.length + 1 := by
        rw [List.length_append, List.length_cons, sizeSub_of_le (by omega) (by omega)]
        omega
      rw [hfirst, sizeSub_of_le (by omega) (by omega), Nat.add_sub_cancel, List.take_left,
        optionsText_of_close hname hopts]

/-- A string with an opening brace. -/
theorem parse_braces {post : NarrowString} (hopen : byte '\x7b' ∉ name)
    (hlen : (name ++ byte '\x7b' :: post).length < 2 ^ 64) :
    parseToBlacklistInfo (name ++ byte '\x7b' :: post) =
      if byte '\x7d' ∉ name ++ post then .error (bracesError (name ++ byte '\x7b' :: post))
      else if optionsText name post = [] then .error (lettersError (name ++ byte '\x7b' :: post))
      else .ok (withOptions name (optionsText name post)) := by
  have hlower : substr (toLowerCopy (name ++ byte '\x7b' :: post)) 0 name.length =
      toLowerCopy name := by
    rw [toLowerCopy, List.map_append, substr, List.drop_zero, ← List.length_map toLower,
      List.take_left]
    rfl
  unfold parseToBlacklistInfo
  rw [findChar_append hopen]
  dsimp only
  rw [hlower]
  by_cases hclose : byte '\x7d' ∈ name ++ post
  · obtain ⟨close, hfind, hsubstr⟩ := substr_braces hlen hclose
    rw [if_neg (not_not.2 hclose), hfind]
    dsimp only
    rw [hsubstr, isSome_findChar, isSome_findChar]
    rfl
  · have hnone : byte '\x7d' ∉ name ++ byte '\x7b' :: post := by
      rw [List.mem_append, List.mem_cons, not_or, not_or]
      rw [List.mem_append, not_or] at hclose
      exact ⟨hclose.1, by decide, hclose.2⟩
    rw [if_pos hclose, findChar_eq_none_iff.2 hnone]

/-! ### The strings that are read as the grammar says -/

/-- The string is accepted exactly if it is an item, and what is read is what the item says. -/
structure ItemRead (s : NarrowString) : Prop where
  accepted : (∃ info, parseToBlacklistInfo s = .ok info) ↔ ∃ name m l, ModuleItem s name m l
  value : ∀ info, parseToBlacklistInfo s = .ok info → ∀ name m l, ModuleItem s name m l →
    info.originalString = toLowerCopy name ∧ info.ignoreMemoryLeak = m ∧ info.ignoreLock = l
  disables : ∀ info, parseToBlacklistInfo s = .ok info →
    info.ignoreMemoryLeak = true ∨ info.ignoreLock = true

/-- The text behind the first opening brace is not empty, and there is a closing brace in front of
it, or the text up to the first closing brace is neither empty nor `l`s and `m`s up to the end of
the string. -/
def Misread (s : NarrowString) : Prop :=
  ∃ name post, s = name ++ byte '\x7b' :: post ∧ byte '\x7b' ∉ name ∧ post ≠ [] ∧
    (byte '\x7d' ∈ name ∨ ∃ opts rest, post = opts ++ byte '\x7d' :: rest ∧ byte '\x7d' ∉ opts ∧
      opts ≠ [] ∧ ((∃ c ∈ opts, c ≠ byte 'l' ∧ c ≠ byte 'm') ∨ rest ≠ []))

/-- The items without an opening brace. -/
theorem moduleItem_plain_iff {nm : NarrowString} {m l : Bool} (hopen : byte '\x7b' ∉ s) :
    ModuleItem s nm m l ↔ byte '\x7d' ∉ s ∧ nm = s ∧ m = true ∧ l = true := by
  constructor
  · intro h
    cases h with
    | plain _ hclose => exact ⟨hclose, rfl, rfl, rfl⟩
    | options => exact absurd (List.mem_append_right _ List.mem_cons_self) hopen
  · rintro ⟨hclose, rfl, rfl, rfl⟩
    exact .plain hopen hclose

/-- The items with an opening brace. -/
theorem moduleItem_braces_iff {post nm : NarrowString} {m l : Bool} (hopen : byte '\x7b' ∉ name) :
    ModuleItem (name ++ byte '\x7b' :: post) nm m l ↔
      byte '\x7d' ∉ name ∧ nm = name ∧ ∃ opts, post = opts ++ [byte '\x7d'] ∧ opts ≠ [] ∧
        (∀ c ∈ opts, c = byte 'l' ∨ c = byte 'm') ∧ m = decide (byte 'm' ∈ opts) ∧
        l = decide (byte 'l' ∈ opts) := by
  constructor
  · generalize hs : name ++ byte '\x7b' :: post = s
    intro h
    cases h with
    | plain hopen' =>
      rw [← hs] at hopen'
      exact absurd (List.mem_append_right _ List.mem_cons_self) hopen'
    | @options _ opts hopen' hclose hne hletters =>
      have hpost : byte '\x7b' ∉ opts ++ [byte '\x7d'] := fun hc => by
        rcases List.mem_append.1 hc with hc | hc
        · exact absurd (hletters _ hc) (by decide)
        · exact absurd (List.mem_singleton.1 hc) (by decide)
      obtain ⟨rfl, -, rfl⟩ := (List.append_cons_inj_of_notMem hopen' hpost).1 hs.symm
      exact ⟨hclose, rfl, opts, rfl, hne, hletters, rfl, rfl⟩
  · rintro ⟨hclose, rfl, opts, rfl, hne, hletters, rfl, rfl⟩
    exact .options hopen hclose hne hletters

/-- What is accepted with braces. -/
theorem accepted_braces {post : NarrowString} (hopen : byte '\x7b' ∉ name)
    (hlen : (name ++ byte '\x7b' :: post).length < 2 ^ 64) (info : BlacklistInfo) :
    parseToBlacklistInfo (name ++ byte '\x7b' :: post) = .ok info ↔
      byte '\x7d' ∈ name ++ post ∧ optionsText name post ≠ [] ∧
        info = withOptions name (optionsText name post) := by
  rw [parse_braces hopen hlen]
  by_cases hclose : byte '\x7d' ∈ name ++ post
  · rw [if_neg (not_not.2 hclose)]
    by_cases hempty : optionsText name post = []
    · rw [if_pos hempty]
      exact iff_of_false (fun h => by cases h) fun h => h.2.1 hempty
    · rw [if_neg hempty, Except.ok.injEq]
      exact ⟨fun h => ⟨hclose, hempty, h.symm⟩, fun h => h.2.2.symm⟩
  · rw [if_pos hclose]
    exact iff_of_false (fun h => by cases h) fun h => hclose h.1

/-- An item with braces is accepted, with the meaning that the grammar gives. -/
theorem ModuleItem.optionsText_eq {post nm : NarrowString} {m l : Bool} (hopen : byte '\x7b' ∉ name)
    (h : ModuleItem (name ++ byte '\x7b' :: post) nm m l) :
    byte '\x7d' ∈ name ++ post ∧ optionsText name post ≠ [] ∧ nm = name ∧
      m = decide (byte 'm' ∈ optionsText name post) ∧
      l = decide (byte 'l' ∈ optionsText name post) := by
  obtain ⟨hname, rfl, opts, rfl, hne, hletters, hm, hl⟩ := (moduleItem_braces_iff hopen).1 h
  have hopts : byte '\x7d' ∉ opts := fun hc => absurd (hletters _ hc) (by decide)
  rw [optionsText_of_close hname hopts]
  exact ⟨by simp, hne, rfl, hm, hl⟩

/-- A string with an opening brace that is accepted is an item, or it is misread. -/
theorem moduleItem_or_misread {post : NarrowString} (hopen : byte '\x7b' ∉ name)
    (hclose : byte '\x7d' ∈ name ++ post) (hne : optionsText name post ≠ []) :
    ModuleItem (name ++ byte '\x7b' :: post) name (decide (byte 'm' ∈ optionsText name post))
      (decide (byte 'l' ∈ optionsText name post)) ∨
      Misread (name ++ byte '\x7b' :: post) := by
  by_cases hname : byte '\x7d' ∈ name
  · rw [optionsText, if_pos hname] at hne
    exact Or.inr ⟨name, post, rfl, hopen, hne, Or.inl hname⟩
  · obtain ⟨opts, rest, rfl, hopts⟩ := List.eq_append_cons_of_mem
      ((List.mem_append.1 hclose).resolve_left hname)
    rw [optionsText_of_close hname hopts] at hne ⊢
    by_cases hgood : (∀ c ∈ opts, c = byte 'l' ∨ c = byte 'm') ∧ rest = []
    · obtain ⟨hletters, rfl⟩ := hgood
      exact Or.inl (.options hopen hname hne hletters)
    · refine Or.inr ⟨name, _, rfl, hopen, by simp, Or.inr ⟨opts, rest, rfl, hopts, hne, ?_⟩⟩
      rw [not_and_or] at hgood
      refine hgood.imp (fun h => ?_) id
      push Not at h
      exact h

/-- **What is read of an item.** -/
theorem ModuleItem.parse {nm : NarrowString} {m l : Bool} (hlen : s.length < 2 ^ 64)
    (h : ModuleItem s nm m l) : parseToBlacklistInfo s = .ok
      { regexString := regexPattern (toLowerCopy nm)
        originalString := toLowerCopy nm
        ignoreMemoryLeak := m
        ignoreLock := l } := by
  by_cases hbrace : byte '\x7b' ∈ s
  · obtain ⟨name, post, rfl, hopen⟩ := List.eq_append_cons_of_mem hbrace
    obtain ⟨hclose, hne, rfl, rfl, rfl⟩ := h.optionsText_eq hopen
    exact (accepted_braces hopen hlen _).2 ⟨hclose, hne, rfl⟩
  · obtain ⟨hclose, rfl, rfl, rfl⟩ := (moduleItem_plain_iff hbrace).1 h
    rw [parse_plain hbrace, if_neg hclose]

/-- A string that is accepted and not misread is an item. -/
theorem moduleItem_of_parse (hlen : s.length < 2 ^ 64) (hmis : ¬ Misread s) {info : BlacklistInfo}
    (h : parseToBlacklistInfo s = .ok info) : ∃ nm, ModuleItem s nm info.ignoreMemoryLeak
      info.ignoreLock ∧ info.regexString = regexPattern (toLowerCopy nm) ∧
      info.originalString = toLowerCopy nm := by
  by_cases hbrace : byte '\x7b' ∈ s
  · obtain ⟨name, post, rfl, hopen⟩ := List.eq_append_cons_of_mem hbrace
    obtain ⟨hclose, hne, rfl⟩ := (accepted_braces hopen hlen info).1 h
    exact ⟨name, (moduleItem_or_misread hopen hclose hne).resolve_right hmis, rfl, rfl⟩
  · rw [parse_plain hbrace] at h
    split_ifs at h with hclose
    cases h
    exact ⟨s, .plain hbrace hclose, rfl, rfl⟩

/-- A string that is misread is accepted, although it is no item. -/
theorem Misread.accepted (hlen : s.length < 2 ^ 64) (h : Misread s) :
    (∃ info, parseToBlacklistInfo s = .ok info) ∧ ∀ nm m l, ¬ ModuleItem s nm m l := by
  obtain ⟨name, post, rfl, hopen, hne, hmis⟩ := h
  refine ⟨⟨withOptions name (optionsText name post), (accepted_braces hopen hlen _).2 ?_⟩,
    fun nm m l hitem => ?_⟩
  · by_cases hname : byte '\x7d' ∈ name
    · rw [optionsText, if_pos hname]
      exact ⟨List.mem_append_left _ hname, hne, rfl⟩
    · obtain ⟨opts, rest, rfl, hopts, hopts', -⟩ := hmis.resolve_left hname
      rw [optionsText_of_close hname hopts]
      exact ⟨by simp, hopts', rfl⟩
  · obtain ⟨hname, -, opts, hpost, -, hletters, -⟩ := (moduleItem_braces_iff hopen).1 hitem
    obtain ⟨opts', rest, hpost', -, -, hbad⟩ := hmis.resolve_left hname
    have hopts : byte '\x7d' ∉ opts := fun hc => absurd (hletters _ hc) (by decide)
    obtain ⟨rfl, -, rfl⟩ := (List.append_cons_inj_of_notMem hopts List.not_mem_nil).1
      (hpost.symm.trans hpost')
    rcases hbad with ⟨c, hc, hcl, hcm⟩ | hrest
    · exact (hletters c hc).elim hcl hcm
    · exact hrest rfl

theorem Misread.not_itemRead (hlen : s.length < 2 ^ 64) (h : Misread s) : ¬ ItemRead s := by
  intro hread
  obtain ⟨haccepted, hno⟩ := h.accepted hlen
  obtain ⟨nm, m, l, hitem⟩ := hread.accepted.1 haccepted
  exact hno nm m l hitem

/-- **The strings that are read as the grammar says** are those that are not misread. -/
theorem itemRead_iff (hlen : s.length < 2 ^ 64) : ItemRead s ↔ ¬ Misread s := by
  constructor
  · exact fun hread hmis => hmis.not_itemRead hlen hread
  · intro hmis
    refine ⟨⟨fun ⟨info, h⟩ => ?_, fun ⟨nm, m, l, hitem⟩ => ⟨_, hitem.parse hlen⟩⟩,
      fun info h nm m l hitem => ?_, fun info h => ?_⟩
    · obtain ⟨nm, hitem, -⟩ := moduleItem_of_parse hlen hmis h
      exact ⟨nm, _, _, hitem⟩
    · cases (hitem.parse hlen).symm.trans h
      exact ⟨rfl, rfl, rfl⟩
    · obtain ⟨nm, hitem, -⟩ := moduleItem_of_parse hlen hmis h
      exact hitem.disables

theorem itemRead_iff_leaks : ItemRead (bytes "Qt6*.dll\x7bm\x7d") := by
  refine (itemRead_iff (by decide)).2 fun hmis => ?_
  apply (hmis.accepted (by decide)).2 (bytes "Qt6*.dll") true false
  exact @ModuleItem.options (bytes "Qt6*.dll") (bytes "m") (by decide) (by decide)
    (by decide) (forall_mem_of_all (by decide))

/-- A letter that is neither `l` nor `m` is accepted, and no check is disabled. -/
theorem unknown_letter_accepted :
    (parseToBlacklistInfo (bytes "a.dll\x7bx\x7d") = .ok
      { regexString := bytes "a\\.dll"
        originalString := bytes "a.dll"
        ignoreMemoryLeak := false
        ignoreLock := false }) ∧ ¬ ItemRead (bytes "a.dll\x7bx\x7d") := by
  refine ⟨by decide, Misread.not_itemRead (by decide) ⟨bytes "a.dll", bytes "x\x7d", by decide,
    by decide, by decide, Or.inr ⟨bytes "x", [], by decide, by decide, by decide, Or.inl ?_⟩⟩⟩
  exact ⟨byte 'x', by decide, by decide, by decide⟩

end BugInsight

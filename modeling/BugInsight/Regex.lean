import Mathlib.Tactic
import Mathlib.Computability.RegularExpressions

/-!
# ECMAScript patterns

Patterns over bytes, as far as they are built from characters, escaped characters, `.`, the
quantifiers `*`, `+` and `?` with their lazy forms, and `|`.  `parse` gives the regular expression
of a pattern, and `none` for what is not well-formed or uses something else: classes, groups,
assertions, counted quantifiers, escapes of letters and digits.

* `regexMatch` matches a whole string: `rmatch` tries all alternatives, as a match with backtracking
  does;
* `lex_literal`, `lex_escaped`, `terms_atom`, `terms_quantified`: the rules by which a pattern is
  evaluated.
-/

open RegularExpression

namespace EcmaScript

/-- A regular expression for one of some characters. -/
def anyOf (cs : List UInt8) : RegularExpression UInt8 := cs.foldr (fun c r => char c + r) 0

theorem matches'_anyOf (cs : List UInt8) (w : List UInt8) :
    w ∈ (anyOf cs).matches' ↔ ∃ c ∈ cs, w = [c] := by
  induction cs with
  | nil =>
    rw [anyOf, List.foldr_nil, matches'_zero]
    simp
  | cons c cs ih =>
    have hcons : anyOf (c :: cs) = char c + anyOf cs := rfl
    have hchar : w ∈ ({[c]} : Language UInt8) ↔ w = [c] := Iff.rfl
    rw [hcons, matches'_add, Language.mem_add, ih, matches'_char, hchar]
    simp

/-- The characters that end a line. -/
def lineTerminators : List UInt8 := [10, 13]

/-- `.`. -/
def dot : RegularExpression UInt8 :=
  anyOf (((List.range 256).map UInt8.ofNat).filter fun c => c ∉ lineTerminators)

theorem matches'_dot (w : List UInt8) : w ∈ dot.matches' ↔ ∃ c, c ∉ lineTerminators ∧ w = [c] := by
  have hall : ∀ c : UInt8, c ∈ (List.range 256).map UInt8.ofNat := fun c =>
    List.mem_map.2 ⟨c.toNat, List.mem_range.2 c.toNat_lt, UInt8.ofNat_toNat⟩
  rw [dot, matches'_anyOf]
  refine exists_congr fun c => and_congr_left fun _ => ?_
  rw [List.mem_filter, decide_eq_true_eq]
  exact and_iff_right (hall c)

/-- Any sequence of characters in a line. -/
theorem matches'_dot_star (w : List UInt8) :
    w ∈ dot.star.matches' ↔ ∀ c ∈ w, c ∉ lineTerminators := by
  rw [matches'_star, Language.mem_kstar]
  constructor
  · rintro ⟨ws, rfl, hws⟩ c hc
    obtain ⟨v, hv, hcv⟩ := List.mem_flatten.1 hc
    obtain ⟨d, hd, rfl⟩ := (matches'_dot v).1 (hws v hv)
    rw [List.mem_singleton.1 hcv]
    exact hd
  · intro hw
    refine ⟨w.map fun c => [c], ?_, fun v hv => ?_⟩
    · induction w with
      | nil => rfl
      | cons c w ih =>
        rw [List.map_cons, List.flatten_cons, ← ih fun d hd => hw d (List.mem_cons_of_mem c hd)]
        rfl
    · obtain ⟨c, hc, rfl⟩ := List.mem_map.1 hv
      exact (matches'_dot _).2 ⟨c, hw c hc, rfl⟩

/-! ### Well-formed patterns -/

inductive Quantifier
  | star
  | plus
  | opt

def Quantifier.apply (r : RegularExpression UInt8) : Quantifier → RegularExpression UInt8
  | star => r.star
  | plus => r * r.star
  | opt => 1 + r

inductive Token
  | atom (r : RegularExpression UInt8)
  | quantifier (q : Quantifier)
  | bar

/-- A character that stands for itself when it is escaped. -/
def IdentityEscape (c : UInt8) : Prop :=
  (33 ≤ c ∧ c ≤ 47) ∨ (58 ≤ c ∧ c ≤ 64) ∨ (91 ≤ c ∧ c ≤ 94) ∨ c = 96 ∨ (123 ≤ c ∧ c ≤ 126)

instance (c : UInt8) : Decidable (IdentityEscape c) := by
  unfold IdentityEscape
  infer_instance

/-- A character that is not escaped; `^`, `$` and the brackets are not read. -/
def token (c : UInt8) : Option Token :=
  if c = 46 then some (.atom dot)
  else if c = 42 then some (.quantifier .star)
  else if c = 43 then some (.quantifier .plus)
  else if c = 63 then some (.quantifier .opt)
  else if c = 124 then some .bar
  else if c ∈ [36, 40, 41, 91, 92, 93, 94, 123, 125] then none
  else some (.atom (char c))

def lex : List UInt8 → Option (List Token)
  | [] => some []
  | c :: cs =>
      if c = 92 then
        match cs with
        | [] => none
        | d :: ds => if IdentityEscape d then (lex ds).map (.atom (char d) :: ·) else none
      else (token c).bind fun t => (lex cs).map (t :: ·)

/-- The first alternative, and those behind the first `|`. -/
def terms : List Token → Option (RegularExpression UInt8 × RegularExpression UInt8)
  | [] => some (1, 0)
  | .bar :: ts => (terms ts).map fun p => (1, p.1 + p.2)
  | .atom r :: .quantifier q :: .quantifier .opt :: ts =>
      (terms ts).map fun p => (q.apply r * p.1, p.2)
  | .atom r :: .quantifier q :: ts => (terms ts).map fun p => (q.apply r * p.1, p.2)
  | .atom r :: ts => (terms ts).map fun p => (r * p.1, p.2)
  | .quantifier _ :: _ => none

/-- The regular expression of a pattern. -/
def parse (pattern : List UInt8) : Option (RegularExpression UInt8) :=
  (lex pattern).bind fun ts => (terms ts).map fun p => p.1 + p.2

/-- `regex_match`. -/
def regexMatch (pattern s : List UInt8) : Option Bool := (parse pattern).map fun r => r.rmatch s

theorem lex_literal {c : UInt8} {r : Token} (hc : c ≠ 92) (ht : token c = some r) (cs : List UInt8) :
    lex (c :: cs) = (lex cs).map (r :: ·) := by
  rw [lex.eq_def]
  dsimp only
  rw [if_neg hc, ht]
  rfl

theorem lex_escaped {d : UInt8} (hd : IdentityEscape d) (ds : List UInt8) :
    lex (92 :: d :: ds) = (lex ds).map (.atom (char d) :: ·) := by
  rw [lex.eq_def]
  dsimp only
  rw [if_pos rfl, if_pos hd]

/-- The tokens do not go on with a quantifier. -/
def Plain (ts : List Token) : Prop := ∀ q ts', ts ≠ .quantifier q :: ts'

theorem terms_atom (r : RegularExpression UInt8) {ts : List Token} (hts : Plain ts) :
    terms (.atom r :: ts) = (terms ts).map fun p => (r * p.1, p.2) := by
  rcases ts with _ | ⟨_ | q | _, ts⟩
  · rfl
  · rfl
  · exact absurd rfl (hts q ts)
  · rfl

theorem terms_quantified (r : RegularExpression UInt8) (q : Quantifier) {ts : List Token}
    (hts : Plain ts) : terms (.atom r :: .quantifier q :: ts) =
      (terms ts).map fun p => (q.apply r * p.1, p.2) := by
  rcases ts with _ | ⟨_ | q' | _, ts⟩
  · rfl
  · rfl
  · exact absurd rfl (hts q' ts)
  · rfl

end EcmaScript

import Mathlib.Tactic

/-!
# Narrow strings

`std::string` and `char*` are sequences of bytes, and a literal consists of ASCII characters.
Letters are converted to lower case as in the "C" locale.
-/

namespace BugInsight

/-- `std::string`. -/
abbrev NarrowString := List UInt8

/-- The characters of a literal. -/
def bytes (s : String) : NarrowString := s.toList.map Char.toUInt8

/-- `std::tolower`. -/
def toLower (c : UInt8) : UInt8 := if 65 ≤ c ∧ c ≤ 90 then c + 32 else c

/-- `boost::to_lower_copy`. -/
def toLowerCopy (s : NarrowString) : NarrowString := s.map toLower

/-- The character of a literal. -/
def byte (c : Char) : UInt8 := c.toUInt8

/-- `std::string::find` of a character; `none` is `npos`. -/
def findChar (s : NarrowString) (c : UInt8) : Option ℕ := s.idxOf? c

/-- The difference of two values of type `size_t`. -/
def sizeSub (a b : ℕ) : ℕ := (a + 2 ^ 64 - b) % 2 ^ 64

/-- `std::string::substr`, from a position inside the string or at its end. -/
def substr (s : NarrowString) (pos len : ℕ) : NarrowString := (s.drop pos).take len

theorem findChar_eq_none_iff {s : NarrowString} {c : UInt8} : findChar s c = none ↔ c ∉ s :=
  List.idxOf?_eq_none_iff

/-- The first occurrence of a character. -/
theorem findChar_append {c : UInt8} {s : NarrowString} (hc : c ∉ s) (s' : NarrowString) :
    findChar (s ++ c :: s') c = some s.length := by
  unfold findChar
  induction s with
  | nil => simp [List.idxOf?_cons]
  | cons d s ih =>
    obtain ⟨hd, hs⟩ := not_or.1 (fun h => hc (List.mem_cons.2 h))
    rw [List.cons_append, List.idxOf?_cons, if_neg (by simpa using fun h => hd h.symm), ih hs]
    rfl

theorem sizeSub_of_le {a b : ℕ} (hba : b ≤ a) (ha : a < 2 ^ 64) : sizeSub a b = a - b := by
  unfold sizeSub
  omega

/-- A negative difference is a large one. -/
theorem sizeSub_of_lt {a b : ℕ} (hab : a < b) : sizeSub a b = a + 2 ^ 64 - b := by
  unfold sizeSub
  omega

/-- A property of all characters of a string that is computed. -/
theorem forall_mem_of_all {p : UInt8 → Prop} [DecidablePred p] {s : NarrowString}
    (h : s.all (fun c => decide (p c)) = true) : ∀ c ∈ s, p c :=
  fun c hc => of_decide_eq_true (List.all_eq_true.1 h c hc)

end BugInsight

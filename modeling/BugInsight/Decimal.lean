import Mathlib.Data.Nat.Digits.Defs
import Mathlib.Tactic

/-!
# Decimal numerals

Numerals as strings of ASCII characters: `numeral n` is the numeral of `n` without leading zeros,
and `value` reads a string of digits.
-/

namespace Decimal

def isDigit (c : UInt8) : Bool := 48 ≤ c && c ≤ 57

def digit (d : ℕ) : UInt8 := UInt8.ofNat (48 + d)

/-- The numeral of a number. -/
def numeral (n : ℕ) : List UInt8 :=
  if n = 0 then [digit 0] else (Nat.digits 10 n).reverse.map digit

/-- The number that a string of digits denotes. -/
def value (s : List UInt8) : ℕ := s.foldl (fun n c => 10 * n + (c.toNat - 48)) 0

theorem toNat_digit {d : ℕ} (hd : d < 10) : (digit d).toNat = 48 + d := by
  rw [digit, UInt8.toNat_ofNat']
  omega

theorem isDigit_digit {d : ℕ} (hd : d < 10) : isDigit (digit d) = true := by
  unfold isDigit
  rw [Bool.and_eq_true, decide_eq_true_iff, decide_eq_true_iff, UInt8.le_iff_toNat_le,
    UInt8.le_iff_toNat_le, toNat_digit hd]
  exact ⟨Nat.le_add_right 48 d, show 48 + d ≤ 57 by omega⟩

theorem numeral_ne_nil (n : ℕ) : numeral n ≠ [] := by
  unfold numeral
  split_ifs with hn
  · exact List.cons_ne_nil _ _
  · simpa [Nat.digits_eq_nil_iff_eq_zero] using hn

theorem isDigit_of_mem_numeral {n : ℕ} : ∀ c ∈ numeral n, isDigit c = true := by
  unfold numeral
  split_ifs
  · exact List.forall_mem_singleton.2 (isDigit_digit (by omega))
  · intro c hc
    obtain ⟨d, hd, rfl⟩ := List.mem_map.1 hc
    exact isDigit_digit (Nat.digits_lt_base (by omega) (List.mem_reverse.1 hd))

/-- Digits from the most significant one on. -/
theorem value_reverse {ds : List ℕ} (hds : ∀ d ∈ ds, d < 10) :
    value (ds.reverse.map digit) = Nat.ofDigits 10 ds := by
  induction ds with
  | nil => rfl
  | cons d ds ih =>
    obtain ⟨hd, hds'⟩ := List.forall_mem_cons.1 hds
    have hvalue := ih hds'
    unfold value at hvalue ⊢
    rw [List.reverse_cons, List.map_append, List.foldl_append, hvalue, Nat.ofDigits_cons]
    show 10 * Nat.ofDigits 10 ds + ((digit d).toNat - 48) = _
    rw [toNat_digit hd]
    omega

/-- **The value of a numeral** is the number that it was made of. -/
theorem value_numeral (n : ℕ) : value (numeral n) = n := by
  unfold numeral
  split_ifs with hn
  · rw [hn]
    rfl
  · rw [value_reverse fun d hd => Nat.digits_lt_base (by omega) hd, Nat.ofDigits_digits]

end Decimal

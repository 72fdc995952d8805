import Mathlib.Tactic
import Mathlib.Logic.Function.Iterate

/-!
# Linear congruential generators

The generator `x ↦ (x * a + c) % 2 ^ w`.  With `a % 4 = 1` and `c` odd, `2 ^ k` steps complement bit
`k` of the state, whatever the state is, so no bit stays zero for more than `2 ^ k` steps.

* `iterate_two_pow`: what `2 ^ k` steps do, before the remainder is taken;
* `exists_testBit_iterate`: a state with bit `k` set is reached.
-/

namespace LinearCongruential

/-- One step. -/
def step (a c w x : ℕ) : ℕ := (x * a + c) % 2 ^ w

variable {a c w k : ℕ}

theorem iterate_two_pow (ha : a % 4 = 1) (hc : c % 2 = 1) (k : ℕ) :
    ∃ t s, ∀ x, (fun x => x * a + c)^[2 ^ k] x
      = x * (1 + 2 ^ (k + 2) * t) + 2 ^ k * (2 * s + 1) := by
  induction k with
  | zero =>
    refine ⟨a / 4, c / 2, fun x => ?_⟩
    have h4 : 1 + 2 ^ (0 + 2) * (a / 4) = a := by omega
    have h2 : 2 ^ 0 * (2 * (c / 2) + 1) = c := by omega
    rw [h4, h2, pow_zero, Function.iterate_one]
  | succ k ih =>
    obtain ⟨t, s, ih⟩ := ih
    refine ⟨t + 2 ^ (k + 1) * (t * t), s + 2 ^ k * t * (2 * s + 1), fun x => ?_⟩
    rw [pow_succ, mul_two, Function.iterate_add_apply, ih, ih]
    ring

theorem iterate_step (n x : ℕ) :
    (step a c w)^[n] x ≡ (fun x => x * a + c)^[n] x [MOD 2 ^ w] := by
  induction n with
  | zero => rfl
  | succ n ih =>
    rw [Function.iterate_succ_apply', Function.iterate_succ_apply']
    exact (Nat.mod_modEq _ _).trans ((ih.mul_right a).add_right c)

/-- Numbers that agree modulo `2 ^ w` agree in the bits below `w`. -/
theorem testBit_of_modEq {x y : ℕ} (h : x ≡ y [MOD 2 ^ w]) (hk : k < w) :
    x.testBit k = y.testBit k := by
  have hlow (n : ℕ) : (n % 2 ^ w).testBit k = n.testBit k := by
    rw [Nat.testBit_mod_two_pow, decide_eq_true hk, Bool.true_and]
  rw [← hlow x, ← hlow y, h]

/-- `2 ^ k` steps complement bit `k`. -/
theorem testBit_iterate_two_pow (ha : a % 4 = 1) (hc : c % 2 = 1) (hk : k < w) (x : ℕ) :
    ((step a c w)^[2 ^ k] x).testBit k = !x.testBit k := by
  obtain ⟨t, s, h⟩ := iterate_two_pow ha hc k
  have hsum : x * (1 + 2 ^ (k + 2) * t) + 2 ^ k * (2 * s + 1)
      = 2 ^ k + (x + 2 ^ (k + 1) * (2 * t * x + s)) := by ring
  have hlow : x + 2 ^ (k + 1) * (2 * t * x + s) ≡ x [MOD 2 ^ (k + 1)] := by
    have hz : 2 ^ (k + 1) * (2 * t * x + s) ≡ 0 [MOD 2 ^ (k + 1)] :=
      Nat.modEq_zero_iff_dvd.2 (Dvd.intro _ rfl)
    exact hz.add_left x
  rw [testBit_of_modEq (iterate_step (2 ^ k) x) hk, h, hsum, Nat.testBit_two_pow_add_eq,
    testBit_of_modEq hlow (Nat.lt_succ_self k)]

/-- A state with bit `k` set follows after at most `2 ^ k` further steps. -/
theorem exists_testBit_iterate (ha : a % 4 = 1) (hc : c % 2 = 1) (hk : k < w) (x : ℕ) :
    ∃ n ≤ 2 ^ k, ((step a c w)^[n] x).testBit k = true := by
  cases hx : x.testBit k with
  | true => exact ⟨0, Nat.zero_le _, hx⟩
  | false => exact ⟨2 ^ k, le_rfl, by rw [testBit_iterate_two_pow ha hc hk, hx]; rfl⟩

end LinearCongruential

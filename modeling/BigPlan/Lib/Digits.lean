import Mathlib.Data.Nat.Digits.Lemmas

/-!
# Numbers of a fixed width

A number written with so many digits of a base, the first digit being the most significant
one, and the number that digits stand for.
-/
namespace BigPlan.Lib.Digits

variable {b : ℕ}

/-- The number that the digits stand for. -/
def value (digits : List (Fin b)) : ℕ := Nat.ofDigits b (digits.reverse.map Fin.val)

/-- The low digits of the number, as many as asked for. -/
def fixed (b : ℕ) [NeZero b] : ℕ → ℕ → List (Fin b)
  | 0, _ => []
  | width + 1, n => fixed b width (n / b) ++ [Fin.ofNat b n]

@[simp] theorem value_nil : value ([] : List (Fin b)) = 0 := rfl

theorem value_concat (digits : List (Fin b)) (d : Fin b) :
    value (digits ++ [d]) = b * value digits + d := by
  rw [value, List.reverse_append, List.reverse_singleton, List.singleton_append, List.map_cons,
    Nat.ofDigits_cons, ← value, Nat.add_comm]

variable [NeZero b]

@[simp] theorem length_fixed (width n : ℕ) : (fixed b width n).length = width := by
  induction width generalizing n with
  | zero => rfl
  | succ width ih => rw [fixed, List.length_append, ih, List.length_singleton]

theorem value_fixed (width n : ℕ) : value (fixed b width n) = n % b ^ width := by
  induction width generalizing n with
  | zero => rw [fixed, value_nil, Nat.pow_zero, Nat.mod_one]
  | succ width ih =>
    rw [fixed, value_concat, ih, Fin.val_ofNat, Nat.pow_succ', Nat.mod_mul]
    omega

/-- A number that fits is read back. -/
theorem value_fixed_of_lt {width n : ℕ} (h : n < b ^ width) : value (fixed b width n) = n := by
  rw [value_fixed, Nat.mod_eq_of_lt h]

end BigPlan.Lib.Digits

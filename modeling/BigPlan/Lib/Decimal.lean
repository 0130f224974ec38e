import BigPlan.Lib.Text
import Mathlib.Algebra.Group.Int.Defs

/-!
# Decimal numbers as Java reads them

`Long.parseLong` takes the decimal digits of every script, with a sign in front, and fails
outside of the longs. What prints a long is read back.
-/
namespace BigPlan.Lib.Decimal

/-- The zeros of the scripts whose digits are single characters of a Java string. -/
def zeros : List Nat :=
  [0x0030, 0x0660, 0x06F0, 0x07C0, 0x0966, 0x09E6, 0x0A66, 0x0AE6, 0x0B66, 0x0BE6, 0x0C66, 0x0CE6,
    0x0D66, 0x0E50, 0x0ED0, 0x0F20, 0x1040, 0x1090, 0x17E0, 0x1810, 0x1946, 0x19D0, 0x1A80, 0x1A90,
    0x1B50, 0x1BB0, 0x1C40, 0x1C50, 0xA620, 0xA8D0, 0xA900, 0xA9D0, 0xAA50, 0xABF0, 0xFF10]

/-- `Character.digit(c, 10)`, with `none` for -1. -/
def digit (c : Char) : Option Nat :=
  (zeros.find? fun z => z ≤ c.toNat && c.toNat < z + 10).map (c.toNat - ·)

/-- The value of a number without sign, which has at least one digit. -/
def magnitude (cs : List Char) : Option Nat :=
  if cs = [] then none else cs.foldlM (fun n c => (digit c).map fun d => 10 * n + d) 0

def signed : List Char → Option Int
  | '-' :: cs => (magnitude cs).map fun n : Nat => -(n : Int)
  | '+' :: cs => (magnitude cs).map fun n : Nat => (n : Int)
  | cs => (magnitude cs).map fun n : Nat => (n : Int)

/-- The value of a `Long`. -/
def IsLong (a : Int) : Prop := -2 ^ 63 ≤ a ∧ a < 2 ^ 63

instance (a : Int) : Decidable (IsLong a) := inferInstanceAs (Decidable (_ ∧ _))

/-- `Long.parseLong`, with `none` for the `NumberFormatException`. -/
def parseLong : Option String → Option Int
  | none => none
  | some s => (signed s.toList).filter fun a => IsLong a

theorem isLong_of_parseLong {s : Option String} {a : Int} (h : parseLong s = some a) :
    IsLong a := by
  cases s with
  | none => cases h
  | some s =>
    have hfilter := Option.filter_eq_some_iff.mp h
    simpa using hfilter.2

theorem digit_of_isDigit {c : Char} (h : c.isDigit) : digit c = some (c.toNat - '0'.toNat) := by
  have hrange := Char.isDigit_iff_toNat.mp h
  have hzero : '0'.toNat = 0x30 := rfl
  have hnine : '9'.toNat = 0x39 := rfl
  have hfind : (zeros.find? fun z => z ≤ c.toNat && c.toNat < z + 10) = some 0x30 := by
    rw [zeros, List.find?_cons_of_pos]
    simp
    omega
  rw [digit, hfind]
  rfl

theorem foldlM_digit {cs : List Char} (h : ∀ c ∈ cs, c.isDigit) (n : Nat) :
    cs.foldlM (fun n c => (digit c).map fun d => 10 * n + d) n =
      some (Nat.ofDigitChars 10 cs n) := by
  induction cs generalizing n with
  | nil => simp
  | cons c cs ih =>
    rw [List.foldlM_cons, digit_of_isDigit (h c List.mem_cons_self), Nat.ofDigitChars_cons]
    exact ih (fun c hc => h c (List.mem_cons_of_mem _ hc)) _

theorem magnitude_natRepr (n : Nat) : magnitude n.repr.toList = some n := by
  have hne : n.repr.toList ≠ [] := by
    intro hnil
    exact Nat.repr_ne_empty (String.toList_eq_nil_iff.mp hnil)
  rw [magnitude, if_neg hne, foldlM_digit fun c => Text.digit_of_mem_natRepr, Nat.toList_repr,
    Nat.ofDigitChars_ten_toDigits]

/-- A number without sign is read as it stands. -/
theorem signed_of_isDigit {cs : List Char} (h : ∀ c ∈ cs, c.isDigit) :
    signed cs = (magnitude cs).map fun n : Nat => (n : Int) := by
  unfold signed
  split
  · exact absurd (h '-' List.mem_cons_self) (by decide)
  · exact absurd (h '+' List.mem_cons_self) (by decide)
  · rfl

theorem signed_intRepr (a : Int) : signed a.repr.toList = some a := by
  rw [Int.repr_eq_if]
  split
  · rw [signed_of_isDigit fun c => Text.digit_of_mem_natRepr, magnitude_natRepr, Option.map_some,
      Option.some_inj]
    omega
  · rw [String.toList_append]
    change (magnitude (-a).toNat.repr.toList).map (fun n : Nat => -(n : Int)) = some a
    rw [magnitude_natRepr, Option.map_some, Option.some_inj]
    omega

/-- What prints a long is read back. -/
theorem parseLong_repr {a : Int} (h : IsLong a) : parseLong (some a.repr) = some a := by
  rw [parseLong, signed_intRepr, Option.filter_some, if_pos (by simpa using h)]

end BigPlan.Lib.Decimal

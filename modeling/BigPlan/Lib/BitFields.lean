import Mathlib.Data.Nat.Bitwise

/-!
# Adjacent bit fields

`join n hi lo` places `lo` in the low `n` bits and `hi` above it. Longer layouts
are nested joins. The lemmas read the fields back, order joined words
lexicographically and identify `join` with a shift followed by an or.
-/
namespace BigPlan.Lib.BitFields

def join (n hi lo : Nat) : Nat := hi * 2 ^ n + lo

theorem join_div {n hi lo : Nat} (h : lo < 2 ^ n) : join n hi lo / 2 ^ n = hi := by
  rw [join, Nat.add_comm, Nat.add_mul_div_right _ _ (Nat.two_pow_pos n), Nat.div_eq_of_lt h,
    Nat.zero_add]

theorem join_mod {n hi lo : Nat} (h : lo < 2 ^ n) : join n hi lo % 2 ^ n = lo := by
  rw [join, Nat.add_comm, Nat.add_mul_mod_self_right, Nat.mod_eq_of_lt h]

theorem join_lt {m n hi lo : Nat} (hhi : hi < 2 ^ m) (hlo : lo < 2 ^ n) :
    join n hi lo < 2 ^ (m + n) := by
  have h := Nat.mul_le_mul_right (2 ^ n) (Nat.succ_le_of_lt hhi)
  rw [Nat.succ_mul] at h
  rw [join, Nat.pow_add]
  omega

/-- Joined words are ordered by the high field first. -/
theorem join_lt_join {n hi lo hi' lo' : Nat} (hlo : lo < 2 ^ n) (hlo' : lo' < 2 ^ n) :
    join n hi lo < join n hi' lo' ↔ hi < hi' ∨ (hi = hi' ∧ lo < lo') := by
  rcases Nat.lt_trichotomy hi hi' with h | rfl | h
  · have hm := Nat.mul_le_mul_right (2 ^ n) (Nat.succ_le_of_lt h)
    rw [Nat.succ_mul] at hm
    have : join n hi lo < join n hi' lo' := by unfold join; omega
    exact ⟨fun _ => Or.inl h, fun _ => this⟩
  · unfold join
    omega
  · have hm := Nat.mul_le_mul_right (2 ^ n) (Nat.succ_le_of_lt h)
    rw [Nat.succ_mul] at hm
    unfold join
    omega

theorem join_inj {n hi lo hi' lo' : Nat} (hlo : lo < 2 ^ n) (hlo' : lo' < 2 ^ n) :
    join n hi lo = join n hi' lo' ↔ hi = hi' ∧ lo = lo' := by
  constructor
  · intro h
    have hd := congrArg (· / 2 ^ n) h
    have hm := congrArg (· % 2 ^ n) h
    simp only [join_div hlo, join_div hlo'] at hd
    simp only [join_mod hlo, join_mod hlo'] at hm
    exact ⟨hd, hm⟩
  · rintro ⟨rfl, rfl⟩
    rfl

/-- The same order for a high field that may be negative. -/
theorem int_join_lt_join {n lo lo' : Nat} (a b : Int) (hlo : lo < 2 ^ n) (hlo' : lo' < 2 ^ n) :
    a * (2 ^ n : Nat) + lo < b * (2 ^ n : Nat) + lo' ↔ a < b ∨ (a = b ∧ lo < lo') := by
  generalize 2 ^ n = N at *
  rcases Int.lt_trichotomy a b with h | rfl | h
  · have hm := Int.mul_le_mul_of_nonneg_right (Int.add_one_le_of_lt h) (Int.natCast_nonneg N)
    rw [Int.add_mul, Int.one_mul] at hm
    exact ⟨fun _ => Or.inl h, fun _ => by omega⟩
  · omega
  · have hm := Int.mul_le_mul_of_nonneg_right (Int.add_one_le_of_lt h) (Int.natCast_nonneg N)
    rw [Int.add_mul, Int.one_mul] at hm
    omega

theorem shiftLeft_or {n lo : Nat} (hi : Nat) (h : lo < 2 ^ n) :
    hi <<< n ||| lo = join n hi lo := by
  rw [← Nat.shiftLeft_add_eq_or_of_lt h, Nat.shiftLeft_eq, join]

theorem two_pow_split {n v : Nat} (h : n ≤ v) : 2 ^ v = 2 ^ (v - n) * 2 ^ n := by
  rw [← Nat.pow_add, Nat.sub_add_cancel h]

/-- Shifting a word left keeps its low bits; the or fills the freed field. -/
theorem toNat_shiftLeft_or {v n : Nat} (hn : n ≤ v) (x y : BitVec v) (hy : y.toNat < 2 ^ n) :
    (x <<< n ||| y).toNat = join n (x.toNat % 2 ^ (v - n)) y.toNat := by
  have hs : x.toNat <<< n % 2 ^ v = (x.toNat % 2 ^ (v - n)) <<< n := by
    rw [Nat.shiftLeft_eq, Nat.shiftLeft_eq, two_pow_split hn, Nat.mul_mod_mul_right]
  rw [BitVec.toNat_or, BitVec.toNat_shiftLeft, hs, shiftLeft_or _ hy]

/-- A left shift followed by an unsigned right shift cuts a field out of a word. -/
theorem toNat_cut {v : Nat} (x : BitVec v) {a b : Nat} (ha : a ≤ v) (hab : a ≤ b) :
    ((x <<< a) >>> b).toNat = x.toNat % 2 ^ (v - a) / 2 ^ (b - a) := by
  rw [BitVec.toNat_ushiftRight, BitVec.toNat_shiftLeft, Nat.shiftLeft_eq,
    Nat.shiftRight_eq_div_pow, two_pow_split ha, two_pow_split hab, Nat.mul_mod_mul_right,
    Nat.mul_div_mul_right _ _ (Nat.two_pow_pos a)]

end BigPlan.Lib.BitFields

import Mathlib.Data.Nat.Bitwise

/-!
# Java values

Machine integers are bit vectors with Java's shifts, which take the distance
modulo the width. Conversions between time units truncate toward zero. Strings are
compared by UTF-16 units, and decoding replaces malformed bytes.
-/
namespace BigPlan.Lib.Java

abbrev JInt := BitVec 32
abbrev JLong := BitVec 64

/-- `x << n` on longs. -/
def shl {w : Nat} (x : JLong) (n : BitVec w) : JLong := x <<< (n.toNat % 64)

/-- `x >>> n` on longs. -/
def ushr {w : Nat} (x : JLong) (n : BitVec w) : JLong := x >>> (n.toNat % 64)

/-- What an int keeps of a number. -/
def wrap (x : Int) : Int := x.bmod (2 ^ 32)

theorem wrap_of_int {x : Int} (hlo : -2 ^ 31 ≤ x) (hhi : x < 2 ^ 31) : wrap x = x :=
  Int.bmod_eq_of_le (by omega) (by omega)

theorem wrap_of_over {x : Int} (hlo : 2 ^ 31 ≤ x) (hhi : x < 2 ^ 32) : wrap x = x - 2 ^ 32 := by
  have hless : wrap x = wrap (x - 2 ^ 32) := by
    rw [wrap, wrap, ← Int.sub_bmod_right x (2 ^ 32)]
    rfl
  rw [hless, wrap_of_int (by omega) (by omega)]

/-- A count that does not pass the largest int. -/
theorem foldl_wrap_succ {α : Type} (l : List α) (n : Nat) (h : n + l.length < 2 ^ 31) :
    l.foldl (fun n _ => wrap (n + 1)) (n : Int) = (n + l.length : Nat) := by
  induction l generalizing n with
  | nil => rfl
  | cons a l ih =>
    rw [List.length_cons] at h ⊢
    have hwrap : wrap ((n : Int) + 1) = (n + 1 : Nat) := wrap_of_int (by omega) (by omega)
    rw [List.foldl_cons, hwrap, ih (n + 1) (by omega), Nat.add_assoc, Nat.add_comm 1]

/-- `TimeUnit.MILLISECONDS.toSeconds`. -/
def toSeconds (millis : JLong) : JLong := millis.sdiv 1000

/-- `Character.isWhitespace`: separators other than the non-breaking ones, and the
control characters that separate. -/
def isWhitespace (c : Char) : Bool :=
  let n := c.toNat
  (0x09 ≤ n && n ≤ 0x0D) || (0x1C ≤ n && n ≤ 0x20) || n == 0x1680 ||
    (0x2000 ≤ n && n ≤ 0x200A && n != 0x2007) || n == 0x2028 || n == 0x2029 || n == 0x205F ||
    n == 0x3000

/-- `StringUtils.isBlank`, with `none` for `null`. -/
def isBlank : Option String → Bool
  | none => true
  | some s => s.toList.all isWhitespace

@[simp] theorem isBlank_none : isBlank none = true := rfl

def isContinuation (b : UInt8) : Bool := b &&& 0xC0 == 0x80

/-- The code point of a lead byte's own bits and the continuation bytes after it. -/
def codePoint (lead : UInt8) (continuations : List UInt8) : Nat :=
  continuations.foldl (fun n b => n * 0x40 + (b &&& 0x3F).toNat) lead.toNat

/-- The second byte does not follow this lead byte of three. -/
def isMalformed3 (b1 b2 : UInt8) : Bool :=
  (b1 == 0xE0 && b2 < 0xA0) || !isContinuation b2

/-- The second byte does not follow this lead byte of four. -/
def isMalformed4 (b1 b2 : UInt8) : Bool :=
  (b1 == 0xF0 && b2 < 0x90) || (b1 == 0xF4 && b2 > 0x8F) || !isContinuation b2

def replacement : Char := Char.ofNat 0xFFFD

/-- The UTF-8 decoder of `new String(bytes, UTF_8)`: one replacement character for the
bytes of a sequence that fit together, and one for an encoded surrogate. -/
def decodeUtf8 : List UInt8 → List Char
  | [] => []
  | b1 :: bs =>
    if b1 < 0x80 then Char.ofNat b1.toNat :: decodeUtf8 bs
    else if 0xC2 ≤ b1 ∧ b1 ≤ 0xDF then
      match bs with
      | [] => [replacement]
      | b2 :: bs2 =>
        if isContinuation b2 then
          Char.ofNat (codePoint (b1 &&& 0x1F) [b2]) :: decodeUtf8 bs2
        else replacement :: decodeUtf8 (b2 :: bs2)
    else if 0xE0 ≤ b1 ∧ b1 ≤ 0xEF then
      match bs with
      | [] => [replacement]
      | b2 :: bs2 =>
        if isMalformed3 b1 b2 then replacement :: decodeUtf8 (b2 :: bs2)
        else
          match bs2 with
          | [] => [replacement]
          | b3 :: bs3 =>
            if isContinuation b3 then
              let c := codePoint (b1 &&& 0x0F) [b2, b3]
              (if c.isValidChar then Char.ofNat c else replacement) :: decodeUtf8 bs3
            else replacement :: decodeUtf8 (b3 :: bs3)
    else if 0xF0 ≤ b1 ∧ b1 ≤ 0xF4 then
      match bs with
      | [] => [replacement]
      | b2 :: bs2 =>
        if isMalformed4 b1 b2 then replacement :: decodeUtf8 (b2 :: bs2)
        else
          match bs2 with
          | [] => [replacement]
          | b3 :: bs3 =>
            if isContinuation b3 then
              match bs3 with
              | [] => [replacement]
              | b4 :: bs4 =>
                if isContinuation b4 then
                  Char.ofNat (codePoint (b1 &&& 0x07) [b2, b3, b4]) :: decodeUtf8 bs4
                else replacement :: decodeUtf8 (b4 :: bs4)
            else replacement :: decodeUtf8 (b3 :: bs3)
    else replacement :: decodeUtf8 bs

/-- `IStringUtils.newString`. -/
def newString (data : List UInt8) : String := String.ofList (decodeUtf8 data)

/-- `IStringUtils.getBytes`, with `none` for `null`. -/
def getBytes : Option String → List UInt8
  | none => []
  | some s => s.toList.flatMap String.utf8EncodeChar

def utf16Units (c : Char) : List Nat :=
  if c.toNat < 0x10000 then [c.toNat]
  else [0xD800 + (c.toNat - 0x10000) / 0x400, 0xDC00 + (c.toNat - 0x10000) % 0x400]

/-- `new String(bytes, UTF_8)` by its units. -/
def newUtf16 (bytes : List UInt8) : List (BitVec 16) :=
  (decodeUtf8 bytes).flatMap fun c => (utf16Units c).map (BitVec.ofNat 16)

/-- `a.compareTo(b) <= 0`. -/
def compareToLe (a b : String) : Prop :=
  List.le (a.toList.flatMap utf16Units) (b.toList.flatMap utf16Units)

instance : DecidableRel compareToLe := fun a b =>
  List.decidableLE (a.toList.flatMap utf16Units) (b.toList.flatMap utf16Units)

/-- What string concatenation makes of a reference. -/
def stringOf (s : Option String) : String := s.getD "null"

/-- `~(-1L << n)` has the low `n` bits set. -/
theorem toNat_lowMask {w : Nat} (n : BitVec w) :
    (~~~(shl (-1) n)).toNat = 2 ^ (n.toNat % 64) - 1 := by
  have hlt : n.toNat % 64 < 64 := Nat.mod_lt _ (by decide)
  generalize hm : n.toNat % 64 = m at hlt
  have hpos := Nat.two_pow_pos m
  have hle : 2 ^ m ≤ 2 ^ 64 := Nat.pow_le_pow_right (by decide) hlt.le
  have hones : (-1 : JLong).toNat = 2 ^ 64 - 1 := by decide
  have hbig : 2 ^ 64 ≤ 2 ^ m * 2 ^ 64 := Nat.le_mul_of_pos_left _ hpos
  have hs : (2 ^ 64 - 1) * 2 ^ m = 2 ^ 64 * (2 ^ m - 1) + (2 ^ 64 - 2 ^ m) := by
    rw [Nat.sub_mul, Nat.one_mul, Nat.mul_sub, Nat.mul_one, Nat.mul_comm (2 ^ 64)]
    omega
  rw [shl, hm, BitVec.toNat_not, BitVec.toNat_shiftLeft, Nat.shiftLeft_eq, hones, hs,
    Nat.mul_add_mod, Nat.mod_eq_of_lt (by omega)]
  omega

/-- Widening an int keeps its low bits, so it keeps the shift distance. -/
theorem toNat_signExtend_mod (x : JInt) : (x.signExtend 64).toNat % 64 = x.toNat % 64 := by
  have hx := x.isLt
  have hy := (x.signExtend 64).isLt
  have h : (x.signExtend 64).toInt = x.toInt := BitVec.toInt_signExtend_of_le (by decide)
  rw [BitVec.toInt_eq_toNat_cond, BitVec.toInt_eq_toNat_cond] at h
  split at h <;> split at h <;> omega

theorem toInt_of_lt {x : JLong} (h : x.toNat < 2 ^ 63) : x.toInt = x.toNat := by
  rw [BitVec.toInt_eq_toNat_cond, if_pos (by omega)]

theorem toInt_nonneg_iff {x : JLong} : 0 ≤ x.toInt ↔ x.toNat < 2 ^ 63 := by
  have := x.isLt
  rw [BitVec.toInt_eq_toNat_cond]
  split <;> omega

theorem toNat_eq_toInt {w : Nat} {x : BitVec w} (h : 0 ≤ x.toInt) :
    (x.toNat : Int) = x.toInt := by
  have hlt := x.isLt
  rw [BitVec.toInt_eq_toNat_cond] at h ⊢
  by_cases hsmall : 2 * x.toNat < 2 ^ w
  · rw [if_pos hsmall]
  · rw [if_neg hsmall] at h
    omega

theorem toSeconds_bounds (millis : JLong) :
    -2 ^ 54 < (toSeconds millis).toInt ∧ (toSeconds millis).toInt < 2 ^ 54 := by
  have hlo := BitVec.le_toInt millis
  have hhi := BitVec.toInt_lt (x := millis)
  have h1000 : (1000 : JLong).toInt = 1000 := by decide
  simp only [Nat.reduceSub] at hlo hhi
  have hdiv := Int.mul_tdiv_add_tmod millis.toInt 1000
  have hmod := Int.lt_tmod_of_pos millis.toInt (show (0 : Int) < 1000 by decide)
  have hmod' := Int.tmod_lt_of_pos millis.toInt (show (0 : Int) < 1000 by decide)
  rw [toSeconds, BitVec.toInt_sdiv, h1000, Int.bmod_eq_of_le] <;> omega

/-- A difference that fits the word is the integer difference. -/
theorem toInt_sub_of_fits {x y : JLong} (hlo : -2 ^ 63 ≤ x.toInt - y.toInt)
    (hhi : x.toInt - y.toInt < 2 ^ 63) : (x - y).toInt = x.toInt - y.toInt := by
  rw [BitVec.toInt_sub]
  exact Int.bmod_eq_of_le (by simpa using hlo) (by simpa using hhi)

theorem toInt_add_one {x : JLong} (h : x.toInt < 2 ^ 63 - 1) : (x + 1).toInt = x.toInt + 1 := by
  have hb := BitVec.le_toInt x
  have h1 : (1 : JLong).toInt = 1 := by decide
  rw [BitVec.toInt_add, h1]
  exact Int.bmod_eq_of_le (by simp at hb ⊢; omega) (by simp; omega)

end BigPlan.Lib.Java

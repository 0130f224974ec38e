import BigPlan.Jvm.ClassFile
import BigPlan.Lib.Fallible

/-!
# Reading the parts of a class file

Where the digits of a number stand, the number is read, as long as an int has room for it. From
this each parser reads the part that is its own.
-/
namespace BigPlan.Jvm

open Lib Lib.Java Lib.Cursor Format

/-! ## Numbers -/

@[simp] theorem length_hexOf {w : ℕ} (x : BitVec w) : (hexOf x).length = w / 4 :=
  Digits.length_fixed _ _

theorem value_hexOf {w : ℕ} (hw : 4 ∣ w) (x : BitVec w) : Digits.value (hexOf x) = x.toNat := by
  obtain ⟨k, rfl⟩ := hw
  refine Digits.value_fixed_of_lt ?_
  rw [Nat.mul_div_cancel_left k (by decide), show (16 : ℕ) = 2 ^ 4 from rfl, ← Nat.pow_mul]
  exact x.isLt

theorem hexOf_ne_nil {w : ℕ} (hw : 4 ≤ w) (x : BitVec w) : hexOf x ≠ [] := by
  rw [← List.length_pos_iff, length_hexOf]
  omega

theorem asInt_eq {w : ℕ} (x : BitVec w) : BitVec.ofNat 32 x.toNat = asInt x := BitVec.ofNat_toNat 32 x

/-- A number of less than 32 bits is read as it is. -/
theorem hexToInt_short {w : ℕ} (hw : 4 ∣ w) (hlo : 4 ≤ w) (hhi : w < 32) (x : BitVec w) :
    hexToInt (hexOf x) = some (asInt x) := by
  have hlt : x.toNat < 2 ^ 31 := x.isLt.trans_le (Nat.pow_le_pow_right (by decide) (by omega))
  rw [hexToInt, value_hexOf hw, if_pos ⟨hexOf_ne_nil hlo x, hlt⟩, asInt_eq]

theorem hexToInt_byte (x : BitVec 8) : hexToInt (hexOf x) = some (asInt x) :=
  hexToInt_short (by decide) (by decide) (by decide) x

theorem hexToInt_index (x : BitVec 16) : hexToInt (hexOf x) = some (asInt x) :=
  hexToInt_short (by decide) (by decide) (by decide) x

/-- With the sign bit the digits are those of a number that is too large. -/
theorem signed_hexOf {k : ℕ} (hw : 4 ∣ k + 1) (hlo : 4 ≤ k + 1) (x : BitVec (k + 1)) :
    (if hexOf x ≠ [] ∧ Digits.value (hexOf x) < 2 ^ k then
      some (BitVec.ofNat (k + 1) (Digits.value (hexOf x))) else none) =
      if x.msb then none else some x := by
  rw [value_hexOf hw, BitVec.ofNat_toNat, BitVec.setWidth_eq]
  have hmsb : x.msb = true ↔ 2 ^ k ≤ x.toNat := by
    rw [BitVec.msb_eq_decide, decide_eq_true_iff, Nat.add_sub_cancel]
  by_cases h : x.msb = true
  · rw [if_pos h, if_neg]
    intro hand
    have hge := hmsb.mp h
    omega
  · rw [if_neg h, if_pos ⟨hexOf_ne_nil hlo x, by rw [hmsb] at h; omega⟩]

theorem hexToInt_word (x : BitVec 32) : hexToInt (hexOf x) = if x.msb then none else some x :=
  signed_hexOf (by decide) (by decide) x

theorem hexToLong_word (x : BitVec 64) : hexToLong (hexOf x) = if x.msb then none else some x :=
  signed_hexOf (by decide) (by decide) x

theorem substring_hexOf {w n point : ℕ} {content : Hex} {x : BitVec w}
    (h : At content point (hexOf x)) (hn : w / 4 = n) :
    substring content point (point + n) = some (hexOf x) := by
  have hsubstring := h.substring_eq
  rwa [length_hexOf, hn] at hsubstring

/-- A loop up to a count that is read from 16 bits. -/
theorem turns_ofNat {n : ℕ} (h : n < 2 ^ 16) : turns (BitVec.ofNat 32 n) = n := by
  rw [turns, BitVec.toInt_eq_toNat_cond, BitVec.toNat_ofNat, Nat.mod_eq_of_lt (by omega),
    if_pos (by omega), Int.toNat_natCast]

theorem asInt_ofNat {n : ℕ} (h : n < 2 ^ 16) : asInt (BitVec.ofNat 16 n) = BitVec.ofNat 32 n := by
  rw [← asInt_eq, BitVec.toNat_ofNat, Nat.mod_eq_of_lt h]

theorem hexToInt_count {n : ℕ} (h : n < 2 ^ 16) :
    hexToInt (hexOfCount n) = some (BitVec.ofNat 32 n) := by
  rw [hexOfCount, hexToInt_index, asInt_ofNat h]

/-! ## Bytes -/

@[simp] theorem length_hexOfBytes (bytes : List UInt8) :
    (hexOfBytes bytes).length = bytes.length * 2 :=
  length_flatMap (fun _ => length_hexOf _) bytes

theorem bytesOfHex_hexOfBytes (bytes : List UInt8) :
    bytesOfHex (hexOfBytes bytes) bytes.length = some bytes := by
  have hread : ∀ byte : UInt8, byteOfHex (hexOf byte.toBitVec) = some (id byte) := by
    intro byte
    rw [byteOfHex, hexToInt_byte, Option.map_some, asInt, BitVec.toNat_setWidth_of_le (by decide),
      UInt8.toNat_toBitVec, UInt8.ofNat_toNat, id]
  have hcells := mapM_cells (fun byte : UInt8 => length_hexOf byte.toBitVec) hread bytes
  rw [List.map_id] at hcells
  exact hcells

/-! ## Flags -/

theorem checkAccessFlags_asInt (accessFlags : BitVec 16) :
    AccessFlag.checkAccessFlags (asInt accessFlags) = flagsOf accessFlags := by
  have hbit : ∀ i < 16, (asInt accessFlags &&& BitVec.twoPow 32 i == BitVec.twoPow 32 i) =
      accessFlags.getLsbD i := by
    intro i hi
    rw [BitVec.and_twoPow, asInt, BitVec.getLsbD_setWidth]
    have h32 : decide (i < 32) = true := decide_eq_true (by omega)
    have hne : (0#32 == BitVec.twoPow 32 i) = false := by
      interval_cases i <;> rfl
    rw [h32, Bool.true_and]
    cases accessFlags.getLsbD i with
    | true => rw [if_pos rfl, beq_self_eq_true]
    | false => rw [if_neg Bool.false_ne_true, hne]
  unfold AccessFlag.checkAccessFlags flagsOf
  apply List.filter_congr
  intro accessFlag _
  have hvalue : accessFlag.value = BitVec.twoPow 32 (flagBit accessFlag) := by
    cases accessFlag <;> rfl
  have hlt : flagBit accessFlag < 16 := by cases accessFlag <;> decide
  rw [hvalue, hbit _ hlt]

/-! ## Attributes, fields and methods -/

section Members

variable {content : Hex}

/-- An attribute that stands in a string is short enough for its length to be an int. -/
theorem reads_attribute (hcontent : content.length < 2 ^ 31) (a : Attribute)
    (acc : List AttributeInfo) :
    Reads content (attributeParser content) a.hex acc (some (acc ++ [a.parsed])) := by
  intro point hat
  obtain ⟨hname, hrest⟩ := at_append.mp hat
  obtain ⟨hlength, hinfo⟩ := at_append.mp hrest
  simp only [length_hexOf, Nat.reduceDiv] at hlength hinfo
  have hshort := hinfo.length_le
  rw [length_hexOfBytes] at hshort
  have hmsb : (BitVec.ofNat 32 a.info.length).msb = false := by
    rw [BitVec.msb_eq_decide, BitVec.toNat_ofNat, decide_eq_false_iff_not,
      Nat.mod_eq_of_lt (by omega)]
    omega
  have htoNat : (BitVec.ofNat 32 a.info.length).toNat = a.info.length := by
    rw [BitVec.toNat_ofNat, Nat.mod_eq_of_lt (by omega)]
  have hinfoHex := hinfo.substring_eq
  rw [length_hexOfBytes] at hinfoHex
  simp only [attributeParser, substring_hexOf hname rfl, substring_hexOf hlength rfl,
    hexToInt_index, hexToInt_word, hmsb, htoNat, hinfoHex, Option.bind_eq_bind, Option.bind_some,
    Bool.false_eq_true, if_false, Option.pure_def, Option.map_some, Option.some_inj,
    Prod.mk.injEq, Attribute.parsed, and_true]
  rw [Attribute.hex, List.length_append, List.length_append, length_hexOf, length_hexOf,
    length_hexOfBytes]
  omega

theorem reads_attributes (hcontent : content.length < 2 ^ 31) (as : List Attribute) :
    Reads content (times (attributeParser content) as.length) (as.flatMap Attribute.hex) []
      (some (as.map Attribute.parsed)) :=
  Reads.collect (fun a _ acc => reads_attribute hcontent a acc) []

theorem reads_member (hcontent : content.length < 2 ^ 31) (m : Member) (acc : List MemberInfo) :
    Reads content (memberParser content) m.hex acc (some (acc ++ [m.parsed])) := by
  intro point hat
  obtain ⟨hflags, hrest⟩ := at_append.mp hat
  obtain ⟨hname, hrest⟩ := at_append.mp hrest
  obtain ⟨hdescriptor, hrest⟩ := at_append.mp hrest
  obtain ⟨hcount, hattributes⟩ := at_append.mp hrest
  rw [hexOfCount] at hcount hattributes
  simp only [length_hexOf, Nat.reduceDiv] at hname hdescriptor hcount hattributes
  have hread := reads_attributes hcontent m.attributes _ hattributes
  simp only [memberParser, substring_hexOf hflags rfl, substring_hexOf hname rfl,
    substring_hexOf hdescriptor rfl, substring_hexOf hcount rfl, hexToInt_index,
    asInt_ofNat m.attributes_lt, turns_ofNat m.attributes_lt, hread, checkAccessFlags_asInt,
    Option.bind_eq_bind, Option.bind_some, Option.pure_def, Option.map_some, Option.some_inj,
    Prod.mk.injEq, Member.parsed, and_true]
  rw [Member.hex, hexOfCount]
  simp only [List.length_append, length_hexOf]
  omega

theorem reads_members (hcontent : content.length < 2 ^ 31) (ms : List Member) :
    Reads content (times (memberParser content) ms.length) (ms.flatMap Member.hex) []
      (some (ms.map Member.parsed)) :=
  Reads.collect (fun m _ acc => reads_member hcontent m acc) []

/-! ## Compositions -/

/-- A composition of two bytes that sets a number. -/
theorem reads_number (set : ByteCode → JInt → ByteCode) {composition : ByteCodeComposition}
    (hdigits : composition.digits = 4) (x : BitVec 16) (byteCode : ByteCode) :
    Reads content (numberParser set composition content) (hexOf x) byteCode
      (some (set byteCode (asInt x))) := by
  intro point hat
  simp only [numberParser, readData, hdigits, substring_hexOf hat rfl, hexToInt_index,
    Option.bind_eq_bind, Option.bind_some, Option.map_some, Option.pure_def, length_hexOf,
    Nat.reduceDiv]

theorem reads_count (set : ByteCode → JInt → ByteCode) {composition : ByteCodeComposition}
    (hdigits : composition.digits = 4) {n : ℕ} (hn : n < 2 ^ 16) (byteCode : ByteCode) :
    Reads content (numberParser set composition content) (hexOfCount n) byteCode
      (some (set byteCode (BitVec.ofNat 32 n))) := by
  rw [← asInt_ofNat hn]
  exact reads_number set hdigits _ byteCode

end Members

end BigPlan.Jvm

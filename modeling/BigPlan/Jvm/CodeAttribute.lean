import BigPlan.Jvm.Parts

/-!
# The code attribute

`CODE_PRINTER` takes the digits of a code attribute apart. It ends the exception table after two
digits for each entry, where an entry has sixteen, and does not move on behind the table, so it is
right for the code that has no exception handlers, and for no other.
-/
namespace BigPlan.Jvm

open Lib Lib.Java Lib.Cursor Format

/-! ## `CODE_PRINTER` -/

/-- What the walk prints, and the list of attributes that it builds. -/
structure CodeAttributeInfo where
  maxStacks : JInt
  maxLocals : JInt
  codeLength : JInt
  codeHex : Hex
  exceptionTableLength : JInt
  exceptionTablesHex : Hex
  attributesCount : JInt
  attributeInfos : List AttributeInfo
  deriving DecidableEq, Repr

/-- Up to the loop that prints the attributes by their own printers. -/
def codePrinter (hexString : Hex) : Option CodeAttributeInfo := do
  let point := 0
  let maxStacksHex ← substring hexString point (point + 4)
  let point := point + 4
  let maxStacks ← hexToInt maxStacksHex
  let maxLocalsHex ← substring hexString point (point + 4)
  let point := point + 4
  let maxLocals ← hexToInt maxLocalsHex
  let codeLengthHex ← substring hexString point (point + 8)
  let point := point + 8
  let codeLength ← hexToInt codeLengthHex
  let codeHex ← substring hexString point (point + codeLength.toNat * 2)
  let point := point + codeLength.toNat * 2
  let exceptionTableLengthHex ← substring hexString point (point + 4)
  let point := point + 4
  let exceptionTableLength ← hexToInt exceptionTableLengthHex
  -- the point stays in front of the table
  let exceptionTablesHex ← substring hexString point (point + exceptionTableLength.toNat * 2)
  let attributesCountHex ← substring hexString point (point + 4)
  let point := point + 4
  let attributesCount ← hexToInt attributesCountHex
  let attributesHex ← substring hexString point hexString.length
  let (_, attributeInfos) ←
    times (attributeParser attributesHex) (turns attributesCount) 0 []
  return ⟨maxStacks, maxLocals, codeLength, codeHex, exceptionTableLength, exceptionTablesHex,
    attributesCount, attributeInfos⟩

/-! ## The format -/

namespace Format

structure ExceptionEntry where
  startPc : BitVec 16
  endPc : BitVec 16
  handlerPc : BitVec 16
  catchType : BitVec 16
  deriving DecidableEq, Repr

def ExceptionEntry.hex (e : ExceptionEntry) : Hex :=
  hexOf e.startPc ++ (hexOf e.endPc ++ (hexOf e.handlerPc ++ hexOf e.catchType))

/-- The body of a code attribute. -/
structure Code where
  maxStack : BitVec 16
  maxLocals : BitVec 16
  code : List UInt8
  exceptionTable : List ExceptionEntry
  attributes : List Attribute
  code_lt : code.length < 2 ^ 31
  exceptionTable_lt : exceptionTable.length < 2 ^ 16
  attributes_lt : attributes.length < 2 ^ 16
  deriving Repr

namespace Code

/-- What stands in front of the exception table. -/
def headHex (c : Code) : Hex :=
  hexOf c.maxStack ++ (hexOf c.maxLocals ++ (hexOf (BitVec.ofNat 32 c.code.length) ++
    (hexOfBytes c.code ++ hexOfCount c.exceptionTable.length)))

def tableHex (c : Code) : Hex := c.exceptionTable.flatMap ExceptionEntry.hex

def attributesHex (c : Code) : Hex := c.attributes.flatMap Attribute.hex

def hex (c : Code) : Hex :=
  c.headHex ++ (c.tableHex ++ (hexOfCount c.attributes.length ++ c.attributesHex))

/-- The walk ends with the code, the exception table and the attributes of the body. -/
def Decoded (c : Code) : Prop :=
  ∃ printed, codePrinter c.hex = some printed ∧ printed.codeHex = hexOfBytes c.code ∧
    printed.exceptionTablesHex = c.tableHex ∧
    printed.attributeInfos = c.attributes.map Attribute.parsed

end Code

end Format

/-! ## In front of the table -/

theorem Format.ExceptionEntry.length_hex (e : ExceptionEntry) : e.hex.length = 16 := by
  simp only [hex, List.length_append, length_hexOf]

namespace Format.Code

variable (c : Code)

@[simp] theorem length_headHex : c.headHex.length = 20 + c.code.length * 2 := by
  simp only [headHex, hexOfCount, List.length_append, length_hexOf, length_hexOfBytes]
  omega

@[simp] theorem length_tableHex : c.tableHex.length = c.exceptionTable.length * 16 :=
  length_flatMap ExceptionEntry.length_hex _

theorem toNat_codeLength : (BitVec.ofNat 32 c.code.length).toNat = c.code.length := by
  have hlt := c.code_lt
  rw [BitVec.toNat_ofNat, Nat.mod_eq_of_lt (by omega)]

theorem hexToInt_codeLength :
    hexToInt (hexOf (BitVec.ofNat 32 c.code.length)) = some (BitVec.ofNat 32 c.code.length) := by
  have hmsb : (BitVec.ofNat 32 c.code.length).msb = false := by
    rw [BitVec.msb_eq_decide, toNat_codeLength, decide_eq_false_iff_not]
    exact Nat.not_le.mpr c.code_lt
  rw [hexToInt_word, hmsb, if_neg Bool.false_ne_true]

/-- What is left of the walk in front of the table. -/
def printedBehindHead (point : ℕ) : Option CodeAttributeInfo := do
  let exceptionTablesHex ← substring c.hex point (point + c.exceptionTable.length * 2)
  let attributesCountHex ← substring c.hex point (point + 4)
  let attributesCount ← hexToInt attributesCountHex
  let attributesHex ← substring c.hex (point + 4) c.hex.length
  let (_, attributeInfos) ←
    times (attributeParser attributesHex) (turns attributesCount) 0 []
  return ⟨asInt c.maxStack, asInt c.maxLocals, BitVec.ofNat 32 c.code.length, hexOfBytes c.code,
    BitVec.ofNat 32 c.exceptionTable.length, exceptionTablesHex, attributesCount, attributeInfos⟩

theorem toNat_exceptionTableLength :
    (BitVec.ofNat 32 c.exceptionTable.length).toNat = c.exceptionTable.length := by
  have hlt := c.exceptionTable_lt
  rw [BitVec.toNat_ofNat, Nat.mod_eq_of_lt (by omega)]

/-- The walk reads what is in front of the table as it is encoded. -/
theorem codePrinter_hex : codePrinter c.hex = c.printedBehindHead c.headHex.length := by
  have hat : At c.hex 0 c.hex := at_whole _
  obtain ⟨hhead, -⟩ := at_append.mp hat
  obtain ⟨hstack, hhead⟩ := at_append.mp hhead
  obtain ⟨hlocals, hhead⟩ := at_append.mp hhead
  obtain ⟨hlength, hhead⟩ := at_append.mp hhead
  obtain ⟨hcode, hcount⟩ := at_append.mp hhead
  rw [hexOfCount] at hcount
  simp only [length_hexOf, length_hexOfBytes, Nat.reduceDiv] at hlocals hlength hcode hcount
  have hcodeHex := hcode.substring_eq
  rw [length_hexOfBytes] at hcodeHex
  have hpoint : 0 + 4 + 4 + 8 + c.code.length * 2 + 4 = c.headHex.length := by
    rw [length_headHex]
    omega
  have hcountHex := substring_hexOf hcount rfl
  rw [hpoint] at hcountHex
  simp only [codePrinter, substring_hexOf hstack rfl, substring_hexOf hlocals rfl,
    substring_hexOf hlength rfl, hexToInt_index, hexToInt_codeLength, toNat_codeLength, hcodeHex,
    hpoint, hcountHex, asInt_ofNat c.exceptionTable_lt, toNat_exceptionTableLength,
    Option.bind_eq_bind, Option.bind_some, Option.pure_def, printedBehindHead]

/-! ## The table and the attributes -/

theorem length_hex :
    c.hex.length = c.headHex.length + c.exceptionTable.length * 16 + 4 +
      c.attributesHex.length := by
  rw [hex, hexOfCount, List.length_append, List.length_append, List.length_append,
    length_tableHex, length_hexOf]
  omega

/-- Without entries the count of the attributes stands where the table would. -/
theorem decoded_of_empty (hstring : c.hex.length < 2 ^ 31) (hempty : c.exceptionTable = []) :
    c.Decoded := by
  have hat : At c.hex 0 c.hex := at_whole _
  obtain ⟨-, hrest⟩ := at_append.mp hat
  obtain ⟨htable, hrest⟩ := at_append.mp hrest
  obtain ⟨hcount, hattributes⟩ := at_append.mp hrest
  rw [hexOfCount] at hcount hattributes
  have hnone : c.tableHex = [] := by rw [tableHex, hempty, List.flatMap_nil]
  simp only [hnone, List.length_nil, Nat.zero_add, Nat.add_zero, length_hexOf,
    Nat.reduceDiv] at htable hcount hattributes
  have htableHex : substring c.hex c.headHex.length
      (c.headHex.length + c.exceptionTable.length * 2) = some [] := by
    rw [hempty]
    exact htable.substring_eq
  have hend : c.headHex.length + 4 + c.attributesHex.length = c.hex.length := by
    rw [length_hex, hempty, List.length_nil, Nat.zero_mul, Nat.add_zero]
  have hattributesHex := hattributes.substring_eq
  rw [hend] at hattributesHex
  have hshort : c.attributesHex.length < 2 ^ 31 := by
    rw [length_hex] at hstring
    omega
  have hread := reads_attributes hshort c.attributes 0 (at_whole _)
  rw [← attributesHex] at hread
  refine ⟨⟨asInt c.maxStack, asInt c.maxLocals, BitVec.ofNat 32 c.code.length, hexOfBytes c.code,
    BitVec.ofNat 32 c.exceptionTable.length, [], BitVec.ofNat 32 c.attributes.length,
    c.attributes.map Attribute.parsed⟩, ?_, rfl, hnone.symm, rfl⟩
  rw [codePrinter_hex]
  simp only [printedBehindHead, htableHex, substring_hexOf hcount rfl, hexToInt_index,
    asInt_ofNat c.attributes_lt, turns_ofNat c.attributes_lt, hattributesHex, hread,
    Option.map_some, Option.bind_eq_bind, Option.bind_some, Option.pure_def]

/-- The slice that is printed for the table has two digits for each of the entries. -/
theorem length_exceptionTablesHex {printed : CodeAttributeInfo}
    (h : codePrinter c.hex = some printed) :
    printed.exceptionTablesHex.length = c.exceptionTable.length * 2 := by
  rw [codePrinter_hex] at h
  simp only [printedBehindHead, Option.bind_eq_bind, Option.bind_eq_some_iff, Option.pure_def,
    Option.some.injEq] at h
  obtain ⟨exceptionTablesHex, hslice, _, _, _, _, _, _, _, _, rfl⟩ := h
  rw [length_substring hslice, Nat.add_sub_cancel_left]

theorem empty_of_decoded (h : c.Decoded) : c.exceptionTable = [] := by
  obtain ⟨printed, hprinted, -, htable, -⟩ := h
  have hlength := c.length_exceptionTablesHex hprinted
  rw [htable, length_tableHex] at hlength
  exact List.eq_nil_of_length_eq_zero (by omega)

/-- A body that a string has room for is decoded if and only if it has no exception handlers. -/
theorem decoded_iff (hstring : c.hex.length < 2 ^ 31) : c.Decoded ↔ c.exceptionTable = [] :=
  ⟨c.empty_of_decoded, c.decoded_of_empty hstring⟩

/-- `return`, in a method with these exception handlers and a table of line numbers. -/
def returning (exceptionTable : List ExceptionEntry) (h : exceptionTable.length < 2 ^ 16) :
    Code where
  maxStack := 0
  maxLocals := 1
  code := [0xB1]
  exceptionTable := exceptionTable
  attributes := [⟨7, [0, 1, 0, 0, 0, 3], by decide⟩]
  code_lt := by decide
  exceptionTable_lt := h
  attributes_lt := by decide

theorem decoded_iff_returning :
    (returning [] (by decide)).hex.length < 2 ^ 31 ∧ (returning [] (by decide)).Decoded :=
  ⟨by decide +kernel, (decoded_iff (returning [] (by decide)) (by decide +kernel)).mpr rfl⟩

theorem not_decoded : ¬ ∀ c : Code, c.hex.length < 2 ^ 31 → c.Decoded := by
  intro h
  have hdecoded := h (returning [⟨0, 1, 1, 0⟩] (by decide)) (by decide +kernel)
  have hempty := empty_of_decoded _ hdecoded
  cases hempty

end Format.Code

end BigPlan.Jvm

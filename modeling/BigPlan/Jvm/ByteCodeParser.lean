import BigPlan.Lib.Cursor
import BigPlan.Lib.Digits
import BigPlan.Lib.Java
import Std.Data.HashMap.Lemmas

/-!
# The byte code parser

A class file is read as the string of its hex digits. The composition parsers read one part
after the other, each from the point where the one before has ended, and fill in the byte code.
Whatever throws ends the parse.
-/
namespace BigPlan.Jvm

open Lib Lib.Java Lib.Cursor

/-- The string of hex digits that `BigInteger.toString(16)` writes, by the digits' values. -/
abbrev Hex := List (Fin 16)

/-- A string of Java by its UTF-16 units. -/
abbrev JString := List (BitVec 16)

/-! ## `Utils` -/

/-- `Integer.valueOf(hex, 16)`, which takes no number from 2^31 on. -/
def hexToInt (hex : Hex) : Option JInt :=
  if hex ≠ [] ∧ Digits.value hex < 2 ^ 31 then some (BitVec.ofNat 32 (Digits.value hex)) else none

/-- `Long.valueOf(hex, 16)`, which takes no number from 2^63 on. -/
def hexToLong (hex : Hex) : Option JLong :=
  if hex ≠ [] ∧ Digits.value hex < 2 ^ 63 then some (BitVec.ofNat 64 (Digits.value hex)) else none

/-- The consumer may throw. An end past the range of the ints is negative in the source, which
throws just as an end past the content does. -/
def readData {σ : Type} (content : Hex) (count point : ℕ) (hexConsumer : Hex → Option σ) :
    Option (ℕ × σ) := do
  let newPoint := point + count
  let hexString ← substring content point newPoint
  let s ← hexConsumer hexString
  return (newPoint, s)

/-! ## What is parsed -/

inductive AccessFlag where
  | ACC_PUBLIC
  | ACC_PRIVATE
  | ACC_PROTECTED
  | ACC_STATIC
  | ACC_FINAL
  | ACC_SUPER
  | ACC_VOLATILE
  | ACC_TRANSIENT
  | ACC_INTERFACE
  | ACC_ABSTRACT
  | ACC_SYNTHETIC
  | ACC_ANNOTATION
  | ACC_ENUM
  deriving DecidableEq, Repr

namespace AccessFlag

def values : List AccessFlag :=
  [ACC_PUBLIC, ACC_PRIVATE, ACC_PROTECTED, ACC_STATIC, ACC_FINAL, ACC_SUPER, ACC_VOLATILE,
    ACC_TRANSIENT, ACC_INTERFACE, ACC_ABSTRACT, ACC_SYNTHETIC, ACC_ANNOTATION, ACC_ENUM]

def value : AccessFlag → JInt
  | ACC_PUBLIC => 0x0001
  | ACC_PRIVATE => 0x0002
  | ACC_PROTECTED => 0x0004
  | ACC_STATIC => 0x0008
  | ACC_FINAL => 0x0010
  | ACC_SUPER => 0x0020
  | ACC_VOLATILE => 0x0040
  | ACC_TRANSIENT => 0x0080
  | ACC_INTERFACE => 0x0200
  | ACC_ABSTRACT => 0x0400
  | ACC_SYNTHETIC => 0x1000
  | ACC_ANNOTATION => 0x2000
  | ACC_ENUM => 0x4000

def checkAccessFlags (accessFlags : JInt) : List AccessFlag :=
  values.filter fun accessFlag => accessFlags &&& accessFlag.value == accessFlag.value

end AccessFlag

inductive CpTag where
  | CONSTANT_UTF8_INFO
  | CONSTANT_INTEGER_INFO
  | CONSTANT_FLOAT_INFO
  | CONSTANT_LONG_INFO
  | CONSTANT_DOUBLE_INFO
  | CONSTANT_CLASS_INFO
  | CONSTANT_STRING_INFO
  | CONSTANT_FILED_REF_INFO
  | CONSTANT_METHOD_REF_INFO
  | CONSTANT_INTERFACE_METHOD_REF_INFO
  | CONSTANT_NAME_AND_TYPE_INFO
  | CONSTANT_METHOD_HANDLE_INFO
  | CONSTANT_METHOD_TYPE_INFO
  | CONSTANT_INVOKE_DYNAMIC_INFO
  | UNKNOWN
  deriving DecidableEq, Repr

namespace CpTag

def values : List CpTag :=
  [CONSTANT_UTF8_INFO, CONSTANT_INTEGER_INFO, CONSTANT_FLOAT_INFO, CONSTANT_LONG_INFO,
    CONSTANT_DOUBLE_INFO, CONSTANT_CLASS_INFO, CONSTANT_STRING_INFO, CONSTANT_FILED_REF_INFO,
    CONSTANT_METHOD_REF_INFO, CONSTANT_INTERFACE_METHOD_REF_INFO, CONSTANT_NAME_AND_TYPE_INFO,
    CONSTANT_METHOD_HANDLE_INFO, CONSTANT_METHOD_TYPE_INFO, CONSTANT_INVOKE_DYNAMIC_INFO, UNKNOWN]

def value : CpTag → JInt
  | CONSTANT_UTF8_INFO => 1
  | CONSTANT_INTEGER_INFO => 3
  | CONSTANT_FLOAT_INFO => 4
  | CONSTANT_LONG_INFO => 5
  | CONSTANT_DOUBLE_INFO => 6
  | CONSTANT_CLASS_INFO => 7
  | CONSTANT_STRING_INFO => 8
  | CONSTANT_FILED_REF_INFO => 9
  | CONSTANT_METHOD_REF_INFO => 10
  | CONSTANT_INTERFACE_METHOD_REF_INFO => 11
  | CONSTANT_NAME_AND_TYPE_INFO => 12
  | CONSTANT_METHOD_HANDLE_INFO => 15
  | CONSTANT_METHOD_TYPE_INFO => 16
  | CONSTANT_INVOKE_DYNAMIC_INFO => 18
  | UNKNOWN => 99

def bytesNumber : CpTag → ℕ
  | CONSTANT_UTF8_INFO => 2
  | CONSTANT_INTEGER_INFO => 4
  | CONSTANT_FLOAT_INFO => 4
  | CONSTANT_LONG_INFO => 8
  | CONSTANT_DOUBLE_INFO => 8
  | CONSTANT_CLASS_INFO => 2
  | CONSTANT_STRING_INFO => 2
  | CONSTANT_FILED_REF_INFO => 4
  | CONSTANT_METHOD_REF_INFO => 4
  | CONSTANT_INTERFACE_METHOD_REF_INFO => 4
  | CONSTANT_NAME_AND_TYPE_INFO => 4
  | CONSTANT_METHOD_HANDLE_INFO => 3
  | CONSTANT_METHOD_TYPE_INFO => 2
  | CONSTANT_INVOKE_DYNAMIC_INFO => 4
  | UNKNOWN => 0

/-- `CpTag.valueOf(int)`. -/
def valueOf (value : JInt) : CpTag :=
  (values.find? fun tag => tag.value == value).getD UNKNOWN

end CpTag

/-- The value of a `ValueConstantItem`: floating point numbers by their bits. -/
inductive ConstantValue where
  | null
  | utf8 (text : JString)
  | integer (value : JInt)
  | float (bits : JInt)
  | long (value : JLong)
  | double (bits : JLong)
  deriving DecidableEq, Repr

inductive ConstantItem where
  | value (tag : CpTag) (value : ConstantValue)
  | index (tag : CpTag) (indexes : List JInt)
  | methodHandle (tag : CpTag) (referenceKind referenceIndex : JInt)
  deriving DecidableEq, Repr

structure AttributeInfo where
  attributeNameIndex : JInt
  attributeLength : JInt
  info : Hex
  deriving DecidableEq, Repr

/-- `FieldInfo` and `MethodInfo` have the same parts. -/
structure MemberInfo where
  accessFlags : List AccessFlag
  nameIndex : JInt
  descriptorIndex : JInt
  attributesCount : JInt
  attributes : List AttributeInfo
  deriving DecidableEq, Repr

abbrev FieldInfo := MemberInfo

abbrev MethodInfo := MemberInfo

/-- What has not been parsed yet is `null`. -/
structure ByteCode where
  magicNumber : Option Hex := none
  minorVersion : Option JInt := none
  majorVersion : Option JInt := none
  constantPoolCount : Option JInt := none
  constantPool : Option (Std.HashMap ℕ ConstantItem) := none
  accessFlags : Option (List AccessFlag) := none
  thisClass : Option JInt := none
  superClass : Option JInt := none
  interfacesCount : Option JInt := none
  interfaces : Option (List JInt) := none
  fieldsCount : Option JInt := none
  fields : Option (List FieldInfo) := none
  methodsCount : Option JInt := none
  methods : Option (List MethodInfo) := none
  attributesCount : Option JInt := none
  attributes : Option (List AttributeInfo) := none

/-! ## `ConstantInfoParserImpls` -/

/-- `pool.put(pool.size() + 1, item)`. -/
def putNext (pool : Std.HashMap ℕ ConstantItem) (item : ConstantItem) :
    Std.HashMap ℕ ConstantItem :=
  pool.insert (pool.size + 1) item

def ByteCode.putConstant (byteCode : ByteCode) (item : ConstantItem) : Option ByteCode :=
  byteCode.constantPool.map fun pool =>
    { byteCode with constantPool := some (putNext pool item) }

abbrev ConstantInfoParser := CpTag → ℕ → Hex → ByteCode → Option (ℕ × ByteCode)

/-- `Integer.valueOf(Utils.hexToInt(single)).byteValue()`. -/
def byteOfHex (single : Hex) : Option UInt8 :=
  (hexToInt single).map fun value => UInt8.ofNat value.toNat

/-- The loop over the digits of a string, two for each byte. -/
def bytesOfHex (infoHex : Hex) (length : ℕ) : Option (List UInt8) :=
  (List.range length).mapM fun i => do
    let single ← substring infoHex (i * 2) (i * 2 + 2)
    byteOfHex single

/-- The switch over the tag: the point behind the value, and the value. -/
def constantValue (cpTag : CpTag) (valueHex : Hex) (point : ℕ) (context : Hex) :
    Option (ℕ × ConstantValue) :=
  match cpTag with
  | .CONSTANT_INTEGER_INFO => (hexToInt valueHex).map fun value => (point, .integer value)
  | .CONSTANT_FLOAT_INFO => (hexToInt valueHex).map fun bits => (point, .float bits)
  | .CONSTANT_LONG_INFO => (hexToLong valueHex).map fun value => (point, .long value)
  | .CONSTANT_DOUBLE_INFO => (hexToLong valueHex).map fun bits => (point, .double bits)
  | .CONSTANT_UTF8_INFO => do
    let length ← hexToInt valueHex
    let infoHex ← substring context point (point + length.toNat * 2)
    let point := point + length.toNat * 2
    let bytes ← bytesOfHex infoHex length.toNat
    return (point, .utf8 (newUtf16 bytes))
  | _ => some (point, .null)

def valueConstantInfoParse : ConstantInfoParser := fun cpTag point context byteCode => do
  let valueHex ← substring context point (point + cpTag.bytesNumber * 2)
  let point := point + cpTag.bytesNumber * 2
  let (point, value) ← constantValue cpTag valueHex point context
  let byteCode ← byteCode.putConstant (.value cpTag value)
  return (point, byteCode)

def indexConstantInfoParser : ConstantInfoParser := fun cpTag point context byteCode => do
  let valueHex ← substring context point (point + cpTag.bytesNumber * 2)
  let point := point + cpTag.bytesNumber * 2
  let indexCount := valueHex.length / 4
  let indexes ← (List.range indexCount).mapM fun i => do
    let indexHex ← substring valueHex (i * 4) (i * 4 + 4)
    hexToInt indexHex
  let byteCode ← byteCode.putConstant (.index cpTag indexes)
  return (point, byteCode)

def methodHandleConstantInfoParser : ConstantInfoParser := fun cpTag point context byteCode => do
  let valueHex ← substring context point (point + cpTag.bytesNumber * 2)
  let point := point + cpTag.bytesNumber * 2
  let referenceKindHex ← substring valueHex 0 2
  let referenceIndexHex ← substring valueHex 2 valueHex.length
  let referenceKind ← hexToInt referenceKindHex
  let referenceIndex ← hexToInt referenceIndexHex
  let byteCode ← byteCode.putConstant (.methodHandle cpTag referenceKind referenceIndex)
  return (point, byteCode)

/-- The parser that stands beside the tag, with `none` for `null`. -/
def CpTag.constantInfoParser : CpTag → Option ConstantInfoParser
  | .CONSTANT_UTF8_INFO | .CONSTANT_INTEGER_INFO | .CONSTANT_FLOAT_INFO | .CONSTANT_LONG_INFO
  | .CONSTANT_DOUBLE_INFO => some valueConstantInfoParse
  | .CONSTANT_CLASS_INFO | .CONSTANT_STRING_INFO | .CONSTANT_FILED_REF_INFO
  | .CONSTANT_METHOD_REF_INFO | .CONSTANT_INTERFACE_METHOD_REF_INFO | .CONSTANT_NAME_AND_TYPE_INFO
  | .CONSTANT_METHOD_TYPE_INFO | .CONSTANT_INVOKE_DYNAMIC_INFO => some indexConstantInfoParser
  | .CONSTANT_METHOD_HANDLE_INFO => some methodHandleConstantInfoParser
  | .UNKNOWN => none

def CpTag.parsing (cpTag : CpTag) (point : ℕ) (context : Hex) (byteCode : ByteCode) :
    Option (ℕ × ByteCode) := do
  let parser ← cpTag.constantInfoParser
  parser cpTag point context byteCode

/-! ## `ByteCodeCompositionParserImpls` -/

inductive ByteCodeComposition where
  | MAGIC_NUMBER
  | MINOR_VERSION
  | MAJOR_VERSION
  | CONSTANT_POOL_COUNT
  | CONSTANT_POOL
  | ACCESS_FLAGS
  | THIS_CLASS
  | SUPER_CLASS
  | INTERFACES_COUNT
  | INTERFACES
  | FIELDS_COUNT
  | FIELDS
  | METHODS_COUNT
  | METHODS
  | ATTRIBUTES_COUNT
  | ATTRIBUTES
  deriving DecidableEq, Repr

namespace ByteCodeComposition

def values : List ByteCodeComposition :=
  [MAGIC_NUMBER, MINOR_VERSION, MAJOR_VERSION, CONSTANT_POOL_COUNT, CONSTANT_POOL, ACCESS_FLAGS,
    THIS_CLASS, SUPER_CLASS, INTERFACES_COUNT, INTERFACES, FIELDS_COUNT, FIELDS, METHODS_COUNT,
    METHODS, ATTRIBUTES_COUNT, ATTRIBUTES]

/-- In bytes, with -1 where the length is not fixed. -/
def length : ByteCodeComposition → Int
  | MAGIC_NUMBER => 4
  | MINOR_VERSION => 2
  | MAJOR_VERSION => 2
  | CONSTANT_POOL_COUNT => 2
  | CONSTANT_POOL => -1
  | ACCESS_FLAGS => 2
  | THIS_CLASS => 2
  | SUPER_CLASS => 2
  | INTERFACES_COUNT => 2
  | INTERFACES => 2
  | FIELDS_COUNT => 2
  | FIELDS => -1
  | METHODS_COUNT => 2
  | METHODS => -1
  | ATTRIBUTES_COUNT => 2
  | ATTRIBUTES => -1

/-- `composition.getLength() * 2`. -/
def digits (composition : ByteCodeComposition) : ℕ := (composition.length * 2).toNat

end ByteCodeComposition

/-- How often a loop from 0 below the count runs. -/
def turns (count : JInt) : ℕ := count.toInt.toNat

abbrev ByteCodeCompositionParser :=
  ByteCodeComposition → Hex → ℕ → ByteCode → Option (ℕ × ByteCode)

/-- `Utils.readData` with a consumer that sets a number. -/
def numberParser (set : ByteCode → JInt → ByteCode) : ByteCodeCompositionParser :=
  fun composition content point byteCode =>
    readData content composition.digits point fun hex => (hexToInt hex).map (set byteCode)

/-- A loop up to a count, which sets what it has collected. -/
def loopParser {τ : Type} (count : ByteCode → Option JInt)
    (turn : Hex → ℕ → List τ → Option (ℕ × List τ)) (set : ByteCode → List τ → ByteCode)
    (content : Hex) (point : ℕ) (byteCode : ByteCode) : Option (ℕ × ByteCode) := do
  let n ← count byteCode
  let (point, elements) ← times (turn content) (turns n) point []
  return (point, set byteCode elements)

def magicNumberParser : ByteCodeCompositionParser := fun composition content point byteCode =>
  readData content composition.digits point fun magicNumber =>
    some { byteCode with magicNumber := some magicNumber }

def minorVersionParser : ByteCodeCompositionParser :=
  numberParser fun byteCode minorVersion => { byteCode with minorVersion := some minorVersion }

def majorVersionParser : ByteCodeCompositionParser :=
  numberParser fun byteCode majorVersion => { byteCode with majorVersion := some majorVersion }

def constantPoolCountParser : ByteCodeCompositionParser :=
  numberParser fun byteCode constantPoolCount =>
    { byteCode with constantPoolCount := some constantPoolCount }

/-- One turn of the loop of `CONSTANT_POOL_PARSER`. -/
def constantParser (content : Hex) (point : ℕ) (byteCode : ByteCode) : Option (ℕ × ByteCode) := do
  let tagHex ← substring content point (point + 2)
  let point := point + 2
  let tag ← hexToInt tagHex
  (CpTag.valueOf tag).parsing point content byteCode

def constantPoolParser : ByteCodeCompositionParser := fun _ content point byteCode => do
  let constantPoolCount ← byteCode.constantPoolCount
  let byteCode := { byteCode with constantPool := some ∅ }
  let constantPoolRealCount := constantPoolCount - 1
  times (constantParser content) (turns constantPoolRealCount) point byteCode

def accessFlagsParser : ByteCodeCompositionParser :=
  numberParser fun byteCode accessFlags =>
    { byteCode with accessFlags := some (AccessFlag.checkAccessFlags accessFlags) }

def thisClassParser : ByteCodeCompositionParser :=
  numberParser fun byteCode thisClass => { byteCode with thisClass := some thisClass }

def superClassParser : ByteCodeCompositionParser :=
  numberParser fun byteCode superClass => { byteCode with superClass := some superClass }

def interfacesCountParser : ByteCodeCompositionParser :=
  numberParser fun byteCode interfacesCount =>
    { byteCode with interfacesCount := some interfacesCount }

/-- One turn of the loop of `INTERFACES_PARSER`. -/
def interfaceParser (composition : ByteCodeComposition) (content : Hex) (point : ℕ)
    (interfaces : List JInt) : Option (ℕ × List JInt) :=
  readData content composition.digits point fun interfaceIndexHex =>
    (hexToInt interfaceIndexHex).map fun index => interfaces ++ [index]

def interfacesParser : ByteCodeCompositionParser := fun composition =>
  loopParser ByteCode.interfacesCount (interfaceParser composition) fun byteCode interfaces =>
    { byteCode with interfaces := some interfaces }

def fieldsCountParser : ByteCodeCompositionParser :=
  numberParser fun byteCode fieldsCount => { byteCode with fieldsCount := some fieldsCount }

/-- One turn of the loops over attributes. -/
def attributeParser (content : Hex) (point : ℕ) (attributes : List AttributeInfo) :
    Option (ℕ × List AttributeInfo) := do
  let attributeNameIndexHex ← substring content point (point + 4)
  let point := point + 4
  let attributeNameIndex ← hexToInt attributeNameIndexHex
  let attributeLengthHex ← substring content point (point + 8)
  let point := point + 8
  let attributeLength ← hexToInt attributeLengthHex
  let infoHex ← substring content point (point + attributeLength.toNat * 2)
  let point := point + attributeLength.toNat * 2
  return (point, attributes ++ [⟨attributeNameIndex, attributeLength, infoHex⟩])

/-- One turn of the loops of `FIELDS_PARSER` and `METHODS_PARSER`. -/
def memberParser (content : Hex) (point : ℕ) (members : List MemberInfo) :
    Option (ℕ × List MemberInfo) := do
  let accessFlagsHex ← substring content point (point + 4)
  let point := point + 4
  let accessFlags ← hexToInt accessFlagsHex
  let nameIndexHex ← substring content point (point + 4)
  let point := point + 4
  let nameIndex ← hexToInt nameIndexHex
  let descriptorIndexHex ← substring content point (point + 4)
  let point := point + 4
  let descriptorIndex ← hexToInt descriptorIndexHex
  let attributesCountHex ← substring content point (point + 4)
  let point := point + 4
  let attributesCount ← hexToInt attributesCountHex
  let (point, attributes) ← times (attributeParser content) (turns attributesCount) point []
  return (point, members ++ [⟨AccessFlag.checkAccessFlags accessFlags, nameIndex, descriptorIndex,
    attributesCount, attributes⟩])

def fieldsParser : ByteCodeCompositionParser := fun _ =>
  loopParser ByteCode.fieldsCount memberParser fun byteCode fields =>
    { byteCode with fields := some fields }

def methodsCountParser : ByteCodeCompositionParser :=
  numberParser fun byteCode methodsCount => { byteCode with methodsCount := some methodsCount }

def methodsParser : ByteCodeCompositionParser := fun _ =>
  loopParser ByteCode.methodsCount memberParser fun byteCode methods =>
    { byteCode with methods := some methods }

def attributesCountParser : ByteCodeCompositionParser :=
  numberParser fun byteCode attributesCount =>
    { byteCode with attributesCount := some attributesCount }

def attributesParser : ByteCodeCompositionParser := fun _ =>
  loopParser ByteCode.attributesCount attributeParser fun byteCode attributes =>
    { byteCode with attributes := some attributes }

namespace ByteCodeComposition

def parser : ByteCodeComposition → ByteCodeCompositionParser
  | MAGIC_NUMBER => magicNumberParser
  | MINOR_VERSION => minorVersionParser
  | MAJOR_VERSION => majorVersionParser
  | CONSTANT_POOL_COUNT => constantPoolCountParser
  | CONSTANT_POOL => constantPoolParser
  | ACCESS_FLAGS => accessFlagsParser
  | THIS_CLASS => thisClassParser
  | SUPER_CLASS => superClassParser
  | INTERFACES_COUNT => interfacesCountParser
  | INTERFACES => interfacesParser
  | FIELDS_COUNT => fieldsCountParser
  | FIELDS => fieldsParser
  | METHODS_COUNT => methodsCountParser
  | METHODS => methodsParser
  | ATTRIBUTES_COUNT => attributesCountParser
  | ATTRIBUTES => attributesParser

def parsing (composition : ByteCodeComposition) (content : Hex) (point : ℕ)
    (byteCode : ByteCode) : Option (ℕ × ByteCode) :=
  composition.parser composition content point byteCode

end ByteCodeComposition

/-- The compositions in order, from a point on. -/
def parseAll (content : Hex) (compositions : List ByteCodeComposition) (point : ℕ)
    (byteCode : ByteCode) : Option (ℕ × ByteCode) :=
  compositions.foldlM (fun (point, byteCode) composition =>
    composition.parsing content point byteCode) (point, byteCode)

/-- `MyByteCodeParser.parse` behind the reading of the file: where it ends, and the byte
code. -/
def parse (content : Hex) : Option (ℕ × ByteCode) :=
  parseAll content ByteCodeComposition.values 0 {}

end BigPlan.Jvm

import BigPlan.Jvm.ByteCodeParser
import BigPlan.Lib.ModifiedUtf8

/-!
# The class file format

The parts of a class file, the digits that encode them, and what a byte code has to hold of
them. Numbers are unsigned, and their high digits come first.
-/
namespace BigPlan.Jvm

open Lib Lib.Java

/-- The digits of a number of so many bits. -/
def hexOf {w : ℕ} (x : BitVec w) : Hex := Digits.fixed 16 (w / 4) x.toNat

def hexOfBytes (bytes : List UInt8) : Hex := bytes.flatMap fun byte => hexOf byte.toBitVec

def hexOfCount (n : ℕ) : Hex := hexOf (BitVec.ofNat 16 n)

/-- An unsigned number as an int. -/
def asInt {w : ℕ} (x : BitVec w) : JInt := x.setWidth 32

namespace Format

/-! ## Attributes, fields and methods -/

structure Attribute where
  nameIndex : BitVec 16
  info : List UInt8
  info_lt : info.length < 2 ^ 32
  deriving DecidableEq, Repr

namespace Attribute

def hex (a : Attribute) : Hex :=
  hexOf a.nameIndex ++ (hexOf (BitVec.ofNat 32 a.info.length) ++ hexOfBytes a.info)

def parsed (a : Attribute) : AttributeInfo :=
  ⟨asInt a.nameIndex, BitVec.ofNat 32 a.info.length, hexOfBytes a.info⟩

end Attribute

/-- The bit of a flag. -/
def flagBit : AccessFlag → ℕ
  | .ACC_PUBLIC => 0
  | .ACC_PRIVATE => 1
  | .ACC_PROTECTED => 2
  | .ACC_STATIC => 3
  | .ACC_FINAL => 4
  | .ACC_SUPER => 5
  | .ACC_VOLATILE => 6
  | .ACC_TRANSIENT => 7
  | .ACC_INTERFACE => 9
  | .ACC_ABSTRACT => 10
  | .ACC_SYNTHETIC => 12
  | .ACC_ANNOTATION => 13
  | .ACC_ENUM => 14

def flagsOf (accessFlags : BitVec 16) : List AccessFlag :=
  AccessFlag.values.filter fun accessFlag => accessFlags.getLsbD (flagBit accessFlag)

/-- A field or a method. -/
structure Member where
  accessFlags : BitVec 16
  nameIndex : BitVec 16
  descriptorIndex : BitVec 16
  attributes : List Attribute
  attributes_lt : attributes.length < 2 ^ 16
  deriving DecidableEq, Repr

namespace Member

def hex (m : Member) : Hex :=
  hexOf m.accessFlags ++ (hexOf m.nameIndex ++ (hexOf m.descriptorIndex ++
    (hexOfCount m.attributes.length ++ m.attributes.flatMap Attribute.hex)))

def parsed (m : Member) : MemberInfo where
  accessFlags := flagsOf m.accessFlags
  nameIndex := asInt m.nameIndex
  descriptorIndex := asInt m.descriptorIndex
  attributesCount := BitVec.ofNat 32 m.attributes.length
  attributes := m.attributes.map Attribute.parsed

end Member

/-! ## Constants -/

/-- Strings are in modified UTF-8, and floating point numbers are given by their bits. -/
inductive Constant where
  | utf8 (units : JString) (bytes_lt : (ModifiedUtf8.encode units).length < 2 ^ 16)
  | integer (bits : BitVec 32)
  | float (bits : BitVec 32)
  | long (bits : BitVec 64)
  | double (bits : BitVec 64)
  | classInfo (nameIndex : BitVec 16)
  | string (stringIndex : BitVec 16)
  | fieldref (classIndex nameAndTypeIndex : BitVec 16)
  | methodref (classIndex nameAndTypeIndex : BitVec 16)
  | interfaceMethodref (classIndex nameAndTypeIndex : BitVec 16)
  | nameAndType (nameIndex descriptorIndex : BitVec 16)
  | methodHandle (referenceKind : BitVec 8) (referenceIndex : BitVec 16)
  | methodType (descriptorIndex : BitVec 16)
  | invokeDynamic (bootstrapMethodAttrIndex nameAndTypeIndex : BitVec 16)
  deriving DecidableEq, Repr

namespace Constant

def tag : Constant → BitVec 8
  | utf8 _ _ => 1
  | integer _ => 3
  | float _ => 4
  | long _ => 5
  | double _ => 6
  | classInfo _ => 7
  | string _ => 8
  | fieldref _ _ => 9
  | methodref _ _ => 10
  | interfaceMethodref _ _ => 11
  | nameAndType _ _ => 12
  | methodHandle _ _ => 15
  | methodType _ => 16
  | invokeDynamic _ _ => 18

def cpTag : Constant → CpTag
  | utf8 _ _ => .CONSTANT_UTF8_INFO
  | integer _ => .CONSTANT_INTEGER_INFO
  | float _ => .CONSTANT_FLOAT_INFO
  | long _ => .CONSTANT_LONG_INFO
  | double _ => .CONSTANT_DOUBLE_INFO
  | classInfo _ => .CONSTANT_CLASS_INFO
  | string _ => .CONSTANT_STRING_INFO
  | fieldref _ _ => .CONSTANT_FILED_REF_INFO
  | methodref _ _ => .CONSTANT_METHOD_REF_INFO
  | interfaceMethodref _ _ => .CONSTANT_INTERFACE_METHOD_REF_INFO
  | nameAndType _ _ => .CONSTANT_NAME_AND_TYPE_INFO
  | methodHandle _ _ => .CONSTANT_METHOD_HANDLE_INFO
  | methodType _ => .CONSTANT_METHOD_TYPE_INFO
  | invokeDynamic _ _ => .CONSTANT_INVOKE_DYNAMIC_INFO

/-- The indexes that most of the constants consist of. -/
def indexes : Constant → List (BitVec 16)
  | classInfo i | string i | methodType i => [i]
  | fieldref i j | methodref i j | interfaceMethodref i j | nameAndType i j | invokeDynamic i j =>
    [i, j]
  | utf8 _ _ | integer _ | float _ | long _ | double _ | methodHandle _ _ => []

def body : Constant → Hex
  | utf8 units _ =>
    hexOfCount (ModifiedUtf8.encode units).length ++ hexOfBytes (ModifiedUtf8.encode units)
  | integer bits | float bits => hexOf bits
  | long bits | double bits => hexOf bits
  | methodHandle kind i => hexOf kind ++ hexOf i
  | c => c.indexes.flatMap hexOf

def hex (c : Constant) : Hex := hexOf c.tag ++ c.body

/-- What a parser has to find. -/
def item (c : Constant) : ConstantItem :=
  match c with
  | utf8 units _ => .value c.cpTag (.utf8 units)
  | integer bits => .value c.cpTag (.integer bits)
  | float bits => .value c.cpTag (.float bits)
  | long bits => .value c.cpTag (.long bits)
  | double bits => .value c.cpTag (.double bits)
  | methodHandle kind i => .methodHandle c.cpTag (asInt kind) (asInt i)
  | _ => .index c.cpTag (c.indexes.map asInt)

/-- The indexes that a constant occupies: two of them for a long or double one, and none is to
be found under the second. -/
def entries (c : Constant) : List (Option Constant) :=
  match c with
  | long _ | double _ => [some c, none]
  | _ => [some c]

end Constant

end Format

/-! ## Class files -/

open Format

/-- The entry under 0 is not used. -/
def constantTable (constants : List Constant) : List (Option Constant) :=
  none :: constants.flatMap Constant.entries

structure ClassFile where
  minorVersion : BitVec 16
  majorVersion : BitVec 16
  constants : List Constant
  accessFlags : BitVec 16
  thisClass : BitVec 16
  superClass : BitVec 16
  interfaces : List (BitVec 16)
  fields : List Member
  methods : List Member
  attributes : List Attribute
  constants_lt : (constantTable constants).length < 2 ^ 16
  interfaces_lt : interfaces.length < 2 ^ 16
  fields_lt : fields.length < 2 ^ 16
  methods_lt : methods.length < 2 ^ 16
  attributes_lt : attributes.length < 2 ^ 16
  deriving DecidableEq, Repr

namespace ClassFile

def magic : BitVec 32 := 0xCAFEBABE

/-- The constant that is encoded at the index. -/
def constantAt (f : ClassFile) (i : ℕ) : Option Constant := (constantTable f.constants)[i]?.join

def headHex (f : ClassFile) : Hex :=
  hexOf magic ++ (hexOf f.minorVersion ++ (hexOf f.majorVersion ++
    hexOfCount (constantTable f.constants).length))

def tailHex (f : ClassFile) : Hex :=
  hexOf f.accessFlags ++ (hexOf f.thisClass ++ (hexOf f.superClass ++
    (hexOfCount f.interfaces.length ++ (f.interfaces.flatMap hexOf ++
    (hexOfCount f.fields.length ++ (f.fields.flatMap Member.hex ++
    (hexOfCount f.methods.length ++ (f.methods.flatMap Member.hex ++
    (hexOfCount f.attributes.length ++ f.attributes.flatMap Attribute.hex)))))))))

/-- The class file as a string of hex digits. -/
def hex (f : ClassFile) : Hex :=
  f.headHex ++ (f.constants.flatMap Constant.hex ++ f.tailHex)

/-- The byte code holds what the class file encodes. -/
structure Yields (f : ClassFile) (byteCode : ByteCode) : Prop where
  magicNumber : byteCode.magicNumber = some (hexOf magic)
  minorVersion : byteCode.minorVersion = some (asInt f.minorVersion)
  majorVersion : byteCode.majorVersion = some (asInt f.majorVersion)
  constantPoolCount :
    byteCode.constantPoolCount = some (BitVec.ofNat 32 (constantTable f.constants).length)
  constantPool : ∃ pool, byteCode.constantPool = some pool ∧
    ∀ i : ℕ, pool[i]? = (f.constantAt i).map Constant.item
  accessFlags : byteCode.accessFlags = some (flagsOf f.accessFlags)
  thisClass : byteCode.thisClass = some (asInt f.thisClass)
  superClass : byteCode.superClass = some (asInt f.superClass)
  interfacesCount : byteCode.interfacesCount = some (BitVec.ofNat 32 f.interfaces.length)
  interfaces : byteCode.interfaces = some (f.interfaces.map asInt)
  fieldsCount : byteCode.fieldsCount = some (BitVec.ofNat 32 f.fields.length)
  fields : byteCode.fields = some (f.fields.map Member.parsed)
  methodsCount : byteCode.methodsCount = some (BitVec.ofNat 32 f.methods.length)
  methods : byteCode.methods = some (f.methods.map Member.parsed)
  attributesCount : byteCode.attributesCount = some (BitVec.ofNat 32 f.attributes.length)
  attributes : byteCode.attributes = some (f.attributes.map Attribute.parsed)

/-- Parsing succeeds, ends at the end of the string, and yields what is encoded. -/
def Parsed (f : ClassFile) : Prop :=
  ∃ byteCode, parse f.hex = some (f.hex.length, byteCode) ∧ f.Yields byteCode

end ClassFile

end BigPlan.Jvm

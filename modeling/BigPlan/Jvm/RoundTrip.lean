import BigPlan.Jvm.ConstantPool

/-!
# From the class file to the byte code

The compositions in front of the constant pool and behind it are read as they are encoded. The
pool is read as it is encoded if each constant is, and occupies one index: the loop counts the
constants, and the count of the class file counts the indexes.
-/
namespace BigPlan.Jvm

open Lib Lib.Java Lib.Cursor Format

/-! ## One composition after the other -/

section ParseAll

variable {content piece rest : Hex} {point point' : ℕ} {byteCode byteCode' : ByteCode}
  {composition : ByteCodeComposition} {compositions : List ByteCodeComposition}
  {r : Option ByteCode}

theorem parseAll_append (first second : List ByteCodeComposition) (point : ℕ)
    (byteCode : ByteCode) :
    parseAll content (first ++ second) point byteCode =
      (parseAll content first point byteCode).bind fun t => parseAll content second t.1 t.2 :=
  List.foldlM_append

theorem reads_cons (hfirst : Reads content (composition.parsing content) piece byteCode
      (some byteCode'))
    (hrest : Reads content (parseAll content compositions) rest byteCode' r) :
    Reads content (parseAll content (composition :: compositions)) (piece ++ rest) byteCode r := by
  intro point hat
  obtain ⟨hpiece, hat'⟩ := at_append.mp hat
  have hstep := hfirst point hpiece
  rw [Option.map_some] at hstep
  have hlater := hrest _ hat'
  unfold parseAll at hlater ⊢
  rw [List.foldlM_cons]
  simp only [hstep, Option.bind_eq_bind, Option.bind_some, hlater, List.length_append,
    Nat.add_assoc]

theorem reads_last (hlast : Reads content (composition.parsing content) piece byteCode r) :
    Reads content (parseAll content [composition]) piece byteCode r := by
  intro point hat
  unfold parseAll
  rw [List.foldlM_cons]
  simp only [hlast point hat, List.foldlM_nil, bind_pure]

end ParseAll

/-! ## In front of the pool and behind it -/

def headCompositions : List ByteCodeComposition :=
  [.MAGIC_NUMBER, .MINOR_VERSION, .MAJOR_VERSION, .CONSTANT_POOL_COUNT]

def tailCompositions : List ByteCodeComposition :=
  [.ACCESS_FLAGS, .THIS_CLASS, .SUPER_CLASS, .INTERFACES_COUNT, .INTERFACES, .FIELDS_COUNT,
    .FIELDS, .METHODS_COUNT, .METHODS, .ATTRIBUTES_COUNT, .ATTRIBUTES]

theorem values_eq : ByteCodeComposition.values =
    headCompositions ++ (.CONSTANT_POOL :: tailCompositions) := rfl

namespace ClassFile

variable (f : ClassFile)

/-- The byte code in front of the pool. -/
def head : ByteCode where
  magicNumber := some (hexOf magic)
  minorVersion := some (asInt f.minorVersion)
  majorVersion := some (asInt f.majorVersion)
  constantPoolCount := some (BitVec.ofNat 32 (constantTable f.constants).length)

/-- What the compositions behind the pool set. -/
def withTail (byteCode : ByteCode) : ByteCode :=
  { byteCode with
    accessFlags := some (flagsOf f.accessFlags)
    thisClass := some (asInt f.thisClass)
    superClass := some (asInt f.superClass)
    interfacesCount := some (BitVec.ofNat 32 f.interfaces.length)
    interfaces := some (f.interfaces.map asInt)
    fieldsCount := some (BitVec.ofNat 32 f.fields.length)
    fields := some (f.fields.map Member.parsed)
    methodsCount := some (BitVec.ofNat 32 f.methods.length)
    methods := some (f.methods.map Member.parsed)
    attributesCount := some (BitVec.ofNat 32 f.attributes.length)
    attributes := some (f.attributes.map Attribute.parsed) }

end ClassFile

section Reads

variable {content : Hex} {byteCode : ByteCode}

theorem reads_magicNumber (x : BitVec 32) :
    Reads content (magicNumberParser .MAGIC_NUMBER content) (hexOf x) byteCode
      (some { byteCode with magicNumber := some (hexOf x) }) := by
  intro point hat
  have hdigits : ByteCodeComposition.MAGIC_NUMBER.digits = 8 := rfl
  simp only [magicNumberParser, readData, hdigits, substring_hexOf hat rfl, Option.bind_eq_bind,
    Option.bind_some, Option.map_some, Option.pure_def, length_hexOf, Nat.reduceDiv]

theorem reads_head (f : ClassFile) :
    Reads content (parseAll content headCompositions) f.headHex {} (some f.head) := by
  refine reads_cons (reads_magicNumber _) ?_
  refine reads_cons (reads_number _ rfl _ _) ?_
  refine reads_cons (reads_number _ rfl _ _) ?_
  exact reads_last (reads_count _ rfl f.constants_lt _)

/-- A loop reads what its turns read, if the count says how many there are. -/
theorem reads_loop {τ : Type} {count : ByteCode → Option JInt}
    {turn : Hex → ℕ → List τ → Option (ℕ × List τ)} {set : ByteCode → List τ → ByteCode}
    {piece : Hex} {elements : List τ} {n : ℕ} (hn : n < 2 ^ 16)
    (hcount : count byteCode = some (BitVec.ofNat 32 n))
    (hturns : Reads content (times (turn content) n) piece [] (some elements)) :
    Reads content (loopParser count turn set content) piece byteCode
      (some (set byteCode elements)) := by
  intro point hat
  simp only [loopParser, hcount, turns_ofNat hn, hturns point hat, Option.bind_eq_bind,
    Option.bind_some, Option.map_some, Option.pure_def]

theorem reads_interface (x : BitVec 16) (interfaces : List JInt) :
    Reads content (interfaceParser .INTERFACES content) (hexOf x) interfaces
      (some (interfaces ++ [asInt x])) := by
  intro point hat
  have hdigits : ByteCodeComposition.INTERFACES.digits = 4 := rfl
  simp only [interfaceParser, readData, hdigits, substring_hexOf hat rfl, hexToInt_index,
    Option.bind_eq_bind, Option.bind_some, Option.map_some, Option.pure_def, length_hexOf,
    Nat.reduceDiv]

theorem reads_interfaces {l : List (BitVec 16)} (hl : l.length < 2 ^ 16)
    (hcount : byteCode.interfacesCount = some (BitVec.ofNat 32 l.length)) :
    Reads content (interfacesParser .INTERFACES content) (l.flatMap hexOf) byteCode
      (some { byteCode with interfaces := some (l.map asInt) }) := by
  have hturns : Reads content (times (interfaceParser .INTERFACES content) l.length)
      (l.flatMap hexOf) [] (some (l.map asInt)) :=
    Reads.collect (fun x _ interfaces => reads_interface x interfaces) []
  exact reads_loop hl hcount hturns

theorem reads_fields (hcontent : content.length < 2 ^ 31) {l : List Member}
    (hl : l.length < 2 ^ 16) (hcount : byteCode.fieldsCount = some (BitVec.ofNat 32 l.length)) :
    Reads content (fieldsParser .FIELDS content) (l.flatMap Member.hex) byteCode
      (some { byteCode with fields := some (l.map Member.parsed) }) :=
  reads_loop hl hcount (reads_members hcontent l)

theorem reads_methods (hcontent : content.length < 2 ^ 31) {l : List Member}
    (hl : l.length < 2 ^ 16) (hcount : byteCode.methodsCount = some (BitVec.ofNat 32 l.length)) :
    Reads content (methodsParser .METHODS content) (l.flatMap Member.hex) byteCode
      (some { byteCode with methods := some (l.map Member.parsed) }) :=
  reads_loop hl hcount (reads_members hcontent l)

theorem reads_classAttributes (hcontent : content.length < 2 ^ 31) {l : List Attribute}
    (hl : l.length < 2 ^ 16)
    (hcount : byteCode.attributesCount = some (BitVec.ofNat 32 l.length)) :
    Reads content (attributesParser .ATTRIBUTES content) (l.flatMap Attribute.hex) byteCode
      (some { byteCode with attributes := some (l.map Attribute.parsed) }) :=
  reads_loop hl hcount (reads_attributes hcontent l)

theorem reads_tail (hcontent : content.length < 2 ^ 31) (f : ClassFile) (byteCode : ByteCode) :
    Reads content (parseAll content tailCompositions) f.tailHex byteCode
      (some (f.withTail byteCode)) := by
  unfold ClassFile.withTail
  rw [← checkAccessFlags_asInt]
  refine reads_cons (reads_number _ rfl _ _) ?_
  refine reads_cons (reads_number _ rfl _ _) ?_
  refine reads_cons (reads_number _ rfl _ _) ?_
  refine reads_cons (reads_count _ rfl f.interfaces_lt _) ?_
  refine reads_cons (reads_interfaces f.interfaces_lt rfl) ?_
  refine reads_cons (reads_count _ rfl f.fields_lt _) ?_
  refine reads_cons (reads_fields hcontent f.fields_lt rfl) ?_
  refine reads_cons (reads_count _ rfl f.methods_lt _) ?_
  refine reads_cons (reads_methods hcontent f.methods_lt rfl) ?_
  refine reads_cons (reads_count _ rfl f.attributes_lt _) ?_
  exact reads_last (reads_classAttributes hcontent f.attributes_lt rfl)

end Reads

/-! ## The pool stays as it is -/

section Frame

variable {content : Hex} {point point' : ℕ} {byteCode byteCode' : ByteCode}

theorem constantPool_number {set : ByteCode → JInt → ByteCode} {composition : ByteCodeComposition}
    (h : numberParser set composition content point byteCode = some (point', byteCode'))
    (hset : ∀ byteCode value, (set byteCode value).constantPool = byteCode.constantPool) :
    byteCode'.constantPool = byteCode.constantPool := by
  simp only [numberParser, readData, Option.bind_eq_bind, Option.bind_eq_some_iff,
    Option.map_eq_some_iff, Option.pure_def, Option.some.injEq, Prod.mk.injEq] at h
  obtain ⟨_, _, _, ⟨value, _, rfl⟩, _, rfl⟩ := h
  exact hset _ _

theorem constantPool_loop {τ : Type} {count : ByteCode → Option JInt}
    {turn : Hex → ℕ → List τ → Option (ℕ × List τ)} {set : ByteCode → List τ → ByteCode}
    (h : loopParser count turn set content point byteCode = some (point', byteCode'))
    (hset : ∀ elements, (set byteCode elements).constantPool = byteCode.constantPool) :
    byteCode'.constantPool = byteCode.constantPool := by
  simp only [loopParser, Option.bind_eq_bind, Option.bind_eq_some_iff, Option.pure_def,
    Option.some.injEq, Prod.mk.injEq] at h
  obtain ⟨_, _, _, _, _, rfl⟩ := h
  exact hset _

/-- Behind the pool no parser touches it, whatever it reads. -/
theorem constantPool_parsing {composition : ByteCodeComposition}
    (hmem : composition ∈ tailCompositions)
    (h : composition.parsing content point byteCode = some (point', byteCode')) :
    byteCode'.constantPool = byteCode.constantPool := by
  cases composition with
  | ACCESS_FLAGS | THIS_CLASS | SUPER_CLASS | INTERFACES_COUNT | FIELDS_COUNT | METHODS_COUNT
  | ATTRIBUTES_COUNT =>
    rw [ByteCodeComposition.parsing, ByteCodeComposition.parser] at h
    exact constantPool_number h fun _ _ => rfl
  | INTERFACES | FIELDS | METHODS | ATTRIBUTES =>
    rw [ByteCodeComposition.parsing, ByteCodeComposition.parser] at h
    exact constantPool_loop h fun _ => rfl
  | MAGIC_NUMBER | MINOR_VERSION | MAJOR_VERSION | CONSTANT_POOL_COUNT | CONSTANT_POOL =>
    exact absurd hmem (by decide)

theorem constantPool_parseAll {compositions : List ByteCodeComposition}
    (hmem : ∀ composition ∈ compositions, composition ∈ tailCompositions)
    (h : parseAll content compositions point byteCode = some (point', byteCode')) :
    byteCode'.constantPool = byteCode.constantPool := by
  induction compositions generalizing point byteCode with
  | nil =>
    cases h
    rfl
  | cons composition compositions ih =>
    rw [parseAll, List.foldlM_cons, Option.bind_eq_bind, Option.bind_eq_some_iff] at h
    obtain ⟨⟨point₁, byteCode₁⟩, hfirst, hrest⟩ := h
    have hlater := ih (fun c hc => hmem c (List.mem_cons_of_mem _ hc)) hrest
    rw [hlater]
    exact constantPool_parsing (hmem composition List.mem_cons_self) hfirst

end Frame

/-! ## Which class files are parsed -/

namespace Format.Constant

/-- No number has the sign bit, no string has a zero or a half of a pair, and nothing occupies
two indexes. -/
def Readable : Constant → Prop
  | utf8 units _ => ∀ u ∈ units, ModifiedUtf8.IsPlain u
  | integer bits | float bits => bits.msb = false
  | long _ | double _ => False
  | _ => True

instance : DecidablePred Readable
  | utf8 units _ => List.decidableBAll ModifiedUtf8.IsPlain units
  | integer bits | float bits => inferInstanceAs (Decidable (bits.msb = false))
  | long _ | double _ => .isFalse id
  | classInfo _ | string _ | fieldref _ _ | methodref _ _ | interfaceMethodref _ _
  | nameAndType _ _ | methodHandle _ _ | methodType _ | invokeDynamic _ _ => .isTrue trivial

def IsWide : Constant → Prop
  | long _ | double _ => True
  | _ => False

theorem entries_of_not_isWide {c : Constant} (h : ¬ c.IsWide) : c.entries = [some c] := by
  cases c with
  | long bits | double bits => exact absurd trivial h
  | _ => rfl

theorem not_isWide_of_readable {c : Constant} (h : c.Readable) : ¬ c.IsWide := by
  intro hwide
  cases c with
  | long bits | double bits => exact h
  | _ => exact hwide

theorem unlessSigned_eq_some {w : ℕ} {bits : BitVec w} {value : ConstantValue} {cpTag : CpTag} :
    (unlessSigned bits value).map (ConstantItem.value cpTag) = some (.value cpTag value) ↔
      bits.msb = false := by
  rw [unlessSigned]
  cases bits.msb <;> simp

/-- A constant of one index is read as it is encoded if it is readable. -/
theorem read_eq_item {c : Constant} (h : ¬ c.IsWide) : c.read = some c.item ↔ c.Readable := by
  cases c with
  | utf8 units hlt =>
    have htext := ModifiedUtf8.newUtf16_encode_eq_iff units
    simpa [read, item, Readable] using htext
  | integer bits => exact unlessSigned_eq_some
  | float bits => exact unlessSigned_eq_some
  | long bits | double bits => exact absurd trivial h
  | _ => exact ⟨fun _ => trivial, fun _ => rfl⟩

end Format.Constant

section Table

variable {cs : List Constant}

theorem flatMap_entries (h : ∀ c ∈ cs, ¬ c.IsWide) : cs.flatMap Constant.entries = cs.map some := by
  induction cs with
  | nil => rfl
  | cons c cs ih =>
    rw [List.flatMap_cons, Constant.entries_of_not_isWide (h c List.mem_cons_self),
      ih fun c' hc' => h c' (List.mem_cons_of_mem _ hc')]
    rfl

/-- A constant of two indexes leaves one of them without a constant. -/
theorem none_mem_entries {c : Constant} (hc : c ∈ cs) (hwide : c.IsWide) :
    none ∈ cs.flatMap Constant.entries := by
  refine List.mem_flatMap.mpr ⟨c, hc, ?_⟩
  cases c with
  | long bits | double bits => exact List.mem_cons_of_mem _ List.mem_cons_self
  | _ => exact absurd hwide id

theorem join_getElem?_map_some {α : Type} (l : List α) (i : ℕ) : (l.map some)[i]?.join = l[i]? := by
  rw [List.getElem?_map]
  cases l[i]? <;> rfl

end Table

namespace ClassFile

variable {f : ClassFile}

/-- The parse is that of the pool, between the parts that are read as they are encoded. -/
theorem parse_hex (f : ClassFile) : parse f.hex =
    (ByteCodeComposition.CONSTANT_POOL.parsing f.hex f.headHex.length f.head).bind fun t =>
      parseAll f.hex tailCompositions t.1 t.2 := by
  have hhead := reads_head f 0 (at_append.mp (at_whole f.hex)).1
  rw [Option.map_some, Nat.zero_add] at hhead
  rw [parse, values_eq, parseAll_append, hhead, Option.bind_some, parseAll, List.foldlM_cons]
  rfl

/-- Each turn of the loop over the pool is for an index. -/
theorem parsing_constantPool (f : ClassFile) (content : Hex) (point : ℕ) :
    ByteCodeComposition.CONSTANT_POOL.parsing content point f.head =
      times (constantParser content) (f.constants.flatMap Constant.entries).length point
        { f.head with constantPool := some (numbered []) } := by
  have hlt := f.constants_lt
  rw [constantTable, List.length_cons] at hlt
  have hturns : turns (BitVec.ofNat 32 ((f.constants.flatMap Constant.entries).length + 1) - 1) =
      (f.constants.flatMap Constant.entries).length := by
    have hpred : BitVec.ofNat 32 ((f.constants.flatMap Constant.entries).length + 1) - 1 =
        BitVec.ofNat 32 (f.constants.flatMap Constant.entries).length := by
      rw [BitVec.ofNat_add]
      exact BitVec.add_sub_cancel _ _
    rw [hpred, turns_ofNat (by omega)]
  have hcount : f.head.constantPoolCount =
      some (BitVec.ofNat 32 ((f.constants.flatMap Constant.entries).length + 1)) := rfl
  rw [ByteCodeComposition.parsing, ByteCodeComposition.parser, constantPoolParser, hcount,
    Option.bind_eq_bind, Option.bind_some]
  change times (constantParser content)
    (turns (BitVec.ofNat 32 ((f.constants.flatMap Constant.entries).length + 1) - 1)) point _ = _
  rw [hturns]
  rfl

/-- Without a constant of two indexes the loop reads the constants and nothing else. -/
theorem parsing_constantPool_narrow (hnarrow : ∀ c ∈ f.constants, ¬ c.IsWide) :
    ByteCodeComposition.CONSTANT_POOL.parsing f.hex f.headHex.length f.head =
      (f.constants.mapM Constant.read).map fun items =>
        (f.headHex.length + (f.constants.flatMap Constant.hex).length,
          { f.head with constantPool := some (numbered items) }) := by
  have hat := (at_append.mp (at_append.mp (at_whole f.hex)).2).1
  rw [Nat.zero_add] at hat
  have hholds : ByteCode.Holds { f.head with constantPool := some (numbered []) } [] := rfl
  have hread := reads_constants f.constants hholds _ hat
  rw [parsing_constantPool, flatMap_entries hnarrow, List.length_map, hread, Option.map_map]
  rfl

theorem parsed_of_readable (hstring : f.hex.length < 2 ^ 31)
    (hreadable : ∀ c ∈ f.constants, c.Readable) : f.Parsed := by
  have hnarrow : ∀ c ∈ f.constants, ¬ c.IsWide := fun c hc =>
    Constant.not_isWide_of_readable (hreadable c hc)
  have hread : f.constants.mapM Constant.read = some (f.constants.map Constant.item) :=
    Fallible.mapM_eq_some fun c hc => (Constant.read_eq_item (hnarrow c hc)).mpr (hreadable c hc)
  have hat := (at_append.mp (at_append.mp (at_whole f.hex)).2).2
  rw [Nat.zero_add] at hat
  have htail := reads_tail hstring f
    { f.head with constantPool := some (numbered (f.constants.map Constant.item)) } _ hat
  have hlength : f.headHex.length + (f.constants.flatMap Constant.hex).length + f.tailHex.length =
      f.hex.length := by
    rw [hex, List.length_append, List.length_append, Nat.add_assoc]
  have hparse := f.parse_hex
  rw [parsing_constantPool_narrow hnarrow, hread, Option.map_some, Option.bind_some, htail,
    Option.map_some, hlength] at hparse
  refine ⟨_, hparse, ?_⟩
  refine ⟨rfl, rfl, rfl, rfl, ⟨_, rfl, ?_⟩, rfl, rfl, rfl, rfl, rfl, rfl, rfl, rfl, rfl, rfl, rfl⟩
  intro i
  rw [getElem?_numbered, constantAt, constantTable, flatMap_entries hnarrow]
  cases i with
  | zero => rfl
  | succ i =>
    rw [List.getElem?_cons_succ, List.getElem?_cons_succ, join_getElem?_map_some,
      join_getElem?_map_some, List.getElem?_map]

/-- The pool of a parse that succeeds has an item under each index. -/
theorem exists_pool {point : ℕ} {byteCode : ByteCode} (h : parse f.hex = some (point, byteCode)) :
    ∃ point' byteCode', ByteCodeComposition.CONSTANT_POOL.parsing f.hex f.headHex.length f.head =
      some (point', byteCode') ∧ byteCode.constantPool = byteCode'.constantPool := by
  rw [parse_hex, Option.bind_eq_some_iff] at h
  obtain ⟨⟨point', byteCode'⟩, hpool, htail⟩ := h
  exact ⟨point', byteCode', hpool, constantPool_parseAll (fun _ h => h) htail⟩

theorem not_isWide_of_parsed (h : f.Parsed) {c : Constant} (hc : c ∈ f.constants) :
    ¬ c.IsWide := by
  intro hwide
  obtain ⟨byteCode, hparse, hyields⟩ := h
  obtain ⟨point', byteCode', hpool, hsame⟩ := exists_pool hparse
  rw [parsing_constantPool] at hpool
  have hempty : ByteCode.Holds { f.head with constantPool := some (numbered []) } [] := rfl
  obtain ⟨items, hlength, hholds⟩ := exists_holds_of_times hempty hpool
  obtain ⟨pool, hsome, hget⟩ := hyields.constantPool
  rw [hsame, hholds] at hsome
  cases hsome
  obtain ⟨i, hi⟩ := List.mem_iff_getElem?.mp (none_mem_entries hc hwide)
  have hlt : i < items.length := by
    rw [hlength]
    exact (List.getElem?_eq_some_iff.mp hi).1
  have hindex := hget (i + 1)
  rw [getElem?_numbered, List.getElem?_cons_succ, join_getElem?_map_some,
    List.getElem?_eq_getElem hlt, constantAt, constantTable, List.getElem?_cons_succ, hi] at hindex
  cases hindex

theorem readable_of_parsed (h : f.Parsed) : ∀ c ∈ f.constants, c.Readable := by
  have hnarrow : ∀ c ∈ f.constants, ¬ c.IsWide := fun c hc => not_isWide_of_parsed h hc
  obtain ⟨byteCode, hparse, hyields⟩ := h
  obtain ⟨point', byteCode', hpool, hsame⟩ := exists_pool hparse
  rw [parsing_constantPool_narrow hnarrow, Option.map_eq_some_iff] at hpool
  obtain ⟨items, hread, heq⟩ := hpool
  cases heq
  obtain ⟨pool, hsome, hget⟩ := hyields.constantPool
  rw [hsame] at hsome
  cases hsome
  have hitems : items = f.constants.map Constant.item := by
    apply List.ext_getElem?
    intro i
    have hindex := hget (i + 1)
    rwa [getElem?_numbered, List.getElem?_cons_succ, join_getElem?_map_some, constantAt,
      constantTable, flatMap_entries hnarrow, List.getElem?_cons_succ, join_getElem?_map_some,
      ← List.getElem?_map] at hindex
  intro c hc
  have hall := Fallible.map_of_mapM hread
  rw [hitems, List.map_map] at hall
  have hitem := List.map_inj_left.mp hall c hc
  exact (Constant.read_eq_item (hnarrow c hc)).mp hitem

/-- A class file that a string has room for is parsed if and only if its constants are
readable. -/
theorem hex_parsed_iff (f : ClassFile) (hstring : f.hex.length < 2 ^ 31) :
    f.Parsed ↔ ∀ c ∈ f.constants, c.Readable :=
  ⟨readable_of_parsed, parsed_of_readable hstring⟩

/-- `class A` with the field `static final int x`, which has the value. -/
def constantField (value : BitVec 32) : ClassFile where
  minorVersion := 0
  majorVersion := 52
  constants :=
    [.classInfo 2, .utf8 [0x41] (by decide), .classInfo 4,
      .utf8 [0x6A, 0x61, 0x76, 0x61, 0x2F, 0x6C, 0x61, 0x6E, 0x67, 0x2F, 0x4F, 0x62, 0x6A, 0x65,
        0x63, 0x74] (by decide),
      .utf8 [0x78] (by decide), .utf8 [0x49] (by decide),
      .utf8 [0x43, 0x6F, 0x6E, 0x73, 0x74, 0x61, 0x6E, 0x74, 0x56, 0x61, 0x6C, 0x75, 0x65]
        (by decide),
      .integer value]
  accessFlags := 0x0020
  thisClass := 1
  superClass := 3
  interfaces := []
  fields := [⟨0x0018, 5, 6, [⟨7, [0, 8], by decide⟩], by decide⟩]
  methods := []
  attributes := []
  constants_lt := show 9 < 2 ^ 16 by decide
  interfaces_lt := by decide
  fields_lt := by decide
  methods_lt := by decide
  attributes_lt := by decide

theorem hex_parsed_iff_ten : (constantField 10).hex.length < 2 ^ 31 ∧ (constantField 10).Parsed :=
  ⟨by decide +kernel, (hex_parsed_iff (constantField 10) (by decide +kernel)).mpr (by decide +kernel)⟩

/-- For a field that is -1 the parser throws. -/
theorem parse_minusOne : parse (constantField (-1)).hex = none :=
  Option.isNone_iff_eq_none.mp (by decide +kernel)

theorem not_hex_parsed : ¬ ∀ f : ClassFile, f.hex.length < 2 ^ 31 → f.Parsed := by
  intro h
  obtain ⟨byteCode, hparse, -⟩ := h (constantField (-1)) (by decide +kernel)
  rw [parse_minusOne] at hparse
  cases hparse

end ClassFile

end BigPlan.Jvm

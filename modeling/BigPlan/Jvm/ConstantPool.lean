import BigPlan.Jvm.Parts

/-!
# Reading the constant pool

What the parsers make of each constant, and of all of them one after the other: the constants
get the numbers from 1 on, whatever they are.
-/
namespace BigPlan.Jvm

open Lib Lib.Java Lib.Cursor Format

/-! ## One constant -/

/-- A number with the sign bit is not parsed. -/
def unlessSigned {w : ℕ} (bits : BitVec w) (value : ConstantValue) : Option ConstantValue :=
  if bits.msb then none else some value

/-- The item that a parser puts into the pool for the constant, with `none` for an exception. -/
def Format.Constant.read (c : Constant) : Option ConstantItem :=
  match c with
  | .utf8 units _ => some (.value c.cpTag (.utf8 (newUtf16 (ModifiedUtf8.encode units))))
  | .integer bits => (unlessSigned bits (.integer bits)).map (.value c.cpTag)
  | .float bits => (unlessSigned bits (.float bits)).map (.value c.cpTag)
  | .long bits => (unlessSigned bits (.long bits)).map (.value c.cpTag)
  | .double bits => (unlessSigned bits (.double bits)).map (.value c.cpTag)
  | _ => some c.item

section Constant

variable {content : Hex} {point : ℕ}

theorem valueOf_tag (c : Constant) : CpTag.valueOf (asInt c.tag) = c.cpTag := by
  cases c <;> rfl

theorem indexConstantInfoParser_at {cpTag : CpTag} {l : List (BitVec 16)}
    (hbytes : cpTag.bytesNumber * 2 = l.length * 4) (hat : At content point (l.flatMap hexOf))
    (byteCode : ByteCode) :
    indexConstantInfoParser cpTag point content byteCode =
      (byteCode.putConstant (.index cpTag (l.map asInt))).map fun byteCode' =>
        (point + (l.flatMap hexOf).length, byteCode') := by
  have hlength : (l.flatMap hexOf).length = l.length * 4 :=
    length_flatMap (fun x : BitVec 16 => length_hexOf x) l
  have hvalue := hat.substring_eq
  have hcount : l.length * 4 / 4 = l.length := Nat.mul_div_cancel _ (by decide)
  have hindexes := mapM_cells (fun x : BitVec 16 => length_hexOf x) hexToInt_index l
  rw [hlength] at hvalue
  simp only [Nat.reduceDiv, Option.bind_eq_bind] at hindexes
  simp only [indexConstantInfoParser, hbytes, hvalue, hlength, hcount, hindexes,
    Option.bind_eq_bind, Option.bind_some, Option.pure_def]
  cases byteCode.putConstant (.index cpTag (l.map asInt)) <;> rfl

theorem methodHandleConstantInfoParser_at {kind : BitVec 8} {i : BitVec 16}
    (hat : At content point (hexOf kind ++ hexOf i)) (byteCode : ByteCode) :
    methodHandleConstantInfoParser .CONSTANT_METHOD_HANDLE_INFO point content byteCode =
      (byteCode.putConstant (.methodHandle .CONSTANT_METHOD_HANDLE_INFO (asInt kind)
        (asInt i))).map fun byteCode' => (point + 6, byteCode') := by
  have hlength : (hexOf kind ++ hexOf i).length = 6 := by
    rw [List.length_append, length_hexOf, length_hexOf]
  have hvalue := hat.substring_eq
  rw [hlength] at hvalue
  obtain ⟨hkind, hindex⟩ := at_append.mp (at_whole (hexOf kind ++ hexOf i))
  rw [length_hexOf] at hindex
  have hkindHex : substring (hexOf kind ++ hexOf i) 0 2 = some (hexOf kind) :=
    substring_hexOf hkind rfl
  have hindexHex : substring (hexOf kind ++ hexOf i) 2 6 = some (hexOf i) :=
    substring_hexOf hindex rfl
  simp only [methodHandleConstantInfoParser, CpTag.bytesNumber, Nat.reduceMul, hvalue, hlength,
    hkindHex, hindexHex, hexToInt_byte, hexToInt_index, Option.bind_eq_bind, Option.bind_some,
    Option.pure_def]
  cases byteCode.putConstant _ <;> rfl

theorem valueConstantInfoParse_at {cpTag : CpTag} {valueHex : Hex} {value : Option ConstantValue}
    {n : ℕ} (hat : At content point valueHex) (hbytes : valueHex.length = cpTag.bytesNumber * 2)
    (hvalue : constantValue cpTag valueHex (point + valueHex.length) content =
      value.map fun value => (point + n, value)) (byteCode : ByteCode) :
    valueConstantInfoParse cpTag point content byteCode =
      ((value.map (ConstantItem.value cpTag)).bind byteCode.putConstant).map fun byteCode' =>
        (point + n, byteCode') := by
  have hsubstring := hat.substring_eq
  simp only [valueConstantInfoParse, ← hbytes, hsubstring, hvalue, Option.bind_eq_bind,
    Option.bind_some, Option.pure_def]
  cases value with
  | none => rfl
  | some value =>
    simp only [Option.map_some, Option.bind_some]
    cases byteCode.putConstant (.value cpTag value) <;> rfl

theorem valueConstantInfoParse_word {cpTag : CpTag} {w : ℕ} {bits : BitVec w}
    {value : Option ConstantValue} (hat : At content point (hexOf bits))
    (hvalue : ∀ point, constantValue cpTag (hexOf bits) point content =
      value.map fun value => (point, value))
    (hbytes : (hexOf bits).length = cpTag.bytesNumber * 2) (byteCode : ByteCode) :
    valueConstantInfoParse cpTag point content byteCode =
      ((value.map (ConstantItem.value cpTag)).bind byteCode.putConstant).map fun byteCode' =>
        (point + (hexOf bits).length, byteCode') :=
  valueConstantInfoParse_at hat hbytes (hvalue _) byteCode

theorem constantValue_utf8 {bytes : List UInt8} (hbytes : bytes.length < 2 ^ 16)
    (hat : At content point (hexOfBytes bytes)) :
    constantValue .CONSTANT_UTF8_INFO (hexOfCount bytes.length) point content =
      some (point + bytes.length * 2, .utf8 (newUtf16 bytes)) := by
  have htoNat : (BitVec.ofNat 32 bytes.length).toNat = bytes.length := by
    rw [BitVec.toNat_ofNat, Nat.mod_eq_of_lt (by omega)]
  have hinfo := hat.substring_eq
  rw [length_hexOfBytes] at hinfo
  simp only [constantValue, hexToInt_count hbytes, htoNat, hinfo, bytesOfHex_hexOfBytes,
    Option.bind_eq_bind, Option.bind_some, Option.pure_def]

theorem hexToInt_map (bits : BitVec 32) (value : BitVec 32 → ConstantValue) (point : ℕ) :
    (hexToInt (hexOf bits)).map (fun bits => (point, value bits)) =
      (unlessSigned bits (value bits)).map fun value => (point, value) := by
  rw [hexToInt_word, unlessSigned]
  cases bits.msb <;> rfl

theorem hexToLong_map (bits : BitVec 64) (value : BitVec 64 → ConstantValue) (point : ℕ) :
    (hexToLong (hexOf bits)).map (fun bits => (point, value bits)) =
      (unlessSigned bits (value bits)).map fun value => (point, value) := by
  rw [hexToLong_word, unlessSigned]
  cases bits.msb <;> rfl

/-- Behind the tag each parser reads the body of its constants. -/
theorem parsing_at (c : Constant) (hat : At content point c.body) (byteCode : ByteCode) :
    c.cpTag.parsing point content byteCode =
      (c.read.bind byteCode.putConstant).map fun byteCode' =>
        (point + c.body.length, byteCode') := by
  cases c with
  | utf8 units hlt =>
    obtain ⟨hcount, hbytes⟩ := at_append.mp hat
    have hvalue : constantValue .CONSTANT_UTF8_INFO
        (hexOfCount (ModifiedUtf8.encode units).length)
        (point + (hexOfCount (ModifiedUtf8.encode units).length).length) content =
          (some (ConstantValue.utf8 (newUtf16 (ModifiedUtf8.encode units)))).map fun value =>
            (point + (Constant.utf8 units hlt).body.length, value) := by
      rw [constantValue_utf8 hlt hbytes, Constant.body, List.length_append, length_hexOfBytes,
        Nat.add_assoc]
      rfl
    have hbytes : (hexOfCount (ModifiedUtf8.encode units).length).length =
        CpTag.CONSTANT_UTF8_INFO.bytesNumber * 2 := length_hexOf _
    exact valueConstantInfoParse_at hcount hbytes hvalue byteCode
  | integer bits =>
    have hvalue : ∀ point, constantValue .CONSTANT_INTEGER_INFO (hexOf bits) point content =
        (unlessSigned bits (.integer bits)).map fun value => (point, value) :=
      hexToInt_map bits .integer
    exact valueConstantInfoParse_word hat hvalue (length_hexOf bits) byteCode
  | float bits =>
    have hvalue : ∀ point, constantValue .CONSTANT_FLOAT_INFO (hexOf bits) point content =
        (unlessSigned bits (.float bits)).map fun value => (point, value) :=
      hexToInt_map bits .float
    exact valueConstantInfoParse_word hat hvalue (length_hexOf bits) byteCode
  | long bits =>
    have hvalue : ∀ point, constantValue .CONSTANT_LONG_INFO (hexOf bits) point content =
        (unlessSigned bits (.long bits)).map fun value => (point, value) :=
      hexToLong_map bits .long
    exact valueConstantInfoParse_word hat hvalue (length_hexOf bits) byteCode
  | double bits =>
    have hvalue : ∀ point, constantValue .CONSTANT_DOUBLE_INFO (hexOf bits) point content =
        (unlessSigned bits (.double bits)).map fun value => (point, value) :=
      hexToLong_map bits .double
    exact valueConstantInfoParse_word hat hvalue (length_hexOf bits) byteCode
  | methodHandle kind i => exact methodHandleConstantInfoParser_at hat byteCode
  | classInfo i => exact indexConstantInfoParser_at rfl hat byteCode
  | string i => exact indexConstantInfoParser_at rfl hat byteCode
  | fieldref i j => exact indexConstantInfoParser_at rfl hat byteCode
  | methodref i j => exact indexConstantInfoParser_at rfl hat byteCode
  | interfaceMethodref i j => exact indexConstantInfoParser_at rfl hat byteCode
  | nameAndType i j => exact indexConstantInfoParser_at rfl hat byteCode
  | methodType i => exact indexConstantInfoParser_at rfl hat byteCode
  | invokeDynamic i j => exact indexConstantInfoParser_at rfl hat byteCode

theorem reads_constant (c : Constant) (byteCode : ByteCode) :
    Reads content (constantParser content) c.hex byteCode (c.read.bind byteCode.putConstant) := by
  intro point hat
  obtain ⟨htag, hbody⟩ := at_append.mp hat
  rw [length_hexOf] at hbody
  simp only [constantParser, substring_hexOf htag rfl, hexToInt_byte, valueOf_tag,
    Option.bind_eq_bind, Option.bind_some]
  rw [parsing_at c hbody, Constant.hex, List.length_append, length_hexOf, Nat.add_assoc]

end Constant

/-! ## Any constant -/

section AnyConstant

variable {content : Hex} {point point' : ℕ} {byteCode byteCode' : ByteCode}

/-- Whatever digits stand there, a parser that does not throw puts one item. -/
theorem exists_putConstant_of_parsing {cpTag : CpTag}
    (h : cpTag.parsing point content byteCode = some (point', byteCode')) :
    ∃ item, byteCode.putConstant item = some byteCode' := by
  rw [CpTag.parsing, Option.bind_eq_bind, Option.bind_eq_some_iff] at h
  obtain ⟨parser, hparser, hparse⟩ := h
  have hcases : parser = valueConstantInfoParse ∨ parser = indexConstantInfoParser ∨
      parser = methodHandleConstantInfoParser := by
    cases cpTag <;> cases hparser <;> simp
  rcases hcases with rfl | rfl | rfl
  · simp only [valueConstantInfoParse, Option.bind_eq_bind, Option.bind_eq_some_iff,
      Option.pure_def, Option.some.injEq, Prod.mk.injEq] at hparse
    obtain ⟨_, _, ⟨_, value⟩, _, _, hput, _, rfl⟩ := hparse
    exact ⟨_, hput⟩
  · simp only [indexConstantInfoParser, Option.bind_eq_bind, Option.bind_eq_some_iff,
      Option.pure_def, Option.some.injEq, Prod.mk.injEq] at hparse
    obtain ⟨_, _, _, _, _, hput, _, rfl⟩ := hparse
    exact ⟨_, hput⟩
  · simp only [methodHandleConstantInfoParser, Option.bind_eq_bind, Option.bind_eq_some_iff,
      Option.pure_def, Option.some.injEq, Prod.mk.injEq] at hparse
    obtain ⟨_, _, _, _, _, _, _, _, _, _, _, hput, _, rfl⟩ := hparse
    exact ⟨_, hput⟩

theorem exists_putConstant_of_constantParser
    (h : constantParser content point byteCode = some (point', byteCode')) :
    ∃ item, byteCode.putConstant item = some byteCode' := by
  simp only [constantParser, Option.bind_eq_bind, Option.bind_eq_some_iff] at h
  obtain ⟨_, _, _, _, hparsing⟩ := h
  exact exists_putConstant_of_parsing hparsing

end AnyConstant

/-! ## The pool -/

/-- The items under the numbers from 1 on. -/
def numbered (items : List ConstantItem) : Std.HashMap ℕ ConstantItem := items.foldl putNext ∅

theorem numbered_concat (items : List ConstantItem) (item : ConstantItem) :
    numbered (items ++ [item]) = putNext (numbered items) item := by
  rw [numbered, List.foldl_append]
  rfl

theorem numbered_spec (items : List ConstantItem) : (numbered items).size = items.length ∧
    ∀ i : ℕ, (numbered items)[i]? = (none :: items.map some)[i]?.join := by
  induction items using List.reverseRecOn with
  | nil =>
    refine ⟨Std.HashMap.size_empty, ?_⟩
    intro i
    cases i with
    | zero => exact Std.HashMap.getElem?_empty
    | succ i => exact Std.HashMap.getElem?_empty
  | append_singleton items item ih =>
    obtain ⟨hsize, hget⟩ := ih
    have hfresh : ¬ items.length + 1 ∈ numbered items := by
      rw [Std.HashMap.mem_iff_isSome_getElem?, hget, List.getElem?_cons_succ,
        List.getElem?_eq_none (by rw [List.length_map])]
      exact Bool.false_ne_true
    rw [numbered_concat, putNext, hsize]
    refine ⟨?_, ?_⟩
    · rw [Std.HashMap.size_insert, if_neg hfresh, hsize, List.length_append, List.length_singleton]
    · intro i
      rw [Std.HashMap.getElem?_insert, hget, List.map_append, ← List.cons_append,
        List.map_singleton]
      have hlength : (none :: items.map some).length = items.length + 1 := by
        rw [List.length_cons, List.length_map]
      by_cases hi : items.length + 1 = i
      · subst hi
        rw [beq_self_eq_true, if_pos rfl, ← hlength, List.getElem?_concat_length]
        rfl
      · rw [if_neg (by simpa using hi)]
        by_cases hlt : i < items.length + 1
        · rw [List.getElem?_append_left (by rw [hlength]; exact hlt)]
        · rw [List.getElem?_eq_none (by rw [hlength]; omega),
            List.getElem?_eq_none (by rw [List.length_append, hlength, List.length_singleton]; omega)]

theorem getElem?_numbered (items : List ConstantItem) (i : ℕ) :
    (numbered items)[i]? = (none :: items.map some)[i]?.join :=
  (numbered_spec items).2 i

/-- The items in the pool of the byte code. -/
def ByteCode.Holds (byteCode : ByteCode) (items : List ConstantItem) : Prop :=
  byteCode.constantPool = some (numbered items)

theorem ByteCode.Holds.putConstant {byteCode : ByteCode} {items : List ConstantItem}
    (h : byteCode.Holds items) (item : ConstantItem) :
    byteCode.putConstant item =
      some { byteCode with constantPool := some (numbered (items ++ [item])) } := by
  rw [ByteCode.putConstant, h, Option.map_some, numbered_concat]

section Pool

variable {content : Hex} {point point' : ℕ} {byteCode byteCode' : ByteCode}
  {items : List ConstantItem}

/-- The loop over the constants of a class file fails at the first that is not read. -/
theorem reads_constants (cs : List Constant) (h : byteCode.Holds items) :
    Reads content (times (constantParser content) cs.length) (cs.flatMap Constant.hex) byteCode
      ((cs.mapM Constant.read).map fun items' =>
        { byteCode with constantPool := some (numbered (items ++ items')) }) := by
  have hfold : cs.foldlM (fun byteCode c => c.read.bind byteCode.putConstant) byteCode =
      (cs.mapM Constant.read).map fun items' =>
        { byteCode with constantPool := some (numbered (items ++ items')) } := by
    induction cs generalizing byteCode items with
    | nil =>
      rw [List.mapM_nil, List.foldlM_nil, Option.pure_def, Option.pure_def, Option.map_some,
        List.append_nil, ← h]
    | cons c cs ih =>
      rw [List.foldlM_cons, List.mapM_cons]
      cases c.read with
      | none => rfl
      | some item =>
        rw [Option.bind_some, h.putConstant]
        have hholds : ByteCode.Holds
            { byteCode with constantPool := some (numbered (items ++ [item])) } (items ++ [item]) :=
          rfl
        have hrest := ih hholds
        simp only [Option.bind_eq_bind, Option.bind_some, hrest, List.append_assoc,
          List.singleton_append]
        cases cs.mapM Constant.read <;> rfl
  rw [← hfold]
  exact Reads.times (fun c _ byteCode => reads_constant c byteCode) byteCode

/-- A loop that comes through puts an item in each turn, whatever it reads. -/
theorem exists_holds_of_times {n : ℕ} (h : byteCode.Holds [])
    (hloop : times (constantParser content) n point byteCode = some (point', byteCode')) :
    ∃ items, items.length = n ∧ byteCode'.Holds items := by
  have hall := times_induction (k := 0)
    (P := fun k byteCode => ∃ items, items.length = k ∧ byteCode.Holds items)
    (by
      intro k point byteCode point' byteCode' hholds hread
      obtain ⟨items, rfl, hholds⟩ := hholds
      obtain ⟨item, hput⟩ := exists_putConstant_of_constantParser hread
      rw [hholds.putConstant] at hput
      cases hput
      exact ⟨items ++ [item], List.length_append, rfl⟩)
    hloop ⟨[], rfl, h⟩
  rwa [Nat.zero_add] at hall

end Pool

end BigPlan.Jvm

import BigPlan.Security.HexUtil
import Mathlib.Data.List.DropRight

/-!
# Hashed passwords

A password is kept as the number of iterations, the salt and the hash, with colons between them.
What is checked is hashed in the same way, and the hashes are compared byte by byte without a branch.
-/
namespace BigPlan.Security.PBKDF2Utils

open Lib Lib.Java HexUtil

/-- `SecretKeyFactory.generateSecret`: the key of 512 bits for a text, a salt and a number of
iterations. -/
abbrev GenerateSecret := List JChar → List JByte → JInt → List JByte

inductive Thrown where
  | nullPointer
  | arrayIndexOutOfBounds
  | numberFormat
  | illegalArgument
  | hex (e : HexError)
  deriving DecidableEq, Repr

/-! ## `PBKDF2Utils` -/

def colon : JChar := 0x3A

/-- `s.split(":")`: trailing empty strings are dropped if there is a colon at all. -/
def splitColon (s : List JChar) : List (List JChar) :=
  match s.splitOn colon with
  | [part] => [part]
  | parts => parts.rdropWhile (· == [])

/-- `Integer.parseInt(s)`. -/
def parseDecimal (s : List JChar) : Except Thrown JInt :=
  match (Decimal.signed (s.map fun c => Char.ofNat c.toNat)).filter fun a => -2 ^ 31 ≤ a ∧ a < 2 ^ 31 with
  | some a => .ok (BitVec.ofInt 32 a)
  | none => .error .numberFormat

/-- `parts[i]` -/
def part (parts : List (List JChar)) (i : ℕ) : Except Thrown (List JChar) :=
  match parts[i]? with
  | some part => .ok part
  | none => .error .arrayIndexOutOfBounds

def bytesOf (hexString : List JChar) : Except Thrown (List JByte) :=
  match hexStringToByteArray hexString with
  | .ok bytes => .ok bytes
  | .error e => .error (.hex e)

def deref {α : Type} : Option α → Except Thrown α
  | some a => .ok a
  | none => .error .nullPointer

/-- `new PBEKeySpec(chars, salt, iterations, 512)` and the key for it. -/
def hashOf (generateSecret : GenerateSecret) (chars : List JChar) (salt : List JByte)
    (iterations : JInt) : Except Thrown (List JByte) :=
  if salt = [] ∨ iterations.toInt ≤ 0 then .error .illegalArgument
  else .ok (generateSecret chars salt iterations)

/-- The number of iterations that `encrypt` writes. -/
def thousand : List JChar := [0x31, 0x30, 0x30, 0x30]

/-- With the salt that `SaltUtils.getSalt()` returns. -/
def encrypt (generateSecret : GenerateSecret) (salt : List JByte) (rawText : Option (List JChar)) :
    Except Thrown (List JChar) := do
  let iterations := 1000
  let chars ← deref rawText
  let hash ← hashOf generateSecret chars salt iterations
  return thousand ++ [colon] ++ byteArrayToHexString salt ++ [colon] ++
    byteArrayToHexString hash

/-- `diff`: the lengths, and then the bytes at the same index. -/
def difference (hash testHash : List JByte) : JInt :=
  (hash.zip testHash).foldl (fun diff a => diff ||| (a.1.signExtend 32 ^^^ a.2.signExtend 32))
    (BitVec.ofNat 32 hash.length ^^^ BitVec.ofNat 32 testHash.length)

/-- What is in the `try` block. -/
def check (generateSecret : GenerateSecret) (raw encoded : Option (List JChar)) :
    Except Thrown Bool := do
  let encoded ← deref encoded
  let parts := splitColon encoded
  let iterations ← part parts 0
  let iterations ← parseDecimal iterations
  let salt ← part parts 1
  let salt ← bytesOf salt
  let hash ← part parts 2
  let hash ← bytesOf hash
  let chars ← deref raw
  let testHash ← hashOf generateSecret chars salt iterations
  return difference hash testHash == 0

def validate (generateSecret : GenerateSecret) (raw encoded : Option (List JChar)) : Bool :=
  match check generateSecret raw encoded with
  | .ok b => b
  | .error _ => false

/-! ## Comparing the hashes -/

section Difference

theorem signExtend_inj {a b : JByte} : a.signExtend 32 = b.signExtend 32 ↔ a = b := by
  constructor
  · intro h
    have hint := congrArg BitVec.toInt h
    rw [BitVec.toInt_signExtend_of_le (by decide), BitVec.toInt_signExtend_of_le (by decide)] at hint
    exact BitVec.eq_of_toInt_eq hint
  · exact congrArg _

theorem foldl_or_eq_zero {α : Type} (f : α → JInt) (l : List α) (init : JInt) :
    l.foldl (fun diff a => diff ||| f a) init = 0 ↔ init = 0 ∧ ∀ a ∈ l, f a = 0 := by
  induction l generalizing init with
  | nil => simp
  | cons a l ih =>
    rw [List.foldl_cons, ih, List.forall_mem_cons, ← and_assoc]
    exact and_congr_left' BitVec.or_eq_zero_iff

/-- Lists are the same if they are as long as each other and the same at each index. -/
theorem eq_iff_zip {α : Type} {l l' : List α} :
    l.length = l'.length ∧ (∀ a ∈ l.zip l', a.1 = a.2) ↔ l = l' := by
  induction l generalizing l' with
  | nil => simp [eq_comm]
  | cons a l ih =>
    cases l' with
    | nil => simp
    | cons b l' =>
      rw [List.cons.injEq, ← ih, List.zip_cons_cons, List.forall_mem_cons, List.length_cons,
        List.length_cons, Nat.succ_inj, and_left_comm]

theorem xor_eq_zero_iff {a b : JInt} : a ^^^ b = 0 ↔ a = b := BitVec.xor_eq_zero_iff

/-- Nothing differs if and only if the hashes are the same. -/
theorem difference_eq_zero_iff {hash testHash : List JByte} (hhash : hash.length < 2 ^ 31)
    (htest : testHash.length < 2 ^ 31) : difference hash testHash = 0 ↔ hash = testHash := by
  have hlength : BitVec.ofNat 32 hash.length = BitVec.ofNat 32 testHash.length ↔
      hash.length = testHash.length := by
    rw [← BitVec.toNat_inj, BitVec.toNat_ofNat, BitVec.toNat_ofNat, Nat.mod_eq_of_lt (by omega),
      Nat.mod_eq_of_lt (by omega)]
  rw [difference, foldl_or_eq_zero, xor_eq_zero_iff, hlength, ← eq_iff_zip]
  simp only [xor_eq_zero_iff, signExtend_inj]

end Difference

/-! ## Reading what is kept -/

section Check

variable {generateSecret : GenerateSecret} {raw encoded : List JChar} {salt hash : List JByte}
  {iterations : JInt}

/-- What `encoded` is made of: whatever comes behind the third part is not looked at. -/
structure Parsed (encoded : List JChar) (iterations : JInt) (salt hash : List JByte) : Prop where
  iterations : ∃ s, (splitColon encoded)[0]? = some s ∧ parseDecimal s = .ok iterations
  salt : ∃ s, (splitColon encoded)[1]? = some s ∧ hexStringToByteArray s = .ok salt
  hash : ∃ s, (splitColon encoded)[2]? = some s ∧ hexStringToByteArray s = .ok hash

theorem bind_eq_ok_true {α : Type} {x : Except Thrown α} {f : α → Except Thrown Bool} :
    x >>= f = .ok true ↔ ∃ a, x = .ok a ∧ f a = .ok true := Fallible.bind_eq_ok

theorem part_eq_ok {parts : List (List JChar)} {i : ℕ} {s : List JChar} :
    part parts i = .ok s ↔ parts[i]? = some s := by
  rw [part]
  cases parts[i]? with
  | none => simp
  | some s' => simp

theorem bytesOf_eq_ok {s : List JChar} {bytes : List JByte} :
    bytesOf s = .ok bytes ↔ hexStringToByteArray s = .ok bytes := by
  rw [bytesOf]
  cases hexStringToByteArray s with
  | error e => exact iff_of_false nofun nofun
  | ok bytes' => rw [Except.ok.injEq, Except.ok.injEq]

theorem hashOf_eq_ok {bytes : List JByte} : hashOf generateSecret raw salt iterations = .ok bytes ↔
    (salt ≠ [] ∧ 0 < iterations.toInt) ∧ generateSecret raw salt iterations = bytes := by
  rw [hashOf]
  by_cases h : salt = [] ∨ iterations.toInt ≤ 0
  · rw [if_pos h]
    refine iff_of_false nofun fun hok => ?_
    obtain hsalt | hle := h
    · exact hok.1.1 hsalt
    · have hpos := hok.1.2
      omega
  · rw [if_neg h, Except.ok.injEq]
    obtain ⟨hsalt, hpos⟩ := not_or.mp h
    exact (and_iff_right ⟨hsalt, by omega⟩).symm

theorem length_of_part {s : List JChar} {i : ℕ} (h : (splitColon encoded)[i]? = some s) :
    s.length ≤ encoded.length := by
  have hmem : s ∈ encoded.splitOn colon := by
    have hmem := List.mem_of_getElem? h
    unfold splitColon at hmem
    split at hmem
    · rename_i part heq
      rwa [heq]
    · exact (List.rdropWhile_prefix _ _).subset hmem
  exact (Text.sublist_of_mem_splitOn hmem).length_le

theorem length_of_decodePairs {s : List JChar} {bytes : List JByte}
    (h : decodePairs s = some bytes) : s.length = 2 * bytes.length := by
  induction s using decodePairs.induct generalizing bytes with
  | case1 =>
    cases h
    rfl
  | case2 c => cases h
  | case3 high low rest ih =>
    rw [decodePairs, Option.bind_eq_bind, Option.bind_eq_some_iff] at h
    obtain ⟨n, -, h⟩ := h
    rw [Option.bind_eq_bind, Option.bind_eq_some_iff] at h
    obtain ⟨bytes', hrest, h⟩ := h
    cases h
    rw [List.length_cons, List.length_cons, ih hrest, List.length_cons]
    omega

theorem length_of_hexStringToByteArray {s : List JChar} {bytes : List JByte}
    (h : hexStringToByteArray s = .ok bytes) : bytes.length ≤ s.length := by
  rw [hexStringToByteArray_eq] at h
  split at h
  · cases h
  · cases hpairs : decodePairs s with
    | none =>
      rw [hpairs] at h
      cases h
    | some bytes' =>
      rw [hpairs] at h
      cases h
      rw [length_of_decodePairs hpairs]
      omega

/-- A text is accepted if and only if it is hashed to what is kept. -/
theorem validate_iff (hlength : ∀ chars salt n, (generateSecret chars salt n).length < 2 ^ 31)
    (hencoded : encoded.length < 2 ^ 31) : validate generateSecret (some raw) (some encoded) = true ↔
    ∃ iterations salt, (salt ≠ [] ∧ 0 < iterations.toInt) ∧
      Parsed encoded iterations salt (generateSecret raw salt iterations) := by
  have hcheck : validate generateSecret (some raw) (some encoded) = true ↔
      check generateSecret (some raw) (some encoded) = .ok true := by
    rw [validate]
    cases check generateSecret (some raw) (some encoded) with
    | ok b => simp
    | error e => simp
  rw [hcheck]
  change (part _ 0 >>= _) = _ ↔ _
  simp only [bind_eq_ok_true, part_eq_ok, bytesOf_eq_ok]
  constructor
  · rintro ⟨n, hn, iterations, hiterations, s, hs, salt, hsalt, h, hh, hash, hhash, chars, hchars,
      testHash, htest, hsame⟩
    cases hchars
    obtain ⟨hspec, rfl⟩ := hashOf_eq_ok.mp htest
    have hzero : difference hash (generateSecret raw salt iterations) = 0 :=
      eq_of_beq (Except.ok.inj hsame)
    have hshort : hash.length < 2 ^ 31 :=
      Nat.lt_of_le_of_lt ((length_of_hexStringToByteArray hhash).trans (length_of_part hh)) hencoded
    rw [difference_eq_zero_iff hshort (hlength _ _ _)] at hzero
    exact ⟨iterations, salt, hspec, ⟨n, hn, hiterations⟩, ⟨s, hs, hsalt⟩, ⟨h, hh, hzero ▸ hhash⟩⟩
  · rintro ⟨iterations, salt, hspec, ⟨n, hn, hiterations⟩, ⟨s, hs, hsalt⟩, ⟨h, hh, hhash⟩⟩
    refine ⟨n, hn, iterations, hiterations, s, hs, salt, hsalt, h, hh, _, hhash, raw, rfl, _,
      hashOf_eq_ok.mpr ⟨hspec, rfl⟩, ?_⟩
    have hzero := (difference_eq_zero_iff (hlength raw salt iterations) (hlength raw salt iterations)).mpr rfl
    rw [hzero]
    rfl

/-! ## What `encrypt` keeps -/

theorem colon_notMem_hex (bytes : List JByte) : colon ∉ byteArrayToHexString bytes := by
  rw [byteArrayToHexString_eq, List.mem_flatMap]
  rintro ⟨b, -, hb⟩
  rw [byteToHexString_eq] at hb
  have hall : ∀ e < 16, colon ≠ unit e := by decide
  have hlt := b.isLt
  obtain hb | hb := List.mem_pair.mp hb
  · exact hall _ (by omega) hb
  · exact hall _ (by omega) hb

theorem splitColon_encoded {number : List JChar} (hnumber : colon ∉ number) (salt hash : List JByte)
    (hhash : hash ≠ []) :
    splitColon (number ++ [colon] ++ byteArrayToHexString salt ++ [colon] ++ byteArrayToHexString hash) =
      [number, byteArrayToHexString salt, byteArrayToHexString hash] := by
  have hsplit : (number ++ [colon] ++ byteArrayToHexString salt ++ [colon] ++
      byteArrayToHexString hash).splitOn colon =
        [number, byteArrayToHexString salt, byteArrayToHexString hash] := by
    have hjoin : (List.intercalate [colon]
        [number, byteArrayToHexString salt, byteArrayToHexString hash]).splitOn colon =
          [number, byteArrayToHexString salt, byteArrayToHexString hash] :=
      List.splitOn_intercalate colon (by simp [hnumber, colon_notMem_hex]) (by simp)
    rw [← hjoin]
    simp [List.intercalate]
  have hne : byteArrayToHexString hash ≠ [] := by
    obtain ⟨b, rest, rfl⟩ := List.exists_cons_of_ne_nil hhash
    rw [byteArrayToHexString_eq, List.flatMap_cons, byteToHexString_eq]
    exact List.cons_ne_nil _ _
  unfold splitColon
  rw [hsplit]
  exact List.rdropWhile_eq_self_iff.mpr fun _ => by simpa using hne

theorem parseDecimal_thousand : parseDecimal thousand = .ok 1000 := by decide

/-- What has been written is read. -/
theorem parsed_encoded_iff (hhash : hash ≠ []) {salt' hash' : List JByte} :
    Parsed (thousand ++ [colon] ++ byteArrayToHexString salt ++ [colon] ++ byteArrayToHexString hash)
      iterations salt' hash' ↔ iterations = 1000 ∧ salt' = salt ∧ hash' = hash := by
  have hparts := splitColon_encoded (show colon ∉ thousand by decide) salt hash hhash
  have hhex (bytes bytes' : List JByte) :
      hexStringToByteArray (byteArrayToHexString bytes) = .ok bytes' ↔ bytes' = bytes := by
    rw [show hexStringToByteArray (byteArrayToHexString bytes) = .ok bytes from roundTrips bytes,
      Except.ok.injEq, eq_comm]
  constructor
  · rintro ⟨⟨n, hn, hiterations⟩, ⟨s, hs, hsalt⟩, ⟨h, hh, hbytes⟩⟩
    rw [hparts] at hn hs hh
    cases hn
    cases hs
    cases hh
    rw [parseDecimal_thousand, Except.ok.injEq] at hiterations
    exact ⟨hiterations.symm, (hhex _ _).mp hsalt, (hhex _ _).mp hbytes⟩
  · rintro ⟨rfl, rfl, rfl⟩
    refine ⟨⟨thousand, ?_, parseDecimal_thousand⟩, ⟨_, ?_, roundTrips salt'⟩, ⟨_, ?_, roundTrips hash'⟩⟩
    all_goals rw [hparts]; rfl

theorem length_hex (bytes : List JByte) : (byteArrayToHexString bytes).length = 2 * bytes.length := by
  rw [byteArrayToHexString_eq]
  exact length_of_decodePairs (decodePairs_flatMap bytes)

/-- What `encrypt` returns is checked with a text by hashing it with the same salt. -/
theorem validate_encrypt (hlength : ∀ chars salt n, (generateSecret chars salt n).length = 64)
    (hsalt : salt.length = 16) (raw : List JChar) :
    ∃ encoded, encrypt generateSecret salt (some raw) = .ok encoded ∧ ∀ raw',
      validate generateSecret (some raw') (some encoded) = true ↔
        generateSecret raw' salt 1000 = generateSecret raw salt 1000 := by
  have hne : salt ≠ [] := by
    rintro rfl
    cases hsalt
  have hhash : generateSecret raw salt 1000 ≠ [] := by
    intro hnil
    have h64 := hlength raw salt 1000
    rw [hnil] at h64
    cases h64
  have hspec : hashOf generateSecret raw salt 1000 = .ok (generateSecret raw salt 1000) :=
    hashOf_eq_ok.mpr ⟨⟨hne, by decide⟩, rfl⟩
  refine ⟨thousand ++ [colon] ++ byteArrayToHexString salt ++ [colon] ++
    byteArrayToHexString (generateSecret raw salt 1000), ?_, fun raw' => ?_⟩
  · rw [encrypt]
    change (hashOf generateSecret raw salt 1000 >>= _) = _
    rw [hspec]
    rfl
  · rw [validate_iff fun chars salt n => by rw [hlength]; decide]
    · simp only [parsed_encoded_iff hhash]
      constructor
      · rintro ⟨iterations, salt', -, rfl, rfl, hsame⟩
        exact hsame
      · exact fun hsame => ⟨1000, salt, ⟨hne, by decide⟩, rfl, rfl, hsame⟩
    · simp only [List.length_append, length_hex, hlength, hsalt]
      decide

/-- The keys of `a` and of any other text, which stands for `b`, with the salt from 0 to 15. -/
def keys : GenerateSecret := fun chars _ _ =>
  if chars = [0x61] then [
    0x99, 0xd6, 0x13, 0xfc, 0xa2, 0xe2, 0x9d, 0x54, 0x92, 0x57, 0x97, 0x4e, 0x65, 0x11, 0xe4, 0x4f,
    0x55, 0xfb, 0x56, 0xbf, 0x16, 0xbb, 0x89, 0x97, 0x81, 0xc2, 0x8, 0x9c, 0xd0, 0x6f, 0x92, 0x2,
    0x9a, 0xaf, 0xa0, 0x46, 0x3a, 0x6b, 0x68, 0x3e, 0xdd, 0xb4, 0x1f, 0x95, 0xbd, 0x2e, 0xa1, 0xc7,
    0x29, 0xdc, 0x2d, 0x22, 0x6b, 0xe3, 0x17, 0x2, 0x85, 0x75, 0x2, 0xe1, 0xd2, 0x73, 0xdc, 0x79]
  else [
    0xf4, 0xa7, 0x6d, 0x1d, 0xc1, 0xaf, 0xc0, 0xca, 0xcf, 0xd7, 0x46, 0x9c, 0x7, 0x55, 0xdc, 0x89,
    0x76, 0xfb, 0x4f, 0x72, 0x4f, 0x1c, 0x21, 0x3e, 0xc6, 0x33, 0x77, 0x6, 0x8d, 0x16, 0xf9, 0xf4,
    0x5e, 0x60, 0x87, 0x95, 0x4d, 0x26, 0x7, 0x22, 0x41, 0xf5, 0xd7, 0xaf, 0x65, 0xad, 0x77, 0x75,
    0xa3, 0x1a, 0x71, 0x9b, 0x3d, 0x22, 0xe3, 0x79, 0x59, 0x5c, 0xf3, 0x5d, 0x4b, 0x3e, 0xd3, 0xaf]

def saltToFifteen : List JByte := [0, 1, 2, 3, 4, 5, 6, 7, 8, 9, 10, 11, 12, 13, 14, 15]

theorem length_keys (chars : List JChar) (salt : List JByte) (n : JInt) :
    (keys chars salt n).length = 64 := by
  unfold keys
  split <;> rfl

theorem validate_encrypt_keys : ∃ encoded, encrypt keys saltToFifteen (some [0x61]) = .ok encoded ∧
    ∀ raw', validate keys (some raw') (some encoded) = true ↔
      keys raw' saltToFifteen 1000 = keys [0x61] saltToFifteen 1000 :=
  validate_encrypt length_keys rfl [0x61]

end Check

end BigPlan.Security.PBKDF2Utils

import BigPlan.Lib.Decimal
import BigPlan.Lib.Fallible
import BigPlan.Lib.Java

/-!
# The hexadecimal codec

Every pair of characters is read by the parser of numbers, which takes a sign in front and the
digits of every script. Strings are lists of UTF-16 units.
-/
namespace BigPlan.Security.HexUtil

open Lib.Java Lib.Fallible

abbrev JChar := BitVec 16
abbrev JByte := BitVec 8

/-! ## Numbers to the base of 16 -/

/-- `Character.digit(c, 16)`, with `none` for -1. The last two ranges are the full-width letters. -/
def digit (c : JChar) : Option ℕ :=
  let n := c.toNat
  match Lib.Decimal.zeros.find? fun z => z ≤ n && n < z + 10 with
  | some z => some (n - z)
  | none =>
    if 0x41 ≤ n ∧ n ≤ 0x46 then some (n - 0x41 + 10)
    else if 0x61 ≤ n ∧ n ≤ 0x66 then some (n - 0x61 + 10)
    else if 0xFF21 ≤ n ∧ n ≤ 0xFF26 then some (n - 0xFF21 + 10)
    else if 0xFF41 ≤ n ∧ n ≤ 0xFF46 then some (n - 0xFF41 + 10)
    else none

/-- The value of a number without sign, which has at least one digit. -/
def magnitude (cs : List JChar) : Option ℕ :=
  if cs = [] then none else cs.foldlM (fun n c => (digit c).map fun d => 16 * n + d) 0

def plus : JChar := 0x2B
def minus : JChar := 0x2D

def signed (cs : List JChar) : Option ℤ :=
  if cs.head? = some minus then (magnitude cs.tail).map fun n : ℕ => -(n : ℤ)
  else if cs.head? = some plus then (magnitude cs.tail).map fun n : ℕ => (n : ℤ)
  else (magnitude cs).map fun n : ℕ => (n : ℤ)

/-- `Integer.parseInt(s, 16)`, with `none` for the `NumberFormatException`. -/
def parseInt (cs : List JChar) : Option JInt :=
  ((signed cs).filter fun a => -2 ^ 31 ≤ a ∧ a < 2 ^ 31).map (BitVec.ofInt 32)

/-- `Integer.toHexString`. -/
def toHexString (n : JInt) : List JChar :=
  (Nat.toDigits 16 n.toNat).map fun c => BitVec.ofNat 16 c.toNat

/-! ## `HexUtil` -/

inductive HexError where
  | illegalArgument
  | numberFormat
  | arrayIndexOutOfBounds
  deriving DecidableEq, Repr

def byteToHexString (b : JByte) : List JChar :=
  let temp := toHexString (b.signExtend 32 &&& 0xFF)
  (if temp.length = 1 then [0x30] else []) ++ temp

def byteArrayToHexString (bytes : List JByte) : List JChar :=
  bytes.foldl (fun hs b => hs ++ byteToHexString b) []

/-- `chars[i]`. -/
def charAt (chars : List JChar) (i : ℕ) : Except HexError JChar :=
  match chars[i]? with
  | some c => .ok c
  | none => .error .arrayIndexOutOfBounds

/-- `bytes[j] = b`. -/
def put (bytes : List JByte) (j : ℕ) (b : JByte) : Except HexError (List JByte) :=
  if j < bytes.length then .ok (bytes.set j b) else .error .arrayIndexOutOfBounds

/-- The byte that is made of a parsed number. -/
def byteOf (n : JInt) : JByte := (n &&& 0xFF).setWidth 8

def parsePair (high low : JChar) : Except HexError JInt :=
  match parseInt [high, low] with
  | some n => .ok n
  | none => .error .numberFormat

/-- The loop; the first index goes on twice in each turn. -/
def decodeFrom (chars : List JChar) (bytes : List JByte) (i j : ℕ) :
    Except HexError (List JByte) :=
  if i < chars.length then do
    let high ← charAt chars i
    let low ← charAt chars (i + 1)
    let byteInt ← parsePair high low
    let bytes ← put bytes j (byteOf byteInt)
    decodeFrom chars bytes (i + 2) (j + 1)
  else .ok bytes
termination_by chars.length - i

def hexStringToByteArray (hexString : List JChar) : Except HexError (List JByte) :=
  if hexString.length % 2 ≠ 0 then .error .illegalArgument
  else decodeFrom hexString (List.replicate (hexString.length / 2) 0) 0 0

/-! ## Pairs -/

/-- What the parser makes of the pairs of a string. -/
def decodePairs : List JChar → Option (List JByte)
  | [] => some []
  | [_] => none
  | high :: low :: rest => do
    let byteInt ← parseInt [high, low]
    let bytes ← decodePairs rest
    return byteOf byteInt :: bytes

theorem decodeFrom_eq {before rest : List JChar} {done : List JByte} {k : ℕ}
    (hrest : rest.length = 2 * k) :
    decodeFrom (before ++ rest) (done ++ List.replicate k 0) before.length done.length =
      (decodePairs rest).elim (.error .numberFormat) fun bytes => .ok (done ++ bytes) := by
  induction k generalizing before rest done with
  | zero =>
    obtain rfl := List.length_eq_zero_iff.mp hrest
    rw [decodeFrom, if_neg (by simp)]
    rfl
  | succ k ih =>
    match rest, hrest with
    | high :: low :: rest, hrest =>
      have hhigh : (before ++ high :: low :: rest)[before.length]? = some high := by simp
      have hlow : (before ++ high :: low :: rest)[before.length + 1]? = some low := by
        rw [List.getElem?_append_right (by omega)]
        simp
      have hlt : before.length < (before ++ high :: low :: rest).length := by simp
      rw [decodeFrom, if_pos hlt, charAt, hhigh, charAt, hlow, decodePairs]
      change (parsePair high low >>= fun byteInt =>
        put (done ++ List.replicate (k + 1) 0) done.length (byteOf byteInt) >>= fun bytes =>
          decodeFrom (before ++ high :: low :: rest) bytes (before.length + 2) (done.length + 1)) = _
      cases hparse : parseInt [high, low] with
      | none =>
        rw [parsePair, hparse]
        rfl
      | some n =>
        have hput : put (done ++ List.replicate (k + 1) 0) done.length (byteOf n) =
            .ok ((done ++ [byteOf n]) ++ List.replicate k 0) := by
          rw [put, if_pos (by simp), List.set_append_right _ _ (le_refl _), Nat.sub_self,
            List.append_assoc]
          rfl
        have hlength : rest.length = 2 * k := by
          rw [List.length_cons, List.length_cons] at hrest
          omega
        have hnext := @ih (before ++ [high, low]) rest (done ++ [byteOf n]) hlength
        rw [List.length_append, List.length_append, List.append_assoc] at hnext
        rw [parsePair, hparse]
        change (put (done ++ List.replicate (k + 1) 0) done.length (byteOf n) >>= fun bytes => _) = _
        rw [hput]
        refine hnext.trans ?_
        cases decodePairs rest with
        | none => rfl
        | some bytes => exact congrArg Except.ok (List.append_assoc _ _ _)

theorem hexStringToByteArray_eq (hexString : List JChar) : hexStringToByteArray hexString =
    if hexString.length % 2 ≠ 0 then .error .illegalArgument
    else (decodePairs hexString).elim (.error .numberFormat) .ok := by
  unfold hexStringToByteArray
  split
  · rfl
  · have hloop := @decodeFrom_eq [] hexString [] (hexString.length / 2) (by omega)
    exact hloop

/-! ## What is accepted -/

/-- A sign or a digit, and a digit. -/
def IsPair (high low : JChar) : Prop :=
  (high = plus ∨ high = minus ∨ (digit high).isSome) ∧ (digit low).isSome

instance (high low : JChar) : Decidable (IsPair high low) := inferInstanceAs (Decidable (_ ∧ _))

def Pairs : List JChar → Prop
  | [] => True
  | [_] => False
  | high :: low :: rest => IsPair high low ∧ Pairs rest

/-- The digits of the grammar. -/
def IsHexDigit (c : JChar) : Prop :=
  (0x30 ≤ c.toNat ∧ c.toNat ≤ 0x39) ∨ (0x41 ≤ c.toNat ∧ c.toNat ≤ 0x46) ∨
    (0x61 ≤ c.toNat ∧ c.toNat ≤ 0x66)

instance (c : JChar) : Decidable (IsHexDigit c) := inferInstanceAs (Decidable (_ ∨ _))

/-- `String.toLowerCase` on ASCII characters. -/
def toLowerCase (c : JChar) : JChar := if 0x41 ≤ c.toNat ∧ c.toNat ≤ 0x5A then c + 0x20 else c

theorem digit_lt {c : JChar} {d : ℕ} (h : digit c = some d) : d < 16 := by
  simp only [digit] at h
  split at h
  · rename_i z hz
    have hrange := List.find?_some hz
    simp only [Bool.and_eq_true, decide_eq_true_eq] at hrange
    cases h
    omega
  · repeat' split at h
    all_goals cases h
    all_goals omega

theorem digit_plus : digit plus = none := by decide

theorem digit_minus : digit minus = none := by decide

theorem parseInt_pair {high low : JChar} {e d : ℕ} (he : digit high = some e)
    (hd : digit low = some d) :
    parseInt [high, low] = some (BitVec.ofInt 32 (16 * e + d : ℕ)) := by
  have hminus : high ≠ minus := fun heq => by simp [heq, digit_minus] at he
  have hplus : high ≠ plus := fun heq => by simp [heq, digit_plus] at he
  have hmagnitude : magnitude [high, low] = some (16 * e + d) := by simp [magnitude, he, hd]
  have hlt := digit_lt he
  have hlt' := digit_lt hd
  have hsigned : signed [high, low] = some ((16 * e + d : ℕ) : ℤ) := by
    simp [signed, hminus, hplus, hmagnitude]
  rw [parseInt, hsigned, Option.filter_some, if_pos (by simp; omega), Option.map_some]

theorem magnitude_one (c : JChar) : magnitude [c] = digit c := by
  cases hc : digit c <;> simp [magnitude, hc]

theorem parseInt_plus {low : JChar} {d : ℕ} (hd : digit low = some d) :
    parseInt [plus, low] = some (BitVec.ofInt 32 d) := by
  have hlt := digit_lt hd
  have hne : plus ≠ minus := by decide
  have hsigned : signed [plus, low] = some (d : ℤ) := by simp [signed, hne, magnitude_one, hd]
  rw [parseInt, hsigned, Option.filter_some, if_pos (by simp; omega), Option.map_some]

theorem parseInt_minus {low : JChar} {d : ℕ} (hd : digit low = some d) :
    parseInt [minus, low] = some (BitVec.ofInt 32 (-d)) := by
  have hlt := digit_lt hd
  have hsigned : signed [minus, low] = some (-d : ℤ) := by simp [signed, magnitude_one, hd]
  rw [parseInt, hsigned, Option.filter_some, if_pos (by simp; omega), Option.map_some]

theorem parseInt_none {high low : JChar} (h : ¬ IsPair high low) : parseInt [high, low] = none := by
  have hsigned : signed [high, low] = none := by
    cases hlow : digit low with
    | none => cases hhigh : digit high <;> simp [signed, magnitude, hlow, hhigh]
    | some d =>
      simp only [IsPair, hlow, Option.isSome_some, and_true, not_or, Bool.not_eq_true,
        Option.isSome_eq_false_iff, Option.isNone_iff_eq_none] at h
      simp [signed, magnitude, h]
  rw [parseInt, hsigned]
  rfl

theorem parseInt_isSome_iff {high low : JChar} :
    (∃ n, parseInt [high, low] = some n) ↔ IsPair high low := by
  constructor
  · intro h
    by_contra hnot
    rw [parseInt_none hnot] at h
    obtain ⟨n, hn⟩ := h
    cases hn
  · intro h
    obtain ⟨hhigh, hlow⟩ := h
    obtain ⟨d, hd⟩ := Option.isSome_iff_exists.mp hlow
    obtain rfl | rfl | hhigh := hhigh
    · exact ⟨_, parseInt_plus hd⟩
    · exact ⟨_, parseInt_minus hd⟩
    · obtain ⟨e, he⟩ := Option.isSome_iff_exists.mp hhigh
      exact ⟨_, parseInt_pair he hd⟩

theorem decodePairs_isSome_iff (s : List JChar) :
    (∃ bytes, decodePairs s = some bytes) ↔ Pairs s := by
  induction s using decodePairs.induct with
  | case1 => exact iff_of_true ⟨[], rfl⟩ trivial
  | case2 c => exact iff_of_false (fun ⟨bytes, hbytes⟩ => nomatch hbytes) id
  | case3 high low rest ih =>
    rw [Pairs, ← ih, ← parseInt_isSome_iff, decodePairs]
    cases parseInt [high, low] with
    | none => simp
    | some n => cases decodePairs rest <;> simp

theorem Pairs.even {s : List JChar} (h : Pairs s) : s.length % 2 = 0 := by
  induction s using decodePairs.induct with
  | case1 => rfl
  | case2 c => exact h.elim
  | case3 high low rest ih =>
    have heven := ih h.2
    rw [List.length_cons, List.length_cons]
    omega

theorem hexStringToByteArray_isOk_iff (s : List JChar) :
    (∃ bytes, hexStringToByteArray s = .ok bytes) ↔ Pairs s := by
  rw [← decodePairs_isSome_iff, hexStringToByteArray_eq]
  split
  · rename_i hodd
    refine iff_of_false (fun ⟨bytes, hbytes⟩ => nomatch hbytes) fun hsome => hodd ?_
    exact ((decodePairs_isSome_iff s).mp hsome).even
  · cases decodePairs s <;> simp

/-! ## Digits and bytes -/

/-- The digit that stands for a number. -/
def unit (e : ℕ) : JChar := BitVec.ofNat 16 e.digitChar.toNat

theorem digit_unit {e : ℕ} (h : e < 16) : digit (unit e) = some e := by
  have hall : ∀ e < 16, digit (unit e) = some e := by decide
  exact hall e h

theorem exists_of_isHexDigit {c : JChar} (h : IsHexDigit c) :
    ∃ e < 16, digit c = some e ∧ unit e = toLowerCase c := by
  have hall : ∀ n < 0x67, IsHexDigit (BitVec.ofNat 16 n) →
      ∃ e < 16, digit (BitVec.ofNat 16 n) = some e ∧ unit e = toLowerCase (BitVec.ofNat 16 n) := by
    decide
  have hlt : c.toNat < 0x67 := by
    unfold IsHexDigit at h
    omega
  have hc := hall c.toNat hlt
  rw [BitVec.ofNat_toNat, BitVec.setWidth_eq] at hc
  exact hc h

/-- The two digits of a byte. -/
theorem byteToHexString_eq (b : JByte) :
    byteToHexString b = [unit (b.toNat / 16), unit (b.toNat % 16)] := by
  have hb := b.isLt
  have hmask : ∀ b : JByte, (b.signExtend 32 &&& 0xFF).toNat = b.toNat := by decide +kernel
  have hhex : toHexString (b.signExtend 32 &&& 0xFF) =
      (Nat.toDigits 16 b.toNat).map fun c => BitVec.ofNat 16 c.toNat := by
    rw [toHexString, hmask b]
  rw [byteToHexString, hhex]
  rcases Nat.lt_or_ge b.toNat 16 with hlt | hge
  · rw [Nat.toDigits_of_lt_base hlt, Nat.div_eq_of_lt hlt, Nat.mod_eq_of_lt hlt]
    rfl
  · rw [Nat.toDigits_of_base_le (by decide) hge, Nat.toDigits_of_lt_base (by omega)]
    rfl

theorem byteOf_ofInt (n : ℕ) : byteOf (BitVec.ofInt 32 n) = BitVec.ofNat 8 n := by
  have hmask : (0xFF : JInt).toNat = 2 ^ 8 - 1 := rfl
  apply BitVec.eq_of_toNat_eq
  rw [byteOf, BitVec.toNat_setWidth, BitVec.toNat_and, hmask, Nat.and_two_pow_sub_one_eq_mod,
    BitVec.ofInt_natCast, BitVec.toNat_ofNat, BitVec.toNat_ofNat]
  omega

theorem byteArrayToHexString_eq (bytes : List JByte) :
    byteArrayToHexString bytes = bytes.flatMap byteToHexString :=
  List.flatMap_eq_foldl.symm

theorem decodePairs_flatMap (bytes : List JByte) :
    decodePairs (bytes.flatMap byteToHexString) = some bytes := by
  induction bytes with
  | nil => rfl
  | cons b bytes ih =>
    have hb := b.isLt
    have hparse := parseInt_pair (digit_unit (show b.toNat / 16 < 16 by omega))
      (digit_unit (show b.toNat % 16 < 16 by omega))
    rw [Nat.div_add_mod] at hparse
    rw [List.flatMap_cons, byteToHexString_eq]
    change decodePairs (unit _ :: unit _ :: bytes.flatMap byteToHexString) = _
    rw [decodePairs, hparse, ih]
    change some (byteOf (BitVec.ofInt 32 (b.toNat : ℤ)) :: bytes) = _
    rw [byteOf_ofInt, BitVec.ofNat_toNat, BitVec.setWidth_eq]

/-- The digits of the grammar come back in lower case. -/
theorem flatMap_of_decodePairs {s : List JChar} {bytes : List JByte}
    (hdigits : ∀ c ∈ s, IsHexDigit c) (h : decodePairs s = some bytes) :
    bytes.flatMap byteToHexString = s.map toLowerCase := by
  induction s using decodePairs.induct generalizing bytes with
  | case1 =>
    cases h
    rfl
  | case2 c => cases h
  | case3 high low rest ih =>
    obtain ⟨e, he, hhigh, hunit⟩ := exists_of_isHexDigit (hdigits high List.mem_cons_self)
    obtain ⟨d, hd, hlow, hunit'⟩ :=
      exists_of_isHexDigit (hdigits low (List.mem_cons_of_mem _ List.mem_cons_self))
    have hrest : ∀ c ∈ rest, IsHexDigit c := fun c hc =>
      hdigits c (List.mem_cons_of_mem _ (List.mem_cons_of_mem _ hc))
    rw [decodePairs, parseInt_pair hhigh hlow] at h
    cases hdecode : decodePairs rest with
    | none =>
      rw [hdecode] at h
      cases h
    | some bytes' =>
      rw [hdecode] at h
      cases h
      have hnat : (BitVec.ofNat 8 (16 * e + d)).toNat = 16 * e + d := by
        rw [BitVec.toNat_ofNat, Nat.mod_eq_of_lt (by omega)]
      have hquot : (16 * e + d) / 16 = e := by omega
      have hrem : (16 * e + d) % 16 = d := by omega
      rw [List.flatMap_cons, byteOf_ofInt, byteToHexString_eq, hnat, hquot, hrem, hunit, hunit',
        ih hrest hdecode]
      rfl

theorem pairs_of_isHexDigit {s : List JChar} (heven : s.length % 2 = 0)
    (hdigits : ∀ c ∈ s, IsHexDigit c) : Pairs s := by
  induction s using decodePairs.induct with
  | case1 => trivial
  | case2 c => exact absurd heven (by simp)
  | case3 high low rest ih =>
    obtain ⟨e, -, hhigh, -⟩ := exists_of_isHexDigit (hdigits high List.mem_cons_self)
    obtain ⟨d, -, hlow, -⟩ :=
      exists_of_isHexDigit (hdigits low (List.mem_cons_of_mem _ List.mem_cons_self))
    rw [List.length_cons, List.length_cons] at heven
    refine ⟨⟨Or.inr (Or.inr ?_), ?_⟩, ih (by omega) fun c hc =>
      hdigits c (List.mem_cons_of_mem _ (List.mem_cons_of_mem _ hc))⟩
    · rw [hhigh]
      rfl
    · rw [hlow]
      rfl

/-! ## The codec -/

def RoundTrips (bytes : List JByte) : Prop :=
  hexStringToByteArray (byteArrayToHexString bytes) = .ok bytes

/-- A string is accepted if it has an even length and all of its characters are digits of the
grammar, and it comes back in lower case. -/
structure Accepted (s : List JChar) : Prop where
  isOk_iff : (∃ bytes, hexStringToByteArray s = .ok bytes) ↔
    s.length % 2 = 0 ∧ ∀ c ∈ s, IsHexDigit c
  back : ∀ bytes, hexStringToByteArray s = .ok bytes → s.length % 2 = 0 →
    (∀ c ∈ s, IsHexDigit c) → byteArrayToHexString bytes = s.map toLowerCase

theorem roundTrips (bytes : List JByte) : RoundTrips bytes := by
  have hdecode := decodePairs_flatMap bytes
  have heven := ((decodePairs_isSome_iff _).mp ⟨bytes, hdecode⟩).even
  rw [RoundTrips, byteArrayToHexString_eq, hexStringToByteArray_eq, hdecode,
    if_neg (not_not.mpr heven)]
  rfl

theorem accepted_iff (s : List JChar) :
    Accepted s ↔ ¬ (Pairs s ∧ ∃ c ∈ s, ¬ IsHexDigit c) := by
  constructor
  · intro h hboth
    obtain ⟨hpairs, c, hc, hnot⟩ := hboth
    exact hnot ((h.isOk_iff.mp ((hexStringToByteArray_isOk_iff s).mpr hpairs)).2 c hc)
  · intro h
    have hdigits : Pairs s → ∀ c ∈ s, IsHexDigit c := fun hpairs c hc => by
      by_contra hnot
      exact h ⟨hpairs, c, hc, hnot⟩
    refine ⟨?_, ?_⟩
    · rw [hexStringToByteArray_isOk_iff]
      exact ⟨fun hpairs => ⟨hpairs.even, hdigits hpairs⟩,
        fun hboth => pairs_of_isHexDigit hboth.1 hboth.2⟩
    · intro bytes hbytes heven hall
      rw [hexStringToByteArray_eq, if_neg (not_not.mpr heven)] at hbytes
      rw [byteArrayToHexString_eq]
      cases hdecode : decodePairs s with
      | none =>
        rw [hdecode] at hbytes
        cases hbytes
      | some bytes' =>
        rw [hdecode] at hbytes
        cases hbytes
        exact flatMap_of_decodePairs hall hdecode

/-- Arrays come back from their strings. A string is treated by the grammar if and only if it is
not made of pairs that the parser reads although one of its characters is none of the grammar. -/
theorem codec_iff (bytes : List JByte) (s : List JChar) :
    RoundTrips bytes ∧ Accepted s ↔ ¬ (Pairs s ∧ ∃ c ∈ s, ¬ IsHexDigit c) := by
  rw [← accepted_iff]
  exact and_iff_right (roundTrips bytes)

/-- The parser reads a sign. -/
theorem not_codec : ¬ ∀ (bytes : List JByte) (s : List JChar), RoundTrips bytes ∧ Accepted s := by
  intro h
  have haccepted := (accepted_iff [0x2B, 0x35]).mp (h [] [0x2B, 0x35]).2
  refine haccepted ⟨⟨by decide, trivial⟩, 0x2B, by decide, by decide⟩

end BigPlan.Security.HexUtil

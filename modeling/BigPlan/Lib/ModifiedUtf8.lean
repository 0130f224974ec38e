import BigPlan.Lib.Java

/-!
# Modified UTF-8

Class files and data streams of Java encode each UTF-16 unit on its own, and the zero by two
bytes. A decoder for UTF-8 reads the units that are characters of their own, and replaces the
others.
-/
namespace BigPlan.Lib.ModifiedUtf8

open Java

/-- The bytes of a unit. -/
def encodeUnit (u : BitVec 16) : List UInt8 :=
  let n := u.toNat
  if 0x01 ≤ n ∧ n ≤ 0x7F then [UInt8.ofNat n]
  else if n ≤ 0x7FF then [UInt8.ofNat (0xC0 + n / 0x40), UInt8.ofNat (0x80 + n % 0x40)]
  else
    [UInt8.ofNat (0xE0 + n / 0x1000), UInt8.ofNat (0x80 + n / 0x40 % 0x40),
      UInt8.ofNat (0x80 + n % 0x40)]

def encode (units : List (BitVec 16)) : List UInt8 := units.flatMap encodeUnit

/-- A unit that is a half of a pair. -/
def IsSurrogate (u : BitVec 16) : Prop := 0xD800 ≤ u.toNat ∧ u.toNat ≤ 0xDFFF

instance : DecidablePred IsSurrogate := fun _ => inferInstanceAs (Decidable (_ ∧ _))

/-- A character of its own other than the zero. -/
def IsPlain (u : BitVec 16) : Prop := u.toNat ≠ 0 ∧ ¬ IsSurrogate u

instance : DecidablePred IsPlain := fun _ => inferInstanceAs (Decidable (_ ∧ _))

/-- What the decoder makes of the bytes of a unit. -/
def readUnit (u : BitVec 16) : List Char :=
  if u.toNat = 0 then [replacement, replacement]
  else if IsSurrogate u then [replacement]
  else [Char.ofNat u.toNat]

/-! ## The decoder -/

/-- A byte after the first one keeps its six low bits. -/
theorem continuation {k : ℕ} (h : k < 0x40) : isContinuation (UInt8.ofNat (0x80 + k)) = true ∧
    (UInt8.ofNat (0x80 + k) &&& 0x3F).toNat = k := by
  have hall : ∀ k : Fin 0x40, isContinuation (UInt8.ofNat (0x80 + k.val)) = true ∧
      (UInt8.ofNat (0x80 + k.val) &&& 0x3F).toNat = k.val := by decide
  exact hall ⟨k, h⟩

theorem lead2 {k : ℕ} (h : k < 0x20) : (UInt8.ofNat (0xC0 + k)).toNat = 0xC0 + k ∧
    (UInt8.ofNat (0xC0 + k) &&& 0x1F).toNat = k := by
  have hall : ∀ k : Fin 0x20, (UInt8.ofNat (0xC0 + k.val)).toNat = 0xC0 + k.val ∧
      (UInt8.ofNat (0xC0 + k.val) &&& 0x1F).toNat = k.val := by decide
  exact hall ⟨k, h⟩

theorem lead3 {k : ℕ} (h : k < 0x10) : (UInt8.ofNat (0xE0 + k)).toNat = 0xE0 + k ∧
    (UInt8.ofNat (0xE0 + k) &&& 0x0F).toNat = k := by
  have hall : ∀ k : Fin 0x10, (UInt8.ofNat (0xE0 + k.val)).toNat = 0xE0 + k.val ∧
      (UInt8.ofNat (0xE0 + k.val) &&& 0x0F).toNat = k.val := by decide
  exact hall ⟨k, h⟩

variable (bs : List UInt8)

theorem decode_one {n : ℕ} (h : n < 0x80) :
    decodeUtf8 (UInt8.ofNat n :: bs) = Char.ofNat n :: decodeUtf8 bs := by
  have hn : (UInt8.ofNat n).toNat = n := by
    rw [UInt8.toNat_ofNat', Nat.mod_eq_of_lt (by omega)]
  have hlt : UInt8.ofNat n < 0x80 := by
    rw [UInt8.lt_iff_toNat_lt, hn]
    exact h
  rw [decodeUtf8.eq_def]
  simp only [hlt, if_true, hn]

theorem decode_zero : decodeUtf8 (0xC0 :: 0x80 :: bs) = replacement :: replacement :: decodeUtf8 bs := by
  have hfirst : ∀ bs, decodeUtf8 (0xC0 :: bs) = replacement :: decodeUtf8 bs := by
    intro bs
    rw [decodeUtf8.eq_def]
    simp
  have hsecond : ∀ bs, decodeUtf8 (0x80 :: bs) = replacement :: decodeUtf8 bs := by
    intro bs
    rw [decodeUtf8.eq_def]
    simp
  rw [hfirst, hsecond]

theorem decode_two {n : ℕ} (hlo : 0x80 ≤ n) (hhi : n ≤ 0x7FF) :
    decodeUtf8 (UInt8.ofNat (0xC0 + n / 0x40) :: UInt8.ofNat (0x80 + n % 0x40) :: bs) =
      Char.ofNat n :: decodeUtf8 bs := by
  obtain ⟨hlead, hbits⟩ := lead2 (show n / 0x40 < 0x20 by omega)
  obtain ⟨hcont, hlow⟩ := continuation (show n % 0x40 < 0x40 by omega)
  have h80 : ¬ UInt8.ofNat (0xC0 + n / 0x40) < 0x80 := by
    rw [UInt8.lt_iff_toNat_lt, hlead]
    simp
    omega
  have hC2 : 0xC2 ≤ UInt8.ofNat (0xC0 + n / 0x40) ∧ UInt8.ofNat (0xC0 + n / 0x40) ≤ 0xDF := by
    rw [UInt8.le_iff_toNat_le, UInt8.le_iff_toNat_le, hlead]
    simp
    omega
  have hpoint : codePoint (UInt8.ofNat (0xC0 + n / 0x40) &&& 0x1F)
      [UInt8.ofNat (0x80 + n % 0x40)] = n := by
    rw [codePoint, List.foldl_cons, List.foldl_nil, hbits, hlow]
    omega
  rw [decodeUtf8.eq_def]
  simp only [h80, hC2, hcont, hpoint, if_true, if_false, and_self]

theorem decode_three {n : ℕ} (hlo : 0x800 ≤ n) (hhi : n ≤ 0xFFFF) :
    decodeUtf8 (UInt8.ofNat (0xE0 + n / 0x1000) :: UInt8.ofNat (0x80 + n / 0x40 % 0x40) ::
        UInt8.ofNat (0x80 + n % 0x40) :: bs) =
      (if n.isValidChar then Char.ofNat n else replacement) :: decodeUtf8 bs := by
  obtain ⟨hlead, hbits⟩ := lead3 (show n / 0x1000 < 0x10 by omega)
  obtain ⟨hcont2, hlow2⟩ := continuation (show n / 0x40 % 0x40 < 0x40 by omega)
  obtain ⟨hcont3, hlow3⟩ := continuation (show n % 0x40 < 0x40 by omega)
  have h80 : ¬ UInt8.ofNat (0xE0 + n / 0x1000) < 0x80 := by
    rw [UInt8.lt_iff_toNat_lt, hlead]
    simp
    omega
  have hDF : ¬ UInt8.ofNat (0xE0 + n / 0x1000) ≤ 0xDF := by
    rw [UInt8.le_iff_toNat_le, hlead]
    simp
    omega
  have hEF : 0xE0 ≤ UInt8.ofNat (0xE0 + n / 0x1000) ∧ UInt8.ofNat (0xE0 + n / 0x1000) ≤ 0xEF := by
    rw [UInt8.le_iff_toNat_le, UInt8.le_iff_toNat_le, hlead]
    simp
    omega
  have hmalformed : isMalformed3 (UInt8.ofNat (0xE0 + n / 0x1000))
      (UInt8.ofNat (0x80 + n / 0x40 % 0x40)) = false := by
    have hsecond : (UInt8.ofNat (0x80 + n / 0x40 % 0x40)).toNat = 0x80 + n / 0x40 % 0x40 := by
      rw [UInt8.toNat_ofNat', Nat.mod_eq_of_lt (by omega)]
    rw [isMalformed3, hcont2, Bool.not_true, Bool.or_false, Bool.and_eq_false_imp]
    intro hE0
    have hfirst := congrArg UInt8.toNat (beq_iff_eq.mp hE0)
    rw [hlead] at hfirst
    rw [decide_eq_false_iff_not, UInt8.lt_iff_toNat_lt, hsecond]
    simp at hfirst ⊢
    omega
  have hpoint : codePoint (UInt8.ofNat (0xE0 + n / 0x1000) &&& 0x0F)
      [UInt8.ofNat (0x80 + n / 0x40 % 0x40), UInt8.ofNat (0x80 + n % 0x40)] = n := by
    rw [codePoint, List.foldl_cons, List.foldl_cons, List.foldl_nil, hbits, hlow2, hlow3]
    omega
  rw [decodeUtf8.eq_def]
  simp only [h80, hDF, hEF, hmalformed, hcont3, hpoint, if_true, if_false, and_false, and_self,
    Bool.false_eq_true]

theorem decode_encodeUnit (u : BitVec 16) :
    decodeUtf8 (encodeUnit u ++ bs) = readUnit u ++ decodeUtf8 bs := by
  have hlt := u.isLt
  by_cases hzero : u.toNat = 0
  · simp only [encodeUnit, readUnit, hzero, if_true]
    exact decode_zero bs
  by_cases hone : u.toNat ≤ 0x7F
  · have hsurrogate : ¬ IsSurrogate u := fun h => by
      have := h.1
      omega
    rw [encodeUnit, if_pos ⟨by omega, hone⟩, readUnit, if_neg hzero, if_neg hsurrogate]
    exact decode_one bs (by omega)
  by_cases htwo : u.toNat ≤ 0x7FF
  · have hsurrogate : ¬ IsSurrogate u := fun h => by
      have := h.1
      omega
    rw [encodeUnit, if_neg (by omega), if_pos htwo, readUnit, if_neg hzero, if_neg hsurrogate]
    exact decode_two bs (by omega) htwo
  · have hread : [if u.toNat.isValidChar then Char.ofNat u.toNat else replacement] = readUnit u := by
      rw [readUnit, if_neg hzero]
      by_cases hsurrogate : IsSurrogate u
      · rw [if_pos hsurrogate, if_neg]
        obtain ⟨hlow, hhigh⟩ := hsurrogate
        unfold Nat.isValidChar
        omega
      · rw [if_neg hsurrogate, if_pos]
        unfold IsSurrogate at hsurrogate
        unfold Nat.isValidChar
        omega
    rw [encodeUnit, if_neg (by omega), if_neg htwo, ← hread]
    exact decode_three bs (by omega) (by omega)

theorem decode_encode (units : List (BitVec 16)) :
    decodeUtf8 (encode units) = units.flatMap readUnit := by
  induction units with
  | nil => rfl
  | cons u units ih =>
    rw [encode, List.flatMap_cons, decode_encodeUnit, ← encode, ih, List.flatMap_cons]

/-! ## The units that are read back -/

theorem utf16Units_ofNat {n : ℕ} (hvalid : n.isValidChar) (hlt : n < 0x10000) :
    utf16Units (Char.ofNat n) = [n] := by
  have hchar : Char.ofNat n = Char.ofNatAux n hvalid := dif_pos hvalid
  have htoNat : (Char.ofNat n).toNat = n := congrArg Char.toNat hchar
  rw [utf16Units, htoNat, if_pos hlt]

/-- A plain unit is read back, and another one is not. -/
theorem units_readUnit (u : BitVec 16) (units rest : List (BitVec 16)) :
    ((readUnit u).flatMap fun c => (utf16Units c).map (BitVec.ofNat 16)) ++ rest = u :: units ↔
      IsPlain u ∧ rest = units := by
  have hreplacement : (utf16Units replacement).map (BitVec.ofNat 16) = [0xFFFD] := by decide
  have hplain : IsPlain 0xFFFD := by decide
  by_cases hzero : u.toNat = 0
  · rw [readUnit, if_pos hzero, List.flatMap_cons, hreplacement]
    constructor
    · intro h
      obtain ⟨rfl, -⟩ := List.cons_eq_cons.mp h
      exact absurd hzero hplain.1
    · intro h
      exact absurd hzero h.1.1
  by_cases hsurrogate : IsSurrogate u
  · rw [readUnit, if_neg hzero, if_pos hsurrogate, List.flatMap_cons, hreplacement]
    constructor
    · intro h
      obtain ⟨rfl, -⟩ := List.cons_eq_cons.mp h
      exact absurd hsurrogate hplain.2
    · intro h
      exact absurd hsurrogate h.1.2
  · have hlt := u.isLt
    have hvalid : u.toNat.isValidChar := by
      unfold IsSurrogate at hsurrogate
      unfold Nat.isValidChar
      omega
    rw [readUnit, if_neg hzero, if_neg hsurrogate, List.flatMap_singleton,
      utf16Units_ofNat hvalid hlt, List.map_singleton, BitVec.ofNat_toNat, BitVec.setWidth_eq,
      List.singleton_append, List.cons_eq_cons]
    exact ⟨fun h => ⟨⟨hzero, hsurrogate⟩, h.2⟩, fun h => ⟨rfl, h.2⟩⟩

/-- A text comes through a decoder for UTF-8 if its units are plain. -/
theorem newUtf16_encode_eq_iff (units : List (BitVec 16)) :
    newUtf16 (encode units) = units ↔ ∀ u ∈ units, IsPlain u := by
  induction units with
  | nil => exact ⟨fun _ u hu => absurd hu List.not_mem_nil, fun _ => rfl⟩
  | cons u units ih =>
    have hcons : newUtf16 (encode (u :: units)) =
        ((readUnit u).flatMap fun c => (utf16Units c).map (BitVec.ofNat 16)) ++
          newUtf16 (encode units) := by
      rw [newUtf16, decode_encode, newUtf16, decode_encode, List.flatMap_cons, List.flatMap_append]
    rw [hcons, units_readUnit, ih, List.forall_mem_cons]

end BigPlan.Lib.ModifiedUtf8

import Mathlib.Data.List.Basic

/-!
# Frames that end with a delimiter

A decoder that cuts a stream of bytes, as it arrives in fragments, at each occurrence of a
delimiter. Frames come through unharmed if the delimiter shows up in none of them, nor across
the end of one.
-/
namespace BigPlan.Lib.Framing

variable {α : Type*}

structure Delimiter (α : Type*) where
  bytes : List α
  ne_nil : bytes ≠ []

/-- The frames, each with the delimiter behind it. -/
def stream (delimiter : Delimiter α) (bs : List (List α)) : List α :=
  bs.flatMap fun b => b ++ delimiter.bytes

@[simp] theorem stream_cons (delimiter : Delimiter α) (b : List α) (bs : List (List α)) :
    stream delimiter (b :: bs) = b ++ delimiter.bytes ++ stream delimiter bs := rfl

theorem stream_append (delimiter : Delimiter α) (bs bs' : List (List α)) :
    stream delimiter (bs ++ bs') = stream delimiter bs ++ stream delimiter bs' :=
  List.flatMap_append

/-! ## The first occurrence -/

variable [DecidableEq α]

/-- Where the delimiter begins for the first time. -/
def indexOf (delimiter : List α) : List α → Option ℕ
  | [] => none
  | a :: l => if delimiter <+: a :: l then some 0 else (indexOf delimiter l).map (· + 1)

section IndexOf

variable {delimiter : List α} {l r b : List α} {i : ℕ}

theorem exists_of_indexOf (h : indexOf delimiter l = some i) :
    ∃ b r, b.length = i ∧ l = b ++ (delimiter ++ r) := by
  induction l generalizing i with
  | nil => cases h
  | cons a l ih =>
    rw [indexOf] at h
    split_ifs at h with hprefix
    · obtain rfl : 0 = i := Option.some.inj h
      obtain ⟨rest, hrest⟩ := hprefix
      exact ⟨[], rest, rfl, hrest.symm⟩
    · obtain ⟨j, hj, rfl⟩ := Option.map_eq_some_iff.mp h
      obtain ⟨b, r, rfl, rfl⟩ := ih hj
      exact ⟨a :: b, r, rfl, rfl⟩

theorem le_of_indexOf (h : indexOf delimiter l = some i) : i + delimiter.length ≤ l.length := by
  obtain ⟨b, r, rfl, rfl⟩ := exists_of_indexOf h
  simp only [List.length_append]
  omega

theorem indexOf_append (h : indexOf delimiter l = some i) (r : List α) :
    indexOf delimiter (l ++ r) = some i := by
  induction l generalizing i with
  | nil => cases h
  | cons a l ih =>
    rw [indexOf] at h
    rw [List.cons_append, indexOf]
    split_ifs at h with hprefix
    · have hlong : delimiter <+: a :: (l ++ r) := hprefix.trans (List.prefix_append (a :: l) r)
      rw [if_pos hlong]
      exact h
    · obtain ⟨j, hj, rfl⟩ := Option.map_eq_some_iff.mp h
      have hlong : ¬ delimiter <+: a :: (l ++ r) := by
        intro hprefix'
        have hle : delimiter.length ≤ (a :: l).length := by
          have hlength := le_of_indexOf hj
          rw [List.length_cons]
          omega
        rw [← List.cons_append] at hprefix'
        exact hprefix (List.prefix_of_prefix_length_le hprefix' (List.prefix_append _ _) hle)
      rw [if_neg hlong, ih hj]
      rfl

theorem isSome_indexOf (hne : delimiter ≠ []) (b r : List α) :
    (indexOf delimiter (b ++ (delimiter ++ r))).isSome := by
  induction b with
  | nil =>
    obtain ⟨a, rest, rfl⟩ := List.exists_cons_of_ne_nil hne
    have hprefix : a :: rest <+: a :: (rest ++ r) := List.prefix_append (a :: rest) r
    rw [List.nil_append, List.cons_append, indexOf, if_pos hprefix]
    rfl
  | cons c b ih =>
    rw [List.cons_append, indexOf]
    split_ifs
    · rfl
    · rw [Option.isSome_map]
      exact ih

end IndexOf

/-! ## Clean frames -/

/-- The delimiter behind the frame is where it shows up first. -/
def Clean (delimiter : Delimiter α) (b : List α) : Prop :=
  indexOf delimiter.bytes (b ++ delimiter.bytes) = some b.length

instance (delimiter : Delimiter α) : DecidablePred (Clean delimiter) :=
  fun b => inferInstanceAs (Decidable (indexOf _ (b ++ _) = some b.length))

section Clean

variable {delimiter : Delimiter α} {b l q : List α} {i : ℕ}

/-- What stands before the first delimiter is clean. -/
theorem clean_take (h : indexOf delimiter.bytes l = some i) : Clean delimiter (l.take i) := by
  obtain ⟨b, r, rfl, rfl⟩ := exists_of_indexOf h
  rw [List.take_left]
  obtain ⟨j, hj⟩ := Option.isSome_iff_exists.mp (isSome_indexOf delimiter.ne_nil b [])
  rw [List.append_nil] at hj
  have hwhole := indexOf_append hj r
  rw [List.append_assoc, h] at hwhole
  rw [Clean, hj, hwhole]

/-- As long as the frame with its delimiter is not complete, there is no delimiter. -/
theorem Clean.indexOf_of_isPrefix (h : Clean delimiter b) (hq : q <+: b ++ delimiter.bytes)
    (hlt : q.length < b.length + delimiter.bytes.length) : indexOf delimiter.bytes q = none := by
  cases hindex : indexOf delimiter.bytes q with
  | none => rfl
  | some i =>
    obtain ⟨r, hr⟩ := hq
    have hwhole := indexOf_append hindex r
    rw [hr, h] at hwhole
    obtain rfl : b.length = i := Option.some.inj hwhole
    have hlength := le_of_indexOf hindex
    omega

end Clean

/-! ## The decoder -/

/-- The bytes that have arrived, and whether those of a frame that is too long are dropped. -/
structure Decoder (α : Type*) where
  buffer : List α
  discarding : Bool
  deriving DecidableEq, Repr

inductive Outcome (α : Type*) where
  | frame (bytes : List α) (decoder : Decoder α)
  | skip (decoder : Decoder α)
  | tooLong (decoder : Decoder α)
  | wait

section Decode

variable (maxFrameLength : ℕ) (delimiter : Delimiter α)

def decode (decoder : Decoder α) : Outcome α :=
  match indexOf delimiter.bytes decoder.buffer with
  | some i =>
    let rest : Decoder α := ⟨decoder.buffer.drop (i + delimiter.bytes.length), false⟩
    if decoder.discarding then .skip rest
    else if maxFrameLength < i then .tooLong rest
    else .frame (decoder.buffer.take i) rest
  | none =>
    if decoder.discarding then .skip ⟨[], true⟩
    else if maxFrameLength < decoder.buffer.length then .tooLong ⟨[], true⟩
    else .wait

theorem length_frame {decoder decoder' : Decoder α} {bytes : List α}
    (h : decode maxFrameLength delimiter decoder = .frame bytes decoder') :
    decoder'.buffer.length < decoder.buffer.length := by
  unfold decode at h
  have hpos := List.length_pos_of_ne_nil delimiter.ne_nil
  split at h
  · rename_i i hindex
    have hlength := le_of_indexOf hindex
    split_ifs at h
    cases h
    rw [List.length_drop]
    omega
  · split_ifs at h

theorem length_skip {decoder decoder' : Decoder α} (hne : decoder.buffer ≠ [])
    (h : decode maxFrameLength delimiter decoder = .skip decoder') :
    decoder'.buffer.length < decoder.buffer.length := by
  unfold decode at h
  have hpos := List.length_pos_of_ne_nil delimiter.ne_nil
  split at h
  · rename_i i hindex
    have hlength := le_of_indexOf hindex
    split_ifs at h
    cases h
    rw [List.length_drop]
    omega
  · split_ifs at h
    cases h
    exact List.length_pos_of_ne_nil hne

/-- Decodes as long as there are bytes and it gets on; a frame that is too long ends it with an
exception, and the bytes behind it wait for the next ones. -/
def callDecode (decoder : Decoder α) : List (List α) × Decoder α :=
  if _hne : decoder.buffer = [] then ([], decoder)
  else
    match _h : decode maxFrameLength delimiter decoder with
    | .frame bytes decoder' =>
      let (frames, last) := callDecode decoder'
      (bytes :: frames, last)
    | .skip decoder' => callDecode decoder'
    | .tooLong decoder' => ([], decoder')
    | .wait => ([], decoder)
termination_by decoder.buffer.length
decreasing_by
  · exact length_frame _ _ _h
  · exact length_skip _ _ _hne _h

/-- The frames of the fragments that arrive one after the other. -/
def frames (decoder : Decoder α) : List (List α) → List (List α)
  | [] => []
  | fragment :: fragments =>
    let (first, decoder') := callDecode maxFrameLength delimiter
      { decoder with buffer := decoder.buffer ++ fragment }
    first ++ frames decoder' fragments

end Decode

/-! ## Streams of frames -/

section Stream

variable {maxFrameLength : ℕ} {delimiter : Delimiter α} {b q : List α} {bs : List (List α)}
  {decoder decoder' : Decoder α}

theorem callDecode_of_frame (h : decode maxFrameLength delimiter decoder = .frame b decoder') :
    callDecode maxFrameLength delimiter decoder =
      (b :: (callDecode maxFrameLength delimiter decoder').1,
        (callDecode maxFrameLength delimiter decoder').2) := by
  have hne : decoder.buffer ≠ [] := by
    intro hnil
    have hlt := length_frame _ _ h
    rw [hnil] at hlt
    exact absurd hlt (Nat.not_lt_zero _)
  rw [callDecode, dif_neg hne]
  split <;> rename_i hdecode <;> rw [h] at hdecode <;> cases hdecode
  rfl

theorem callDecode_of_wait (h : decode maxFrameLength delimiter decoder = .wait) :
    callDecode maxFrameLength delimiter decoder = ([], decoder) := by
  rw [callDecode]
  split_ifs
  · rfl
  · split <;> rename_i hdecode <;> rw [h] at hdecode <;> cases hdecode

/-- What the limit allows of a frame. -/
def Fits (maxFrameLength : ℕ) (delimiter : Delimiter α) (b : List α) : Prop :=
  Clean delimiter b ∧ b.length + delimiter.bytes.length ≤ maxFrameLength

theorem decode_complete (h : Fits maxFrameLength delimiter b) :
    decode maxFrameLength delimiter ⟨b ++ delimiter.bytes ++ q, false⟩ = .frame b ⟨q, false⟩ := by
  have hindex := indexOf_append h.1 q
  have hfit : ¬ maxFrameLength < b.length := by
    have hle := h.2
    omega
  have htake : (b ++ delimiter.bytes ++ q).take b.length = b := by
    rw [List.append_assoc, List.take_left]
  have hdrop : (b ++ delimiter.bytes ++ q).drop (b.length + delimiter.bytes.length) = q := by
    rw [← List.length_append, List.drop_left]
  simp only [decode, hindex, hfit, if_false, Bool.false_eq_true, htake, hdrop]

theorem decode_incomplete (h : Fits maxFrameLength delimiter b) (hq : q <+: b ++ delimiter.bytes)
    (hlt : q.length < b.length + delimiter.bytes.length) :
    decode maxFrameLength delimiter ⟨q, false⟩ = .wait := by
  have hfit : ¬ maxFrameLength < q.length := by
    have hle := h.2
    omega
  simp only [decode, h.1.indexOf_of_isPrefix hq hlt, hfit, if_false, Bool.false_eq_true]

/-- The bytes that wait do not complete the next frame. -/
def Waits (delimiter : Delimiter α) (q : List α) (bs : List (List α)) : Prop :=
  ∀ b ∈ bs.head?, q.length < b.length + delimiter.bytes.length

/-- From the beginning of a stream the complete frames come, and the rest waits. -/
theorem exists_callDecode (hfits : ∀ b ∈ bs, Fits maxFrameLength delimiter b)
    (hq : q <+: stream delimiter bs) :
    ∃ done rest r, bs = done ++ rest ∧ q = stream delimiter done ++ r ∧
      callDecode maxFrameLength delimiter ⟨q, false⟩ = (done, ⟨r, false⟩) ∧
      Waits delimiter r rest := by
  induction bs generalizing q with
  | nil =>
    obtain rfl : q = [] := List.prefix_nil.mp hq
    refine ⟨[], [], [], rfl, rfl, ?_, fun b hb => (by cases hb)⟩
    rw [callDecode, dif_pos rfl]
  | cons b bs ih =>
    have hb := hfits b List.mem_cons_self
    rw [stream_cons] at hq
    by_cases hlt : q.length < b.length + delimiter.bytes.length
    · have hprefix : q <+: b ++ delimiter.bytes := by
        refine List.prefix_of_prefix_length_le hq (List.prefix_append _ _) ?_
        rw [List.length_append]
        omega
      refine ⟨[], b :: bs, q, rfl, rfl, callDecode_of_wait (decode_incomplete hb hprefix hlt), ?_⟩
      intro c hc
      obtain rfl : b = c := Option.some.inj hc
      exact hlt
    · have hprefix : b ++ delimiter.bytes <+: q := by
        refine List.prefix_of_prefix_length_le (List.prefix_append _ _) hq ?_
        rw [List.length_append]
        omega
      obtain ⟨q', rfl⟩ := hprefix
      have hq' : q' <+: stream delimiter bs := (List.prefix_append_right_inj _).mp hq
      obtain ⟨done, rest, r, hbs, heq, hcall, hwaits⟩ :=
        ih (fun c hc => hfits c (List.mem_cons_of_mem _ hc)) hq'
      refine ⟨b :: done, rest, r, by rw [hbs, List.cons_append], ?_, ?_, hwaits⟩
      · rw [heq, stream_cons, List.append_assoc (b ++ delimiter.bytes)]
      · rw [callDecode_of_frame (decode_complete hb), hcall]

/-- However the stream of clean frames is cut into fragments, the frames come out. -/
theorem frames_stream (hfits : ∀ b ∈ bs, Fits maxFrameLength delimiter b)
    {fragments : List (List α)} (hq : q ++ fragments.flatten = stream delimiter bs)
    (hwaits : Waits delimiter q bs) :
    frames maxFrameLength delimiter ⟨q, false⟩ fragments = bs := by
  induction fragments generalizing q bs with
  | nil =>
    cases bs with
    | nil => rfl
    | cons b bs =>
      have hlength := congrArg List.length hq
      have hlt := hwaits b rfl
      simp only [stream_cons, List.flatten_nil, List.append_nil, List.length_append] at hlength
      omega
  | cons fragment fragments ih =>
    rw [List.flatten_cons, ← List.append_assoc] at hq
    obtain ⟨done, rest, r, rfl, heq, hcall, hrest⟩ :=
      exists_callDecode hfits ⟨fragments.flatten, hq⟩
    have hremaining : r ++ fragments.flatten = stream delimiter rest := by
      rw [heq, stream_append, List.append_assoc] at hq
      exact List.append_cancel_left hq
    have hlater := ih (fun b hb => hfits b (List.mem_append_right _ hb)) hremaining hrest
    rw [frames]
    simp only [hcall, hlater]

/-- A frame that comes out is clean. -/
theorem clean_of_mem_callDecode (h : b ∈ (callDecode maxFrameLength delimiter decoder).1) :
    Clean delimiter b := by
  induction decoder using callDecode.induct maxFrameLength delimiter with
  | case1 decoder hnil =>
    rw [callDecode, dif_pos hnil] at h
    cases h
  | case2 decoder hne bytes decoder' hdecode frames last heq ih =>
    rw [callDecode_of_frame hdecode] at h
    rcases List.mem_cons.mp h with rfl | hlater
    · unfold decode at hdecode
      split at hdecode
      · rename_i i hindex
        split_ifs at hdecode
        cases hdecode
        exact clean_take hindex
      · split_ifs at hdecode
    · exact ih hlater
  | case3 decoder hne decoder' hdecode ih =>
    apply ih
    rw [callDecode, dif_neg hne] at h
    split at h <;> rename_i hdecode' <;> rw [hdecode] at hdecode' <;> cases hdecode'
    exact h
  | case4 decoder hne decoder' hdecode =>
    rw [callDecode, dif_neg hne] at h
    split at h <;> rename_i hdecode' <;> rw [hdecode] at hdecode' <;> cases hdecode'
    cases h
  | case5 decoder hne hdecode =>
    rw [callDecode_of_wait hdecode] at h
    cases h

theorem clean_of_mem_frames {fragments : List (List α)}
    (h : b ∈ frames maxFrameLength delimiter decoder fragments) : Clean delimiter b := by
  induction fragments generalizing decoder with
  | nil => cases h
  | cons fragment fragments ih =>
    rcases List.mem_append.mp h with hfirst | hlater
    · exact clean_of_mem_callDecode hfirst
    · exact ih hlater

end Stream

end BigPlan.Lib.Framing

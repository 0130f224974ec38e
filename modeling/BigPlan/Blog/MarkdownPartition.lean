import BigPlan.Blog.MarkdownBlocks
import BigPlan.Lib.Text

/-!
# Lines and items

What the items of a text are to hold: its lines that are not blank and its code blocks, in
consecutive blocks, each without its marks. Only the texts of lists may come with the blanks
around them.
-/
namespace BigPlan.Blog.ParseMarkdownUtils

open Lib.Java (isBlank)
open Lib.Scan Lib.Strings
open MarkdownItemType

def isFence (type : MarkdownItemType) : Bool := type = CODE_BLACK || type = CODE_BLACK2

/-- A line outside of the code blocks, or a code block with the lines between its fences. -/
inductive Piece where
  | line (text : String)
  | code (type : MarkdownItemType) (lines : List String)
  deriving DecidableEq, Repr

/-- The lines that are not blank, and the code blocks. A code block ends at the first line that is
its fence, or with the text. -/
def pieces : List String → List Piece
  | [] => []
  | line :: rest =>
    if isFence (checkType line) then
      .code (checkType line) (rest.takeWhile (isCode (checkType line).start)) ::
        pieces ((rest.dropWhile (isCode (checkType line).start)).drop 1)
    else if isBlank (some line) then pieces rest
    else .line line :: pieces rest
termination_by lines => lines.length
decreasing_by
  · have hle := (List.dropWhile_suffix (l := rest) (isCode (checkType line).start)).length_le
    rw [List.length_drop, List.length_cons]
    omega
  · exact Nat.lt_succ_self _
  · exact Nat.lt_succ_self _

/-- The line without the low characters before its mark, and without the mark. -/
def unmarked (mark line : String) : String :=
  String.ofList ((line.toList.dropWhile isLow).drop mark.toList.length)

/-- The item is for these pieces: it has the type of the first, and holds the text of them all in
their order, without the marks. -/
def Holds (item : MarkdownItemDTO) (block : List Piece) : Prop :=
  match item.type with
  | TITLE1 | TITLE2 | TITLE3 | TITLE4 | TITLE5 | TITLE6 =>
    ∃ line, block = [.line line] ∧ checkType line = item.type ∧
      item.content = .text (trim (unmarked item.type.start line))
  | NONE =>
    ∃ line more, block = (line :: more).map .line ∧ checkType line = NONE ∧
      item.content = .text (concat (line :: more))
  | QUOTE =>
    ∃ line more, block = (line :: more).map .line ∧ checkType line = QUOTE ∧
      item.content = .text (concat (unmarked QUOTE.start line :: more))
  | UNSORTED_LIST =>
    ∃ lines, lines ≠ [] ∧ block = lines.map .line ∧ (∀ line ∈ lines, checkType line = UNSORTED_LIST) ∧
      item.content = Block.listOf (lines.map fun line => trim (unmarked UNSORTED_LIST.start line))
  | SORTED_LIST =>
    ∃ lines, lines ≠ [] ∧ block = lines.map .line ∧
      (∀ k line, lines[k]? = some line → isItem (k + 1) line) ∧
      item.content =
        Block.listOf (lines.mapIdx fun k line => trim (unmarked (listStart (k + 1)) line))
  | CODE_BLACK | CODE_BLACK2 =>
    ∃ lines, block = [.code item.type lines] ∧ item.content = .text ("\r\n".intercalate lines)
  | _ => False

/-- The types of lines that the partition is about. -/
def isBlockType (type : MarkdownItemType) : Bool :=
  type ∈ [NONE, QUOTE, TITLE1, TITLE2, TITLE3, TITLE4, TITLE5, TITLE6, UNSORTED_LIST, SORTED_LIST]

def Admissible (lines : List String) : Prop :=
  ∀ line, Piece.line line ∈ pieces lines → isBlockType (checkType line) = true

/-- The items are in order for the blocks of a partition of the pieces. -/
def Corresponds (lines : List String) : Prop :=
  ∃ blocks : List (List Piece), blocks.flatten = pieces lines ∧ List.Forall₂ Holds (parse lines) blocks

/-- The items are numbered, and those of admissible lines correspond to them. -/
def Parsed (lines : List String) : Prop :=
  (parse lines).map (·.order) = List.range' 1 (parse lines).length ∧
    (Admissible lines → Corresponds lines)

/-- The texts that the parser does not trim have no blanks around them: the first one of an unsorted
list and all those of a sorted list. -/
def Block.Trimmed : Block → Prop
  | .list UNSORTED_LIST line _ =>
    trim (unmarked UNSORTED_LIST.start line) = unmarked UNSORTED_LIST.start line
  | .list SORTED_LIST line more =>
    ∀ k text, (line :: more)[k]? = some text →
      trim (unmarked (listStart (k + 1)) text) = unmarked (listStart (k + 1)) text
  | _ => True

/-! ## Types and marks -/

section Marks

variable {line mark : String} {type : MarkdownItemType}

/-- Whatever type a line has, its checker accepts the line. -/
theorem checker_of_checkType (h : checkType line = type) (hne : type ≠ NONE) :
    type.checker line = true := by
  have hfold (types : List MarkdownItemType) (textType : MarkdownItemType)
      (hstart : textType = NONE ∨ textType.checker line = true) :
      let last := types.foldl
        (fun textType type => if type ≠ NONE ∧ type.checker line then type else textType) textType
      last = NONE ∨ last.checker line = true := by
    induction types generalizing textType with
    | nil => exact hstart
    | cons type types ih =>
      refine ih _ ?_
      dsimp only
      split
      · rename_i h
        exact .inr h.2
      · exact hstart
  rcases hfold values NONE (.inl rfl) with hnone | hchecker
  · exact absurd (h.symm.trans hnone) hne
  · rw [← h]
    exact hchecker

theorem marks_iff : marks mark line = true ↔
    isBlank (some line) = false ∧ startsWith (trim line) mark = true := by
  simp [marks]

theorem mem_toList_of_mem_trim {c : Char} (h : c ∈ (trim line).toList) : c ∈ line.toList := by
  rw [trim, String.toList_ofList] at h
  exact (List.dropWhile_suffix isLow).subset ((List.rdropWhile_prefix isLow _).subset h)

/-- A line with a type is not blank. -/
theorem not_isBlank_of_checker (h : type.checker line = true) : isBlank (some line) = false := by
  cases type with
  | NONE => cases h
  | LINE =>
    have htrim : trim line = "______" := by simpa [checker] using h
    have hmem : '_' ∈ line.toList := mem_toList_of_mem_trim (by rw [htrim]; decide +kernel)
    rw [isBlank, List.all_eq_false]
    exact ⟨'_', hmem, by decide⟩
  | TABLE | ITALIC | DELETE | SUPER_LINK | IMAGE =>
    simp only [checker, links, Bool.and_eq_true] at h
    exact (marks_iff.mp h.1).1
  | _ => exact (marks_iff.mp h).1

theorem head_listStart (n : ℕ) :
    ∃ c, (listStart n).toList.head? = some c ∧ c.isDigit = true := by
  cases hrepr : n.repr.toList with
  | nil =>
    have hlength := congrArg List.length hrepr
    rw [Nat.toList_repr] at hlength
    exact absurd hlength (Nat.ne_of_gt Nat.length_toDigits_pos)
  | cons c l =>
    refine ⟨c, ?_, Lib.Text.digit_of_mem_natRepr (hrepr ▸ List.mem_cons_self)⟩
    have hto : (toString n).toList = c :: l := hrepr
    rw [listStart, String.toList_append, hto]
    rfl

theorem isLow_of_isDigit {c : Char} (h : c.isDigit = true) : isLow c = false := by
  simp only [Char.isDigit, Bool.and_eq_true, decide_eq_true_eq] at h
  simp only [isLow, decide_eq_false_iff_not, not_le]
  have hle : ('0' : Char).val.toNat ≤ c.val.toNat := h.1
  exact lt_of_lt_of_le (by decide) hle

/-- A line with a number is no fence. -/
theorem not_isFence_of_isItem {n : ℕ} (h : isItem n line = true) :
    isFence (checkType line) = false := by
  obtain ⟨c, hc, hdigit⟩ := head_listStart n
  have hhead := head_of_startsWith hc (marks_iff.mp h).2
  have hnot (type : MarkdownItemType) (d : Char) (hd : type.start.toList.head? = some d)
      (hne : d.isDigit = false) (hmarks : marks type.start line = true) : False := by
    have hhead' := head_of_startsWith hd (marks_iff.mp hmarks).2
    rw [hhead, Option.some.injEq] at hhead'
    rw [← hhead', hdigit] at hne
    cases hne
  rw [isFence, Bool.or_eq_false_iff, decide_eq_false_iff_not, decide_eq_false_iff_not]
  constructor
  · intro htype
    exact hnot CODE_BLACK '~' (by decide +kernel) (by decide) (checker_of_checkType htype (by decide))
  · intro htype
    exact hnot CODE_BLACK2 '\x60' (by decide +kernel) (by decide)
      (checker_of_checkType htype (by decide))

/-- A mark begins with no character that is trimmed away. -/
def isMark (mark : String) : Bool :=
  match mark.toList.head? with
  | some c => !isLow c
  | none => false

/-- The first occurrence of a mark is the one at the start. -/
theorem substringAfter_of_marks (hmark : isMark mark = true) (h : marks mark line = true) :
    substringAfter line mark = unmarked mark line := by
  unfold isMark at hmark
  split at hmark
  · rename_i c hc
    exact substringAfter_of_startsWith_trim hc (by simpa using hmark) (marks_iff.mp h).2
  · cases hmark

theorem substringAfter_of_isItem {n : ℕ} (h : isItem n line = true) :
    substringAfter line (listStart n) = unmarked (listStart n) line := by
  obtain ⟨c, hc, hdigit⟩ := head_listStart n
  refine substringAfter_of_marks ?_ h
  rw [isMark, hc]
  dsimp only
  rw [isLow_of_isDigit hdigit]
  rfl

end Marks

/-! ## The pieces of the blocks -/

def Block.pieces : Block → List Piece
  | .single _ line => [.line line]
  | .paragraph _ line more => (line :: more).map .line
  | .list _ line more => (line :: more).map .line
  | .code type lines => [.code type lines]

/-- What is known of the lines of a block. -/
inductive Block.Valid : Block → Prop
  | single {type : MarkdownItemType} {line : String} (htype : checkType line = type)
      (hother : ¬ (type = NONE ∨ type = QUOTE ∨ type = UNSORTED_LIST ∨ type = SORTED_LIST)) :
      Valid (.single type line)
  | paragraph {type : MarkdownItemType} {line : String} {more : List String}
      (hparagraph : type = NONE ∨ type = QUOTE) (htype : checkType line = type) :
      Valid (.paragraph type line more)
  | unsorted {line : String} {more : List String}
      (htype : ∀ text ∈ line :: more, checkType text = UNSORTED_LIST) :
      Valid (.list UNSORTED_LIST line more)
  | sorted {line : String} {more : List String} (htype : checkType line = SORTED_LIST)
      (hnumber : ∀ k text, (line :: more)[k]? = some text → isItem (k + 1) text = true) :
      Valid (.list SORTED_LIST line more)
  | code {type : MarkdownItemType} {lines : List String} (htype : isFence type = true) :
      Valid (.code type lines)

section Pieces

variable {line : String} {rest lines : List String}

/-- A line that is a piece of its own. -/
def Plain (line : String) : Prop := isFence (checkType line) = false ∧ isBlank (some line) = false

theorem pieces_cons_of_plain (h : Plain line) : pieces (line :: rest) = .line line :: pieces rest := by
  rw [pieces, h.1, h.2]
  rfl

theorem pieces_append_of_plain (h : ∀ text ∈ lines, Plain text) :
    pieces (lines ++ rest) = lines.map .line ++ pieces rest := by
  induction lines with
  | nil => rfl
  | cons text lines ih =>
    rw [List.cons_append, pieces_cons_of_plain (h text List.mem_cons_self),
      ih fun text htext => h text (List.mem_cons_of_mem _ htext)]
    rfl

theorem plain_of_type {type : MarkdownItemType} (h : checkType line = type) (hne : type ≠ NONE)
    (hfence : isFence type = false) : Plain line :=
  ⟨by rw [h, hfence], not_isBlank_of_checker (checker_of_checkType h hne)⟩

theorem plain_of_isText (h : isText line = true) : Plain line := by
  rw [isText, Bool.and_eq_true, decide_eq_true_eq, Bool.not_eq_true'] at h
  exact ⟨by rw [h.1]; rfl, h.2⟩

theorem plain_of_isItem {n : ℕ} (h : isItem n line = true) : Plain line :=
  ⟨not_isFence_of_isItem h, (marks_iff.mp h).1⟩

theorem plain_numbered (rest : List String) {text : String} (h : text ∈ numbered isItem 2 rest) :
    Plain text := by
  obtain ⟨k, hk⟩ := List.mem_iff_getElem?.mp h
  exact plain_of_isItem (fits_of_numbered hk)

/-- A block takes its pieces from the front. -/
theorem pieces_blockOf (line : String) (rest : List String) :
    pieces (line :: rest) =
      (blockOf line rest).1.toList.flatMap Block.pieces ++ pieces (blockOf line rest).2 := by
  have htaken (p : String → Bool) (hp : ∀ text, p text = true → Plain text) :
      pieces rest = (rest.takeWhile p).map .line ++ pieces (rest.dropWhile p) := by
    rw [← pieces_append_of_plain fun text htext => hp text (List.mem_takeWhile_imp htext),
      List.takeWhile_append_dropWhile]
  unfold blockOf
  cases htype : checkType line with
  | NONE =>
    dsimp only
    split
    · rename_i hblank
      rw [pieces, htype, hblank]
      rfl
    · rename_i hblank
      have hplain : Plain line := ⟨by rw [htype]; rfl, by simpa using hblank⟩
      rw [pieces_cons_of_plain hplain, htaken isText fun _ => plain_of_isText]
      simp [Block.pieces]
  | QUOTE =>
    rw [pieces_cons_of_plain (plain_of_type htype (by decide) rfl),
      htaken isText fun _ => plain_of_isText]
    simp [Block.pieces]
  | UNSORTED_LIST =>
    have hplain (text : String) (h : isUnsorted text = true) : Plain text :=
      plain_of_type (of_decide_eq_true h) (by decide) rfl
    rw [pieces_cons_of_plain (plain_of_type htype (by decide) rfl), htaken isUnsorted hplain]
    simp [Block.pieces]
  | SORTED_LIST =>
    have hrest : pieces rest = (numbered isItem 2 rest).map .line ++
        pieces (rest.drop (numbered isItem 2 rest).length) := by
      have happend := List.prefix_iff_eq_append.mp (@numbered_isPrefix String rest isItem 2)
      rw [← pieces_append_of_plain fun _ => plain_numbered rest, happend]
    rw [pieces_cons_of_plain (plain_of_type htype (by decide) rfl), hrest]
    simp [Block.pieces]
  | CODE_BLACK | CODE_BLACK2 =>
    rw [pieces, htype]
    simp [isFence, Block.pieces]
  | _ =>
    rw [pieces_cons_of_plain (plain_of_type htype (by decide) rfl)]
    rfl

/-- The blocks are a partition of the pieces. -/
theorem pieces_cut (lines : List String) : (cut lines).flatMap Block.pieces = pieces lines := by
  induction lines using cut.induct with
  | case1 => rw [cut, pieces]; rfl
  | case2 line rest ih => rw [cut, List.flatMap_append, ih, ← pieces_blockOf]

theorem valid_blockOf {block : Block} (h : (blockOf line rest).1 = some block) : block.Valid := by
  unfold blockOf at h
  cases htype : checkType line with
  | NONE =>
    simp only [htype] at h
    split at h
    · cases h
    · cases h
      exact .paragraph (.inl rfl) htype
  | QUOTE =>
    simp only [htype] at h
    cases h
    exact .paragraph (.inr rfl) htype
  | UNSORTED_LIST =>
    simp only [htype] at h
    cases h
    refine .unsorted fun text htext => ?_
    rcases List.mem_cons.mp htext with rfl | hmem
    · exact htype
    · have hunsorted : isUnsorted text = true := List.mem_takeWhile_imp hmem
      exact of_decide_eq_true hunsorted
  | SORTED_LIST =>
    simp only [htype] at h
    cases h
    refine .sorted htype fun k text htext => ?_
    cases k with
    | zero =>
      obtain rfl := Option.some.inj htext
      exact checker_of_checkType htype (by decide)
    | succ k =>
      rw [List.getElem?_cons_succ] at htext
      have hfits := fits_of_numbered htext
      rwa [Nat.add_comm 2] at hfits
  | CODE_BLACK | CODE_BLACK2 =>
    simp only [htype] at h
    cases h
    exact .code rfl
  | _ =>
    simp only [htype] at h
    cases h
    exact .single htype (by decide)

theorem valid_of_mem_cut {block : Block} (h : block ∈ cut lines) : block.Valid := by
  induction lines using cut.induct with
  | case1 =>
    rw [cut] at h
    cases h
  | case2 line rest ih =>
    rw [cut, List.mem_append, Option.mem_toList] at h
    rcases h with h | h
    · exact valid_blockOf h
    · exact ih h

theorem ne_empty_of_mem_pieces {text : String} (h : Piece.line text ∈ pieces lines) : text ≠ "" := by
  induction lines using pieces.induct with
  | case1 =>
    rw [pieces] at h
    cases h
  | case2 line rest hfence ih =>
    rw [pieces, if_pos hfence] at h
    rcases List.mem_cons.mp h with heq | hmem
    · cases heq
    · exact ih hmem
  | case3 line rest hfence hblank ih =>
    rw [pieces, if_neg hfence, if_pos hblank] at h
    exact ih h
  | case4 line rest hfence hblank ih =>
    rw [pieces, if_neg hfence, if_neg hblank] at h
    rcases List.mem_cons.mp h with heq | hmem
    · cases heq
      rintro rfl
      exact hblank rfl
    · exact ih hmem

end Pieces

/-! ## What the item of a block holds -/

section Holding

variable {block : Block} {n : ℕ}

theorem listOf_injective : Function.Injective Block.listOf := by
  intro a b h
  have htexts (l : List String) :
      (l.mapIdx fun k text => (⟨k + 1, text⟩ : ListItemDTO)).map (·.text) = l := by
    refine List.ext_getElem? fun k => ?_
    rw [List.getElem?_map, List.getElem?_mapIdx, Option.map_map]
    exact congrFun Option.map_id _
  have hitems := congrArg (List.map (·.text)) (Content.list.inj h)
  rwa [htexts, htexts] at hitems

theorem map_line_injective : Function.Injective (List.map Piece.line) :=
  List.map_injective_iff.mpr fun _ _ h => Piece.line.inj h

/-- What each title, each quote and each line of a list loses is its mark. -/
theorem substringAfter_of_checkType {line : String} {type : MarkdownItemType}
    (h : checkType line = type) (hne : type ≠ NONE) (hblock : isBlockType type = true) :
    substringAfter line type.start = unmarked type.start line := by
  have hchecker := checker_of_checkType h hne
  cases type with
  | QUOTE | UNSORTED_LIST | SORTED_LIST | TITLE1 | TITLE2 | TITLE3 | TITLE4 | TITLE5 | TITLE6 =>
    exact substringAfter_of_marks (by decide +kernel) hchecker
  | _ => simp [isBlockType] at hblock hne

theorem texts_unsorted {line : String} {more : List String}
    (htype : ∀ text ∈ line :: more, checkType text = UNSORTED_LIST) :
    Block.texts UNSORTED_LIST line more = unmarked UNSORTED_LIST.start line ::
      more.map fun line => trim (unmarked UNSORTED_LIST.start line) := by
  have hmark (text : String) (h : text ∈ line :: more) :
      substringAfter text UNSORTED_LIST.start = unmarked UNSORTED_LIST.start text :=
    substringAfter_of_checkType (htype text h) (by decide) rfl
  rw [Block.texts, hmark line List.mem_cons_self]
  refine congrArg (_ :: ·) (List.map_congr_left fun text h => ?_)
  rw [hmark text (List.mem_cons_of_mem _ h)]

theorem texts_sorted {line : String} {more : List String}
    (hnumber : ∀ k text, (line :: more)[k]? = some text → isItem (k + 1) text = true) :
    Block.texts SORTED_LIST line more =
      (line :: more).mapIdx fun k text => unmarked (listStart (k + 1)) text := by
  have hstart : SORTED_LIST.start = listStart (0 + 1) := by decide +kernel
  simp only [Block.texts]
  rw [List.mapIdx_cons, hstart, substringAfter_of_isItem (hnumber 0 line rfl)]
  refine congrArg (_ :: ·) (List.ext_getElem? fun k => ?_)
  rw [List.getElem?_mapIdx, List.getElem?_mapIdx]
  cases htext : more[k]? with
  | none => rw [Option.map_none, Option.map_none]
  | some text =>
    have hitem := hnumber (k + 1) text htext
    rw [Option.map_some, Option.map_some, Nat.add_comm 2, substringAfter_of_isItem hitem]

theorem holds_sorted {content : Content} {block : List Piece} :
    Holds ⟨n, SORTED_LIST, content⟩ block ↔
      ∃ lines, lines ≠ [] ∧ block = lines.map .line ∧
        (∀ k line, lines[k]? = some line → isItem (k + 1) line) ∧
        content =
          Block.listOf (lines.mapIdx fun k line => trim (unmarked (listStart (k + 1)) line)) :=
  Iff.rfl

theorem content_list {type : MarkdownItemType} {line : String} {more : List String} :
    (Block.list type line more).content = Block.listOf (Block.texts type line more) := rfl

theorem holds_iff_sorted {line : String} {more : List String}
    (hnumber : ∀ k text, (line :: more)[k]? = some text → isItem (k + 1) text = true) :
    Holds ⟨n, SORTED_LIST, (Block.list SORTED_LIST line more).content⟩ ((line :: more).map .line) ↔
      ∀ k text, (line :: more)[k]? = some text →
        trim (unmarked (listStart (k + 1)) text) = unmarked (listStart (k + 1)) text := by
  rw [holds_sorted, content_list, texts_sorted hnumber]
  constructor
  · intro hholds
    obtain ⟨lines, -, hpieces, -, hcontent⟩ := hholds
    obtain rfl := map_line_injective hpieces
    intro k text htext
    have hk := congrArg (·[k]?) (listOf_injective hcontent)
    simp only [List.getElem?_mapIdx, htext, Option.map_some, Option.some.injEq] at hk
    exact hk.symm
  · intro htrimmed
    have htexts :
        ((line :: more).mapIdx fun k text => trim (unmarked (listStart (k + 1)) text)) =
          (line :: more).mapIdx fun k text => unmarked (listStart (k + 1)) text := by
      refine List.ext_getElem? fun k => ?_
      rw [List.getElem?_mapIdx, List.getElem?_mapIdx]
      cases htext : (line :: more)[k]? with
      | none => rw [Option.map_none, Option.map_none]
      | some text => rw [Option.map_some, Option.map_some, htrimmed k text htext]
    refine ⟨line :: more, List.cons_ne_nil _ _, rfl, hnumber, ?_⟩
    rw [htexts]

theorem holds_iff_unsorted {line : String} {more : List String}
    (htype : ∀ text ∈ line :: more, checkType text = UNSORTED_LIST) :
    Holds ⟨n, UNSORTED_LIST, (Block.list UNSORTED_LIST line more).content⟩
        ((line :: more).map .line) ↔
      trim (unmarked UNSORTED_LIST.start line) = unmarked UNSORTED_LIST.start line := by
  rw [content_list, texts_unsorted htype]
  constructor
  · intro hholds
    obtain ⟨lines, -, hpieces, -, hcontent⟩ := hholds
    obtain rfl := map_line_injective hpieces
    have htexts := listOf_injective hcontent
    rw [List.map_cons] at htexts
    exact (List.cons.inj htexts).1.symm
  · intro htrimmed
    refine ⟨line :: more, List.cons_ne_nil _ _, rfl, htype, congrArg Block.listOf ?_⟩
    rw [List.map_cons, htrimmed]

/-- The item of a block is for its pieces exactly if the texts of a list have no blanks around
them. -/
theorem holds_iff (hvalid : block.Valid)
    (hadmissible : ∀ line, Piece.line line ∈ block.pieces → isBlockType (checkType line) = true) :
    Holds ⟨n, block.type, block.content⟩ block.pieces ↔ block.Trimmed := by
  cases hvalid with
  | @single type line htype hother =>
    have hblock := hadmissible line List.mem_cons_self
    rw [htype] at hblock
    refine iff_of_true ?_ trivial
    cases type with
    | TITLE1 | TITLE2 | TITLE3 | TITLE4 | TITLE5 | TITLE6 =>
      refine ⟨line, rfl, htype, congrArg Content.text (congrArg trim ?_)⟩
      exact substringAfter_of_checkType htype (by decide) rfl
    | _ => simp [isBlockType] at hblock hother
  | @paragraph type line more hparagraph htype =>
    refine iff_of_true ?_ trivial
    rcases hparagraph with rfl | rfl
    · exact ⟨line, more, rfl, htype, rfl⟩
    · refine ⟨line, more, rfl, htype, congrArg Content.text ?_⟩
      rw [substringAfter_of_checkType htype (by decide) rfl]
  | unsorted htype => exact holds_iff_unsorted htype
  | sorted _ hnumber => exact holds_iff_sorted hnumber
  | @code type lines htype =>
    refine iff_of_true ?_ trivial
    cases type with
    | CODE_BLACK | CODE_BLACK2 => exact ⟨lines, rfl, rfl⟩
    | _ => cases htype

end Holding

/-! ## One partition -/

section Unique

variable {block : Block} {n : ℕ} {whole pieces' : List Piece}

theorem length_eq_of_concat {a b : List String} (hne : ∀ text ∈ b, text ≠ "") (hbegins : a <+: b)
    (hconcat : concat a = concat b) : a.length = b.length := by
  obtain ⟨t, rfl⟩ := hbegins
  cases t with
  | nil => rw [List.append_nil]
  | cons text t =>
    have hlist := congrArg String.toList hconcat
    simp only [toList_concat, List.flatMap_append, List.self_eq_append_right, List.flatMap_cons,
      List.append_eq_nil_iff] at hlist
    exact absurd (String.toList_inj.mp hlist.1) (hne text (by simp))

/-- Two paragraphs at the front of the same pieces begin with the same line, and they have as many
lines if the rest of their lines reads the same. -/
theorem length_eq_of_pieces {line line' : String} {more more' : List String}
    (hne : ∀ text, Piece.line text ∈ whole → text ≠ "")
    (h : (line :: more).map Piece.line <+: whole) (h' : (line' :: more').map Piece.line <+: whole) :
    line = line' ∧ (concat more = concat more' → more.length = more'.length) := by
  have hinj : Function.Injective Piece.line := fun _ _ h => Piece.line.inj h
  have htail {a b : List String} (ha : a.map Piece.line <+: whole)
      (hb : b.map Piece.line <+: whole) (hle : a.length ≤ b.length) : a <+: b :=
    (List.prefix_map_iff_of_injective hinj).mp
      (List.prefix_of_prefix_length_le ha hb (by simpa using hle))
  have hmore {a b : String} {l m : List String} (hb : (b :: m).map Piece.line <+: whole)
      (hbegins : a :: l <+: b :: m) (hconcat : concat l = concat m) : l.length = m.length := by
    refine length_eq_of_concat (fun text htext => hne text (hb.subset ?_))
      (List.cons_prefix_cons.mp hbegins).2 hconcat
    exact List.mem_map_of_mem (List.mem_cons_of_mem _ htext)
  rcases Nat.le_total (line :: more).length (line' :: more').length with hle | hle
  · have hbegins := htail h h' hle
    exact ⟨(List.cons_prefix_cons.mp hbegins).1, hmore h' hbegins⟩
  · have hbegins := htail h' h hle
    exact ⟨(List.cons_prefix_cons.mp hbegins).1.symm,
      fun hconcat => (hmore h hbegins hconcat.symm).symm⟩

theorem concat_cons_inj {text : String} {l m : List String}
    (h : concat (text :: l) = concat (text :: m)) : concat l = concat m := by
  have hlist := congrArg String.toList h
  simp only [toList_concat, List.flatMap_cons] at hlist
  rw [← String.toList_inj, toList_concat, toList_concat]
  exact List.append_cancel_left hlist

theorem length_texts {type : MarkdownItemType} {line : String} {more : List String} :
    (Block.texts type line more).length = (line :: more).length := by
  unfold Block.texts
  split <;> simp

/-- The item of a block is for no other beginning of the pieces. -/
theorem eq_of_holds (hvalid : block.Valid) (hne : ∀ text, Piece.line text ∈ whole → text ≠ "")
    (hblock : block.pieces <+: whole) (hbegins : pieces' <+: whole)
    (hholds : Holds ⟨n, block.type, block.content⟩ pieces') : pieces' = block.pieces := by
  have heq (hlength : pieces'.length = block.pieces.length) : pieces' = block.pieces :=
    (List.prefix_of_prefix_length_le hbegins hblock hlength.le).eq_of_length hlength
  apply heq
  cases hvalid with
  | @single type line htype hother =>
    cases type with
    | TITLE1 | TITLE2 | TITLE3 | TITLE4 | TITLE5 | TITLE6 | CODE_BLACK | CODE_BLACK2 =>
      obtain ⟨_, rfl, -⟩ := hholds
      rfl
    | NONE | QUOTE | UNSORTED_LIST | SORTED_LIST => simp at hother
    | _ => exact hholds.elim
  | @paragraph type line more hparagraph htype =>
    rcases hparagraph with rfl | rfl
    · obtain ⟨line', more', rfl, -, hcontent⟩ := hholds
      obtain ⟨rfl, hlength⟩ := length_eq_of_pieces hne hbegins hblock
      have hmore := concat_cons_inj (Content.text.inj hcontent)
      simpa [Block.pieces] using hlength hmore.symm
    · obtain ⟨line', more', rfl, -, hcontent⟩ := hholds
      obtain ⟨rfl, hlength⟩ := length_eq_of_pieces hne hbegins hblock
      have htext := Content.text.inj hcontent
      rw [substringAfter_of_checkType htype (by decide) rfl] at htext
      simpa [Block.pieces] using hlength (concat_cons_inj htext).symm
  | @unsorted line more htype =>
    obtain ⟨lines, -, rfl, -, hcontent⟩ := hholds
    have htexts := congrArg List.length (listOf_injective hcontent)
    rw [length_texts, List.length_map] at htexts
    simpa [Block.pieces] using htexts.symm
  | @sorted line more htype hnumber =>
    obtain ⟨lines, -, rfl, -, hcontent⟩ := hholds
    have htexts := congrArg List.length (listOf_injective hcontent)
    rw [length_texts, List.length_mapIdx] at htexts
    simpa [Block.pieces] using htexts.symm
  | @code type lines htype =>
    cases type with
    | CODE_BLACK | CODE_BLACK2 =>
      obtain ⟨_, rfl, -⟩ := hholds
      rfl
    | _ => cases htype

/-- The items of blocks correspond to no other partition than the blocks themselves. -/
theorem eq_of_forall₂_holds {cutBlocks : List Block} (hvalid : ∀ block ∈ cutBlocks, block.Valid)
    {blocks : List (List Piece)}
    (hne : ∀ text, Piece.line text ∈ cutBlocks.flatMap Block.pieces → text ≠ "")
    (hflatten : blocks.flatten = cutBlocks.flatMap Block.pieces)
    (h : List.Forall₂ Holds (items n cutBlocks) blocks) : blocks = cutBlocks.map Block.pieces := by
  induction cutBlocks generalizing n blocks with
  | nil =>
    cases h
    rfl
  | cons block cutBlocks ih =>
    rw [items_cons] at h
    cases h with
    | @cons _ pieces' _ blocks hholds hrest =>
      rw [List.flatMap_cons] at hne hflatten
      rw [List.flatten_cons] at hflatten
      have heq := eq_of_holds (hvalid block List.mem_cons_self) hne (List.prefix_append _ _)
        (hflatten ▸ List.prefix_append _ _) hholds
      subst heq
      have hblocks := ih (fun block h => hvalid block (List.mem_cons_of_mem _ h))
        (fun text h => hne text (List.mem_append_right _ h)) (List.append_cancel_left hflatten) hrest
      rw [List.map_cons, hblocks]

theorem forall₂_holds_iff {cutBlocks : List Block} (hvalid : ∀ block ∈ cutBlocks, block.Valid)
    (hadmissible : ∀ line, Piece.line line ∈ cutBlocks.flatMap Block.pieces →
      isBlockType (checkType line) = true) :
    List.Forall₂ Holds (items n cutBlocks) (cutBlocks.map Block.pieces) ↔
      ∀ block ∈ cutBlocks, block.Trimmed := by
  induction cutBlocks generalizing n with
  | nil => simp [items]
  | cons block cutBlocks ih =>
    rw [List.flatMap_cons] at hadmissible
    rw [items_cons, List.map_cons, List.forall₂_cons, List.forall_mem_cons]
    refine and_congr ?_ ?_
    · exact holds_iff (hvalid block List.mem_cons_self) fun line h =>
        hadmissible line (List.mem_append_left _ h)
    · exact ih (fun block h => hvalid block (List.mem_cons_of_mem _ h))
        fun line h => hadmissible line (List.mem_append_right _ h)

end Unique

theorem corresponds_iff {lines : List String} (hadmissible : Admissible lines) :
    Corresponds lines ↔ ∀ block ∈ cut lines, block.Trimmed := by
  have hvalid : ∀ block ∈ cut lines, block.Valid := fun block h => valid_of_mem_cut h
  rw [Admissible, ← pieces_cut] at hadmissible
  have hne : ∀ text, Piece.line text ∈ (cut lines).flatMap Block.pieces → text ≠ "" := by
    intro text h
    rw [pieces_cut] at h
    exact ne_empty_of_mem_pieces h
  rw [Corresponds, parse_eq, ← pieces_cut, ← forall₂_holds_iff (n := 0) hvalid hadmissible]
  constructor
  · intro hcorresponds
    obtain ⟨blocks, hflatten, hholds⟩ := hcorresponds
    rwa [eq_of_forall₂_holds hvalid hne hflatten hholds] at hholds
  · intro hholds
    exact ⟨_, List.flatMap_def.symm, hholds⟩

/-- A text is parsed as it is to be exactly if no text of a list that the parser leaves untrimmed
has blanks around it. -/
theorem parsed_iff (lines : List String) :
    Parsed lines ↔ (Admissible lines → ∀ block ∈ cut lines, block.Trimmed) := by
  rw [Parsed, and_iff_right (orders_parse lines)]
  exact imp_congr_right corresponds_iff

/-- The first item of a list, with two blanks behind its mark. -/
theorem not_parsed : ¬ ∀ lines, Parsed lines := by
  intro h
  have hpieces : pieces ["-  redis"] = [.line "-  redis"] := by decide +kernel
  have hcut : cut ["-  redis"] = [.list UNSORTED_LIST "-  redis" []] := by decide +kernel
  have hadmissible : Admissible ["-  redis"] := by
    intro line hline
    rw [hpieces, List.mem_singleton] at hline
    cases hline
    decide +kernel
  have htrimmed := (corresponds_iff hadmissible).mp ((h ["-  redis"]).2 hadmissible)
    (.list UNSORTED_LIST "-  redis" []) (by rw [hcut]; exact List.mem_singleton_self _)
  revert htrimmed
  simp only [Block.Trimmed]
  decide +kernel

end BigPlan.Blog.ParseMarkdownUtils

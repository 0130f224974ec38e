import BigPlan.Blog.ParseMarkdown

/-!
# The blocks of a Markdown text

Cutting a text into blocks, as a recursion on its lines, and the items of `parse` as what these
blocks contain.
-/
namespace BigPlan.Blog.ParseMarkdownUtils

open Lib.Java (isBlank)
open Lib.Scan Lib.Strings
open MarkdownItemType

/-- The lines of an item: one, a paragraph, a list, or what is between two fences. -/
inductive Block where
  | single (type : MarkdownItemType) (line : String)
  | paragraph (type : MarkdownItemType) (line : String) (more : List String)
  | list (type : MarkdownItemType) (line : String) (more : List String)
  | code (type : MarkdownItemType) (lines : List String)
  deriving DecidableEq, Repr

namespace Block

def type : Block → MarkdownItemType
  | single type _ => type
  | paragraph type _ _ => type
  | list type _ _ => type
  | code type _ => type

def singleContent (type : MarkdownItemType) (line : String) : Content :=
  match type with
  | TITLE1 | TITLE2 | TITLE3 | TITLE4 | TITLE5 | TITLE6 =>
    .text (trim (substringAfter line type.start))
  | LINE => .text type.start
  | IMAGE | SUPER_LINK => parseLink line type
  | _ => .null

/-- Only the later lines of an unsorted list are trimmed. -/
def texts (type : MarkdownItemType) (line : String) (more : List String) : List String :=
  substringAfter line type.start ::
    match type with
    | UNSORTED_LIST => more.map fun line => trim (substringAfter line type.start)
    | _ => more.mapIdx fun k line => substringAfter line (listStart (2 + k))

/-- The texts with their places in the list. -/
def listOf (texts : List String) : Content := .list (texts.mapIdx fun k text => ⟨k + 1, text⟩)

def content : Block → Content
  | single type line => singleContent type line
  | paragraph NONE line more => .text (concat (line :: more))
  | paragraph type line more => .text (concat (substringAfter line type.start :: more))
  | list type line more => listOf (texts type line more)
  | code _ lines => .text ("\r\n".intercalate lines)

end Block

def isCode (fence line : String) : Bool := line != fence

def isUnsorted (line : String) : Bool := checkType line = UNSORTED_LIST

/-- The block that a line begins, unless the line is blank, and the lines behind the block. -/
def blockOf (line : String) (rest : List String) : Option Block × List String :=
  match checkType line with
  | NONE =>
    if isBlank (some line) then (none, rest)
    else (some (.paragraph NONE line (rest.takeWhile isText)), rest.dropWhile isText)
  | QUOTE => (some (.paragraph QUOTE line (rest.takeWhile isText)), rest.dropWhile isText)
  | UNSORTED_LIST =>
    (some (.list UNSORTED_LIST line (rest.takeWhile isUnsorted)), rest.dropWhile isUnsorted)
  | SORTED_LIST =>
    let more := numbered isItem 2 rest
    (some (.list SORTED_LIST line more), rest.drop more.length)
  | CODE_BLACK =>
    (some (.code CODE_BLACK (rest.takeWhile (isCode CODE_BLACK.start))),
      (rest.dropWhile (isCode CODE_BLACK.start)).drop 1)
  | CODE_BLACK2 =>
    (some (.code CODE_BLACK2 (rest.takeWhile (isCode CODE_BLACK2.start))),
      (rest.dropWhile (isCode CODE_BLACK2.start)).drop 1)
  | type => (some (.single type line), rest)

theorem length_blockOf (line : String) (rest : List String) :
    (blockOf line rest).2.length ≤ rest.length := by
  have hdrop (p : String → Bool) : (rest.dropWhile p).length ≤ rest.length :=
    (List.dropWhile_suffix p).length_le
  have hcode (p : String → Bool) : ((rest.dropWhile p).drop 1).length ≤ rest.length := by
    rw [List.length_drop]
    exact (Nat.sub_le _ _).trans (hdrop p)
  unfold blockOf
  split
  · split
    · exact Nat.le_refl _
    · exact hdrop _
  · exact hdrop _
  · exact hdrop _
  · simp
  · exact hcode _
  · exact hcode _
  · exact Nat.le_refl _

def cut : List String → List Block
  | [] => []
  | line :: rest => (blockOf line rest).1.toList ++ cut (blockOf line rest).2
termination_by lines => lines.length
decreasing_by exact Nat.lt_succ_of_le (length_blockOf line rest)

/-- The items of blocks, numbered on behind `n` others. -/
def items (n : ℕ) (blocks : List Block) : List MarkdownItemDTO :=
  blocks.mapIdx fun k block => ⟨n + k + 1, block.type, block.content⟩

/-! ## The loops -/

section Loops

variable {lines : List String} {i : ℕ} {line : String}

theorem parseNone_eq (quote : String) :
    (parseNone i quote lines).2 = concat (quote :: (lines.drop (i + 1)).takeWhile isText) ∧
      lines.drop ((parseNone i quote lines).1 + 1) = (lines.drop (i + 1)).dropWhile isText := by
  unfold parseNone
  obtain ⟨hstate, hleft⟩ := scanFrom_eq
    (fun quote next => if isText next then some (quote ++ next) else none) lines i quote
  have hconcat := foldl_append (l := (lines.drop (i + 1)).takeWhile isText) (fun line => line) quote
  rw [hstate, hleft, scan_while isText fun quote next => quote ++ next]
  refine ⟨hconcat.trans ?_, rfl⟩
  rw [List.map_id', ← String.toList_inj]
  simp [String.toList_append]

theorem parseCode_eq (fence code : String) :
    (parseCode fence lines i code).2 =
        code ++ concat (((lines.drop (i + 1)).takeWhile (isCode fence)).map (· ++ "\r\n")) ∧
      lines.drop ((parseCode fence lines i code).1 + 1) =
        ((lines.drop (i + 1)).dropWhile (isCode fence)).drop 1 := by
  induction i, code using parseCode.induct fence lines with
  | case1 i code h heq =>
    have hstop : ¬ isCode fence lines[i + 1] = true := by simp [isCode, heq]
    rw [parseCode, dif_pos h, if_pos heq, List.drop_eq_getElem_cons h,
      List.takeWhile_cons_of_neg hstop, List.dropWhile_cons_of_neg hstop]
    refine ⟨?_, rfl⟩
    rw [← String.toList_inj]
    simp [String.toList_append]
  | case2 i code h hne ih =>
    have hgo : isCode fence lines[i + 1] = true := by simp [isCode, hne]
    rw [parseCode, dif_pos h, if_neg hne, List.drop_eq_getElem_cons h,
      List.takeWhile_cons_of_pos hgo, List.dropWhile_cons_of_pos hgo]
    refine ⟨ih.1.trans ?_, ih.2⟩
    rw [← String.toList_inj]
    simp [String.toList_append]
  | case3 i code h =>
    have hnil : lines.drop (i + 1) = [] := List.drop_of_length_le (Nat.not_lt.mp h)
    have hnil' : lines.drop (i + 1 + 1) = [] :=
      List.drop_of_length_le ((Nat.not_lt.mp h).trans (Nat.le_succ _))
    rw [parseCode, dif_neg h, hnil, hnil']
    refine ⟨?_, rfl⟩
    rw [← String.toList_inj]
    simp [String.toList_append]

theorem parseList_unsorted :
    (parseList lines i line UNSORTED_LIST).2 =
        (Block.list UNSORTED_LIST line ((lines.drop (i + 1)).takeWhile isUnsorted)).content ∧
      lines.drop ((parseList lines i line UNSORTED_LIST).1 + 1) =
        (lines.drop (i + 1)).dropWhile isUnsorted := by
  have hnext : (fun (list : List ListItemDTO) itemLine =>
      if checkType itemLine = UNSORTED_LIST then
        some (addItem list (trim (substringAfter itemLine UNSORTED_LIST.start)))
      else none) = fun list itemLine =>
        if isUnsorted itemLine then
          some (addItem list (trim (substringAfter itemLine UNSORTED_LIST.start)))
        else none := by
    funext list itemLine
    simp [isUnsorted]
  have hadd (l : List String) (acc : List ListItemDTO) :
      l.foldl (fun list itemLine =>
          addItem list (trim (substringAfter itemLine UNSORTED_LIST.start))) acc =
        acc ++ (l.map fun line => trim (substringAfter line UNSORTED_LIST.start)).mapIdx
          fun k text => ⟨acc.length + k + 1, text⟩ := by
    induction l generalizing acc with
    | nil => simp
    | cons line l ih =>
      rw [List.foldl_cons, ih]
      simp [addItem, Nat.add_assoc, Nat.add_comm 1]
  simp only [parseList, hnext]
  obtain ⟨hstate, hleft⟩ := scanFrom_eq
    (fun (list : List ListItemDTO) itemLine => if isUnsorted itemLine then
      some (addItem list (trim (substringAfter itemLine UNSORTED_LIST.start))) else none)
    lines i (addItem [] (substringAfter line UNSORTED_LIST.start))
  rw [hstate, hleft, scan_while isUnsorted fun list itemLine =>
    addItem list (trim (substringAfter itemLine UNSORTED_LIST.start)), hadd]
  refine ⟨?_, rfl⟩
  simp [Block.content, Block.listOf, Block.texts, addItem, Nat.add_comm 1]

theorem parseList_sorted :
    (parseList lines i line SORTED_LIST).2 =
        (Block.list SORTED_LIST line (numbered isItem 2 (lines.drop (i + 1)))).content ∧
      lines.drop ((parseList lines i line SORTED_LIST).1 + 1) =
        (lines.drop (i + 1)).drop (numbered isItem 2 (lines.drop (i + 1))).length := by
  have hadd (l : List String) (acc : List ListItemDTO) :
      (l.foldl (fun (s : ℕ × List ListItemDTO) itemLine =>
          (s.1 + 1, addItem s.2 (substringAfter itemLine (listStart s.1)))) (acc.length + 1, acc)).2 =
        acc ++ (l.mapIdx fun k line => substringAfter line (listStart (acc.length + 1 + k))).mapIdx
          fun k text => ⟨acc.length + k + 1, text⟩ := by
    induction l generalizing acc with
    | nil => simp
    | cons line l ih =>
      have hlength : (addItem acc (substringAfter line (listStart (acc.length + 1)))).length =
          acc.length + 1 := by simp [addItem]
      have hrest := ih (addItem acc (substringAfter line (listStart (acc.length + 1))))
      rw [hlength] at hrest
      rw [List.foldl_cons, hrest]
      simp [addItem, Nat.add_assoc, Nat.add_comm 1, Nat.add_comm 2]
  simp only [parseList]
  obtain ⟨hstate, hleft⟩ := scanFrom_eq
    (fun (s : ℕ × List ListItemDTO) itemLine => if isItem s.1 itemLine then
      some (s.1 + 1, addItem s.2 (substringAfter itemLine (listStart s.1))) else none)
    lines i (2, addItem [] (substringAfter line SORTED_LIST.start))
  rw [hstate, hleft, scan_numbered fun list start itemLine =>
    addItem list (substringAfter itemLine (listStart start))]
  have hall := hadd (numbered isItem 2 (lines.drop (i + 1)))
    (addItem [] (substringAfter line SORTED_LIST.start))
  refine ⟨?_, rfl⟩
  simp only [Block.content, Block.listOf, Content.list.injEq]
  refine hall.trans ?_
  simp [Block.texts, addItem, Nat.add_comm 1]

/-- One round of the loop parses one block. -/
theorem parseItem_eq (lines : List String) (i : ℕ) (line : String) :
    (parseItem lines i line (checkType line)).2 =
        (blockOf line (lines.drop (i + 1))).1.map Block.content ∧
      lines.drop ((parseItem lines i line (checkType line)).1 + 1) =
        (blockOf line (lines.drop (i + 1))).2 ∧
      ∀ block, (blockOf line (lines.drop (i + 1))).1 = some block → block.type = checkType line := by
  have hcode (type : MarkdownItemType) :
      substringBeforeLast (parseCode type.start lines i "").2 "\r\n" =
        "\r\n".intercalate ((lines.drop (i + 1)).takeWhile (isCode type.start)) := by
    rw [(parseCode_eq type.start "").1, String.empty_append,
      substringBeforeLast_concat (by decide)]
  unfold blockOf parseItem
  cases htype : checkType line with
  | NONE =>
    dsimp only
    split
    · exact ⟨rfl, rfl, fun _ h => by cases h⟩
    · obtain ⟨htext, hleft⟩ := @parseNone_eq lines i line
      refine ⟨?_, hleft, fun _ h => by cases h; rfl⟩
      rw [htext]
      rfl
  | QUOTE =>
    obtain ⟨htext, hleft⟩ := @parseNone_eq lines i (substringAfter line QUOTE.start)
    refine ⟨?_, hleft, fun _ h => by cases h; rfl⟩
    dsimp only
    rw [htext]
    rfl
  | UNSORTED_LIST =>
    obtain ⟨hcontent, hleft⟩ := @parseList_unsorted lines i line
    exact ⟨congrArg some hcontent, hleft, fun _ h => by cases h; rfl⟩
  | SORTED_LIST =>
    obtain ⟨hcontent, hleft⟩ := @parseList_sorted lines i line
    exact ⟨congrArg some hcontent, hleft, fun _ h => by cases h; rfl⟩
  | CODE_BLACK =>
    exact ⟨congrArg (fun text => some (Content.text text)) (hcode CODE_BLACK), (parseCode_eq CODE_BLACK.start "").2,
      fun _ h => by cases h; rfl⟩
  | CODE_BLACK2 =>
    exact ⟨congrArg (fun text => some (Content.text text)) (hcode CODE_BLACK2), (parseCode_eq CODE_BLACK2.start "").2,
      fun _ h => by cases h; rfl⟩
  | _ => exact ⟨rfl, rfl, fun _ h => by cases h; rfl⟩

end Loops

/-! ## The whole loop -/

theorem items_cons {n : ℕ} {block : Block} {blocks : List Block} :
    items n (block :: blocks) = ⟨n + 1, block.type, block.content⟩ :: items (n + 1) blocks := by
  rw [items, List.mapIdx_cons]
  simp [items, Nat.add_assoc, Nat.add_comm 1]

theorem length_items {n : ℕ} {blocks : List Block} : (items n blocks).length = blocks.length := by
  rw [items, List.length_mapIdx]

/-- The item of a blank line is the last, and no other has its order. -/
theorem erase_added {items : List MarkdownItemDTO} (horder : ∀ item ∈ items, item.order ≤ items.length)
    {added : MarkdownItemDTO} (hadded : added.order = items.length + 1) :
    (items ++ [added]).erase added = items := by
  have hnotMem : added ∉ items := by
    intro hmem
    have hle := horder added hmem
    omega
  rw [List.erase_append_right _ hnotMem, List.erase_cons_head, List.append_nil]

theorem parseFrom_eq (lines : List String) (i : ℕ) (before : List MarkdownItemDTO)
    (horder : ∀ item ∈ before, item.order ≤ before.length) :
    parseFrom lines i before = before ++ items before.length (cut (lines.drop i)) := by
  induction hn : lines.length - i using Nat.strong_induction_on generalizing i before with
  | _ n ih =>
    rw [parseFrom]
    split
    · rename_i hlt
      obtain ⟨hcontent, hleft, htype⟩ := parseItem_eq lines i lines[i]
      have hle := @le_parseItem lines i lines[i] (checkType lines[i])
      rw [List.drop_eq_getElem_cons hlt, cut, ← hleft]
      dsimp only
      rw [hcontent]
      cases hblock : (blockOf lines[i] (lines.drop (i + 1))).1 with
      | none =>
        simp only [Option.map_none, Option.toList_none, List.nil_append]
        rw [erase_added horder rfl]
        exact ih _ (by omega) _ _ horder rfl
      | some block =>
        simp only [Option.map_some, Option.toList_some, List.singleton_append]
        rw [ih _ (by omega) _ _ _ rfl]
        · rw [List.length_append, List.length_singleton, List.append_assoc, items_cons,
            htype block hblock]
          rfl
        · intro item hitem
          rw [List.length_append, List.length_singleton]
          rcases List.mem_append.mp hitem with hmem | hmem
          · exact (horder item hmem).trans (Nat.le_succ _)
          · rw [List.mem_singleton.mp hmem]
    · rename_i hge
      rw [List.drop_of_length_le (Nat.not_lt.mp hge), cut]
      simp [items]

theorem parse_eq (lines : List String) : parse lines = items 0 (cut lines) := by
  rw [parse, parseFrom_eq lines 0 [] (by simp)]
  simp

/-- The orders are those of the places in the list. -/
theorem orders_parse (lines : List String) :
    (parse lines).map (·.order) = List.range' 1 (parse lines).length := by
  rw [parse_eq, length_items]
  refine List.ext_getElem ?_ fun k h h' => ?_
  · simp [items]
  · simp [items, Nat.add_comm]

end BigPlan.Blog.ParseMarkdownUtils

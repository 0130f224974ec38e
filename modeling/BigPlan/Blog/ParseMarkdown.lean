import BigPlan.Lib.Java
import BigPlan.Lib.Scan
import BigPlan.Lib.Strings

/-!
# The Markdown parser

`ParseMarkdownUtils.parse` over the lines of a text. An index goes through the lines; the loops
of paragraphs, lists and code move it on, and all but that of the code step back from the line
that they do not take.
-/
namespace BigPlan.Blog

open Lib.Java (isBlank)
open Lib.Scan Lib.Strings

inductive MarkdownItemType where
  | NONE
  | QUOTE
  | UNSORTED_LIST
  | SORTED_LIST
  | TASK_SELECTED_LIST
  | TASK_UNSELECTED_LIST
  | TITLE1
  | TITLE2
  | TITLE3
  | TITLE4
  | TITLE5
  | TITLE6
  | CODE_LINE
  | CODE_BLACK
  | CODE_BLACK2
  | FORMULA
  | TABLE
  | LINK_QUOTE
  | FOOTNOTE
  | LINE
  | BOLD
  | ITALIC
  | U
  | DELETE
  | DOC
  | SUPER_LINK
  | IMAGE
  deriving DecidableEq, Repr

namespace MarkdownItemType

def values : List MarkdownItemType :=
  [NONE, QUOTE, UNSORTED_LIST, SORTED_LIST, TASK_SELECTED_LIST, TASK_UNSELECTED_LIST, TITLE1, TITLE2,
    TITLE3, TITLE4, TITLE5, TITLE6, CODE_LINE, CODE_BLACK, CODE_BLACK2, FORMULA, TABLE, LINK_QUOTE,
    FOOTNOTE, LINE, BOLD, ITALIC, U, DELETE, DOC, SUPER_LINK, IMAGE]

def start : MarkdownItemType → String
  | NONE => ""
  | QUOTE => "> "
  | UNSORTED_LIST => "- "
  | SORTED_LIST => "1. "
  | TASK_SELECTED_LIST => "- [x] "
  | TASK_UNSELECTED_LIST => "- [ ] "
  | TITLE1 => "# "
  | TITLE2 => "## "
  | TITLE3 => "### "
  | TITLE4 => "#### "
  | TITLE5 => "##### "
  | TITLE6 => "###### "
  | CODE_LINE => "`"
  | CODE_BLACK => "~~~"
  | CODE_BLACK2 => "```"
  | FORMULA => "$$"
  | TABLE => "|"
  | LINK_QUOTE => "["
  | FOOTNOTE => "[^"
  | LINE => "______"
  | BOLD => "**"
  | ITALIC => "*"
  | U => "<u>"
  | DELETE => "~~"
  | DOC => "<!--"
  | SUPER_LINK => "[^_^]("
  | IMAGE => "![^_^]("

/-- The text is not blank and starts with the mark. -/
def marks (start text : String) : Bool := !isBlank (some text) && startsWith (trim text) start

/-- The signs on both sides of the smile. -/
def sign (start : String) (k : ℕ) : String := ((split start "^_^")[k]?).getD ""

example : [SUPER_LINK, IMAGE].map (fun type => (sign type.start 0, sign type.start 1)) =
    [("[", "]("), ("![", "](")] := by decide +kernel

def links (start text : String) : Bool :=
  marks (sign start 0) text && contains text (sign start 1)

/-- `NONE` has no checker. -/
def checker (type : MarkdownItemType) (text : String) : Bool :=
  match type with
  | NONE => false
  | TABLE => marks "|" text && endsWith (trim text) "|"
  | LINE => trim text = "______"
  | ITALIC => marks "*" text && !startsWith (trim text) "**"
  | DELETE => marks "~~" text && !startsWith (trim text) "~~~"
  | SUPER_LINK => links "[^_^](" text
  | IMAGE => links "![^_^](" text
  | QUOTE | UNSORTED_LIST | SORTED_LIST | TASK_SELECTED_LIST | TASK_UNSELECTED_LIST | TITLE1 | TITLE2
  | TITLE3 | TITLE4 | TITLE5 | TITLE6 | CODE_LINE | CODE_BLACK | CODE_BLACK2 | FORMULA | LINK_QUOTE
  | FOOTNOTE | BOLD | U | DOC => marks type.start text

end MarkdownItemType

structure ListItemDTO where
  order : ℕ
  text : String
  deriving DecidableEq, Repr

inductive Content where
  | null
  | text (text : String)
  | list (items : List ListItemDTO)
  | link (name link : Option String)
  deriving DecidableEq, Repr

structure MarkdownItemDTO where
  order : ℕ
  type : MarkdownItemType
  content : Content
  deriving DecidableEq, Repr

namespace ParseMarkdownUtils

open MarkdownItemType

/-- The last of the types whose checker accepts. -/
def checkType (text : String) : MarkdownItemType :=
  values.foldl (fun textType type => if type ≠ NONE ∧ type.checker text then type else textType) NONE

/-- A line that goes on with a paragraph. -/
def isText (line : String) : Bool := checkType line = NONE && !isBlank (some line)

def parseNone (i : ℕ) (quote : String) (lines : List String) : ℕ × String :=
  scanFrom (fun quote next => if isText next then some (quote ++ next) else none) lines i quote

def parseLink (line : String) (type : MarkdownItemType) : Content :=
  .link (substringBetween line (sign type.start 0) (sign type.start 1))
    (substringBetween line "(" ")")

/-- The loop over the lines to the one that is the fence. -/
def parseCode (fence : String) (lines : List String) (i : ℕ) (code : String) : ℕ × String :=
  if h : i + 1 < lines.length then
    if lines[i + 1] = fence then (i + 1, code)
    else parseCode fence lines (i + 1) (code ++ (lines[i + 1] ++ "\r\n"))
  else (i + 1, code)
termination_by lines.length - i

def addItem (list : List ListItemDTO) (text : String) : List ListItemDTO :=
  list ++ [⟨list.length + 1, text⟩]

def listStart (start : ℕ) : String := toString start ++ ". "

def isItem (start : ℕ) (line : String) : Bool := marks (listStart start) line

def parseList (lines : List String) (i : ℕ) (line : String) (type : MarkdownItemType) :
    ℕ × Content :=
  let item := substringAfter line type.start
  let list := addItem [] item
  match type with
  | UNSORTED_LIST =>
    let scanned := scanFrom (fun list itemLine =>
      if checkType itemLine = UNSORTED_LIST then
        some (addItem list (trim (substringAfter itemLine type.start)))
      else none) lines i list
    (scanned.1, .list scanned.2)
  | SORTED_LIST =>
    let scanned := scanFrom (fun (s : ℕ × List ListItemDTO) itemLine =>
      if isItem s.1 itemLine then
        some (s.1 + 1, addItem s.2 (substringAfter itemLine (listStart s.1)))
      else none) lines i (2, list)
    (scanned.1, .list scanned.2.2)
  | _ => (i, .list list)

/-- One round of the loop: the last index of the item, and its content, which is missing if the
item is removed again. -/
def parseItem (lines : List String) (i : ℕ) (line : String) (type : MarkdownItemType) :
    ℕ × Option Content :=
  match type with
  | TITLE1 | TITLE2 | TITLE3 | TITLE4 | TITLE5 | TITLE6 =>
    (i, some (.text (trim (substringAfter line type.start))))
  | QUOTE =>
    let quote := parseNone i (substringAfter line type.start) lines
    (quote.1, some (.text quote.2))
  | CODE_BLACK2 | CODE_BLACK =>
    let code := parseCode type.start lines i ""
    (code.1, some (.text (substringBeforeLast code.2 "\r\n")))
  | UNSORTED_LIST | SORTED_LIST =>
    let list := parseList lines i line type
    (list.1, some list.2)
  | LINE => (i, some (.text type.start))
  | IMAGE | SUPER_LINK => (i, some (parseLink line type))
  | NONE =>
    if isBlank (some line) then (i, none)
    else
      let none := parseNone i line lines
      (none.1, some (.text none.2))
  | _ => (i, some .null)

theorem le_parseCode {fence : String} {lines : List String} {i : ℕ} {code : String} :
    i ≤ (parseCode fence lines i code).1 := by
  induction i, code using parseCode.induct fence lines with
  | case1 i code h heq =>
    rw [parseCode, dif_pos h, if_pos heq]
    exact Nat.le_succ i
  | case2 i code h hne ih =>
    rw [parseCode, dif_pos h, if_neg hne]
    exact (Nat.le_succ i).trans ih
  | case3 i code h =>
    rw [parseCode, dif_neg h]
    exact Nat.le_succ i

theorem le_parseList {lines : List String} {i : ℕ} {line : String} {type : MarkdownItemType} :
    i ≤ (parseList lines i line type).1 := by
  unfold parseList
  split
  · exact le_scanFrom
  · exact le_scanFrom
  · exact Nat.le_refl i

/-- The index never moves back behind the line of the item. -/
theorem le_parseItem {lines : List String} {i : ℕ} {line : String} {type : MarkdownItemType} :
    i ≤ (parseItem lines i line type).1 := by
  cases type with
  | NONE =>
    unfold parseItem
    dsimp only
    split
    · exact Nat.le_refl i
    · exact le_scanFrom
  | QUOTE =>
    unfold parseItem
    exact le_scanFrom
  | UNSORTED_LIST | SORTED_LIST => exact le_parseList
  | CODE_BLACK | CODE_BLACK2 => exact le_parseCode
  | _ => exact Nat.le_refl i

/-- The loop over the lines. An item is added first, and removed again if its line is blank. -/
def parseFrom (lines : List String) (i : ℕ) (items : List MarkdownItemDTO) :
    List MarkdownItemDTO :=
  if h : i < lines.length then
    let line := lines[i]
    let type := checkType line
    let order := items.length + 1
    let parsed := parseItem lines i line type
    match parsed.2 with
    | some content => parseFrom lines (parsed.1 + 1) (items ++ [⟨order, type, content⟩])
    | none =>
      let added : MarkdownItemDTO := ⟨order, type, .null⟩
      parseFrom lines (parsed.1 + 1) ((items ++ [added]).erase added)
  else items
termination_by lines.length - i
decreasing_by
  all_goals
    have hle := @le_parseItem lines i lines[i] (checkType lines[i])
    omega

def parse (lines : List String) : List MarkdownItemDTO := parseFrom lines 0 []

end ParseMarkdownUtils

end BigPlan.Blog

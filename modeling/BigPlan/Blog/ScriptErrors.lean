import BigPlan.Blog.BlogCounters
import BigPlan.Lib.Script

/-!
# Script errors of the blog scripts

The scripts of `BlogScripts`, call by call: Redis takes back nothing that a script wrote before
an error. An error comes of a category that is no string, of tags that are no table, and of a
tag that is no string.
-/
namespace BigPlan.Blog

open Lib (SortedSet Script total)
open Lib.SortedSet Lib.Script

/-- A field as `cjson.decode` gives it: `nil` if it is absent, and a null of its own. -/
inductive Field (α : Type) where
  | nil
  | null
  | value (a : α)
  deriving DecidableEq, Repr

/-- What a call can use. -/
def Field.toOption {α : Type} : Field α → Option α
  | .nil => none
  | .null => none
  | .value a => some a

/-- The fields of a blog's JSON; a `null` among the tags is `none`. -/
structure BlogFields where
  category : Field String
  tags : Field (List (Option String))
  deriving DecidableEq, Repr

/-- The strings in the fields. -/
def BlogFields.toJson (fields : BlogFields) : BlogJson :=
  ⟨fields.category.toOption.getD "", (fields.tags.toOption.getD []).reduceOption⟩

/-! ## The scripts -/

namespace BlogLuaScript

variable {Data Content : Type}

def eachCategory (f : SortedSet String → String → SortedSet String) (category : Field String) :
    Script (Store Data Content) Unit := do
  let v ← need category.toOption
  write fun s => { s with categories := f s.categories v }

/-- The loop over `pairs(tags)`. -/
def eachTag (f : SortedSet String → String → SortedSet String)
    (tags : Field (List (Option String))) : Script (Store Data Content) Unit := do
  let l ← need tags.toOption
  forEach (fun v s => { s with tags := f s.tags v }) l

def save (blogData : Data) (content : Content) (blogId : String) :
    Script (Store Data Content) Unit := do
  write fun s => { s with blogs := s.blogs.insert blogId blogData }
  write fun s => { s with contents := s.contents.insert blogId content }
  write fun s => { s with ids := s.ids.zadd blogId 0 }

variable (decode : Data → BlogFields)

def createBlog (blogData : Data) (content : Content) (blogId : String) :
    Script (Store Data Content) String := do
  let checkExists ← read fun s => decide (blogId ∈ s.blogs)
  if checkExists then pure "-1"
  else do
    let blogJson := decode blogData
    eachCategory accumulate blogJson.category
    eachTag accumulate blogJson.tags
    write fun s => { s with views := s.views.zadd blogId 0 }
    save blogData content blogId
    pure ok

/-- The counting of categories, for a blog that gets another one. -/
def changeCategory (oldCategory category : Field String) : Script (Store Data Content) Unit :=
  if oldCategory ≠ category then do
    eachCategory deduct oldCategory
    eachCategory accumulate category
  else pure ()

def updateBlog (blogData : Data) (content : Content) (blogId : String) :
    Script (Store Data Content) String := do
  match ← read fun s => s.blogs.lookup blogId with
  | none => pure "-1"
  | some oldBlogData => do
    let oldBlogJson := decode oldBlogData
    let blogJson := decode blogData
    changeCategory oldBlogJson.category blogJson.category
    eachTag deduct oldBlogJson.tags
    eachTag accumulate blogJson.tags
    save blogData content blogId
    pure ok

def deleteBlog (blogId : String) : Script (Store Data Content) String := do
  match ← read fun s => s.blogs.lookup blogId with
  | none => pure "-1"
  | some blogData => do
    let blogJson := decode blogData
    eachCategory deduct blogJson.category
    eachTag deduct blogJson.tags
    write fun s => { s with views := s.views.zrem blogId }
    write fun s => { s with blogs := s.blogs.erase blogId }
    write fun s => { s with contents := s.contents.erase blogId }
    write fun s => { s with ids := s.ids.zrem blogId }
    pure ok

def script : Call Data Content → Script (Store Data Content) String
  | .create blogData content blogId => createBlog decode blogData content blogId
  | .update blogData content blogId => updateBlog decode blogData content blogId
  | .delete blogId => deleteBlog decode blogId

/-! ## What each part does -/

section Parts

variable {f : SortedSet String → String → SortedSet String} {category : Field String}
  {tags : Field (List (Option String))} {s : Store Data Content}

theorem run_eachCategory_some {v : String} (h : category.toOption = some v) :
    run (eachCategory f category) s = (some (), { s with categories := f s.categories v }) := by
  rw [eachCategory, h, run_bind_some run_need_some, run_write]

theorem run_eachCategory_none (h : category.toOption = none) :
    run (eachCategory f category) s = (none, s) := by
  rw [eachCategory, h, run_bind_none run_need_none]

theorem foldl_tags (l : List String) (s : Store Data Content) :
    l.foldl (fun s v => { s with tags := f s.tags v }) s = { s with tags := l.foldl f s.tags } := by
  induction l generalizing s with
  | nil => rfl
  | cons v l ih => rw [List.foldl_cons, ih, List.foldl_cons]

theorem run_eachTag_none (h : tags.toOption = none) : run (eachTag f tags) s = (none, s) := by
  rw [eachTag, h, run_bind_none run_need_none]

theorem run_eachTag_some {l : List (Option String)} (h : tags.toOption = some l) :
    run (eachTag f tags) s =
      (if none ∈ l then none else some (), { s with tags := (leading l).foldl f s.tags }) := by
  rw [eachTag, h, run_bind_some run_need_some]
  by_cases hmem : none ∈ l
  · rw [run_forEach_of_mem hmem, foldl_tags, if_pos hmem]
  · rw [run_forEach_of_notMem hmem, foldl_tags, if_neg hmem, leading_eq hmem]

end Parts

end BlogLuaScript

/-! ## The counters -/

section Counters

variable {s : SortedSet String} {m : Multiset String} {v w : String}

theorem accumulate_ne (h : s.Tallies m) : accumulate s v ≠ s := by
  intro heq
  have hafter := tallies_accumulate (v := v) h
  rw [heq] at hafter
  have hcard := congrArg Multiset.card (h.inj hafter)
  rw [Multiset.card_cons] at hcard
  omega

theorem deduct_ne (h : s.Tallies (v ::ₘ m)) : deduct s v ≠ s := by
  intro heq
  have hafter := tallies_deduct h
  rw [heq] at hafter
  have hcard := congrArg Multiset.card (h.inj hafter)
  rw [Multiset.card_cons] at hcard
  omega

theorem accumulate_deduct_ne (h : s.Tallies (v ::ₘ m)) (hne : v ≠ w) :
    accumulate (deduct s v) w ≠ s := by
  intro heq
  have hafter := tallies_accumulate (v := w) (tallies_deduct h)
  rw [heq] at hafter
  exact hne ((Multiset.cons_inj_left m).mp (h.inj hafter))

theorem foldl_deduct_eq_iff {l : List (Option String)}
    (h : s.Tallies (l.reduceOption + m)) :
    (leading l).foldl deduct s = s ↔ leading l = [] := by
  constructor
  · intro heq
    obtain ⟨rest, hrest⟩ := leading_prefix l
    rw [← hrest, ← Multiset.coe_add, add_assoc] at h
    have hafter := tallies_foldl_deduct h
    rw [heq] at hafter
    have hcard := congrArg Multiset.card (h.inj hafter)
    rw [Multiset.card_add, Multiset.coe_card] at hcard
    exact List.length_eq_zero_iff.mp (by omega)
  · intro hnil
    rw [hnil, List.foldl_nil]

theorem foldl_accumulate_deduct_eq_iff {l l' : List String} (h : s.Tallies (l + m)) :
    l'.foldl accumulate (l.foldl deduct s) = s ↔ (l' : Multiset String) = l := by
  have hafter := tallies_foldl_accumulate (tallies_foldl_deduct h) l'
  constructor
  · intro heq
    rw [heq] at hafter
    exact add_right_cancel (hafter.inj h)
  · intro hsame
    rw [hsame] at hafter
    exact hafter.eq h

end Counters

namespace BlogLuaScript

section Invariant

variable {Data Content : Type} (decode : Data → BlogFields)

def categoryTexts (blog : Data) : Multiset String := (decode blog).category.toOption.toList

def tagTexts (blog : Data) : Multiset String :=
  ((decode blog).tags.toOption.getD []).reduceOption

/-- The counters tally the strings in the stored blogs, and the other keys follow them. -/
structure FieldsCounted (s : Store Data Content) : Prop where
  categories : s.categories.Tallies (total (categoryTexts decode) s.blogs)
  tags : s.tags.Tallies (total (tagTexts decode) s.blogs)
  ids : ∀ id, id ∈ s.ids.members ↔ id ∈ s.blogs
  contents : ∀ id, id ∈ s.contents ↔ id ∈ s.blogs

variable {decode}

/-- Where every blog has a category, this is the invariant of the counters. -/
theorem fieldsCounted_iff (hcategory : ∀ blog, (decode blog).category.toOption ≠ none)
    (s : Store Data Content) :
    FieldsCounted decode s ↔ Counted (fun blog => (decode blog).toJson) s := by
  have hcategories : categoryTexts decode = categoryOf fun blog => (decode blog).toJson := by
    funext blog
    obtain ⟨v, hv⟩ := Option.ne_none_iff_exists'.mp (hcategory blog)
    simp [categoryTexts, categoryOf, BlogFields.toJson, hv]
  have htags : tagTexts decode = tagsOf fun blog => (decode blog).toJson := rfl
  constructor
  · intro h
    exact ⟨hcategories ▸ h.categories, htags ▸ h.tags, h.ids, h.contents⟩
  · intro h
    exact ⟨hcategories ▸ h.categories, htags ▸ h.tags, h.ids, h.contents⟩

end Invariant

/-! ## All or nothing -/

section AllOrNothing

variable {Data Content : Type} (decode : Data → BlogFields) (s : Store Data Content)

/-- After an error no key has changed, and otherwise the script did what it is for. -/
def KeepsOrDoes (call : Call Data Content) : Prop :=
  match run (script decode call) s with
  | (none, s') => s' = s
  | (some answer, s') => (answer, s') = s.exec (fun blog => (decode blog).toJson) call

def Complete (tags : Field (List (Option String))) : Prop :=
  ∃ l, tags.toOption = some l ∧ none ∉ l

/-- The errors of the tags come before the first change of a tag, or after changes that make up
for each other. -/
def TagsKept (oldTags tags : Field (List (Option String))) : Prop :=
  ∀ old, oldTags.toOption = some old →
    (none ∈ old → leading old = []) ∧
      (none ∉ old → Complete tags ∨
        ((leading (tags.toOption.getD []) : Multiset String) =
          (old.reduceOption : Multiset String)))

/-- No error comes behind a change of a key. -/
def Safe : Call Data Content → Prop
  | .create blogData _ blogId =>
    blogId ∈ s.blogs ∨ (decode blogData).category.toOption = none ∨
      Complete (decode blogData).tags
  | .update blogData _ blogId =>
    ∀ oldBlogData, s.blogs.lookup blogId = some oldBlogData →
      if (decode oldBlogData).category ≠ (decode blogData).category then
        (decode oldBlogData).category.toOption = none ∨
          (decode blogData).category.toOption ≠ none ∧
            Complete (decode oldBlogData).tags ∧ Complete (decode blogData).tags
      else TagsKept (decode oldBlogData).tags (decode blogData).tags
  | .delete blogId =>
    ∀ blogData, s.blogs.lookup blogId = some blogData →
      (decode blogData).category.toOption = none ∨ Complete (decode blogData).tags

variable {decode s} {call : Call Data Content} {s' : Store Data Content}

theorem keepsOrDoes_of_error (h : run (script decode call) s = (none, s')) :
    KeepsOrDoes decode s call ↔ s' = s := by
  rw [KeepsOrDoes, h]

theorem keepsOrDoes_of_ok {answer : String} (h : run (script decode call) s = (some answer, s'))
    (hexec : s.exec (fun blog => (decode blog).toJson) call = (answer, s')) :
    KeepsOrDoes decode s call := by
  rw [KeepsOrDoes, h]
  exact hexec.symm

/-! ### The loops -/

theorem run_eachTag_complete {f : SortedSet String → String → SortedSet String}
    {tags : Field (List (Option String))} (h : Complete tags) :
    run (eachTag f tags) s =
      (some (), { s with tags := ((tags.toOption.getD []).reduceOption).foldl f s.tags }) := by
  obtain ⟨l, hl, hmem⟩ := h
  rw [run_eachTag_some hl, if_neg hmem, hl, Option.getD_some, leading_eq hmem]

/-- Without the tags nothing is done, and with a `null` in them something may be. -/
theorem run_eachTag_incomplete {f : SortedSet String → String → SortedSet String}
    {tags : Field (List (Option String))} (h : ¬ Complete tags) :
    run (eachTag f tags) s =
      (none, { s with tags := (leading (tags.toOption.getD [])).foldl f s.tags }) := by
  cases htags : tags.toOption with
  | none => rw [run_eachTag_none htags]; rfl
  | some l =>
    have hmem : none ∈ l := by
      by_contra hmem
      exact h ⟨l, htags, hmem⟩
    rw [run_eachTag_some htags, if_pos hmem, Option.getD_some]

/-! ### Each script -/

theorem create_iff (h : FieldsCounted decode s) {blogData : Data} {content : Content}
    {blogId : String} :
    KeepsOrDoes decode s (.create blogData content blogId) ↔
      Safe decode s (.create blogData content blogId) := by
  by_cases hexists : blogId ∈ s.blogs
  · have hrun : run (script decode (.create blogData content blogId)) s = (some "-1", s) := by
      rw [script, createBlog, run_bind_some (run_read _), if_pos (decide_eq_true hexists), run_pure]
    have hexec : s.exec (fun blog => (decode blog).toJson) (.create blogData content blogId) =
        ("-1", s) := by
      rw [Store.exec, Store.createBlog, if_pos hexists]
    exact iff_of_true (keepsOrDoes_of_ok hrun hexec) (.inl hexists)
  · have hrun : run (script decode (.create blogData content blogId)) s =
        run (do
          eachCategory accumulate (decode blogData).category
          eachTag accumulate (decode blogData).tags
          write fun s => { s with views := s.views.zadd blogId 0 }
          save blogData content blogId
          pure ok) s := by
      rw [script, createBlog, run_bind_some (run_read _), if_neg (by simpa using hexists)]
    rw [Safe, or_iff_right hexists]
    cases hcategory : (decode blogData).category.toOption with
    | none =>
      rw [run_bind_none (run_eachCategory_none hcategory)] at hrun
      exact iff_of_true ((keepsOrDoes_of_error hrun).mpr rfl) (.inl rfl)
    | some v =>
      rw [run_bind_some (run_eachCategory_some hcategory)] at hrun
      rw [or_iff_right (by simp)]
      by_cases htags : Complete (decode blogData).tags
      · rw [run_bind_some (run_eachTag_complete htags)] at hrun
        refine iff_of_true (keepsOrDoes_of_ok hrun ?_) htags
        simp only [Store.exec, Store.createBlog, if_neg hexists, BlogFields.toJson, hcategory,
          Option.getD_some]
      · rw [run_bind_none (run_eachTag_incomplete htags)] at hrun
        refine iff_of_false (fun hkeeps => ?_) htags
        have hsame := (keepsOrDoes_of_error hrun).mp hkeeps
        exact accumulate_ne h.categories (congrArg Store.categories hsame)

/-- The category of a stored blog is among those that are counted. -/
theorem tallies_category (h : FieldsCounted decode s) {old : Data} {blogId v : String}
    (hold : s.blogs.lookup blogId = some old) (hv : (decode old).category.toOption = some v) :
    s.categories.Tallies (v ::ₘ total (categoryTexts decode) (s.blogs.erase blogId)) := by
  have hcategories := h.categories
  rw [Lib.total_eq_add_erase _ hold, categoryTexts, hv] at hcategories
  exact hcategories

theorem tallies_tags (h : FieldsCounted decode s) {old : Data} {blogId : String}
    {l : List (Option String)} (hold : s.blogs.lookup blogId = some old)
    (hl : (decode old).tags.toOption = some l) :
    s.tags.Tallies (l.reduceOption + total (tagTexts decode) (s.blogs.erase blogId)) := by
  have htags := h.tags
  rw [Lib.total_eq_add_erase _ hold, tagTexts, hl, Option.getD_some] at htags
  exact htags

theorem delete_iff (h : FieldsCounted decode s) {blogId : String} :
    KeepsOrDoes decode s (.delete blogId) ↔ Safe decode s (.delete blogId) := by
  rw [Safe]
  cases hold : s.blogs.lookup blogId with
  | none =>
    have hrun : run (script decode (Call.delete blogId : Call Data Content)) s = (some "-1", s) := by
      rw [script, deleteBlog, run_bind_some (run_read _), hold, run_pure]
    have hexec : s.exec (fun blog => (decode blog).toJson) (.delete blogId) = ("-1", s) := by
      simp only [Store.exec, Store.deleteBlog, hold]
    exact iff_of_true (keepsOrDoes_of_ok hrun hexec) fun _ h => by cases h
  | some old =>
    have hrun : run (script decode (Call.delete blogId : Call Data Content)) s =
        run (do
          eachCategory deduct (decode old).category
          eachTag deduct (decode old).tags
          write fun s => { s with views := s.views.zrem blogId }
          write fun s => { s with blogs := s.blogs.erase blogId }
          write fun s => { s with contents := s.contents.erase blogId }
          write fun s => { s with ids := s.ids.zrem blogId }
          pure ok) s := by
      rw [script, deleteBlog, run_bind_some (run_read _), hold]
    simp only [Option.some.injEq, forall_eq']
    cases hcategory : (decode old).category.toOption with
    | none =>
      rw [run_bind_none (run_eachCategory_none hcategory)] at hrun
      exact iff_of_true ((keepsOrDoes_of_error hrun).mpr rfl) (.inl rfl)
    | some v =>
      rw [run_bind_some (run_eachCategory_some hcategory)] at hrun
      rw [or_iff_right (by simp)]
      by_cases htags : Complete (decode old).tags
      · rw [run_bind_some (run_eachTag_complete htags)] at hrun
        refine iff_of_true (keepsOrDoes_of_ok hrun ?_) htags
        simp only [Store.exec, Store.deleteBlog, hold, BlogFields.toJson, hcategory,
          Option.getD_some]
      · rw [run_bind_none (run_eachTag_incomplete htags)] at hrun
        refine iff_of_false (fun hkeeps => ?_) htags
        have hsame := (keepsOrDoes_of_error hrun).mp hkeeps
        exact deduct_ne (tallies_category h hold hcategory) (congrArg Store.categories hsame)

/-! ### The update -/

section Update

variable {blogData old : Data} {content : Content} {blogId : String}

theorem run_updateBlog (decode : Data → BlogFields) (blogData : Data) (content : Content)
    (hold : s.blogs.lookup blogId = some old) :
    run (script decode (.update blogData content blogId)) s =
      run (do
        changeCategory (decode old).category (decode blogData).category
        eachTag deduct (decode old).tags
        eachTag accumulate (decode blogData).tags
        save blogData content blogId
        pure ok) s := by
  rw [script, updateBlog, run_bind_some (run_read _), hold]

theorem exec_updateBlog (hold : s.blogs.lookup blogId = some old) :
    s.exec (fun blog => (decode blog).toJson) (.update blogData content blogId) =
      (ok, { s with
        blogs := s.blogs.insert blogId blogData
        contents := s.contents.insert blogId content
        ids := s.ids.zadd blogId 0
        categories :=
          if (decode old).toJson.category ≠ (decode blogData).toJson.category then
            accumulate (deduct s.categories (decode old).toJson.category)
              (decode blogData).toJson.category
          else s.categories
        tags := (decode blogData).toJson.tags.foldl accumulate
          ((decode old).toJson.tags.foldl deduct s.tags) }) := by
  simp only [Store.exec, Store.updateBlog, hold]

theorem tags_eq_iff {set : SortedSet String} : { s with tags := set } = s ↔ set = s.tags := by
  constructor
  · exact congrArg Store.tags
  · rintro rfl
    rfl

/-- Where the category stays, only the tags can be changed before an error. -/
theorem update_iff_of_eq (h : FieldsCounted decode s) (hold : s.blogs.lookup blogId = some old)
    (heq : (decode old).category = (decode blogData).category) :
    KeepsOrDoes decode s (.update blogData content blogId) ↔
      TagsKept (decode old).tags (decode blogData).tags := by
  have hrun := run_updateBlog decode blogData content hold
  rw [changeCategory, if_neg (not_not.mpr heq), run_bind_some run_pure] at hrun
  cases htags : (decode old).tags.toOption with
  | none =>
    rw [run_bind_none (run_eachTag_none htags)] at hrun
    refine iff_of_true ((keepsOrDoes_of_error hrun).mpr rfl) ?_
    intro l hl
    rw [htags] at hl
    cases hl
  | some l =>
    have hkept : TagsKept (decode old).tags (decode blogData).tags ↔
        (none ∈ l → leading l = []) ∧
          (none ∉ l → Complete (decode blogData).tags ∨
            ((leading ((decode blogData).tags.toOption.getD []) : Multiset String) =
              (l.reduceOption : Multiset String))) := by
      simp only [TagsKept, htags, Option.some.injEq, forall_eq']
    have hcount := tallies_tags h hold htags
    rw [hkept]
    by_cases hmem : none ∈ l
    · have hrunTags := run_eachTag_some (f := deduct) (s := s) htags
      rw [if_pos hmem] at hrunTags
      rw [run_bind_none hrunTags] at hrun
      rw [keepsOrDoes_of_error hrun, tags_eq_iff, foldl_deduct_eq_iff hcount]
      exact ⟨fun hnil => ⟨fun _ => hnil, fun hnot => absurd hmem hnot⟩, fun hboth => hboth.1 hmem⟩
    · have hcomplete : Complete (decode old).tags := ⟨l, htags, hmem⟩
      rw [run_bind_some (run_eachTag_complete hcomplete), htags, Option.getD_some] at hrun
      rw [and_iff_right fun h => absurd h hmem, imp_iff_right hmem]
      by_cases hnew : Complete (decode blogData).tags
      · rw [run_bind_some (run_eachTag_complete hnew)] at hrun
        refine iff_of_true (keepsOrDoes_of_ok hrun ?_) (.inl hnew)
        rw [exec_updateBlog hold]
        simp only [BlogFields.toJson, heq, htags, Option.getD_some, ne_eq, not_true_eq_false,
          if_false]
      · rw [run_bind_none (run_eachTag_incomplete hnew)] at hrun
        rw [keepsOrDoes_of_error hrun, or_iff_right hnew]
        exact tags_eq_iff.trans (foldl_accumulate_deduct_eq_iff hcount)

/-- Where the category changes, every later error comes too late. -/
theorem update_iff_of_ne (h : FieldsCounted decode s) (hold : s.blogs.lookup blogId = some old)
    (hne : (decode old).category ≠ (decode blogData).category) :
    KeepsOrDoes decode s (.update blogData content blogId) ↔
      (decode old).category.toOption = none ∨
        (decode blogData).category.toOption ≠ none ∧
          Complete (decode old).tags ∧ Complete (decode blogData).tags := by
  have hrun := run_updateBlog decode blogData content hold
  rw [changeCategory, if_pos hne] at hrun
  cases hv : (decode old).category.toOption with
  | none =>
    rw [run_bind_none (run_bind_none (run_eachCategory_none hv))] at hrun
    exact iff_of_true ((keepsOrDoes_of_error hrun).mpr rfl) (.inl rfl)
  | some v =>
    rw [or_iff_right (by simp)]
    have hcount := tallies_category h hold hv
    have hdeduct := run_eachCategory_some (f := deduct) (s := s) hv
    cases hw : (decode blogData).category.toOption with
    | none =>
      rw [run_bind_none ((run_bind_some hdeduct).trans (run_eachCategory_none hw))] at hrun
      refine iff_of_false (fun hkeeps => ?_) (fun hsafe => hsafe.1 rfl)
      have hsame := (keepsOrDoes_of_error hrun).mp hkeeps
      exact deduct_ne hcount (congrArg Store.categories hsame)
    | some w =>
      have hvw : v ≠ w := by
        rintro rfl
        cases ho : (decode old).category <;> cases hn : (decode blogData).category <;>
          simp_all [Field.toOption]
      have hchanged := accumulate_deduct_ne hcount hvw
      rw [run_bind_some ((run_bind_some hdeduct).trans (run_eachCategory_some hw))] at hrun
      rw [and_iff_right (by simp)]
      by_cases htags : Complete (decode old).tags
      · rw [run_bind_some (run_eachTag_complete htags)] at hrun
        by_cases hnew : Complete (decode blogData).tags
        · rw [run_bind_some (run_eachTag_complete hnew)] at hrun
          refine iff_of_true (keepsOrDoes_of_ok hrun ?_) ⟨htags, hnew⟩
          rw [exec_updateBlog hold]
          simp only [BlogFields.toJson, hv, hw, Option.getD_some, if_pos hvw]
        · rw [run_bind_none (run_eachTag_incomplete hnew)] at hrun
          refine iff_of_false (fun hkeeps => ?_) (fun hsafe => hnew hsafe.2)
          have hsame := (keepsOrDoes_of_error hrun).mp hkeeps
          exact hchanged (congrArg Store.categories hsame)
      · rw [run_bind_none (run_eachTag_incomplete htags)] at hrun
        refine iff_of_false (fun hkeeps => ?_) (fun hsafe => htags hsafe.1)
        have hsame := (keepsOrDoes_of_error hrun).mp hkeeps
        exact hchanged (congrArg Store.categories hsame)

theorem update_iff (h : FieldsCounted decode s) :
    KeepsOrDoes decode s (.update blogData content blogId) ↔
      Safe decode s (.update blogData content blogId) := by
  rw [Safe]
  cases hold : s.blogs.lookup blogId with
  | none =>
    have hrun : run (script decode (.update blogData content blogId)) s = (some "-1", s) := by
      rw [script, updateBlog, run_bind_some (run_read _), hold, run_pure]
    have hexec : s.exec (fun blog => (decode blog).toJson) (.update blogData content blogId) =
        ("-1", s) := by
      simp only [Store.exec, Store.updateBlog, hold]
    exact iff_of_true (keepsOrDoes_of_ok hrun hexec) fun _ h => by cases h
  | some old =>
    simp only [Option.some.injEq, forall_eq']
    split
    · rename_i hne
      exact update_iff_of_ne h hold hne
    · rename_i heq
      exact update_iff_of_eq h hold (not_not.mp heq)

end Update

end AllOrNothing

/-- In a store whose counters follow the blogs, a script is all or nothing exactly if no error
comes behind a change. -/
theorem keepsOrDoes_iff {Data Content : Type} (decode : Data → BlogFields)
    (s : Store Data Content) (h : FieldsCounted decode s) (call : Call Data Content) :
    KeepsOrDoes decode s call ↔ Safe decode s call := by
  cases call with
  | create blogData content blogId => exact create_iff h
  | update blogData content blogId => exact update_iff h
  | delete blogId => exact delete_iff h

theorem fieldsCounted_empty {Data Content : Type} (decode : Data → BlogFields) :
    FieldsCounted decode (.empty : Store Data Content) where
  categories := tallies_empty
  tags := tallies_empty
  ids id := by simp [Store.empty, SortedSet.empty, SortedSet.members]
  contents id := Iff.rfl

/-- A blog with one tag. -/
def oneBlog : Store BlogFields String :=
  { blogs := AList.insert "1" ⟨.value "java", .value [some "redis"]⟩ ∅
    contents := AList.insert "1" "old" ∅
    ids := SortedSet.empty.zadd "1" 0
    categories := accumulate .empty "java"
    tags := accumulate .empty "redis"
    views := SortedSet.empty.zadd "1" 0 }

theorem fieldsCounted_oneBlog : FieldsCounted id oneBlog where
  categories := by
    rw [oneBlog, Lib.total_insert_of_notMem _ (AList.notMem_empty _)]
    exact tallies_accumulate tallies_empty
  tags := by
    rw [oneBlog, Lib.total_insert_of_notMem _ (AList.notMem_empty _)]
    exact tallies_accumulate tallies_empty
  ids id := by
    have hids : oneBlog.ids.members = ["1"] := rfl
    have hblogs : oneBlog.blogs.keys = ["1"] := rfl
    rw [hids, AList.mem_keys, hblogs]
  contents id := Iff.rfl

/-- Tags are taken out before one that is no string stops the script, and only those that are put in
again are there afterwards. -/
theorem keepsOrDoes_iff_tags :
    KeepsOrDoes id oneBlog (.update ⟨.value "java", .value [some "redis", none]⟩ "new" "1") ∧
      ¬ KeepsOrDoes id oneBlog (.update ⟨.value "java", .value [none]⟩ "new" "1") := by
  rw [keepsOrDoes_iff id oneBlog fieldsCounted_oneBlog,
    keepsOrDoes_iff id oneBlog fieldsCounted_oneBlog]
  have hold : oneBlog.blogs.lookup "1" = some ⟨.value "java", .value [some "redis"]⟩ := rfl
  constructor
  · intro old hlookup
    obtain rfl := Option.some.inj (hold.symm.trans hlookup)
    have hkept : TagsKept (.value [some "redis"]) (.value [some "redis", none]) := by
      rintro _ ⟨⟩
      exact ⟨fun hmem => by simp at hmem, fun _ => .inr rfl⟩
    exact hkept
  · intro hsafe
    have hkept : TagsKept (.value [some "redis"]) (.value [none]) := hsafe _ hold
    obtain ⟨l, hl, hmem⟩ | hsame := (hkept _ rfl).2 (by simp)
    · cases hl
      exact hmem List.mem_cons_self
    · exact absurd hsame (by decide)

/-- A blog with a category and without tags: the category is counted and the blog is not there. -/
theorem not_keepsOrDoes : ¬ ∀ (s : Store BlogFields String) (call : Call BlogFields String),
    FieldsCounted id s → KeepsOrDoes id s call := by
  intro h
  have hkeeps := h .empty (.create ⟨.value "java", .nil⟩ "text" "1") (fieldsCounted_empty id)
  rw [create_iff (fieldsCounted_empty id)] at hkeeps
  rcases hkeeps with hmem | hnone | htags
  · cases hmem
  · cases hnone
  · obtain ⟨l, hl, -⟩ := htags
    cases hl

end BlogLuaScript

end BigPlan.Blog

import BigPlan.Blog.BlogScripts
import BigPlan.Lib.Runs

/-!
# The counters of categories and tags

Two sorted sets follow the blogs: one holds each category with the number of its blogs, one
each tag with the number of its occurrences. Both tally what the stored blogs contribute, a
blog its category once and a tag as often as it carries it.
-/
namespace BigPlan.Blog

open Lib (SortedSet total)
open Lib.SortedSet Lib.Runs

section Blocks

variable {s : SortedSet String} {m : Multiset String} {v : String}

theorem tallies_accumulate (h : s.Tallies m) : (accumulate s v).Tallies (v ::ₘ m) := by
  have hne : ∀ b, b ≠ v → s.zscore b = tally ((v ::ₘ m).count b) := by
    intro b hb
    rw [h b, Multiset.count_cons_of_ne hb]
  have hpos : 0 < (v ::ₘ m).count v := Multiset.count_pos.mpr (Multiset.mem_cons_self v m)
  unfold accumulate
  split
  · rw [h.zincrby]
    exact tallies_zadd hne (by simp) hpos
  · rename_i hrank
    have hv : v ∉ m := fun hmem => hrank (zrank_isSome.mpr (h.mem_members.mpr hmem))
    exact tallies_zadd hne (by simp [Multiset.count_eq_zero.mpr hv]) hpos

theorem tallies_deduct (h : s.Tallies (v ::ₘ m)) : (deduct s v).Tallies m := by
  have hne : ∀ b, b ≠ v → s.zscore b = tally (m.count b) := by
    intro b hb
    rw [h b, Multiset.count_cons_of_ne hb]
  have hrank : (s.zrank v).isSome := zrank_isSome.mpr
    (h.mem_members.mpr (Multiset.mem_cons_self v m))
  have hresult : (((v ::ₘ m).count v : Int) + -1) = m.count v := by
    rw [Multiset.count_cons_self]
    omega
  rw [deduct, if_pos hrank, h.zincrby]
  simp only [hresult]
  split
  · rename_i hzero
    have hv : v ∉ m := Multiset.count_eq_zero.mp (by exact_mod_cast hzero)
    refine tallies_zrem ?_ hv
    intro b hb
    rw [zscore_zadd, if_neg hb, hne b hb]
  · rename_i hzero
    exact tallies_zadd hne rfl (by omega)

theorem tallies_foldl_accumulate (h : s.Tallies m) (l : List String) :
    (l.foldl accumulate s).Tallies (l + m) := by
  induction l generalizing s m with
  | nil => simpa using h
  | cons v l ih =>
    have hrest := ih (tallies_accumulate (v := v) h)
    rwa [Multiset.add_cons, ← Multiset.cons_add, Multiset.cons_coe] at hrest

theorem tallies_foldl_deduct {l : List String} (h : s.Tallies (l + m)) :
    (l.foldl deduct s).Tallies m := by
  induction l generalizing s with
  | nil => simpa using h
  | cons v l ih =>
    rw [← Multiset.cons_coe, Multiset.cons_add] at h
    exact ih (tallies_deduct h)

end Blocks

variable {Data Content : Type*} (decode : Data → BlogJson)

/-- What a blog contributes to the categories. -/
def categoryOf (blog : Data) : Multiset String := {(decode blog).category}

/-- What a blog contributes to the tags. -/
def tagsOf (blog : Data) : Multiset String := (decode blog).tags

/-- The counters tally the stored blogs, and the other keys follow them. -/
structure Counted (s : Store Data Content) : Prop where
  categories : s.categories.Tallies (total (categoryOf decode) s.blogs)
  tags : s.tags.Tallies (total (tagsOf decode) s.blogs)
  ids : ∀ id, id ∈ s.ids.members ↔ id ∈ s.blogs
  contents : ∀ id, id ∈ s.contents ↔ id ∈ s.blogs

variable {decode} {s : Store Data Content}

theorem counted_empty : Counted decode (.empty : Store Data Content) where
  categories := tallies_empty
  tags := tallies_empty
  ids id := by simp [Store.empty, SortedSet.empty, SortedSet.members]
  contents id := Iff.rfl

theorem counted_create (h : Counted decode s) {blogData : Data} {content : Content}
    {blogId : String} (hfits : blogId ∉ s.blogs) :
    Counted decode (s.createBlog decode blogData content blogId).2 := by
  rw [Store.createBlog, if_neg hfits]
  constructor
  · rw [Lib.total_insert_of_notMem _ hfits, categoryOf, Multiset.singleton_add]
    exact tallies_accumulate h.categories
  · rw [Lib.total_insert_of_notMem _ hfits]
    exact tallies_foldl_accumulate h.tags _
  · intro id
    rw [mem_members_zadd, AList.mem_insert, h.ids]
  · intro id
    rw [AList.mem_insert, AList.mem_insert, h.contents]

/-- An update takes out what the old blog contributed and puts in what the new one does. -/
theorem counted_update (h : Counted decode s) {blogData old : Data} {content : Content}
    {blogId : String} (hold : s.blogs.lookup blogId = some old) :
    Counted decode (s.updateBlog decode blogData content blogId).2 := by
  have hcategories := h.categories
  have htags := h.tags
  rw [Lib.total_eq_add_erase _ hold] at hcategories htags
  simp only [Store.updateBlog, hold]
  constructor
  · rw [Lib.total_insert]
    split
    · rw [categoryOf, Multiset.singleton_add] at hcategories ⊢
      exact tallies_accumulate (tallies_deduct hcategories)
    · rename_i hsame
      rwa [categoryOf, ← not_not.mp hsame]
  · rw [Lib.total_insert]
    exact tallies_foldl_accumulate (tallies_foldl_deduct htags) _
  · intro id
    rw [mem_members_zadd, AList.mem_insert, h.ids]
  · intro id
    rw [AList.mem_insert, AList.mem_insert, h.contents]

theorem counted_delete (h : Counted decode s) {old : Data} {blogId : String}
    (hold : s.blogs.lookup blogId = some old) :
    Counted decode (s.deleteBlog decode blogId).2 := by
  have hcategories := h.categories
  have htags := h.tags
  rw [Lib.total_eq_add_erase _ hold] at hcategories htags
  simp only [Store.deleteBlog, hold]
  constructor
  · rw [categoryOf, Multiset.singleton_add] at hcategories
    exact tallies_deduct hcategories
  · exact tallies_foldl_deduct htags
  · intro id
    rw [mem_members_zrem, AList.mem_erase, h.ids]
  · intro id
    rw [AList.mem_erase, AList.mem_erase, h.contents]

theorem counted_next (h : Counted decode s) (call : Call Data Content) :
    Counted decode (s.next decode call) := by
  by_cases hfits : s.Fits call
  · cases call with
    | create blogData content blogId => exact counted_create h hfits
    | update blogData content blogId =>
      obtain ⟨old, hold⟩ := Store.exists_blog hfits
      exact counted_update h hold
    | delete blogId =>
      obtain ⟨old, hold⟩ := Store.exists_blog hfits
      exact counted_delete h hold
  · rw [Store.next, Store.exec_of_not_fits hfits]
    exact h

/-! ## The counters in terms of the blogs -/

namespace Store

variable (decode) (s)

/-- The number of existing blogs in a category. -/
def blogsIn (category : String) : Nat :=
  s.blogs.entries.countP fun blog => (decode blog.2).category = category

/-- The number of occurrences of a tag over all existing blogs. -/
def occurrences (tag : String) : Nat :=
  (s.blogs.entries.flatMap fun blog => (decode blog.2).tags).count tag

end Store

theorem count_categories (category : String) :
    (total (categoryOf decode) s.blogs).count category = s.blogsIn decode category := by
  have htotal : total (categoryOf decode) s.blogs =
      (s.blogs.entries.map fun blog => (decode blog.2).category : List String) := by
    rw [List.map_eq_flatMap]
    exact Lib.total_coe fun blog => [(decode blog).category]
  rw [htotal, Multiset.coe_count, List.count_eq_countP, List.countP_map]
  exact List.countP_congr fun blog _ => by simp

theorem count_tags (tag : String) :
    (total (tagsOf decode) s.blogs).count tag = s.occurrences decode tag := by
  have htotal : total (tagsOf decode) s.blogs =
      (s.blogs.entries.flatMap fun blog => (decode blog.2).tags : List String) :=
    Lib.total_coe fun blog => (decode blog).tags
  rw [htotal, Multiset.coe_count, Store.occurrences]

variable (decode)

/-- The keys of the scripts say what the existing blogs say. -/
structure CountersFollow (s : Store Data Content) : Prop where
  category_members : ∀ category, category ∈ s.categories.members ↔
    ∃ id blog, s.blogs.lookup id = some blog ∧ (decode blog).category = category
  category_scores : ∀ category score, s.categories.zscore category = some score →
    score = s.blogsIn decode category
  tag_members : ∀ tag, tag ∈ s.tags.members ↔
    ∃ id blog, s.blogs.lookup id = some blog ∧ tag ∈ (decode blog).tags
  tag_scores : ∀ tag score, s.tags.zscore tag = some score → score = s.occurrences decode tag
  ids : ∀ id, id ∈ s.ids.members ↔ id ∈ s.blogs
  contents : ∀ id, id ∈ s.contents ↔ id ∈ s.blogs

variable {decode}

theorem Counted.follow (h : Counted decode s) : CountersFollow decode s where
  category_members category := by
    rw [h.categories.mem_members, Lib.mem_total]
    simp [categoryOf, eq_comm]
  category_scores category score hscore := by
    rw [h.categories.score_eq hscore, count_categories]
  tag_members tag := by
    rw [h.tags.mem_members, Lib.mem_total]
    simp [tagsOf]
  tag_scores tag score hscore := by
    rw [h.tags.score_eq hscore, count_tags]
  ids := h.ids
  contents := h.contents

namespace Store

/-- The blog and the content of the call are stored under its id, or those that are there are
removed, and other ids keep theirs. -/
def Stores (s s' : Store Data Content) : Call Data Content → Prop
  | .create blogData content blogId | .update blogData content blogId =>
    s'.blogs = s.blogs.insert blogId blogData ∧ s'.contents = s.contents.insert blogId content
  | .delete blogId => s'.blogs = s.blogs.erase blogId ∧ s'.contents = s.contents.erase blogId

theorem stores_exec {call : Call Data Content} (h : s.Fits call) :
    s.Stores (s.exec decode call).2 call := by
  cases call with
  | create blogData content blogId =>
    rw [exec, createBlog, if_neg h]
    exact ⟨rfl, rfl⟩
  | update blogData content blogId =>
    obtain ⟨old, hold⟩ := exists_blog h
    simp only [exec, updateBlog, hold]
    exact ⟨rfl, rfl⟩
  | delete blogId =>
    obtain ⟨old, hold⟩ := exists_blog h
    simp only [exec, deleteBlog, hold]
    exact ⟨rfl, rfl⟩

end Store

/-- After every sequence of calls the counters follow the blogs; each call answers whether it
fits, one that fits stores what it is to store, and one that does not fit changes nothing. -/
theorem counters_follow (calls : List (Call Data Content)) :
    Throughout (Store.next decode) (CountersFollow decode) .empty calls ∧
      ∀ (s : Store Data Content) (call : Call Data Content),
        ((s.exec decode call).1 = "0" ↔ s.Fits call) ∧
          (s.Fits call → s.Stores (s.exec decode call).2 call) ∧
          (¬ s.Fits call → (s.exec decode call).2 = s) := by
  constructor
  · have hcounted : Throughout (Store.next decode) (Counted decode) .empty calls := by
      apply throughout_of_step
      · intro s call h
        exact counted_next h call
      · exact counted_empty
    exact hcounted.mono fun s h => h.follow
  · intro s call
    refine ⟨Store.exec_ok_iff, Store.stores_exec, ?_⟩
    intro hfits
    rw [Store.exec_of_not_fits hfits]

/-- A blog with a repeated tag, changed to another category and one of its tags. -/
example :
    let calls : List (Call BlogJson String) :=
      [.create ⟨"java", ["redis", "lua", "redis"]⟩ "old" "1", .update ⟨"lua", ["redis"]⟩ "new" "1"]
    let s := run (Store.next id) .empty calls
    s.categories.entries = [("lua", 1)] ∧ s.tags.entries = [("redis", 1)] := by
  decide +kernel

end BigPlan.Blog

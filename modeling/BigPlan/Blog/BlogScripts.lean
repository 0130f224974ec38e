import Mathlib.Data.String.Basic
import BigPlan.Lib.Tally

/-!
# The blog scripts

`createBlog.lua`, `updateBlog.lua`, `deleteBlog.lua` and `incrementViews.lua`, each run by
Redis in one step. The keys `Blog:Blog:<id>` and `Blog:Content:<id>` are two maps by id: their
prefixes keep them apart from each other and from the four sorted sets. `decode` stands for
`cjson.decode` on the texts that the service writes.
-/
namespace BigPlan.Blog

open Lib (SortedSet)

/-- The fields of a blog's JSON that the scripts read. -/
structure BlogJson where
  category : String
  tags : List String
  deriving DecidableEq, Repr

/-- What is stored under the keys of the scripts. -/
structure Store (Data Content : Type*) where
  blogs : AList fun _ : String => Data
  contents : AList fun _ : String => Content
  ids : SortedSet String
  categories : SortedSet String
  tags : SortedSet String
  views : SortedSet String

/-- The block that counts a category, a tag or a view. -/
def accumulate (set : SortedSet String) (v : String) : SortedSet String :=
  if (set.zrank v).isSome then (set.zincrby v 1).1 else set.zadd v 1

/-- The block that discounts a category or a tag. -/
def deduct (set : SortedSet String) (v : String) : SortedSet String :=
  if (set.zrank v).isSome then
    let (decreased, result) := set.zincrby v (-1)
    if result = 0 then decreased.zrem v else decreased
  else set

/-- The answer of a script that found what it needs. -/
def ok : String := "0"

namespace Store

variable {Data Content : Type*} (decode : Data → BlogJson) (s : Store Data Content)

def empty : Store Data Content := ⟨∅, ∅, .empty, .empty, .empty, .empty⟩

def createBlog (blogData : Data) (content : Content) (blogId : String) :
    String × Store Data Content :=
  if blogId ∈ s.blogs then ("-1", s)
  else
    let blogJson := decode blogData
    (ok, { blogs := s.blogs.insert blogId blogData
           contents := s.contents.insert blogId content
           ids := s.ids.zadd blogId 0
           categories := accumulate s.categories blogJson.category
           tags := blogJson.tags.foldl accumulate s.tags
           views := s.views.zadd blogId 0 })

def updateBlog (blogData : Data) (content : Content) (blogId : String) :
    String × Store Data Content :=
  match s.blogs.lookup blogId with
  | none => ("-1", s)
  | some oldBlogData =>
    let oldBlogJson := decode oldBlogData
    let blogJson := decode blogData
    (ok, { blogs := s.blogs.insert blogId blogData
           contents := s.contents.insert blogId content
           ids := s.ids.zadd blogId 0
           categories :=
             if oldBlogJson.category ≠ blogJson.category then
               accumulate (deduct s.categories oldBlogJson.category) blogJson.category
             else s.categories
           tags := blogJson.tags.foldl accumulate (oldBlogJson.tags.foldl deduct s.tags)
           views := s.views })

def deleteBlog (blogId : String) : String × Store Data Content :=
  match s.blogs.lookup blogId with
  | none => ("-1", s)
  | some blogData =>
    let blogJson := decode blogData
    (ok, { blogs := s.blogs.erase blogId
           contents := s.contents.erase blogId
           ids := s.ids.zrem blogId
           categories := deduct s.categories blogJson.category
           tags := blogJson.tags.foldl deduct s.tags
           views := s.views.zrem blogId })

def incrementViews (id : String) : Store Data Content :=
  { s with views := accumulate s.views id }

end Store

/-- A call of the blog service that runs one of the scripts. -/
inductive Call (Data Content : Type*)
  | create (blogData : Data) (content : Content) (blogId : String)
  | update (blogData : Data) (content : Content) (blogId : String)
  | delete (blogId : String)

namespace Store

variable {Data Content : Type*} (decode : Data → BlogJson) (s : Store Data Content)

def exec : Call Data Content → String × Store Data Content
  | .create blogData content blogId => s.createBlog decode blogData content blogId
  | .update blogData content blogId => s.updateBlog decode blogData content blogId
  | .delete blogId => s.deleteBlog decode blogId

/-- A blog is created where there is none, and changed or deleted where there is one. -/
def Fits : Call Data Content → Prop
  | .create _ _ blogId => blogId ∉ s.blogs
  | .update _ _ blogId | .delete blogId => blogId ∈ s.blogs

def next (call : Call Data Content) : Store Data Content := (s.exec decode call).2

variable {decode s}

theorem exists_blog {blogId : String} (h : blogId ∈ s.blogs) :
    ∃ blog, s.blogs.lookup blogId = some blog :=
  Option.isSome_iff_exists.mp (AList.lookup_isSome.mpr h)

/-- A call that does not fit changes nothing. -/
theorem exec_of_not_fits {call : Call Data Content} (h : ¬ s.Fits call) :
    s.exec decode call = ("-1", s) := by
  cases call with
  | create blogData content blogId => simp only [exec, createBlog, not_not.mp h, if_true]
  | update blogData content blogId =>
    simp only [exec, updateBlog, AList.lookup_eq_none.mpr h]
  | delete blogId => simp only [exec, deleteBlog, AList.lookup_eq_none.mpr h]

theorem exec_ok {call : Call Data Content} (h : s.Fits call) : (s.exec decode call).1 = ok := by
  cases call with
  | create blogData content blogId => rw [exec, createBlog, if_neg h]
  | update blogData content blogId =>
    obtain ⟨old, hold⟩ := exists_blog h
    simp only [exec, updateBlog, hold]
  | delete blogId =>
    obtain ⟨old, hold⟩ := exists_blog h
    simp only [exec, deleteBlog, hold]

theorem exec_ok_iff {call : Call Data Content} :
    (s.exec decode call).1 = ok ↔ s.Fits call := by
  refine ⟨fun h => ?_, exec_ok⟩
  by_contra hfits
  rw [exec_of_not_fits hfits] at h
  simp [ok] at h

end Store

end BigPlan.Blog

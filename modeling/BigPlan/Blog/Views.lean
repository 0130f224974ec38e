import BigPlan.Blog.BlogScripts
import BigPlan.Lib.Java
import BigPlan.Lib.Runs

/-!
# The views of the blogs

A blog's views are initialized with the blog and deleted with it. In between every reading
adds one, but later: `BlogServiceImpl.views` hands the increment to an executor, and the
increment makes a member of an id that has none.
-/
namespace BigPlan.Blog

open Lib (SortedSet)
open Lib.SortedSet Lib.Java Lib.Runs

variable {Data Content : Type*}

namespace Store

variable (s : Store Data Content)

/-- The ids that `top` reads from the ranking, each with what `mGet` finds under its key. -/
def top (first number : JInt) : List (String × Option Data) :=
  (s.views.zrevrange first.toInt (first + number - 1).toInt).map fun id =>
    (id, s.blogs.lookup id)

/-- The views are those of the existing blogs, and the ranking yields existing blogs only. -/
structure ViewsFollow (s : Store Data Content) : Prop where
  members : ∀ id, id ∈ s.views.members ↔ id ∈ s.blogs
  ranking : ∀ first number, ∀ entry ∈ s.top first number, entry.2 ≠ none

variable {s} {id v : String}

theorem viewsFollow_iff : ViewsFollow s ↔ ∀ id, id ∈ s.views.members ↔ id ∈ s.blogs := by
  refine ⟨fun h => h.members, fun h => ⟨h, ?_⟩⟩
  intro first number entry hentry
  obtain ⟨id, hid, rfl⟩ := List.mem_map.mp hentry
  have hmem : id ∈ s.views.members := List.mem_reverse.mp (Lib.mem_of_mem_slice hid)
  exact fun hnone => AList.lookup_eq_none.mp hnone ((h id).mp hmem)

theorem mem_members_accumulate {set : SortedSet String} :
    id ∈ (accumulate set v).members ↔ id = v ∨ id ∈ set.members := by
  unfold accumulate
  split <;> exact mem_members_zadd

/-- The scripts keep the views with the blogs. -/
theorem viewsFollow_next {decode : Data → BlogJson} (h : ViewsFollow s)
    (call : Call Data Content) : ViewsFollow (s.next decode call) := by
  rw [viewsFollow_iff] at h ⊢
  intro id
  by_cases hfits : s.Fits call
  · cases call with
    | create blogData content blogId =>
      rw [next, exec, createBlog, if_neg hfits]
      rw [mem_members_zadd, AList.mem_insert, h]
    | update blogData content blogId =>
      obtain ⟨old, hold⟩ := exists_blog hfits
      simp only [next, exec, updateBlog, hold]
      rw [AList.mem_insert, h]
      exact ⟨.inr, fun hid => hid.elim (fun heq => heq ▸ hfits) fun hmem => hmem⟩
    | delete blogId =>
      obtain ⟨old, hold⟩ := exists_blog hfits
      simp only [next, exec, deleteBlog, hold]
      rw [mem_members_zrem, AList.mem_erase, h]
  · rw [next, exec_of_not_fits hfits]
    exact h id

/-- An increment keeps the views with the blogs exactly if its blog exists. -/
theorem viewsFollow_incrementViews (h : ViewsFollow s) :
    ViewsFollow (s.incrementViews v) ↔ v ∈ s.blogs := by
  rw [viewsFollow_iff] at h ⊢
  constructor
  · intro hafter
    exact (hafter v).mp (mem_members_accumulate.mpr (.inl rfl))
  · intro hv id
    rw [incrementViews, mem_members_accumulate, h]
    exact ⟨fun hid => hid.elim (fun heq => heq ▸ hv) fun hmem => hmem, .inr⟩

end Store

/-- The store, and the increments that the executor has not run. -/
structure Site (Data Content : Type*) where
  store : Store Data Content
  submitted : List String

inductive SiteAct (Data Content : Type*)
  | call (call : Call Data Content)
  | views (id : String)
  | increment (index : Nat)

namespace Site

variable (decode : Data → BlogJson) (site : Site Data Content)

def empty : Site Data Content := ⟨.empty, []⟩

def step : SiteAct Data Content → Site Data Content
  | .call call => { site with store := site.store.next decode call }
  | .views id => { site with submitted := site.submitted ++ [id] }
  | .increment index =>
    match site.submitted[index]? with
    | none => site
    | some id => ⟨site.store.incrementViews id, site.submitted.eraseIdx index⟩

/-- A reading of a blog that exists. -/
def ReadsBlog (site : Site Data Content) : SiteAct Data Content → Prop
  | .views id => id ∈ site.store.blogs
  | .call _ | .increment _ => True

/-- An increment whose blog still exists, or exists again, when it is run. -/
def InTime (site : Site Data Content) : SiteAct Data Content → Prop
  | .increment index => ∀ id, site.submitted[index]? = some id → id ∈ site.store.blogs
  | .call _ | .views _ => True

variable {decode site}

theorem viewsFollow_step (h : site.store.ViewsFollow) {act : SiteAct Data Content} :
    (site.step decode act).store.ViewsFollow ↔ site.InTime act := by
  cases act with
  | call call => exact iff_of_true (Store.viewsFollow_next h call) trivial
  | views id => exact iff_of_true h trivial
  | increment index =>
    cases hid : site.submitted[index]? with
    | none => simpa [step, InTime, hid] using h
    | some id => simpa [step, InTime, hid] using Store.viewsFollow_incrementViews h

/-- The views follow the blogs throughout a run exactly if they do at its start and the blog
of every increment exists when the increment is run. -/
theorem views_follow_iff (site : Site Data Content) (acts : List (SiteAct Data Content)) :
    Throughout (step decode) (fun site => site.store.ViewsFollow) site acts ↔
      site.store.ViewsFollow ∧ Along (step decode) InTime site acts := by
  have hiff : site.store.ViewsFollow →
      (Throughout (step decode) (fun site => site.store.ViewsFollow) site acts ↔
        Along (step decode) InTime site acts) := by
    intro h0
    refine throughout_iff_along (fun _ site => site.store.ViewsFollow) ?_ ?_ ?_ h0
    · intro site _ h
      exact h
    · intro site act _ h hguard
      exact (viewsFollow_step h).mpr hguard
    · intro site act _ h hguard hafter
      exact hguard ((viewsFollow_step h).mp hafter)
  constructor
  · intro h
    exact ⟨h.first, (hiff h.first).mp h⟩
  · rintro ⟨h0, h⟩
    exact (hiff h0).mpr h

/-- A blog is created, read and deleted, and only then the reading is counted. -/
def countedLate : List (SiteAct BlogJson String) :=
  [.call (.create ⟨"java", ["redis"]⟩ "text" "7"), .views "7", .call (.delete "7"), .increment 0]

/-- All readings are of an existing blog, and the ranking ends with an id without one. -/
theorem not_views_follow_late :
    Along (step id) ReadsBlog empty countedLate ∧
      ¬ Throughout (step id) (fun site => site.store.ViewsFollow) empty countedLate ∧
      (run (step id) empty countedLate).store.top 0 10 = [("7", none)] := by
  have htop : (run (step id) empty countedLate).store.top 0 10 = [("7", none)] := by
    decide +kernel
  refine ⟨?_, ?_, htop⟩
  · refine ⟨trivial, ?_, trivial, trivial, trivial⟩
    exact AList.mem_keys.mpr List.mem_cons_self
  · intro h
    refine h.last.ranking 0 10 ("7", none) ?_ rfl
    rw [htop]
    exact List.mem_singleton_self _

end Site

end BigPlan.Blog

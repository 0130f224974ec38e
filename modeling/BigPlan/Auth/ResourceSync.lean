import BigPlan.Lib.Fallible
import BigPlan.Auth.ResourceService

/-!
# Resources follow the reports of their server

After a report the server has a resource for each reported scope and no other, each with its own
permission. What was there before keeps its ids, and reporting again changes nothing. A report
that the tables cannot hold is refused.
-/
namespace BigPlan.Auth

open Lib (Table)
open Lib.Java Lib.Fallible

namespace Database

/-- No server has a scope twice, and each resource has one permission. -/
structure Consistent (db : Database) : Prop where
  scopes : ∀ r ∈ db.resources.rows, ∀ r' ∈ db.resources.rows,
    r.2.resourceServerId = r'.2.resourceServerId → r.2.scope = r'.2.scope → r = r'
  permission : ∀ r ∈ db.resources.rows, ∃! p, p ∈ db.permissions.rows ∧ p.2.resourceId = r.1

/-- The second database has the reported resources for the server, and all else as in the first. -/
structure Synchronised (db db' : Database) (resourceServerId : Int)
    (authResources : List AuthResourceDTO) : Prop where
  reported : ∀ scope name, (∃ r ∈ db'.resources.rows, r.2.resourceServerId = resourceServerId ∧
    r.2.scope = scope ∧ r.2.name = name) ↔ ⟨some scope, some name⟩ ∈ authResources
  kept : ∀ r ∈ db.resources.rows, r.2.resourceServerId = resourceServerId →
    some r.2.scope ∈ authResources.map (·.scope) →
      (∃ r' ∈ db'.resources.rows, r'.1 = r.1 ∧ r'.2.resourceServerId = resourceServerId ∧
        r'.2.scope = r.2.scope) ∧
      ∀ p, p.2.resourceId = r.1 → (p ∈ db'.permissions.rows ↔ p ∈ db.permissions.rows)
  others : ∀ r, r.2.resourceServerId ≠ resourceServerId →
    (r ∈ db'.resources.rows ↔ r ∈ db.resources.rows)
  otherPermissions : ∀ p : Int × PermissionEntity,
    (∀ r, r ∈ db.resources.rows ∨ r ∈ db'.resources.rows →
      r.2.resourceServerId = resourceServerId → r.1 ≠ p.2.resourceId) →
      (p ∈ db'.permissions.rows ↔ p ∈ db.permissions.rows)

/-- The client is new or reports under the name that it has, and the report leaves no name out. -/
def Storable (db : Database) (reportData : ResourceReportDTO)
    (authResources : List AuthResourceDTO) : Prop :=
  ((∃ p ∈ db.resourceServers.rows, p.2.name = reportData.resourceServerName) ∨
    ∀ p ∈ db.resourceServers.rows, p.2.clientId ≠ reportData.clientId) ∧
  reportData.resourceServerName ≠ none ∧
  ∀ dto ∈ authResources, dto.scope ≠ none ∧ dto.name ≠ none

variable {db : Database} {reportData : ResourceReportDTO} {report : Report}
  {authResources : List AuthResourceDTO}

/-! ## The names of a report -/

/-- With distinct scopes the name is that of the only resource with the scope. -/
theorem newName_of_mem (hscopes : (authResources.map (·.scope)).Nodup) {dto : AuthResourceDTO}
    (hdto : dto ∈ authResources) {r : ResourceEntity} (hscope : dto.scope = some r.scope) :
    newName authResources r = dto.name := by
  have hskip : ∀ (l : List AuthResourceDTO) (name : Option String),
      some r.scope ∉ l.map (·.scope) →
      l.foldl (fun name dto => if dto.scope = some r.scope then dto.name else name) name = name := by
    intro l
    induction l with
    | nil => exact fun name _ => rfl
    | cons d l ih =>
      intro name hnot
      rw [List.map_cons, List.mem_cons, not_or] at hnot
      rw [List.foldl_cons, if_neg (Ne.symm hnot.1)]
      exact ih name hnot.2
  obtain ⟨before, after, rfl⟩ := List.append_of_mem hdto
  rw [List.map_append, List.map_cons, List.nodup_append, List.nodup_cons] at hscopes
  rw [newName, List.foldl_append, List.foldl_cons, if_pos hscope]
  exact hskip after dto.name (hscope ▸ hscopes.2.1.1)

theorem newResource_eq_some {resourceServerId : Int} {resourceServerName : Option String}
    {dto : AuthResourceDTO} {e : ResourceEntity}
    (h : newResource resourceServerId resourceServerName dto = some e) :
    dto = ⟨some e.scope, some e.name⟩ ∧ e.resourceServerId = resourceServerId := by
  unfold newResource at h
  split at h
  · rename_i name scope dtoName hname hscope hdto
    cases h
    obtain ⟨dtoScope, dtoName'⟩ := dto
    cases hscope
    cases hdto
    exact ⟨rfl, rfl⟩
  · cases h

theorem newResource_isSome {resourceServerId : Int} {resourceServerName : Option String}
    {dto : AuthResourceDTO} (hserver : resourceServerName ≠ none) (hscope : dto.scope ≠ none)
    (hname : dto.name ≠ none) : ∃ e, newResource resourceServerId resourceServerName dto = some e := by
  obtain ⟨server, rfl⟩ := Option.ne_none_iff_exists'.mp hserver
  obtain ⟨scope, name⟩ := dto
  obtain ⟨scope, rfl⟩ := Option.ne_none_iff_exists'.mp hscope
  obtain ⟨name, rfl⟩ := Option.ne_none_iff_exists'.mp hname
  exact ⟨_, rfl⟩

/-! ## What is prepared -/

/-- The new resources are the reported ones whose scopes are new. -/
theorem Prepared.mem_add (h : Prepared db reportData report) {e : ResourceEntity} :
    e ∈ report.add ↔ ∃ dto ∈ report.authResources,
      (∀ r ∈ db.resources.rows, r.2.resourceServerId = report.resourceServerId →
        some r.2.scope ≠ dto.scope) ∧
      newResource report.resourceServerId reportData.resourceServerName dto = some e := by
  have hmem : e ∈ report.add ↔ some e ∈ report.add.map some := by simp
  rw [hmem, ← map_of_mapM h.add, List.mem_map]
  constructor
  · intro hexists
    obtain ⟨dto, hdto, he⟩ := hexists
    obtain ⟨hdto, hnew⟩ := List.mem_filter.mp hdto
    refine ⟨dto, hdto, fun r hr hserver hscope => ?_, he⟩
    refine of_decide_eq_true hnew (List.mem_map.mpr ⟨r, List.mem_filter.mpr ⟨hr, ?_⟩, hscope⟩)
    exact decide_eq_true hserver
  · intro hexists
    obtain ⟨dto, hdto, hnew, he⟩ := hexists
    refine ⟨dto, List.mem_filter.mpr ⟨hdto, decide_eq_true fun hold => ?_⟩, he⟩
    obtain ⟨r, hr, hscope⟩ := List.mem_map.mp hold
    obtain ⟨hr, hserver⟩ := List.mem_filter.mp hr
    exact hnew r hr (of_decide_eq_true hserver) hscope

theorem Prepared.add_scopes (h : Prepared db reportData report)
    (hscopes : (report.authResources.map (·.scope)).Nodup) : (report.add.map (·.scope)).Nodup := by
  have hsame : report.add.map (fun e => some e.scope) =
      (report.authResources.filter fun dto => dto.scope ∉
        (db.resources.rows.filter fun r => r.2.resourceServerId = report.resourceServerId).map
          fun r => some r.2.scope).map (·.scope) := by
    have hadd := map_of_mapM h.add
    generalize report.authResources.filter _ = l at hadd
    generalize report.add = add at hadd
    induction l generalizing add with
    | nil =>
      cases add with
      | nil => rfl
      | cons e add => cases hadd
    | cons dto l ih =>
      cases add with
      | nil => cases hadd
      | cons e add =>
        rw [List.map_cons, List.map_cons, List.cons.injEq] at hadd
        rw [List.map_cons, List.map_cons, ih add hadd.2, (newResource_eq_some hadd.1).1]
  have hnodup : (report.add.map fun e => some e.scope).Nodup := by
    rw [hsame]
    exact hscopes.sublist (List.filter_sublist.map _)
  have hmap : report.add.map (fun e => some e.scope) = (report.add.map (·.scope)).map some := by
    rw [List.map_map]
    rfl
  rw [hmap] at hnodup
  exact hnodup.of_map some

/-! ## What the rows are afterwards -/

section Saved

variable (h : Prepared db reportData report) {r : Int × ResourceEntity}

include h

theorem Prepared.mem_delete_of_mem (hr : r ∈ db.resources.rows) : r.1 ∈ report.delete ↔
    r.2.resourceServerId = report.resourceServerId ∧
      some r.2.scope ∉ report.authResources.map (·.scope) := by
  obtain ⟨id, e⟩ := r
  rw [h.mem_delete]
  constructor
  · intro hexists
    obtain ⟨e', hmem, hdropped⟩ := hexists
    cases Table.eq_of_mem hmem hr rfl
    exact hdropped
  · exact fun hdropped => ⟨e, hr, hdropped⟩

theorem Prepared.mem_resources : r ∈ (db.saveReport report).resources.rows ↔
    (r.2.resourceServerId ≠ report.resourceServerId ∧ r ∈ db.resources.rows) ∨
    (r.2.resourceServerId = report.resourceServerId ∧
      some r.2.scope ∈ report.authResources.map (·.scope) ∧
      ∃ name, (r.1, { r.2 with name }) ∈ db.resources.rows ∧
        newName report.authResources { r.2 with name } = some r.2.name) ∨
    ∃ (i : ℕ) (e : ResourceEntity), report.add[i]? = some e ∧ r = (db.resources.next + i, e) := by
  rw [mem_resources_saveReport, ← or_assoc]
  refine or_congr_left ?_
  constructor
  · intro hexists
    obtain ⟨q, hq, hkept, hid, hrow⟩ := hexists
    by_cases hserver : q.2.resourceServerId = report.resourceServerId
    · rw [if_pos hserver] at hrow
      have hscope : some q.2.scope ∈ report.authResources.map (·.scope) := by
        by_contra hnot
        exact hkept ((h.mem_delete_of_mem hq).mpr ⟨hserver, hnot⟩)
      obtain ⟨name, hname⟩ := Option.ne_none_iff_exists'.mp (h.named q hq hserver hscope)
      rw [hname, Option.getD_some] at hrow
      refine .inr ⟨?_, ?_, q.2.name, ?_⟩
      · rw [hrow]
        exact hserver
      · rw [hrow]
        exact hscope
      · rw [hrow, hid]
        exact ⟨hq, hname⟩
    · rw [if_neg hserver] at hrow
      have hr : r = q := Prod.ext hid hrow
      subst hr
      exact .inl ⟨hserver, hq⟩
  · intro hcases
    rcases hcases with ⟨hserver, hr⟩ | ⟨hserver, hscope, name, hr, hname⟩
    · refine ⟨r, hr, fun hdelete => ?_, rfl, (if_neg hserver).symm⟩
      exact hserver ((h.mem_delete_of_mem hr).mp hdelete).1
    · refine ⟨_, hr, fun hdelete => ?_, rfl, ?_⟩
      · exact ((h.mem_delete_of_mem hr).mp hdelete).2 hscope
      · rw [if_pos hserver, hname]
        rfl

theorem Prepared.mem_permissions {p : Int × PermissionEntity} :
    p ∈ (db.saveReport report).permissions.rows ↔
      (p ∈ db.permissions.rows ∧ p.2.resourceId ∉ report.delete) ∨
      ∃ i : ℕ, i < report.add.length ∧
        p = (db.permissions.next + i, { resourceId := db.resources.next + i }) := by
  rw [mem_permissions_saveReport]
  obtain ⟨id, p⟩ := p
  refine or_congr_left (and_congr_right fun hp => not_congr ?_)
  rw [h.mem_deletePermission]
  constructor
  · intro hexists
    obtain ⟨p', hp', hdropped⟩ := hexists
    cases Table.eq_of_mem hp' hp rfl
    exact hdropped
  · exact fun hdropped => ⟨p, hp, hdropped⟩

/-- A new resource has a scope that the server did not have, under an id that was not handed
out. -/
theorem Prepared.of_add {i : ℕ} {e : ResourceEntity} (he : report.add[i]? = some e) :
    e.resourceServerId = report.resourceServerId ∧
      ⟨some e.scope, some e.name⟩ ∈ report.authResources ∧
      ∀ q ∈ db.resources.rows, q.2.resourceServerId = report.resourceServerId →
        q.2.scope ≠ e.scope := by
  obtain ⟨dto, hdto, hnew, hsome⟩ := h.mem_add.mp (List.mem_of_getElem? he)
  obtain ⟨rfl, hserver⟩ := newResource_eq_some hsome
  exact ⟨hserver, hdto, fun q hq hq' hscope => hnew q hq hq' (congrArg some hscope)⟩

theorem Prepared.add_inj (hscopes : (report.authResources.map (·.scope)).Nodup) {i j : ℕ}
    {e e' : ResourceEntity} (he : report.add[i]? = some e) (he' : report.add[j]? = some e')
    (hscope : e.scope = e'.scope) : i = j ∧ e = e' := by
  have hlt : i < (report.add.map (·.scope)).length := by
    rw [List.length_map]
    exact (List.getElem?_eq_some_iff.mp he).1
  have hsame : (report.add.map (·.scope))[i]? = (report.add.map (·.scope))[j]? := by
    rw [List.getElem?_map, List.getElem?_map, he, he', Option.map_some, Option.map_some, hscope]
  have hij := (List.getElem?_inj hlt (h.add_scopes hscopes)).mp hsame
  subst hij
  rw [he] at he'
  exact ⟨rfl, Option.some.inj he'⟩

/-- The server has one row for each scope. -/
theorem Prepared.scopes_unique (hcons : db.Consistent)
    (hscopes : (report.authResources.map (·.scope)).Nodup) {r r' : Int × ResourceEntity}
    (hr : r ∈ (db.saveReport report).resources.rows)
    (hr' : r' ∈ (db.saveReport report).resources.rows)
    (hserver : r.2.resourceServerId = r'.2.resourceServerId) (hscope : r.2.scope = r'.2.scope) :
    r = r' := by
  rcases h.mem_resources.mp hr with ⟨hr1, hr⟩ | ⟨hr1, -, name, hr, hname⟩ | ⟨i, e, he, rfl⟩
  · rcases h.mem_resources.mp hr' with ⟨-, hr'⟩ | ⟨hr2, -⟩ | ⟨j, e', he', rfl⟩
    · exact hcons.scopes r hr r' hr' hserver hscope
    · exact absurd (hserver.trans hr2) hr1
    · exact absurd (hserver.trans (h.of_add he').1) hr1
  · rcases h.mem_resources.mp hr' with ⟨hr2, -⟩ | ⟨-, -, name', hr', hname'⟩ | ⟨j, e', he', rfl⟩
    · exact absurd (hserver.symm.trans hr1) hr2
    · have hsame := hcons.scopes _ hr _ hr' hserver hscope
      rw [Prod.mk.injEq] at hsame
      have hnames : some r.2.name = some r'.2.name := by rw [← hname, ← hname', hsame.2]
      obtain ⟨id, ⟨server, serverName, scope, rname⟩⟩ := r
      obtain ⟨id', ⟨server', serverName', scope', rname'⟩⟩ := r'
      simp only [ResourceEntity.mk.injEq, Option.some.injEq] at hsame hnames
      obtain ⟨rfl, rfl, rfl, rfl, -⟩ := hsame
      rw [hnames]
    · exact absurd hscope ((h.of_add he').2.2 (r.1, { r.2 with name }) hr hr1)
  · rcases h.mem_resources.mp hr' with ⟨hr2, -⟩ | ⟨hr2, -, name', hr', -⟩ | ⟨j, e', he', rfl⟩
    · exact absurd (hserver.symm.trans (h.of_add he).1) hr2
    · exact absurd hscope.symm ((h.of_add he).2.2 (r'.1, { r'.2 with name := name' }) hr' hr2)
    · obtain ⟨rfl, rfl⟩ := h.add_inj hscopes he he' hscope
      rfl

/-- A resource that stays keeps its one permission. -/
theorem Prepared.permission_of_kept (hcons : db.Consistent) {id : Int} {e : ResourceEntity}
    (hmem : (id, e) ∈ db.resources.rows) (hkept : id ∉ report.delete) :
    ∃! p, p ∈ (db.saveReport report).permissions.rows ∧ p.2.resourceId = id := by
  obtain ⟨p, ⟨hp, hid⟩, honly⟩ := hcons.permission _ hmem
  have hid : p.2.resourceId = id := hid
  refine ⟨p, ⟨h.mem_permissions.mpr (.inl ⟨hp, hid.symm ▸ hkept⟩), hid⟩, fun p' hp' => ?_⟩
  rcases h.mem_permissions.mp hp'.1 with ⟨hp'', -⟩ | ⟨j, -, rfl⟩
  · exact honly p' ⟨hp'', hp'.2⟩
  · have hlt := db.resources.fresh _ hmem
    have heq := hp'.2
    dsimp only at hlt heq
    omega

/-- A new resource gets one permission. -/
theorem Prepared.permission_of_add {i : ℕ} {e : ResourceEntity} (he : report.add[i]? = some e) :
    ∃! p, p ∈ (db.saveReport report).permissions.rows ∧
      p.2.resourceId = db.resources.next + i := by
  have hlt := (List.getElem?_eq_some_iff.mp he).1
  refine ⟨_, ⟨h.mem_permissions.mpr (.inr ⟨i, hlt, rfl⟩), rfl⟩, fun p hp => ?_⟩
  have hid := hp.2
  rcases h.mem_permissions.mp hp.1 with ⟨hold, -⟩ | ⟨j, -, rfl⟩
  · have hallocated := db.resource_allocated p hold
    omega
  · dsimp only at hid
    have hij : j = i := by omega
    subst hij
    rfl

theorem Prepared.consistent (hcons : db.Consistent)
    (hscopes : (report.authResources.map (·.scope)).Nodup) :
    (db.saveReport report).Consistent where
  scopes _ hr _ hr' hserver hscope := h.scopes_unique hcons hscopes hr hr' hserver hscope
  permission r hr := by
    rcases h.mem_resources.mp hr with ⟨hserver, hr⟩ | ⟨-, hscope, name, hr, -⟩ | ⟨i, e, he, rfl⟩
    · exact h.permission_of_kept hcons hr fun hdelete =>
        hserver ((h.mem_delete_of_mem hr).mp hdelete).1
    · exact h.permission_of_kept hcons hr fun hdelete =>
        ((h.mem_delete_of_mem hr).mp hdelete).2 hscope
    · exact h.permission_of_add he

/-- What is reported and new to the server gets a row. -/
theorem Prepared.exists_add {dto : AuthResourceDTO} (hdto : dto ∈ report.authResources)
    (hnew : ∀ q ∈ db.resources.rows, q.2.resourceServerId = report.resourceServerId →
      some q.2.scope ≠ dto.scope) :
    ∃ (i : ℕ) (e : ResourceEntity), report.add[i]? = some e ∧ dto = ⟨some e.scope, some e.name⟩ := by
  have hfiltered : newResource report.resourceServerId reportData.resourceServerName dto ∈
      report.add.map some := by
    rw [← map_of_mapM h.add]
    refine List.mem_map_of_mem (List.mem_filter.mpr ⟨hdto, decide_eq_true fun hold => ?_⟩)
    obtain ⟨q, hq, hscope⟩ := List.mem_map.mp hold
    obtain ⟨hq, hserver⟩ := List.mem_filter.mp hq
    exact hnew q hq (of_decide_eq_true hserver) hscope
  obtain ⟨e, he, hsome⟩ := List.mem_map.mp hfiltered
  obtain ⟨i, hi⟩ := List.mem_iff_getElem?.mp he
  exact ⟨i, e, hi, (newResource_eq_some hsome.symm).1⟩

/-- A resource whose scope is reported stays under its id. -/
theorem Prepared.mem_of_reported (hr : r ∈ db.resources.rows)
    (hserver : r.2.resourceServerId = report.resourceServerId)
    (hscope : some r.2.scope ∈ report.authResources.map (·.scope)) {name : String}
    (hname : newName report.authResources r.2 = some name) :
    (r.1, { r.2 with name }) ∈ (db.saveReport report).resources.rows :=
  h.mem_resources.mpr (.inr (.inl ⟨hserver, hscope, r.2.name, hr, hname⟩))

/-- The rows of the server are what is reported. -/
theorem Prepared.reported_iff (hscopes : (report.authResources.map (·.scope)).Nodup)
    (scope name : String) :
    (∃ r ∈ (db.saveReport report).resources.rows,
      r.2.resourceServerId = report.resourceServerId ∧ r.2.scope = scope ∧ r.2.name = name) ↔
      ⟨some scope, some name⟩ ∈ report.authResources := by
  constructor
  · intro hexists
    obtain ⟨r, hr, hserver, rfl, rfl⟩ := hexists
    rcases h.mem_resources.mp hr with ⟨hother, -⟩ | ⟨-, hscope, name, -, hname⟩ | ⟨i, e, he, rfl⟩
    · exact absurd hserver hother
    · obtain ⟨dto, hdto, hdtoScope⟩ := List.mem_map.mp hscope
      have hdtoName := newName_of_mem hscopes hdto (r := { r.2 with name }) hdtoScope
      obtain ⟨dtoScope, dtoName⟩ := dto
      cases hdtoScope
      cases hdtoName.symm.trans hname
      exact hdto
    · exact (h.of_add he).2.1
  · intro hdto
    by_cases hold : ∃ q ∈ db.resources.rows, q.2.resourceServerId = report.resourceServerId ∧
        q.2.scope = scope
    · obtain ⟨q, hq, hserver, rfl⟩ := hold
      have hname := newName_of_mem hscopes hdto (r := q.2) rfl
      exact ⟨_, h.mem_of_reported hq hserver (List.mem_map.mpr ⟨_, hdto, rfl⟩) hname, hserver, rfl,
        rfl⟩
    · obtain ⟨i, e, he, hsame⟩ := h.exists_add hdto fun q hq hserver hscope =>
        hold ⟨q, hq, hserver, Option.some.inj hscope⟩
      cases hsame
      exact ⟨_, h.mem_resources.mpr (.inr (.inr ⟨i, e, he, rfl⟩)), (h.of_add he).1, rfl, rfl⟩

theorem Prepared.synchronised (hscopes : (report.authResources.map (·.scope)).Nodup) :
    Synchronised db (db.saveReport report) report.resourceServerId report.authResources where
  reported := h.reported_iff hscopes
  kept r hr hserver hscope := by
    obtain ⟨name, hname⟩ := Option.ne_none_iff_exists'.mp (h.named r hr hserver hscope)
    refine ⟨⟨_, h.mem_of_reported hr hserver hscope hname, rfl, hserver, rfl⟩, fun p hp => ?_⟩
    rw [h.mem_permissions]
    constructor
    · intro hcases
      rcases hcases with ⟨hmem, -⟩ | ⟨i, -, rfl⟩
      · exact hmem
      · have hlt := db.resources.fresh r hr
        dsimp only at hp
        omega
    · refine fun hmem => .inl ⟨hmem, fun hdelete => ?_⟩
      rw [hp] at hdelete
      exact ((h.mem_delete_of_mem hr).mp hdelete).2 hscope
  others r hother := by
    rw [h.mem_resources]
    constructor
    · intro hcases
      rcases hcases with ⟨-, hmem⟩ | ⟨hserver, -⟩ | ⟨i, e, he, rfl⟩
      · exact hmem
      · exact absurd hserver hother
      · exact absurd (h.of_add he).1 hother
    · exact fun hmem => .inl ⟨hother, hmem⟩
  otherPermissions p hnone := by
    rw [h.mem_permissions]
    constructor
    · intro hcases
      rcases hcases with ⟨hmem, -⟩ | ⟨i, hi, rfl⟩
      · exact hmem
      · have he : report.add[i]? = some report.add[i] := List.getElem?_eq_getElem hi
        exact absurd rfl (hnone _ (.inr (h.mem_resources.mpr (.inr (.inr ⟨i, _, he, rfl⟩))))
          (h.of_add he).1)
    · refine fun hmem => .inl ⟨hmem, fun hdelete => ?_⟩
      obtain ⟨q, hq, hserver, -⟩ := (h.mem_delete _).mp hdelete
      exact hnone _ (.inl hq) hserver rfl

end Saved

/-! ## When a report is prepared -/

theorem nodup_rows {α : Type*} (t : Table α) : t.rows.Nodup := List.Nodup.of_map _ t.nodup

theorem Consistent.nodup_scopes (hcons : db.Consistent) (serverId : Int) :
    ((db.resources.rows.filter fun r => r.2.resourceServerId = serverId).map (·.2.scope)).Nodup := by
  refine List.Nodup.map_on ?_ ((nodup_rows _).filter _)
  intro r hr r' hr' hscope
  obtain ⟨hr, hserver⟩ := List.mem_filter.mp hr
  obtain ⟨hr', hserver'⟩ := List.mem_filter.mp hr'
  exact hcons.scopes r hr r' hr' ((of_decide_eq_true hserver).trans (of_decide_eq_true hserver').symm)
    hscope

theorem Consistent.nodup_permissions (hcons : db.Consistent) {ids : List Int}
    (hids : ∀ id ∈ ids, ∃ r, (id, r) ∈ db.resources.rows) :
    ((db.permissions.rows.filter fun p => p.2.resourceId ∈ ids).map (·.2.resourceId)).Nodup := by
  refine List.Nodup.map_on ?_ ((nodup_rows _).filter _)
  intro p hp p' hp' hsame
  obtain ⟨hp, hid⟩ := List.mem_filter.mp hp
  obtain ⟨hp', -⟩ := List.mem_filter.mp hp'
  obtain ⟨r, hr⟩ := hids _ (of_decide_eq_true hid)
  exact (hcons.permission _ hr).unique ⟨hp, rfl⟩ ⟨hp', hsame.symm⟩

theorem mem_rows_of_mem_ids {serverId id : Int}
    (hid : id ∈ (db.resources.rows.filter fun r => r.2.resourceServerId = serverId).map (·.1)) :
    ∃ r, (id, r) ∈ db.resources.rows := by
  obtain ⟨r, hr, rfl⟩ := List.mem_map.mp hid
  exact ⟨r.2, List.mem_of_mem_filter hr⟩

/-- The maps of the old rows are built: no key comes twice. -/
theorem Consistent.not_illegalState (hcons : db.Consistent) (serverId : Int) :
    let old := db.resources.rows.filter fun r => r.2.resourceServerId = serverId
    ¬ (¬ ((db.permissions.rows.filter fun p => p.2.resourceId ∈ old.map (·.1)).map
        (·.2.resourceId)).Nodup ∨ ¬ (old.map (·.2.scope)).Nodup) := by
  intro old hillegal
  rcases hillegal with hillegal | hillegal
  · exact hillegal (hcons.nodup_permissions fun id hid => mem_rows_of_mem_ids hid)
  · exact hillegal (hcons.nodup_scopes serverId)

variable (db reportData authResources) in
theorem findOrCreateServer_cases :
    (∃ t id, db.findOrCreateServer reportData = .ok (t, id)) ∨
      (db.findOrCreateServer reportData = .error .dataIntegrityViolation ∧
        ¬ db.Storable reportData authResources) := by
  unfold findOrCreateServer
  split
  · exact .inl ⟨_, _, rfl⟩
  · rename_i hnone
    split
    · rename_i htaken
      refine .inr ⟨rfl, fun hstorable => ?_⟩
      obtain ⟨q, hq, hclient⟩ := List.any_eq_true.mp htaken
      rcases hstorable.1 with ⟨p, hp, hname⟩ | hnew
      · exact List.find?_eq_none.mp hnone p hp (decide_eq_true hname)
      · exact hnew q hq (of_decide_eq_true hclient)
    · exact .inl ⟨_, _, rfl⟩

theorem Consistent.prepareReport_cases (hcons : db.Consistent)
    (hauth : reportData.authResources = some authResources)
    (hscopes : (authResources.map (·.scope)).Nodup) :
    (∃ report, db.prepareReport reportData = .ok report) ∨
      (db.prepareReport reportData = .error .dataIntegrityViolation ∧
        ¬ db.Storable reportData authResources) := by
  rcases findOrCreateServer_cases db reportData authResources with
    ⟨t, serverId, hserver⟩ | ⟨herror, hnot⟩
  · simp only [prepareReport, hserver, hauth]
    rw [if_neg (hcons.not_illegalState serverId)]
    split
    · rename_i hnone
      refine .inr ⟨rfl, fun hstorable => ?_⟩
      have hsome : ∀ dto ∈ authResources.filter fun dto => dto.scope ∉
          (db.resources.rows.filter fun r => r.2.resourceServerId = serverId).map
            fun r => some r.2.scope,
          ∃ e, newResource serverId reportData.resourceServerName dto = some e := by
        intro dto hdto
        obtain ⟨hscope, hname⟩ := hstorable.2.2 dto (List.mem_of_mem_filter hdto)
        exact newResource_isSome hstorable.2.1 hscope hname
      obtain ⟨add, hadd⟩ := exists_mapM hsome
      rw [hnone] at hadd
      cases hadd
    · split
      · rename_i hunnamed
        refine .inr ⟨rfl, fun hstorable => ?_⟩
        obtain ⟨r, hr, hnone⟩ := List.any_eq_true.mp hunnamed
        obtain ⟨-, hscope⟩ := List.mem_filter.mp hr
        obtain ⟨dto, hdto, hsame⟩ := List.mem_map.mp (of_decide_eq_true hscope)
        rw [newName_of_mem hscopes hdto hsame] at hnone
        exact (hstorable.2.2 dto hdto).2 (of_decide_eq_true hnone)
      · exact .inl ⟨_, rfl⟩
  · refine .inr ⟨?_, hnot⟩
    simp only [prepareReport, herror]

/-! ## The same report again -/

/-- The server that a report found or created is found by the next one. -/
theorem findOrCreateServer_again {db' : Database} {t : Table ResourceServerEntity} {serverId : Int}
    (hserver : db.findOrCreateServer reportData = .ok (t, serverId))
    (hsame : db'.resourceServers = t) :
    db'.findOrCreateServer reportData = .ok (t, serverId) := by
  subst hsame
  unfold findOrCreateServer at hserver
  split at hserver
  · rename_i id server hfind
    simp only [Except.ok.injEq, Prod.mk.injEq] at hserver
    obtain ⟨htable, rfl⟩ := hserver
    rw [findOrCreateServer, ← htable, hfind]
  · rename_i hnone
    split at hserver
    · cases hserver
    · simp only [Except.ok.injEq, Prod.mk.injEq] at hserver
      obtain ⟨htable, rfl⟩ := hserver
      have hfind : db'.resourceServers.rows.find? (fun p => p.2.name = reportData.resourceServerName) =
          some (db.resourceServers.next,
            { name := reportData.resourceServerName, clientId := reportData.clientId }) := by
        rw [← htable, Table.insert, List.find?_append, hnone]
        simp
      rw [findOrCreateServer, hfind]

/-- The id that a report uses is that of a server with the reported name. -/
theorem server_of_findOrCreateServer {t : Table ResourceServerEntity} {serverId : Int}
    (hserver : db.findOrCreateServer reportData = .ok (t, serverId)) :
    ∃ server, (serverId, server) ∈ t.rows ∧ server.name = reportData.resourceServerName := by
  unfold findOrCreateServer at hserver
  split at hserver
  · rename_i id server hfind
    cases hserver
    exact ⟨server, List.mem_of_find?_eq_some hfind, by simpa using List.find?_some hfind⟩
  · split at hserver
    · cases hserver
    · cases hserver
      exact ⟨_, Table.mem_insert.mpr (.inr rfl), rfl⟩

section Again

variable (h : Prepared db reportData report)
  (hscopes : (report.authResources.map (·.scope)).Nodup)

include h hscopes

/-- After a report, each row of the server has the name that is reported for its scope. -/
theorem Prepared.newName_again {r : Int × ResourceEntity}
    (hr : r ∈ (db.saveReport report).resources.rows)
    (hserver : r.2.resourceServerId = report.resourceServerId) :
    some r.2.scope ∈ report.authResources.map (·.scope) ∧
      newName report.authResources r.2 = some r.2.name := by
  have hdto := ((h.synchronised hscopes).reported r.2.scope r.2.name).mp ⟨r, hr, hserver, rfl, rfl⟩
  exact ⟨List.mem_map.mpr ⟨_, hdto, rfl⟩, newName_of_mem hscopes hdto rfl⟩

/-- Each reported scope has its row then. -/
theorem Prepared.exists_row {dto : AuthResourceDTO} (hdto : dto ∈ report.authResources) :
    ∃ r ∈ (db.saveReport report).resources.rows,
      r.2.resourceServerId = report.resourceServerId ∧ some r.2.scope = dto.scope := by
  by_cases hold : ∃ q ∈ db.resources.rows, q.2.resourceServerId = report.resourceServerId ∧
      some q.2.scope = dto.scope
  · obtain ⟨q, hq, hserver, hscope⟩ := hold
    have hmem : some q.2.scope ∈ report.authResources.map (·.scope) :=
      List.mem_map.mpr ⟨dto, hdto, hscope.symm⟩
    obtain ⟨r, hr, -, hr1, hr2⟩ := ((h.synchronised hscopes).kept q hq hserver hmem).1
    exact ⟨r, hr, hr1, (congrArg some hr2).trans hscope⟩
  · obtain ⟨i, e, he, rfl⟩ := h.exists_add hdto fun q hq hserver hscope =>
      hold ⟨q, hq, hserver, hscope⟩
    exact ⟨_, h.mem_resources.mpr (.inr (.inr ⟨i, e, he, rfl⟩)), (h.of_add he).1, rfl⟩

theorem Prepared.prepareReport_again (hcons : db.Consistent) :
    (db.saveReport report).prepareReport reportData =
      .ok { report with delete := [], deletePermission := [], add := [] } := by
  have hcons' := h.consistent hcons hscopes
  have hserver : (db.saveReport report).findOrCreateServer reportData =
      .ok (report.resourceServers, report.resourceServerId) :=
    findOrCreateServer_again h.server rfl
  have hdelete : ((db.saveReport report).resources.rows.filter fun r =>
      r.2.resourceServerId = report.resourceServerId).filter (fun r =>
        some r.2.scope ∉ report.authResources.map (·.scope)) = [] := by
    rw [List.filter_eq_nil_iff]
    intro r hr hnot
    obtain ⟨hr, hid⟩ := List.mem_filter.mp hr
    exact of_decide_eq_true hnot (h.newName_again hscopes hr (of_decide_eq_true hid)).1
  have hadd : (report.authResources.filter fun dto => dto.scope ∉
      ((db.saveReport report).resources.rows.filter fun r =>
        r.2.resourceServerId = report.resourceServerId).map fun r => some r.2.scope) = [] := by
    rw [List.filter_eq_nil_iff]
    intro dto hdto hnot
    obtain ⟨r, hr, hid, hscope⟩ := h.exists_row hscopes hdto
    exact of_decide_eq_true hnot (List.mem_map.mpr
      ⟨r, List.mem_filter.mpr ⟨hr, decide_eq_true hid⟩, hscope⟩)
  have hnamed : ¬ (((db.saveReport report).resources.rows.filter fun r =>
      r.2.resourceServerId = report.resourceServerId).filter (fun r =>
        some r.2.scope ∈ report.authResources.map (·.scope))).any
          (fun r => newName report.authResources r.2 = none) := by
    rw [List.any_eq_true]
    intro hexists
    obtain ⟨r, hr, hnone⟩ := hexists
    obtain ⟨hr, hid⟩ := List.mem_filter.mp (List.mem_of_mem_filter hr)
    rw [(h.newName_again hscopes hr (of_decide_eq_true hid)).2] at hnone
    cases of_decide_eq_true hnone
  simp only [prepareReport, hserver, h.authResources]
  rw [if_neg (hcons'.not_illegalState report.resourceServerId)]
  simp only [hdelete, hadd, List.map_nil, List.mapM_nil, Option.pure_def]
  rw [if_neg hnamed]
  simp

theorem Prepared.saveReport_again :
    (db.saveReport report).saveReport
      { report with delete := [], deletePermission := [], add := [] } = db.saveReport report := by
  have hresources : (db.saveReport report).resources.mapRows (fun r =>
      if r.resourceServerId = report.resourceServerId then
        { r with name := (newName report.authResources r).getD r.name }
      else r) = (db.saveReport report).resources := by
    refine Table.mapRows_eq_self fun r hr => ?_
    split
    · rename_i hid
      rw [(h.newName_again hscopes hr hid).2]
      rfl
    · rfl
  have hservers : (db.saveReport report).resourceServers = report.resourceServers := rfl
  rw [saveReport.eq_1 (db.saveReport report)]
  simp only [Table.deleteAll_nil, hresources, Table.insertAll_nil, List.mapIdx_nil, ← hservers]

end Again

end Database

open Database

/-- A report of a client is carried out, once and for all, or refused. -/
theorem RoleStore.synchronises (s : RoleStore) (hcons : s.db.Consistent)
    {reportData : ResourceReportDTO} {authResources : List AuthResourceDTO}
    (hclient : s.db.existsClient reportData.clientId = true)
    (hauth : reportData.authResources = some authResources)
    (hscopes : (authResources.map (·.scope)).Nodup) :
    let (s', answer) := s.receiveReportData reportData
    (answer = .ok true ∧ s'.db.Consistent ∧ s'.receiveReportData reportData = (s', .ok true) ∧
      ∃ resourceServerId, (∃ server, (resourceServerId, server) ∈ s'.db.resourceServers.rows ∧
          server.name = reportData.resourceServerName) ∧
        Synchronised s.db s'.db resourceServerId authResources) ∨
    (s' = s ∧ answer = .error .dataIntegrityViolation ∧
      ¬ s.db.Storable reportData authResources) := by
  have hexists : ¬ ¬ s.db.existsClient reportData.clientId := not_not.mpr hclient
  rcases hcons.prepareReport_cases hauth hscopes with ⟨report, hok⟩ | ⟨herror, hnot⟩
  · have h := prepared hok
    have hsame : authResources = report.authResources :=
      Option.some.inj (hauth.symm.trans h.authResources)
    subst hsame
    have hfirst : s.receiveReportData reportData =
        ({ s with db := s.db.saveReport report }, .ok true) := by
      simp only [receiveReportData, if_neg hexists, hok]
    have hagain : { s with db := s.db.saveReport report }.receiveReportData reportData =
        ({ s with db := s.db.saveReport report }, .ok true) := by
      have hexists' : ¬ ¬ (s.db.saveReport report).existsClient reportData.clientId := hexists
      simp only [receiveReportData, if_neg hexists', h.prepareReport_again hscopes hcons,
        h.saveReport_again hscopes]
    rw [hfirst]
    exact .inl ⟨rfl, h.consistent hcons hscopes, hagain, report.resourceServerId,
      server_of_findOrCreateServer h.server, h.synchronised hscopes⟩
  · have hrefused : s.receiveReportData reportData = (s, .error .dataIntegrityViolation) := by
      simp only [receiveReportData, if_neg hexists, herror]
    rw [hrefused]
    exact .inr ⟨rfl, rfl, hnot⟩

/-- One client with its server, which has one resource. -/
def oneServer : RoleStore where
  db :=
    { roles := .empty
      rolePermissions := .empty
      permissions := Table.empty.insert { resourceId := 1 }
      resources := Table.empty.insert
        { resourceServerId := 1, resourceServerName := "shop", scope := "Order:find"
          name := "find" }
      resourceServers := Table.empty.insert { name := some "shop", clientId := some "c" }
      userRole := fun _ => none
      existsClient := fun clientId => clientId = some "c"
      role_allocated := fun _ h => by cases h
      resource_allocated := by decide }
  roleScopes := fun _ => none

theorem consistent_oneServer : oneServer.db.Consistent where
  scopes := by decide +kernel
  permission r hr := by
    obtain ⟨id, e⟩ := r
    have hrow : (id, e) = (1, _) := List.mem_singleton.mp hr
    cases hrow
    refine ⟨(1, { resourceId := 1 }), ⟨List.mem_singleton.mpr rfl, rfl⟩, fun p hp => ?_⟩
    exact List.mem_singleton.mp hp.1

def orderReport (resourceServerName : String) : ResourceReportDTO where
  clientId := some "c"
  resourceServerName := some resourceServerName
  authResources := some [⟨some "Order:find", some "look up"⟩, ⟨some "Order:create", some "create"⟩]

/-- One scope is there under another name, the other one is new. -/
theorem synchronises_oneServer :
    (oneServer.receiveReportData (orderReport "shop")).1.db.Consistent ∧
      (oneServer.receiveReportData (orderReport "shop")).1.receiveReportData (orderReport "shop") =
        ((oneServer.receiveReportData (orderReport "shop")).1, .ok true) := by
  rcases @RoleStore.synchronises oneServer consistent_oneServer (orderReport "shop") _
    (by decide +kernel) rfl (by decide +kernel) with ⟨-, hcons, hagain, -⟩ | ⟨-, herror, -⟩
  · exact ⟨hcons, hagain⟩
  · exact absurd herror (by decide +kernel)

/-- A client that has a server cannot report under another name. -/
theorem not_synchronises : ¬ ∀ (s : RoleStore), s.db.Consistent →
    ∀ (reportData : ResourceReportDTO) (authResources : List AuthResourceDTO),
      s.db.existsClient reportData.clientId = true →
      reportData.authResources = some authResources → (authResources.map (·.scope)).Nodup →
      ∃ resourceServerId, (∃ server, (resourceServerId, server) ∈
          (s.receiveReportData reportData).1.db.resourceServers.rows ∧
          server.name = reportData.resourceServerName) ∧
        Synchronised s.db (s.receiveReportData reportData).1.db resourceServerId authResources := by
  intro h
  obtain ⟨id, ⟨server, hserver, hname⟩, -⟩ := h oneServer consistent_oneServer (orderReport "store")
    _ (by decide +kernel) rfl (by decide +kernel)
  have hall : ∀ p ∈ (oneServer.receiveReportData (orderReport "store")).1.db.resourceServers.rows,
      p.2.name ≠ some "store" := by decide +kernel
  exact hall _ hserver hname

end BigPlan.Auth

import BigPlan.Auth.RoleGroups
import BigPlan.Auth.ScopeText

/-!
# The cached scopes of a role

A token check reads the scopes of a role from the cache and nowhere else. The calls that
change a role cache its scopes anew; a report changes the resources behind every role and
caches nothing.
-/
namespace BigPlan.Auth

open Lib (Table)
open Lib.Java Lib.Runs

namespace Database

variable {db db' : Database} {ids ids' : List Int} {name : String}

def HasRole (db : Database) (id : Int) : Prop := ∃ role, (id, role) ∈ db.roles.rows

theorem reaches_eq_true {resourceId : Int} : db.reaches ids resourceId = true ↔
    ∃ p ∈ db.permissions.rows, p.2.resourceId = resourceId ∧ p.1 ∈ ids := by
  simp [reaches]

theorem mem_resourcesOf {r : Int × ResourceEntity} : r ∈ db.resourcesOf ids ↔
    r ∈ db.resources.rows ∧
      ∃ p ∈ db.permissions.rows, p.2.resourceId = r.1 ∧ p.1 ∈ ids := by
  rw [resourcesOf, List.mem_filter, reaches_eq_true]

theorem mem_scopeNames : name ∈ db.scopeNames ids ↔
    ∃ r ∈ db.resourcesOf ids, r.2.fullScopeName = name := List.mem_map

/-- The names depend on the set of permissions and on two tables. -/
theorem mem_scopeNames_congr (hpermissions : db'.permissions = db.permissions)
    (hresources : db'.resources = db.resources) (hids : ∀ pid, pid ∈ ids' ↔ pid ∈ ids) :
    name ∈ db'.scopeNames ids' ↔ name ∈ db.scopeNames ids := by
  simp only [mem_scopeNames, mem_resourcesOf, hpermissions, hresources, hids]

theorem notMem_scopeNames_of_empty (hids : ∀ pid, pid ∉ ids) : name ∉ db.scopeNames ids := by
  intro h
  obtain ⟨r, hr, -⟩ := mem_scopeNames.mp h
  obtain ⟨-, p, -, -, hp⟩ := mem_resourcesOf.mp hr
  exact hids p.1 hp

/-- A full scope name contains its colon. -/
theorem isBlank_scopeNames (h : name ∈ db.scopeNames ids) : isBlank (some name) = false := by
  obtain ⟨r, -, rfl⟩ := mem_scopeNames.mp h
  rw [isBlank, List.all_eq_false]
  refine ⟨':', ?_, by decide⟩
  simp [ResourceEntity.fullScopeName]

/-! ## What a report changes -/

variable {reportData : ResourceReportDTO} {report : Report}

/-- After a report, the permissions lead to the resources that stay, and the new ones
under the ids that they happen to name. -/
theorem mem_scopeNames_saveReport (h : db.prepareReport reportData = .ok report) :
    name ∈ (db.saveReport report).scopeNames ids ↔
      (∃ r ∈ db.resourcesOf ids, r.1 ∉ report.delete ∧ r.2.fullScopeName = name) ∨
      ∃ (i : ℕ) (e : ResourceEntity), report.add[i]? = some e ∧ db.permissions.next + i ∈ ids ∧
        e.fullScopeName = name := by
  simp only [mem_scopeNames, mem_resourcesOf]
  constructor
  · intro hexists
    obtain ⟨r, ⟨hr, p, hp, hresource, hid⟩, hname⟩ := hexists
    rcases mem_resources_saveReport.mp hr with ⟨q, hq, hkept, hqid, hrow⟩ | ⟨i, e, he, rfl⟩
    · rcases mem_permissions_saveReport.mp hp with ⟨hp, -⟩ | ⟨i, -, rfl⟩
      · refine .inl ⟨q, ⟨hq, p, hp, hresource.trans hqid, hid⟩, hkept, ?_⟩
        rw [← hname, hrow]
        split <;> rfl
      · have hlt := db.resources.fresh q hq
        dsimp only at hresource
        omega
    · rcases mem_permissions_saveReport.mp hp with ⟨hp, -⟩ | ⟨j, -, rfl⟩
      · have hlt := db.resource_allocated p hp
        dsimp only at hresource
        omega
      · dsimp only at hresource hid
        obtain rfl : j = i := by omega
        exact .inr ⟨j, e, he, hid, hname⟩
  · intro hcases
    rcases hcases with ⟨r, ⟨hr, p, hp, hresource, hid⟩, hkept, hname⟩ | ⟨i, e, he, hid, hname⟩
    · have hp' : p.1 ∉ report.deletePermission := by
        intro hdelete
        exact hkept (hresource ▸ resourceId_mem_delete h hp hdelete)
      let e : ResourceEntity := if r.2.resourceServerId = report.resourceServerId then
        { r.2 with name := (newName report.authResources r.2).getD r.2.name } else r.2
      have he : e.fullScopeName = name := by
        rw [← hname]
        dsimp only [e]
        split <;> rfl
      exact ⟨(r.1, e), ⟨mem_resources_saveReport.mpr (.inl ⟨r, hr, hkept, rfl, rfl⟩), p,
        mem_permissions_saveReport.mpr (.inl ⟨hp, hp'⟩), hresource, hid⟩, he⟩
    · exact ⟨_, ⟨mem_resources_saveReport.mpr (.inr ⟨i, e, he, rfl⟩), _,
        mem_permissions_saveReport.mpr (.inr ⟨i, (List.getElem?_eq_some_iff.mp he).1, rfl⟩), rfl,
        hid⟩, hname⟩

/-- The names behind the permissions lose none with a resource that the report deletes,
and get none with one that it adds. -/
structure Keeps (db : Database) (report : Report) (ids : List Int) : Prop where
  deleted : ∀ r ∈ db.resourcesOf ids, r.1 ∈ report.delete →
    (∃ r' ∈ db.resourcesOf ids, r'.1 ∉ report.delete ∧
      r'.2.fullScopeName = r.2.fullScopeName) ∨
    ∃ (i : ℕ) (e : ResourceEntity), report.add[i]? = some e ∧ db.permissions.next + i ∈ ids ∧
      e.fullScopeName = r.2.fullScopeName
  added : ∀ (i : ℕ) (e : ResourceEntity), report.add[i]? = some e →
    db.permissions.next + i ∈ ids → e.fullScopeName ∈ db.scopeNames ids

theorem keeps_iff (h : db.prepareReport reportData = .ok report) :
    (∀ name, name ∈ (db.saveReport report).scopeNames ids ↔ name ∈ db.scopeNames ids) ↔
      db.Keeps report ids := by
  simp only [mem_scopeNames_saveReport h]
  constructor
  · intro hnames
    refine ⟨fun r hr _ => ?_, fun i e he hid => ?_⟩
    · exact (hnames _).mpr (mem_scopeNames.mpr ⟨r, hr, rfl⟩)
    · exact (hnames _).mp (.inr ⟨i, e, he, hid, rfl⟩)
  · intro hkeeps name
    constructor
    · intro hcases
      rcases hcases with ⟨r, hr, -, hname⟩ | ⟨i, e, he, hid, rfl⟩
      · exact mem_scopeNames.mpr ⟨r, hr, hname⟩
      · exact hkeeps.added i e he hid
    · intro hname
      obtain ⟨r, hr, rfl⟩ := mem_scopeNames.mp hname
      by_cases hdelete : r.1 ∈ report.delete
      · exact hkeeps.deleted r hr hdelete
      · exact .inl ⟨r, hr, hdelete, rfl⟩

end Database

/-! ## Coherence -/

namespace RoleStore

variable {s : RoleStore}

structure Coherent (s : RoleStore) : Prop where
  cached : ∀ id, s.db.HasRole id → ∃ scopes, s.roleScopes id = some scopes ∧
    ∀ name, name ∈ splitScopes (some scopes) ↔ name ∈ s.db.scopeNames (s.db.permissionsOf id)
  deleted : ∀ id, ¬ s.db.HasRole id → s.roleScopes id = none

theorem Coherent.comma_notMem (h : s.Coherent) {id : Int} (hrole : s.db.HasRole id) {name : String}
    (hname : name ∈ s.db.scopeNames (s.db.permissionsOf id)) : ',' ∉ name.toList := by
  obtain ⟨scopes, -, hscopes⟩ := h.cached id hrole
  exact comma_notMem_of_mem_splitComma (mem_splitScopes.mp ((hscopes name).mpr hname)).1

/-- Caching the scopes of one role makes up for all that a call has changed, unless one
of their names has a comma. -/
theorem coherent_cacheRoleScopes {db : Database} {id : Int} (h : s.Coherent)
    (hroles : ∀ id', db.HasRole id' ↔ s.db.HasRole id' ∨ id' = id)
    (hnames : ∀ id' ≠ id, ∀ name, name ∈ db.scopeNames (db.permissionsOf id') ↔
      name ∈ s.db.scopeNames (s.db.permissionsOf id')) :
    (cacheRoleScopes { s with db } id).Coherent ↔
      ∀ name ∈ db.scopeNames (db.permissionsOf id), ',' ∉ name.toList := by
  have hblank : ∀ name ∈ db.scopeNames (db.permissionsOf id), isBlank (some name) = false :=
    fun _ => Database.isBlank_scopeNames
  rw [← mem_splitScopes_intercalate hblank]
  constructor
  · intro hcoherent
    obtain ⟨scopes, hscopes, hread⟩ := hcoherent.cached id ((hroles id).mpr (.inr rfl))
    simp only [cacheRoleScopes, Function.update_self, Option.some.injEq] at hscopes
    subst hscopes
    exact hread
  · intro hread
    refine ⟨fun id' hrole => ?_, fun id' hrole => ?_⟩
    · by_cases hid : id' = id
      · subst hid
        exact ⟨_, Function.update_self .., hread⟩
      · have hold : s.db.HasRole id' := ((hroles id').mp hrole).resolve_right hid
        obtain ⟨scopes, hscopes, hnames'⟩ := h.cached id' hold
        refine ⟨scopes, (Function.update_of_ne hid _ _).trans hscopes, fun name => ?_⟩
        exact (hnames' name).trans (hnames id' hid name).symm
    · have hid : id' ≠ id := fun he => hrole ((hroles id').mpr (.inr he))
      have hold : ¬ s.db.HasRole id' := fun he => hrole ((hroles id').mpr (.inl he))
      exact (Function.update_of_ne hid _ _).trans (h.deleted id' hold)

/-- Where the call is not refused, it links no name with a comma, and it keeps the names
behind every role if it is a report. -/
def CacheSafe (s : RoleStore) : ServiceCall → Prop
  | .create userId dto => ∀ kind, s.db.checkCreate userId dto = .ok kind →
    ∀ name ∈ s.db.scopeNames dto.permissionList, ',' ∉ name.toList
  | .update userId dto => ∀ id role, s.db.checkUpdate userId dto = .ok (id, role) →
    ∀ name ∈ s.db.scopeNames dto.permissionList, ',' ∉ name.toList
  | .delete _ _ => True
  | .receiveReportData reportData => s.db.existsClient reportData.clientId = true →
    ∀ report, s.db.prepareReport reportData = .ok report →
      ∀ id, s.db.HasRole id → s.db.Keeps report (s.db.permissionsOf id)

theorem hasRole_saveNew {dto : RoleCreateDTO} {kind : Database.NewRole} {id : Int} :
    (s.db.saveNew dto kind).HasRole id ↔ s.db.HasRole id ∨ id = s.db.roles.next := by
  cases kind with
  | member | plain => simp [Database.saveNew, Database.insertRole, Database.HasRole, exists_or]
  | manager =>
    simp only [Database.saveNew, Database.putRole, Database.insertRole, Database.HasRole,
      Table.mem_put, Table.mem_insert]
    constructor
    · intro hexists
      obtain ⟨role, ⟨hold | hnew, hne⟩ | ⟨heq, -⟩⟩ := hexists
      · exact .inl ⟨role, hold⟩
      · exact absurd (congrArg Prod.fst hnew) hne
      · exact .inr (congrArg Prod.fst heq)
    · intro hcases
      rcases hcases with ⟨role, hold⟩ | rfl
      · exact ⟨role, .inl ⟨.inl hold, Int.ne_of_lt (s.db.roles.fresh _ hold)⟩⟩
      · exact ⟨_, .inr ⟨rfl, _, .inr rfl⟩⟩

theorem hasRole_putRole {id id' : Int} {role role' : RoleEntity}
    (hmem : (id, role) ∈ s.db.roles.rows) :
    (s.db.putRole id role').HasRole id' ↔ s.db.HasRole id' ∨ id' = id := by
  simp only [Database.putRole, Database.HasRole, Table.mem_put]
  constructor
  · intro hexists
    obtain ⟨r, ⟨hold, -⟩ | ⟨heq, -⟩⟩ := hexists
    · exact .inl ⟨r, hold⟩
    · exact .inr (congrArg Prod.fst heq)
  · intro h
    by_cases hid : id' = id
    · exact ⟨role', .inr ⟨by rw [hid], role, hmem⟩⟩
    · obtain ⟨r, hold⟩ := h.resolve_right hid
      exact ⟨r, .inl ⟨hold, hid⟩⟩

/-- Both calls that save permissions end with the scopes of the role in the cache. -/
theorem coherent_save {db : Database} {id : Int} {permissionList : PermissionList}
    (h : s.Coherent) (hlt : id < db.roles.next) (hpermissions : db.permissions = s.db.permissions)
    (hresources : db.resources = s.db.resources) (hids : db.permissionsOf = s.db.permissionsOf)
    (hroles : ∀ id', db.HasRole id' ↔ s.db.HasRole id' ∨ id' = id) :
    (cacheRoleScopes { s with db := db.saveOrUpdatePermission id permissionList hlt } id).Coherent ↔
      ∀ name ∈ s.db.scopeNames (if permissionList = [] then s.db.permissionsOf id
        else permissionList), ',' ∉ name.toList := by
  have hpermissions' : (db.saveOrUpdatePermission id permissionList hlt).permissions =
      s.db.permissions := (Database.permissions_saveOrUpdatePermission hlt).trans hpermissions
  have hresources' : (db.saveOrUpdatePermission id permissionList hlt).resources =
      s.db.resources := (Database.resources_saveOrUpdatePermission hlt).trans hresources
  refine (coherent_cacheRoleScopes h (fun id' => ?_) fun id' hid name => ?_).trans ?_
  · simp only [Database.HasRole, Database.roles_saveOrUpdatePermission]
    exact hroles id'
  · refine Database.mem_scopeNames_congr hpermissions' hresources' fun pid => ?_
    rw [Database.mem_permissionsOf_save_of_ne hlt hid, hids]
  · have hself (pid : Int) : pid ∈ (db.saveOrUpdatePermission id permissionList hlt).permissionsOf id ↔
        pid ∈ if permissionList = [] then s.db.permissionsOf id else permissionList := by
      split
      · rename_i hnil
        rw [Database.saveOrUpdatePermission, if_pos hnil, hids]
      · rename_i hnil
        exact Database.mem_permissionsOf_save hlt hnil
    constructor
    · intro hcomma name hname
      exact hcomma name ((Database.mem_scopeNames_congr hpermissions' hresources' hself).mpr hname)
    · intro hcomma name hname
      exact hcomma name ((Database.mem_scopeNames_congr hpermissions' hresources' hself).mp hname)

theorem coherent_create {userId : Option JLong} {dto : RoleCreateDTO} (h : s.Coherent) :
    (s.step (.create userId dto)).Coherent ↔ s.CacheSafe (.create userId dto) := by
  simp only [step, create, CacheSafe]
  split
  · rename_i e he
    simp [he, h]
  · rename_i kind hcheck
    refine (coherent_save h (s.db.next_lt_saveNew dto kind) (by simp) (by simp) (by simp)
      fun id' => hasRole_saveNew).trans ?_
    simp only [hcheck, Except.ok.injEq, forall_eq']
    split
    · rename_i hnil
      rw [hnil]
      constructor
      · intro _ name hname
        exact absurd hname (Database.notMem_scopeNames_of_empty fun _ => List.not_mem_nil)
      · intro _ name hname
        exact absurd hname (Database.notMem_scopeNames_of_empty fun _ =>
          Database.permissionsOf_of_next_le (Int.le_refl _))
    · exact Iff.rfl

theorem coherent_update {userId : Option JLong} {dto : RoleUpdateDTO} (h : s.Coherent) :
    (s.step (.update userId dto)).Coherent ↔ s.CacheSafe (.update userId dto) := by
  simp only [step, update, CacheSafe]
  split
  · rename_i e he
    simp [he, h]
  · rename_i id role hcheck
    have hmem := (Database.checkUpdate_ok hcheck).2.1
    have hlt : id < (s.db.putRole id
        { role with name := dto.name, description := dto.description }).roles.next :=
      s.db.roles.fresh _ hmem
    refine (coherent_save h hlt rfl rfl rfl fun id' => hasRole_putRole hmem).trans ?_
    have hcheck' : (∀ id' role', s.db.checkUpdate userId dto = .ok (id', role') →
        ∀ name ∈ s.db.scopeNames dto.permissionList, ',' ∉ name.toList) ↔
        ∀ name ∈ s.db.scopeNames dto.permissionList, ',' ∉ name.toList :=
      ⟨fun hall => hall id role hcheck, fun hall _ _ _ => hall⟩
    rw [hcheck']
    split
    · rename_i hnil
      rw [hnil]
      constructor
      · intro _ name hname
        exact absurd hname (Database.notMem_scopeNames_of_empty fun _ => List.not_mem_nil)
      · exact fun _ name hname => h.comma_notMem ⟨role, hmem⟩ hname
    · exact Iff.rfl

theorem coherent_delete {userId : Option JLong} {id : Int} (h : s.Coherent) :
    (s.step (.delete userId id)).Coherent := by
  simp only [step, delete]
  split
  · exact h
  · split
    · exact h
    · have hrole (id' : Int) : (s.db.deleteRole id).HasRole id' ↔ s.db.HasRole id' ∧ id' ≠ id := by
        simp [Database.HasRole, Database.deleteRole]
      refine ⟨fun id' hid => ?_, fun id' hid => ?_⟩
      · obtain ⟨hold, hne⟩ := (hrole id').mp hid
        obtain ⟨scopes, hscopes, hread⟩ := h.cached id' hold
        refine ⟨scopes, (Function.update_of_ne hne _ _).trans hscopes, fun name => ?_⟩
        rw [hread name]
        refine (Database.mem_scopeNames_congr rfl rfl fun pid => ?_).symm
        rw [Database.mem_permissionsOf_deleteRole]
        exact ⟨And.right, fun hpid => ⟨hne, hpid⟩⟩
      · by_cases hne : id' = id
        · subst hne
          exact Function.update_self ..
        · have hold : ¬ s.db.HasRole id' := fun hold => hid ((hrole id').mpr ⟨hold, hne⟩)
          exact (Function.update_of_ne hne _ _).trans (h.deleted id' hold)

theorem coherent_receiveReportData {reportData : ResourceReportDTO} (h : s.Coherent) :
    (s.step (.receiveReportData reportData)).Coherent ↔
      s.CacheSafe (.receiveReportData reportData) := by
  simp only [step, receiveReportData, CacheSafe]
  split
  · rename_i hclient
    simp [hclient, h]
  · rename_i hclient
    rw [not_not] at hclient
    split
    · rename_i e he
      simp [he, h]
    · rename_i report hreport
      simp only [hclient, hreport, Except.ok.injEq, forall_eq', forall_const]
      constructor
      · intro hcoherent id hid
        obtain ⟨scopes, hscopes, hread⟩ := h.cached id hid
        obtain ⟨scopes', hscopes', hread'⟩ := hcoherent.cached id hid
        obtain rfl : scopes = scopes' := Option.some.inj (hscopes.symm.trans hscopes')
        exact (Database.keeps_iff hreport).mp fun name => (hread' name).symm.trans (hread name)
      · intro hkeeps
        refine ⟨fun id hid => ?_, h.deleted⟩
        obtain ⟨scopes, hscopes, hread⟩ := h.cached id hid
        refine ⟨scopes, hscopes, fun name => ?_⟩
        exact (hread name).trans ((Database.keeps_iff hreport).mpr (hkeeps id hid) name).symm

/-- The cache agrees with the tables in exactly the runs in which no name with a comma is
linked, and no report changes the names behind a role. -/
theorem coherent_iff (s : RoleStore) (calls : List ServiceCall) (h : s.Coherent) :
    Throughout step Coherent s calls ↔ Along step CacheSafe s calls := by
  have hstep (s : RoleStore) (call : ServiceCall) (h : s.Coherent) :
      (s.step call).Coherent ↔ s.CacheSafe call := by
    cases call with
    | create userId dto => exact coherent_create h
    | update userId dto => exact coherent_update h
    | delete userId id => exact ⟨fun _ => trivial, fun _ => coherent_delete h⟩
    | receiveReportData reportData => exact coherent_receiveReportData h
  apply throughout_iff_along (fun _ => Coherent)
  · exact fun s _ h => h
  · exact fun s call _ h hsafe => (hstep s call h).mpr hsafe
  · exact fun s call _ h hsafe hcoherent => hsafe ((hstep s call h).mp hcoherent)
  · exact h

theorem coherent_oneGroup : oneGroup.Coherent := by
  have hread : splitScopes (some "s:a:b") =
      oneGroup.db.scopeNames (oneGroup.db.permissionsOf 1) := by decide +kernel
  refine ⟨?_, ?_⟩
  · rintro id ⟨role, hmem⟩
    cases List.mem_singleton.mp hmem
    refine ⟨"s:a:b", rfl, fun name => ?_⟩
    rw [hread]
    exact Iff.rfl
  · intro id hrole
    have hid : id ≠ 1 := by
      intro hsame
      subst hsame
      exact hrole ⟨_, List.mem_singleton.mpr rfl⟩
    exact if_neg hid

/-- A member is created and the manager deleted. -/
theorem coherent_iff_createMember :
    Throughout step Coherent oneGroup [createMember [1], .delete none 1] := by
  rw [coherent_iff oneGroup _ coherent_oneGroup]
  exact ⟨fun _ _ => by decide +kernel, trivial, trivial⟩

/-- The report without the resource of the only role. -/
def withoutResource : ServiceCall :=
  .receiveReportData
    { clientId := some "c", resourceServerName := some "s"
      authResources := some [{ scope := some "a:c", name := some "n" }] }

/-- The role keeps a scope in the cache that no resource has any more. -/
theorem not_coherent_withoutResource :
    ¬ ∀ (s : RoleStore) (calls : List ServiceCall), s.Coherent →
      Throughout step Coherent s calls := by
  intro h
  have hcoherent := (h oneGroup [withoutResource] coherent_oneGroup).last
  have hrole : (run step oneGroup [withoutResource]).db.HasRole 1 := ⟨_, List.mem_singleton.mpr rfl⟩
  obtain ⟨scopes, hscopes, hread⟩ := hcoherent.cached 1 hrole
  obtain rfl : "s:a:b" = scopes := Option.some.inj hscopes
  have hnames := (hread "s:a:b").mp (by decide +kernel)
  exact absurd hnames (by decide +kernel)

end RoleStore

end BigPlan.Auth

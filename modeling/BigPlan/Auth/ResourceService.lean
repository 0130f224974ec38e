import BigPlan.Auth.RoleService

/-!
# Reported resources

`ResourceServiceImpl.receiveReportData`: the resources of a server become those that it
reports. A resource that is reported for the first time gets a permission of its own, and
one that is no longer reported loses its permission.
-/
namespace BigPlan.Auth

open Lib (Table)
open Lib.Java

structure AuthResourceDTO where
  scope : Option String
  name : Option String
  deriving DecidableEq, Repr

structure ResourceReportDTO where
  clientId : Option String
  resourceServerName : Option String
  authResources : Option (List AuthResourceDTO)
  deriving DecidableEq, Repr

/-- What a report is about to write, with the ids of the rows that it deletes. -/
structure Report where
  resourceServers : Table ResourceServerEntity
  resourceServerId : Int
  authResources : List AuthResourceDTO
  delete : List Int
  deletePermission : List Int
  add : List ResourceEntity

/-- The name after the loop over the reported resources: the last one for the scope wins. -/
def newName (authResources : List AuthResourceDTO) (r : ResourceEntity) : Option String :=
  authResources.foldl (fun name dto => if dto.scope = some r.scope then dto.name else name)
    (some r.name)

/-- `none` where a column that must not be null would be. -/
def newResource (resourceServerId : Int) (resourceServerName : Option String)
    (dto : AuthResourceDTO) : Option ResourceEntity :=
  match resourceServerName, dto.scope, dto.name with
  | some resourceServerName, some scope, some name =>
    some { resourceServerId, resourceServerName, scope, name }
  | _, _, _ => none

namespace Database

variable (db : Database)

/-- The server of the reported name is created if there is none; a client has one server
at most. -/
def findOrCreateServer (reportData : ResourceReportDTO) :
    Except Thrown (Table ResourceServerEntity × Int) :=
  match db.resourceServers.rows.find? fun p => p.2.name = reportData.resourceServerName with
  | some (id, _) => .ok (db.resourceServers, id)
  | none =>
    if db.resourceServers.rows.any fun p => p.2.clientId = reportData.clientId then
      .error .dataIntegrityViolation
    else
      .ok (db.resourceServers.insert
        { name := reportData.resourceServerName, clientId := reportData.clientId },
        db.resourceServers.next)

def prepareReport (reportData : ResourceReportDTO) : Except Thrown Report :=
  match db.findOrCreateServer reportData with
  | .error e => .error e
  | .ok (resourceServers, resourceServerId) =>
    match reportData.authResources with
    | none => .error .nullPointer
    | some authResources =>
      let newScope := authResources.map (·.scope)
      let old := db.resources.rows.filter fun r => r.2.resourceServerId = resourceServerId
      let oldPermission := db.permissions.rows.filter fun p => p.2.resourceId ∈ old.map (·.1)
      -- both lists are turned into maps, which throws at a second entry for a key
      if ¬ (oldPermission.map (·.2.resourceId)).Nodup ∨ ¬ (old.map (·.2.scope)).Nodup then
        .error .illegalState
      else
        let delete := (old.filter fun r => some r.2.scope ∉ newScope).map (·.1)
        let kept := old.filter fun r => some r.2.scope ∈ newScope
        let reported := authResources.filter fun dto => dto.scope ∉ old.map fun r => some r.2.scope
        match reported.mapM (newResource resourceServerId reportData.resourceServerName) with
        | none => .error .dataIntegrityViolation
        | some add =>
          if kept.any fun r => newName authResources r.2 = none then .error .dataIntegrityViolation
          else
            .ok { resourceServers, resourceServerId, authResources, delete
                  deletePermission :=
                    (oldPermission.filter fun p => p.2.resourceId ∈ delete).map (·.1)
                  add }

/-- The new permissions are created in the order of the new resources. -/
def saveReport (report : Report) : Database where
  __ := db
  resourceServers := report.resourceServers
  resources := ((db.resources.deleteAll report.delete).mapRows fun r =>
    if r.resourceServerId = report.resourceServerId then
      { r with name := (newName report.authResources r).getD r.name }
    else r).insertAll report.add
  permissions := (db.permissions.deleteAll report.deletePermission).insertAll
    (report.add.mapIdx fun i _ => { resourceId := db.resources.next + i })
  resource_allocated p hp := by
    rw [Table.next_insertAll, Table.next_mapRows, Table.next_deleteAll]
    rcases Table.mem_insertAll.mp hp with hold | ⟨i, a, ha, rfl⟩
    · have hlt := db.resource_allocated p (Table.mem_deleteAll.mp hold).1
      omega
    · rw [List.getElem?_mapIdx, Option.map_eq_some_iff] at ha
      obtain ⟨entity, hentity, rfl⟩ := ha
      have hlt := (List.getElem?_eq_some_iff.mp hentity).1
      dsimp only
      omega

end Database

namespace RoleStore

def receiveReportData (s : RoleStore) (reportData : ResourceReportDTO) :
    RoleStore × Except Thrown Bool :=
  if ¬ s.db.existsClient reportData.clientId then (s, .ok false)
  else
    match s.db.prepareReport reportData with
    | .error e => (s, .error e)
    | .ok report => ({ s with db := s.db.saveReport report }, .ok true)

end RoleStore

inductive ServiceCall where
  | create (userId : Option JLong) (dto : RoleCreateDTO)
  | update (userId : Option JLong) (dto : RoleUpdateDTO)
  | delete (userId : Option JLong) (id : Int)
  | receiveReportData (reportData : ResourceReportDTO)
  deriving DecidableEq, Repr

def RoleStore.step (s : RoleStore) : ServiceCall → RoleStore
  | .create userId dto => (s.create userId dto).1
  | .update userId dto => (s.update userId dto).1
  | .delete userId id => (s.delete userId id).1
  | .receiveReportData reportData => (s.receiveReportData reportData).1

/-! ## What a report writes -/

namespace Database

variable {db : Database} {reportData : ResourceReportDTO} {report : Report}

/-- What a report is about to write, said by membership. -/
structure Prepared (db : Database) (reportData : ResourceReportDTO) (report : Report) : Prop where
  server : db.findOrCreateServer reportData = .ok (report.resourceServers, report.resourceServerId)
  authResources : reportData.authResources = some report.authResources
  mem_delete : ∀ id, id ∈ report.delete ↔ ∃ r, (id, r) ∈ db.resources.rows ∧
    r.resourceServerId = report.resourceServerId ∧
      some r.scope ∉ report.authResources.map (·.scope)
  mem_deletePermission : ∀ id, id ∈ report.deletePermission ↔
    ∃ p, (id, p) ∈ db.permissions.rows ∧ p.resourceId ∈ report.delete
  add : (report.authResources.filter fun dto => dto.scope ∉
      (db.resources.rows.filter fun r => r.2.resourceServerId = report.resourceServerId).map
        fun r => some r.2.scope).mapM
      (newResource report.resourceServerId reportData.resourceServerName) = some report.add
  named : ∀ r ∈ db.resources.rows, r.2.resourceServerId = report.resourceServerId →
    some r.2.scope ∈ report.authResources.map (·.scope) →
      newName report.authResources r.2 ≠ none

theorem prepared (h : db.prepareReport reportData = .ok report) :
    Prepared db reportData report := by
  unfold prepareReport at h
  split at h
  · cases h
  · rename_i resourceServers resourceServerId hserver
    split at h
    · cases h
    · rename_i authResources hauth
      dsimp only at h
      split at h
      · cases h
      · split at h
        · cases h
        · rename_i add hadd
          split at h
          · cases h
          · rename_i hnamed
            cases h
            refine ⟨hserver, hauth, fun id => ?_, fun id => ?_, hadd, fun r hr hserverId hscope => ?_⟩
            · simp only [List.mem_map, List.mem_filter, decide_eq_true_eq]
              constructor
              · intro hid
                obtain ⟨r, ⟨⟨hr, hserverId⟩, hscope⟩, rfl⟩ := hid
                exact ⟨r.2, hr, hserverId, hscope⟩
              · intro hid
                obtain ⟨r, hr, hserverId, hscope⟩ := hid
                exact ⟨(id, r), ⟨⟨hr, hserverId⟩, hscope⟩, rfl⟩
            · rw [List.mem_map]
              constructor
              · intro hid
                obtain ⟨p, hp, rfl⟩ := hid
                obtain ⟨hold, hdropped⟩ := List.mem_filter.mp hp
                exact ⟨p.2, List.mem_of_mem_filter hold, of_decide_eq_true hdropped⟩
              · intro hid
                obtain ⟨p, hp, hdropped⟩ := hid
                obtain ⟨r, hr, hrp⟩ := List.mem_map.mp hdropped
                refine ⟨(id, p), List.mem_filter.mpr ⟨List.mem_filter.mpr ⟨hp, ?_⟩, ?_⟩, rfl⟩
                · exact decide_eq_true (List.mem_map.mpr ⟨r, List.mem_of_mem_filter hr, hrp⟩)
                · exact decide_eq_true hdropped
            · intro hnone
              refine hnamed (List.any_eq_true.mpr ⟨r, ?_, decide_eq_true hnone⟩)
              exact List.mem_filter.mpr ⟨List.mem_filter.mpr ⟨hr, decide_eq_true hserverId⟩,
                decide_eq_true hscope⟩

/-- The permissions that a report deletes belong to resources that it deletes. -/
theorem resourceId_mem_delete (h : db.prepareReport reportData = .ok report)
    {p : Int × PermissionEntity} (hp : p ∈ db.permissions.rows)
    (hdelete : p.1 ∈ report.deletePermission) : p.2.resourceId ∈ report.delete := by
  obtain ⟨id, p⟩ := p
  obtain ⟨q, hq, hdropped⟩ := ((prepared h).mem_deletePermission id).mp hdelete
  cases Table.eq_of_mem hq hp rfl
  exact hdropped

theorem mem_resources_saveReport {r : Int × ResourceEntity} :
    r ∈ (db.saveReport report).resources.rows ↔
      (∃ q ∈ db.resources.rows, q.1 ∉ report.delete ∧ r.1 = q.1 ∧
        r.2 = if q.2.resourceServerId = report.resourceServerId then
          { q.2 with name := (newName report.authResources q.2).getD q.2.name } else q.2) ∨
      ∃ (i : ℕ) (e : ResourceEntity), report.add[i]? = some e ∧ r = (db.resources.next + i, e) := by
  simp only [saveReport, Table.mem_insertAll, Table.mem_mapRows, Table.mem_deleteAll,
    Table.next_mapRows, Table.next_deleteAll]
  constructor
  · intro hcases
    rcases hcases with ⟨q, ⟨hq, hkept⟩, rfl⟩ | hnew
    · exact .inl ⟨q, hq, hkept, rfl, rfl⟩
    · exact .inr hnew
  · intro hcases
    rcases hcases with ⟨q, hq, hkept, hid, hrow⟩ | hnew
    · exact .inl ⟨q, ⟨hq, hkept⟩, Prod.ext hid.symm hrow.symm⟩
    · exact .inr hnew

theorem mem_permissions_saveReport {p : Int × PermissionEntity} :
    p ∈ (db.saveReport report).permissions.rows ↔
      (p ∈ db.permissions.rows ∧ p.1 ∉ report.deletePermission) ∨
      ∃ i : ℕ, i < report.add.length ∧
        p = (db.permissions.next + i, { resourceId := db.resources.next + i }) := by
  simp only [saveReport, Table.mem_insertAll, Table.mem_deleteAll, Table.next_deleteAll,
    List.getElem?_mapIdx, Option.map_eq_some_iff]
  constructor
  · intro hcases
    rcases hcases with hold | ⟨i, _, ⟨e, he, rfl⟩, rfl⟩
    · exact .inl hold
    · exact .inr ⟨i, (List.getElem?_eq_some_iff.mp he).1, rfl⟩
  · intro hcases
    rcases hcases with hold | ⟨i, hi, rfl⟩
    · exact .inl hold
    · exact .inr ⟨i, _, ⟨_, List.getElem?_eq_getElem hi, rfl⟩, rfl⟩

end Database

end BigPlan.Auth

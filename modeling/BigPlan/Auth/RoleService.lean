import BigPlan.Lib.Table
import BigPlan.Auth.AccessCard

/-!
# Roles and their permissions

`RoleServiceImpl` over the tables it reads and writes, with the scopes that it caches
for each role. A call that throws leaves the tables as they were, and it has not yet
written to the cache.
-/
namespace BigPlan.Auth

open Lib (Table)
open Lib.Java

structure RoleEntity where
  name : String
  description : String
  groupId : Option Int
  isManager : Option Bool
  deriving DecidableEq, Repr

structure RolePermissionEntity where
  roleId : Int
  permissionId : Int
  deriving DecidableEq, Repr

structure PermissionEntity where
  resourceId : Int
  deriving DecidableEq, Repr

structure ResourceEntity where
  resourceServerId : Int
  resourceServerName : String
  scope : String
  name : String
  deriving DecidableEq, Repr

def ResourceEntity.fullScopeName (r : ResourceEntity) : String :=
  r.resourceServerName ++ ":" ++ r.scope

structure ResourceServerEntity where
  name : Option String
  clientId : Option String
  deriving DecidableEq, Repr

/-- The tables, with the role of each user and the clients, which no call here changes.
Permission ids come from callers and may be any number; the other keys were handed out. -/
structure Database where
  roles : Table RoleEntity
  rolePermissions : Table RolePermissionEntity
  permissions : Table PermissionEntity
  resources : Table ResourceEntity
  resourceServers : Table ResourceServerEntity
  userRole : Option JLong → Option Int
  existsClient : Option String → Bool
  role_allocated : ∀ p ∈ rolePermissions.rows, p.2.roleId < roles.next
  resource_allocated : ∀ p ∈ permissions.rows, p.2.resourceId < resources.next

structure RoleStore where
  db : Database
  /-- The scopes of `RoleScopesEntity` by role id. -/
  roleScopes : Int → Option String

/-- The ids of a set; `null` and the empty set are treated alike. -/
abbrev PermissionList := List Int

structure RoleCreateDTO where
  name : String
  description : String
  permissionList : PermissionList
  isGroup : Option Bool
  deriving DecidableEq, Repr

structure RoleUpdateDTO where
  id : Option Int
  name : String
  description : String
  permissionList : PermissionList
  deriving DecidableEq, Repr

namespace Database

variable (db : Database)

/-- The role of a user, with its id. -/
def findByUserId (userId : Option JLong) : Option (Int × RoleEntity) :=
  (db.userRole userId).bind fun id => (db.roles.findById id).map fun role => (id, role)

def findByName (name : String) : Option (Int × RoleEntity) :=
  db.roles.rows.find? fun p => p.2.name = name

/-- The ids that the rows of a role name. -/
def permissionsOf (roleId : Int) : List Int :=
  (db.rolePermissions.rows.filter fun p => p.2.roleId = roleId).map (·.2.permissionId)

/-- Some of the permissions leads to the resource. -/
def reaches (permissionIds : List Int) (resourceId : Int) : Bool :=
  db.permissions.rows.any fun p => p.2.resourceId = resourceId ∧ p.1 ∈ permissionIds

def resourcesOf (permissionIds : List Int) : List (Int × ResourceEntity) :=
  db.resources.rows.filter fun r => db.reaches permissionIds r.1

def findCustomizeAllResourceFromRid (roleId : Int) : List (Int × ResourceEntity) :=
  db.resourcesOf (db.permissionsOf roleId)

def scopeNames (permissionIds : List Int) : List String :=
  (db.resourcesOf permissionIds).map (·.2.fullScopeName)

def insertRole (role : RoleEntity) : Database where
  __ := db
  roles := db.roles.insert role
  role_allocated p hp := by
    have hlt := db.role_allocated p hp
    simp only [Table.next_insert]
    omega

def putRole (id : Int) (role : RoleEntity) : Database where
  __ := db
  roles := db.roles.put id role
  role_allocated := db.role_allocated

/-- The rows are the new ones and those of the old ones that the list names, unless the
list is empty. -/
def saveOrUpdatePermission (roleId : Int) (permissionList : PermissionList)
    (hrole : roleId < db.roles.next) : Database :=
  if permissionList = [] then db
  else
    let old := db.rolePermissions.rows.filter fun p => p.2.roleId = roleId
    let permissionIdOld := old.map (·.2.permissionId)
    let newAdd := (permissionList.filter (· ∉ permissionIdOld)).map fun permissionId =>
      { roleId, permissionId : RolePermissionEntity }
    let deleteAll := (old.filter (·.2.permissionId ∉ permissionList)).map (·.1)
    { db with
      rolePermissions := (db.rolePermissions.insertAll newAdd).deleteAll deleteAll
      role_allocated := by
        intro p hp
        rcases Table.mem_insertAll.mp (Table.mem_deleteAll.mp hp).1 with h | ⟨i, a, ha, rfl⟩
        · exact db.role_allocated p h
        · obtain ⟨id, -, rfl⟩ := List.mem_map.mp (List.mem_of_getElem? ha)
          exact hrole }

/-- `RoleEntity.delete` and `deleteAllByRoleId`. -/
def deleteRole (id : Int) : Database where
  __ := db
  roles := db.roles.deleteAll [id]
  rolePermissions := db.rolePermissions.deleteAll
    ((db.rolePermissions.rows.filter fun p => p.2.roleId = id).map (·.1))
  role_allocated p hp := db.role_allocated p (Table.mem_deleteAll.mp hp).1

/-! ## Checks -/

def checkRoleGroup (userId : Option JLong) (roleEntity : RoleEntity) : Except Thrown Unit :=
  match db.findByUserId userId with
  | none => .ok ()
  | some (_, role) =>
    match role.groupId with
    | none => .ok ()
    | some groupId =>
      match role.isManager with
      | none => .error .nullPointer
      | some isManager =>
        if ¬ isManager then .error (.business .ROLE_PERMISSION_DENY)
        else if roleEntity.groupId ≠ some groupId then .error (.business .ROLE_PERMISSION_DENY)
        else .ok ()

/-- What a new role is to its group. -/
inductive NewRole where
  | member (groupId : Option Int)
  | manager
  | plain
  deriving DecidableEq, Repr

/-- No role of a group creates another group, and only a manager creates roles. -/
def checkCreator (creatorRole : Option RoleEntity) (isGroup : Option Bool) :
    Except Thrown Unit :=
  match creatorRole with
  | none => .ok ()
  | some role =>
    if role.groupId = none then .ok ()
    else
      match isGroup, role.isManager with
      | none, _ => .error .nullPointer
      | some true, _ => .error (.business .ROLE_PERMISSION_DENY)
      | some false, none => .error .nullPointer
      | some false, some false => .error (.business .ROLE_PERMISSION_DENY)
      | some false, some true => .ok ()

def newRole (creatorRole : Option RoleEntity) (isGroup : Option Bool) : Except Thrown NewRole :=
  match isGroup with
  | none => .error .nullPointer
  | some isGroup =>
    match creatorRole with
    | none => .ok (if isGroup then .manager else .plain)
    | some role =>
      match role.isManager with
      | none => .error .nullPointer
      | some true => .ok (.member role.groupId)
      | some false => .ok (if isGroup ∧ role.groupId = none then .manager else .plain)

def checkCreate (userId : Option JLong) (dto : RoleCreateDTO) : Except Thrown NewRole :=
  let creatorRole := (db.findByUserId userId).map (·.2)
  match checkCreator creatorRole dto.isGroup with
  | .error e => .error e
  | .ok () =>
    if (db.findByName dto.name).isSome then .error (.business .ROLE_EXISTED)
    else newRole creatorRole dto.isGroup

def checkUpdate (userId : Option JLong) (dto : RoleUpdateDTO) : Except Thrown (Int × RoleEntity) :=
  match dto.id with
  | none => .error .illegalArgument
  | some id =>
    match db.roles.findById id with
    | none => .error (.business .ROLE_NOT_FOUND)
    | some role =>
      if role.name ≠ dto.name ∧ (db.findByName dto.name).isSome then
        .error (.business .ROLE_EXISTED)
      else
        match db.checkRoleGroup userId role with
        | .error e => .error e
        | .ok () => .ok (id, role)

/-! ## Writes -/

/-- A manager's group is its own id, which is known after the first of two saves. -/
def saveNew (dto : RoleCreateDTO) : NewRole → Database
  | .member groupId =>
    db.insertRole { name := dto.name, description := dto.description, groupId
                    isManager := some false }
  | .manager =>
    let role : RoleEntity :=
      { name := dto.name, description := dto.description, groupId := none, isManager := some true }
    (db.insertRole role).putRole db.roles.next { role with groupId := some db.roles.next }
  | .plain =>
    db.insertRole { name := dto.name, description := dto.description, groupId := none
                    isManager := none }

variable {db} in
theorem checkUpdate_ok {userId : Option JLong} {dto : RoleUpdateDTO} {id : Int} {role : RoleEntity}
    (h : db.checkUpdate userId dto = .ok (id, role)) :
    dto.id = some id ∧ (id, role) ∈ db.roles.rows ∧ db.checkRoleGroup userId role = .ok () := by
  unfold checkUpdate at h
  split at h
  · cases h
  · rename_i id' hid
    split at h
    · cases h
    · rename_i role' hfind
      split at h
      · cases h
      · split at h
        · cases h
        · rename_i hgroup
          cases h
          exact ⟨hid, Table.findById_eq_some.mp hfind, hgroup⟩

theorem next_lt_saveNew (dto : RoleCreateDTO) (kind : NewRole) :
    db.roles.next < (db.saveNew dto kind).roles.next := by
  cases kind <;> exact Int.lt_succ _

end Database

namespace RoleStore

variable (s : RoleStore)

def cacheRoleScopes (roleId : Int) : RoleStore :=
  let resources := s.db.findCustomizeAllResourceFromRid roleId
  let scopes := String.intercalate "," (resources.map fun r => r.2.fullScopeName)
  { s with roleScopes := Function.update s.roleScopes roleId (some scopes) }

def create (userId : Option JLong) (dto : RoleCreateDTO) : RoleStore × Except Thrown Bool :=
  match s.db.checkCreate userId dto with
  | .error e => (s, .error e)
  | .ok kind =>
    let roleId := s.db.roles.next
    let db := (s.db.saveNew dto kind).saveOrUpdatePermission roleId dto.permissionList
      (s.db.next_lt_saveNew dto kind)
    (cacheRoleScopes { s with db } roleId, .ok true)

def update (userId : Option JLong) (dto : RoleUpdateDTO) : RoleStore × Except Thrown Bool :=
  match h : s.db.checkUpdate userId dto with
  | .error e => (s, .error e)
  | .ok (id, role) =>
    let db := s.db.putRole id { role with name := dto.name, description := dto.description }
    let db := db.saveOrUpdatePermission id dto.permissionList (s.db.roles.fresh _ (Database.checkUpdate_ok h).2.1)
    (cacheRoleScopes { s with db } id, .ok true)

def delete (userId : Option JLong) (id : Int) : RoleStore × Except Thrown Bool :=
  match s.db.roles.findById id with
  | none => (s, .ok true)
  | some member =>
    match s.db.checkRoleGroup userId member with
    | .error e => (s, .error e)
    | .ok () =>
      ({ db := s.db.deleteRole id, roleScopes := Function.update s.roleScopes id none }, .ok true)

end RoleStore

/-! ## What the writes do -/

namespace Database

variable {db : Database} {roleId r pid : Int} {permissionList : PermissionList}

theorem mem_permissionsOf : pid ∈ db.permissionsOf roleId ↔
    ∃ id, (id, { roleId, permissionId := pid : RolePermissionEntity }) ∈ db.rolePermissions.rows := by
  simp only [permissionsOf, List.mem_map, List.mem_filter, decide_eq_true_eq]
  constructor
  · intro hexists
    obtain ⟨⟨id, row⟩, ⟨hmem, rfl⟩, rfl⟩ := hexists
    exact ⟨id, hmem⟩
  · intro hexists
    obtain ⟨id, hmem⟩ := hexists
    exact ⟨_, ⟨hmem, rfl⟩, rfl⟩

theorem permissionsOf_of_next_le (h : db.roles.next ≤ roleId) : pid ∉ db.permissionsOf roleId := by
  intro hpid
  obtain ⟨id, hmem⟩ := mem_permissionsOf.mp hpid
  have hlt := db.role_allocated _ hmem
  dsimp only at hlt
  omega

@[simp] theorem permissionsOf_saveNew (dto : RoleCreateDTO) (kind : NewRole) :
    (db.saveNew dto kind).permissionsOf = db.permissionsOf := by
  cases kind <;> rfl

@[simp] theorem permissions_saveNew (dto : RoleCreateDTO) (kind : NewRole) :
    (db.saveNew dto kind).permissions = db.permissions := by
  cases kind <;> rfl

@[simp] theorem resources_saveNew (dto : RoleCreateDTO) (kind : NewRole) :
    (db.saveNew dto kind).resources = db.resources := by
  cases kind <;> rfl

@[simp] theorem permissionsOf_putRole (id : Int) (role : RoleEntity) :
    (db.putRole id role).permissionsOf = db.permissionsOf := rfl

section SaveOrUpdatePermission

variable (hrole : roleId < db.roles.next)

theorem saveOrUpdatePermission_nil : db.saveOrUpdatePermission roleId [] hrole = db := if_pos rfl

@[simp] theorem roles_saveOrUpdatePermission :
    (db.saveOrUpdatePermission roleId permissionList hrole).roles = db.roles := by
  unfold saveOrUpdatePermission
  split <;> rfl

@[simp] theorem permissions_saveOrUpdatePermission :
    (db.saveOrUpdatePermission roleId permissionList hrole).permissions = db.permissions := by
  unfold saveOrUpdatePermission
  split <;> rfl

@[simp] theorem resources_saveOrUpdatePermission :
    (db.saveOrUpdatePermission roleId permissionList hrole).resources = db.resources := by
  unfold saveOrUpdatePermission
  split <;> rfl

/-- The rows of a save: the old ones but for those of the role that the list does not name, and
one for each permission that is new to the role. -/
theorem mem_rows_save {p : Int × RolePermissionEntity} (hne : permissionList ≠ []) :
    p ∈ (db.saveOrUpdatePermission roleId permissionList hrole).rolePermissions.rows ↔
      (p ∈ db.rolePermissions.rows ∧ (p.2.roleId = roleId → p.2.permissionId ∈ permissionList)) ∨
      ∃ (i : ℕ) (pid : Int),
        (permissionList.filter (· ∉ db.permissionsOf roleId))[i]? = some pid ∧
          p = (db.rolePermissions.next + i, { roleId, permissionId := pid }) := by
  rw [saveOrUpdatePermission, if_neg hne, Table.mem_deleteAll, Table.mem_insertAll]
  constructor
  · intro h
    obtain ⟨hold | ⟨i, a, ha, hp⟩, hkept⟩ := h
    · refine .inl ⟨hold, fun hrow => ?_⟩
      by_contra hpid
      exact hkept (List.mem_map.mpr ⟨_, List.mem_filter.mpr
        ⟨List.mem_filter.mpr ⟨hold, decide_eq_true hrow⟩, decide_eq_true hpid⟩, rfl⟩)
    · rw [List.getElem?_map, Option.map_eq_some_iff] at ha
      obtain ⟨pid, hpid, rfl⟩ := ha
      exact .inr ⟨i, pid, hpid, hp⟩
  · intro h
    rcases h with ⟨hold, hkeep⟩ | ⟨i, pid, hpid, rfl⟩
    · refine ⟨.inl hold, fun hdelete => ?_⟩
      obtain ⟨q, hq, hid⟩ := List.mem_map.mp hdelete
      obtain ⟨hq, hdropped⟩ := List.mem_filter.mp hq
      obtain ⟨hq, hrow⟩ := List.mem_filter.mp hq
      cases Table.eq_of_mem hq hold hid
      exact of_decide_eq_true hdropped (hkeep (of_decide_eq_true hrow))
    · refine ⟨.inr ⟨i, { roleId, permissionId := pid }, ?_, rfl⟩, fun hdelete => ?_⟩
      · rw [List.getElem?_map]
        exact congrArg (Option.map _) hpid
      · obtain ⟨q, hq, hid⟩ := List.mem_map.mp hdelete
        have hlt := db.rolePermissions.fresh q (List.mem_of_mem_filter (List.mem_of_mem_filter hq))
        dsimp only at hid
        omega

/-- A list that is not empty becomes the permissions of the role. -/
theorem mem_permissionsOf_save (hne : permissionList ≠ []) :
    pid ∈ (db.saveOrUpdatePermission roleId permissionList hrole).permissionsOf roleId ↔
      pid ∈ permissionList := by
  rw [mem_permissionsOf]
  constructor
  · intro hexists
    obtain ⟨id, hmem⟩ := hexists
    rcases (mem_rows_save hrole hne).mp hmem with ⟨-, hkeep⟩ | ⟨i, pid', hpid, heq⟩
    · exact hkeep rfl
    · cases heq
      exact List.mem_of_mem_filter (List.mem_of_getElem? hpid)
  · intro hpid
    by_cases hold : pid ∈ db.permissionsOf roleId
    · obtain ⟨id, hmem⟩ := mem_permissionsOf.mp hold
      exact ⟨id, (mem_rows_save hrole hne).mpr (.inl ⟨hmem, fun _ => hpid⟩)⟩
    · have hnew : pid ∈ permissionList.filter (· ∉ db.permissionsOf roleId) :=
        List.mem_filter.mpr ⟨hpid, decide_eq_true hold⟩
      obtain ⟨i, hi⟩ := List.mem_iff_getElem?.mp hnew
      exact ⟨_, (mem_rows_save hrole hne).mpr (.inr ⟨i, pid, hi, rfl⟩)⟩

/-- The rows of the other roles stay. -/
theorem mem_rows_save_of_ne {p : Int × RolePermissionEntity} (hr : p.2.roleId ≠ roleId) :
    p ∈ (db.saveOrUpdatePermission roleId permissionList hrole).rolePermissions.rows ↔
      p ∈ db.rolePermissions.rows := by
  by_cases hnil : permissionList = []
  · rw [saveOrUpdatePermission, if_pos hnil]
  · rw [mem_rows_save hrole hnil]
    constructor
    · intro h
      rcases h with ⟨hold, -⟩ | ⟨i, pid, -, rfl⟩
      · exact hold
      · exact absurd rfl hr
    · exact fun hold => .inl ⟨hold, fun hrow => absurd hrow hr⟩

/-- The permissions of the other roles stay. -/
theorem mem_permissionsOf_save_of_ne (hr : r ≠ roleId) :
    pid ∈ (db.saveOrUpdatePermission roleId permissionList hrole).permissionsOf r ↔
      pid ∈ db.permissionsOf r := by
  rw [mem_permissionsOf, mem_permissionsOf]
  exact exists_congr fun id => mem_rows_save_of_ne hrole hr

end SaveOrUpdatePermission

theorem mem_permissionsOf_deleteRole : pid ∈ (db.deleteRole roleId).permissionsOf r ↔
    r ≠ roleId ∧ pid ∈ db.permissionsOf r := by
  rw [mem_permissionsOf, mem_permissionsOf]
  constructor
  · intro hexists
    obtain ⟨id, hmem⟩ := hexists
    obtain ⟨hold, hkept⟩ := Table.mem_deleteAll.mp hmem
    refine ⟨?_, id, hold⟩
    intro hsame
    subst hsame
    exact hkept (List.mem_map.mpr ⟨_, List.mem_filter.mpr ⟨hold, by simp⟩, rfl⟩)
  · intro hboth
    obtain ⟨hr, id, hmem⟩ := hboth
    refine ⟨id, Table.mem_deleteAll.mpr ⟨hmem, ?_⟩⟩
    intro hdelete
    obtain ⟨q, hq, hid⟩ := List.mem_map.mp hdelete
    obtain ⟨hq, hrow⟩ := List.mem_filter.mp hq
    cases Table.eq_of_mem hq hmem hid
    exact hr (by simpa using hrow)

end Database

end BigPlan.Auth

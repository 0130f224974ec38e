import BigPlan.Auth.RoleService

/-!
# Rights after the deletion of a role

`RoleServiceImpl.delete` removes the role and its permissions, and leaves it assigned to its
users. The checks take a user whose role they do not find for one without a group, who may do
everything.
-/
namespace BigPlan.Auth

open Lib (Table)
open Lib.Java

inductive RoleRequest where
  | create (dto : RoleCreateDTO)
  | update (dto : RoleUpdateDTO)
  | delete (id : Int)
  deriving DecidableEq, Repr

namespace RoleStore

def answer (s : RoleStore) (userId : Option JLong) : RoleRequest → Except Thrown Bool
  | .create dto => (s.create userId dto).2
  | .update dto => (s.update userId dto).2
  | .delete id => (s.delete userId id).2

/-- The request passes the checks. -/
def Accepts (s : RoleStore) (userId : Option JLong) (request : RoleRequest) : Prop :=
  s.answer userId request = .ok true

instance (s : RoleStore) (userId : Option JLong) (request : RoleRequest) :
    Decidable (s.Accepts userId request) :=
  inferInstanceAs (Decidable (_ = _))

end RoleStore

namespace Database

variable (db : Database)

/-- A role other than the given one has the name. -/
def NamedByOther (roleId : Int) (name : String) : Prop :=
  ∃ p ∈ db.roles.rows, p.1 ≠ roleId ∧ p.2.name = name

/-- The request is one of the group's manager that concerns the group only and does not take the
name of the role. Or it fails whatever the role of the user is. -/
def KeepsRights (roleId : Int) (role : RoleEntity) : RoleRequest → Prop
  | .create dto =>
    dto.isGroup ≠ none → ¬ db.NamedByOther roleId dto.name →
      role.isManager = some true ∧ dto.isGroup = some false ∧ dto.name ≠ role.name
  | .update dto =>
    ∀ id target, dto.id = some id → id ≠ roleId → (id, target) ∈ db.roles.rows →
      (target.name ≠ dto.name → ¬ db.NamedByOther roleId dto.name) →
        role.isManager = some true ∧ target.groupId = role.groupId ∧
          (target.name ≠ dto.name → dto.name ≠ role.name)
  | .delete id =>
    ∀ target, (id, target) ∈ db.roles.rows →
      role.isManager = some true ∧ target.groupId = role.groupId

variable {db}

theorem isSome_findByName {name : String} :
    (db.findByName name).isSome ↔ ∃ p ∈ db.roles.rows, p.2.name = name := by
  rw [findByName, List.find?_isSome]
  simp only [decide_eq_true_eq]

theorem mem_roles_deleteRole {roleId : Int} {p : Int × RoleEntity} :
    p ∈ (db.deleteRole roleId).roles.rows ↔ p.1 ≠ roleId ∧ p ∈ db.roles.rows := by
  rw [deleteRole, Table.mem_deleteAll, List.mem_singleton, and_comm]

theorem isSome_findByName_deleteRole {roleId : Int} {name : String} :
    ((db.deleteRole roleId).findByName name).isSome ↔ db.NamedByOther roleId name := by
  rw [isSome_findByName]
  constructor
  · intro h
    obtain ⟨p, hp, hname⟩ := h
    obtain ⟨hne, hmem⟩ := mem_roles_deleteRole.mp hp
    exact ⟨p, hmem, hne, hname⟩
  · intro h
    obtain ⟨p, hmem, hne, hname⟩ := h
    exact ⟨p, mem_roles_deleteRole.mpr ⟨hne, hmem⟩, hname⟩

/-- Where the role is, its name is taken too. -/
theorem isSome_findByName_of_mem {roleId : Int} {role : RoleEntity}
    (hrole : (roleId, role) ∈ db.roles.rows) {name : String} :
    (db.findByName name).isSome ↔ name = role.name ∨ db.NamedByOther roleId name := by
  rw [isSome_findByName]
  constructor
  · intro h
    obtain ⟨p, hmem, hname⟩ := h
    by_cases hid : p.1 = roleId
    · cases Table.eq_of_mem hmem hrole hid
      exact .inl hname.symm
    · exact .inr ⟨p, hmem, hid, hname⟩
  · intro h
    rcases h with rfl | ⟨p, hmem, -, hname⟩
    · exact ⟨_, hrole, rfl⟩
    · exact ⟨p, hmem, hname⟩

/-! ## The checks for a user without a role -/

section Without

variable {userId : Option JLong} (hnone : db.findByUserId userId = none)

include hnone

theorem checkRoleGroup_of_none (roleEntity : RoleEntity) :
    db.checkRoleGroup userId roleEntity = .ok () := by
  rw [checkRoleGroup, hnone]

theorem checkCreate_of_none {dto : RoleCreateDTO} :
    (∃ kind, db.checkCreate userId dto = .ok kind) ↔
      dto.isGroup ≠ none ∧ ¬ (db.findByName dto.name).isSome := by
  simp only [checkCreate, hnone, Option.map_none, checkCreator]
  by_cases hname : (db.findByName dto.name).isSome
  · simp [hname]
  · cases hgroup : dto.isGroup with
    | none => simp [hname, newRole]
    | some isGroup => simp [hname, newRole]

end Without

/-! ## The checks for a user whose role belongs to a group -/

section With

variable {userId : Option JLong} {roleId groupId : Int} {role : RoleEntity}
  (hfind : db.findByUserId userId = some (roleId, role)) (hgroup : role.groupId = some groupId)

include hfind hgroup

theorem checkRoleGroup_of_some {roleEntity : RoleEntity} :
    db.checkRoleGroup userId roleEntity = .ok () ↔
      role.isManager = some true ∧ roleEntity.groupId = role.groupId := by
  simp only [checkRoleGroup, hfind, hgroup]
  cases hmanager : role.isManager with
  | none => simp
  | some isManager => cases isManager <;> simp

theorem checkCreate_of_some {dto : RoleCreateDTO} :
    (∃ kind, db.checkCreate userId dto = .ok kind) ↔
      role.isManager = some true ∧ dto.isGroup = some false ∧
        ¬ (db.findByName dto.name).isSome := by
  simp only [checkCreate, hfind, Option.map_some, checkCreator, hgroup, reduceCtorEq, if_false]
  cases hisGroup : dto.isGroup with
  | none => simp
  | some isGroup =>
    cases isGroup with
    | true => simp
    | false =>
      cases hmanager : role.isManager with
      | none => simp
      | some isManager =>
        cases isManager with
        | false => simp
        | true =>
          by_cases hname : (db.findByName dto.name).isSome <;> simp [hname, newRole, hmanager]

end With

theorem checkUpdate_isOk {userId : Option JLong} {dto : RoleUpdateDTO} :
    (∃ found, db.checkUpdate userId dto = .ok found) ↔
      ∃ id target, dto.id = some id ∧ (id, target) ∈ db.roles.rows ∧
        (target.name ≠ dto.name → ¬ (db.findByName dto.name).isSome) ∧
        db.checkRoleGroup userId target = .ok () := by
  constructor
  · intro h
    obtain ⟨⟨id, target⟩, hok⟩ := h
    obtain ⟨hid, hmem, hgroup⟩ := checkUpdate_ok hok
    refine ⟨id, target, hid, hmem, fun hne hname => ?_, hgroup⟩
    simp only [checkUpdate, hid, Table.findById_eq_some.mpr hmem] at hok
    rw [if_pos ⟨hne, hname⟩] at hok
    cases hok
  · intro h
    obtain ⟨id, target, hid, hmem, hname, hgroup⟩ := h
    refine ⟨(id, target), ?_⟩
    simp only [checkUpdate, hid, Table.findById_eq_some.mpr hmem]
    rw [if_neg fun hboth => hname hboth.1 hboth.2]
    simp only [hgroup]

/-- Once the role is deleted, its users are users without a role. -/
theorem findByUserId_deleteRole {userId : Option JLong} {roleId : Int}
    (huser : db.userRole userId = some roleId) :
    (db.deleteRole roleId).findByUserId userId = none := by
  have hnone : (db.deleteRole roleId).roles.findById roleId = none := by
    rw [Option.eq_none_iff_forall_ne_some]
    intro role hfind
    exact (mem_roles_deleteRole.mp (Table.findById_eq_some.mp hfind)).1 rfl
  have hsame : (db.deleteRole roleId).userRole userId = some roleId := huser
  rw [findByUserId, hsame, Option.bind_some, hnone, Option.map_none]

end Database

namespace RoleStore

variable {s : RoleStore} {userId : Option JLong}

theorem accepts_create {dto : RoleCreateDTO} :
    s.Accepts userId (.create dto) ↔ ∃ kind, s.db.checkCreate userId dto = .ok kind := by
  simp only [Accepts, answer, create]
  cases s.db.checkCreate userId dto <;> simp

theorem accepts_update {dto : RoleUpdateDTO} :
    s.Accepts userId (.update dto) ↔ ∃ found, s.db.checkUpdate userId dto = .ok found := by
  simp only [Accepts, answer, update]
  constructor
  · intro h
    split at h
    · cases h
    · rename_i id role hok
      exact ⟨_, hok⟩
  · intro h
    obtain ⟨found, hok⟩ := h
    split
    · rename_i e herror
      rw [hok] at herror
      cases herror
    · rfl

theorem accepts_delete {id : Int} :
    s.Accepts userId (.delete id) ↔
      ∀ target, (id, target) ∈ s.db.roles.rows → s.db.checkRoleGroup userId target = .ok () := by
  simp only [Accepts, answer, delete, ← Table.findById_eq_some]
  cases s.db.roles.findById id with
  | none => simp
  | some member => cases hcheck : s.db.checkRoleGroup userId member <;> simp [hcheck]

/-- Whoever deletes it, a role that is there is gone afterwards. -/
theorem db_delete {admin : Option JLong} {roleId : Int} {role : RoleEntity}
    (hrole : s.db.roles.findById roleId = some role)
    (hdelete : (s.delete admin roleId).2 = .ok true) :
    (s.delete admin roleId).1.db = s.db.deleteRole roleId := by
  simp only [delete, hrole] at hdelete ⊢
  split at hdelete
  · cases hdelete
  · rfl

end RoleStore

open RoleStore Database in
/-- A user of a role that is deleted may do no more than before exactly if the request was the
business of the role. -/
theorem RoleStore.keepsRights_iff {s : RoleStore} {admin userId : Option JLong}
    {roleId groupId : Int} {role : RoleEntity} (hrole : s.db.roles.findById roleId = some role)
    (hgroup : role.groupId = some groupId) (huser : s.db.userRole userId = some roleId)
    (hdelete : (s.delete admin roleId).2 = .ok true) (request : RoleRequest) :
    ((s.delete admin roleId).1.Accepts userId request → s.Accepts userId request) ↔
      s.db.KeepsRights roleId role request := by
  have hmem : (roleId, role) ∈ s.db.roles.rows := Table.findById_eq_some.mp hrole
  have hdb := db_delete hrole hdelete
  have hbefore : s.db.findByUserId userId = some (roleId, role) := by
    rw [findByUserId, huser, Option.bind_some, hrole, Option.map_some]
  have hafter := findByUserId_deleteRole huser
  cases request with
  | create dto =>
    rw [accepts_create, accepts_create, hdb, checkCreate_of_none hafter,
      checkCreate_of_some hbefore hgroup, isSome_findByName_deleteRole,
      isSome_findByName_of_mem hmem, KeepsRights, and_imp]
    refine imp_congr_right fun hisGroup => imp_congr_right fun hother => ?_
    rw [not_or, and_iff_left hother]
  | update dto =>
    rw [accepts_update, accepts_update, hdb, checkUpdate_isOk, checkUpdate_isOk,
      isSome_findByName_deleteRole, isSome_findByName_of_mem hmem, KeepsRights]
    simp only [checkRoleGroup_of_none hafter, checkRoleGroup_of_some hbefore hgroup,
      mem_roles_deleteRole]
    constructor
    · intro h id target hid hne htarget hname
      obtain ⟨id', target', hid', htarget', hname', hmanager⟩ :=
        h ⟨id, target, hid, ⟨hne, htarget⟩, hname, trivial⟩
      cases hid.symm.trans hid'
      cases Table.eq_of_mem htarget htarget' rfl
      exact ⟨hmanager.1, hmanager.2, fun hdiff htaken => hname' hdiff (.inl htaken)⟩
    · intro h hexists
      obtain ⟨id, target, hid, ⟨hne, htarget⟩, hname, -⟩ := hexists
      obtain ⟨hmanager, hsame, hfree⟩ := h id target hid hne htarget hname
      exact ⟨id, target, hid, htarget,
        fun hdiff htaken => htaken.elim (hfree hdiff) (hname hdiff), hmanager, hsame⟩
  | delete id =>
    rw [accepts_delete, accepts_delete, hdb, KeepsRights]
    simp only [checkRoleGroup_of_none hafter, checkRoleGroup_of_some hbefore hgroup, implies_true,
      forall_const]

def lead : RoleEntity :=
  { name := "lead", description := "", groupId := some 1, isManager := some true }

def staff : RoleEntity :=
  { name := "staff", description := "", groupId := some 1, isManager := some false }

/-- A group with its manager, who is user 5, and a member, who is user 7. -/
def staffed : RoleStore where
  db :=
    { roles := (Table.empty.insert lead).insert staff
      rolePermissions := .empty
      permissions := .empty
      resources := .empty
      resourceServers := .empty
      userRole := fun userId =>
        if userId = some 5 then some 1 else if userId = some 7 then some 2 else none
      existsClient := fun _ => false
      role_allocated := fun _ h => by cases h
      resource_allocated := fun _ h => by cases h }
  roleScopes := fun _ => none

/-- Once the role of the manager is deleted, the deletion of a member is still its business. -/
theorem keepsRights_iff_staffed : staffed.db.roles.findById 1 = some lead ∧
    ((staffed.delete (some 5) 1).1.Accepts (some 5) (.delete 2) →
      staffed.Accepts (some 5) (.delete 2)) := by
  have hlead : staffed.db.roles.findById 1 = some lead := by decide +kernel
  refine ⟨hlead, ?_⟩
  refine (RoleStore.keepsRights_iff hlead rfl (by decide) (by decide +kernel) (.delete 2)).mpr ?_
  intro target htarget
  have hstaff : (2, staff) ∈ staffed.db.roles.rows := by decide +kernel
  cases Table.eq_of_mem htarget hstaff rfl
  exact ⟨rfl, rfl⟩

/-- A member of a group may not create another group, until the manager deletes its role. -/
theorem not_keepsRights : ¬ ∀ (s : RoleStore) (admin userId : Option JLong) (roleId groupId : Int)
    (role : RoleEntity), s.db.roles.findById roleId = some role → role.groupId = some groupId →
      s.db.userRole userId = some roleId → (s.delete admin roleId).2 = .ok true →
        ∀ request, (s.delete admin roleId).1.Accepts userId request →
          s.Accepts userId request := by
  intro h
  have hbefore := h staffed (some 5) (some 7) 2 1 staff (by decide +kernel) rfl (by decide)
    (by decide +kernel)
    (.create { name := "boss", description := "", permissionList := [1], isGroup := some true })
    (by decide +kernel)
  exact absurd hbefore (by decide +kernel)

end BigPlan.Auth

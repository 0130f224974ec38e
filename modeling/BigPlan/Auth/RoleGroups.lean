import BigPlan.Lib.Runs
import BigPlan.Auth.ResourceService

/-!
# Groups of roles

A manager gives the roles of its group permissions by their ids. The tree that
`findRoleAndPermissions` offers has only ids of the manager's own permissions, but the
calls that save them take any.
-/
namespace BigPlan.Auth

open Lib (Table)
open Lib.Java Lib.Runs

namespace Database

variable (db : Database) (groupId id : Int)

def Manages : Prop :=
  ∃ role, (id, role) ∈ db.roles.rows ∧ role.groupId = some groupId ∧ role.isManager = some true

def Member : Prop :=
  ∃ role, (id, role) ∈ db.roles.rows ∧ role.groupId = some groupId ∧ role.isManager ≠ some true

/-- The other roles of a group hold no permission that its manager lacks. -/
def GroupSafe : Prop :=
  ∀ groupId m r, db.Manages groupId m → db.Member groupId r →
    ∀ pid ∈ db.permissionsOf r, pid ∈ db.permissionsOf m

def isGroupManager (userId : Option JLong) : Bool :=
  match db.findByUserId userId with
  | some (_, role) => role.groupId.isSome && role.isManager == some true
  | none => false

variable {db groupId id}

theorem Manages.lt_next (h : db.Manages groupId id) : id < db.roles.next := by
  obtain ⟨role, hmem, -⟩ := h
  exact db.roles.fresh _ hmem

theorem Member.lt_next (h : db.Member groupId id) : id < db.roles.next := by
  obtain ⟨role, hmem, -⟩ := h
  exact db.roles.fresh _ hmem

theorem Manages.not_member (h : db.Manages groupId id) (groupId' : Int) :
    ¬ db.Member groupId' id := by
  intro hexists
  obtain ⟨role', hmem', -, hne⟩ := hexists
  obtain ⟨role, hmem, -, hmanager⟩ := h
  cases Table.eq_of_mem hmem hmem' rfl
  exact hne hmanager

/-- A manager creates members of its own group only. -/
theorem checkCreate_isGroupManager {userId : Option JLong} {dto : RoleCreateDTO} {kind : NewRole}
    (hmanager : db.isGroupManager userId = true) (h : db.checkCreate userId dto = .ok kind) :
    ∃ groupId, kind = .member (some groupId) := by
  unfold isGroupManager at hmanager
  split at hmanager
  · rename_i creatorId role hrole
    obtain ⟨hgroup, hmanages⟩ := Bool.and_eq_true_iff.mp hmanager
    obtain ⟨groupId, hgroup⟩ := Option.isSome_iff_exists.mp hgroup
    have hmanages : role.isManager = some true := eq_of_beq hmanages
    have hkind : newRole (some role) dto.isGroup = .ok kind := by
      simp only [checkCreate, hrole, Option.map_some] at h
      split at h
      · cases h
      · split at h
        · cases h
        · exact h
    refine ⟨groupId, ?_⟩
    cases hisGroup : dto.isGroup with
    | none =>
      rw [hisGroup] at hkind
      cases hkind
    | some isGroup =>
      simp only [newRole, hisGroup, hmanages, hgroup, Except.ok.injEq] at hkind
      exact hkind.symm
  · cases hmanager

/-! ## The groups after a call -/

section SaveNew

variable {dto : RoleCreateDTO} {newGroupId : Int}

theorem manages_saveNew : (db.saveNew dto (.member (some newGroupId))).Manages groupId id ↔
    db.Manages groupId id := by
  constructor
  · intro hexists
    obtain ⟨role, hmem, hgroup, hmanager⟩ := hexists
    rcases Table.mem_insert.mp hmem with hold | hnew
    · exact ⟨role, hold, hgroup, hmanager⟩
    · cases hnew
      cases hmanager
  · intro hexists
    obtain ⟨role, hmem, hrole⟩ := hexists
    exact ⟨role, Table.mem_insert.mpr (.inl hmem), hrole⟩

theorem member_saveNew : (db.saveNew dto (.member (some newGroupId))).Member groupId id ↔
    db.Member groupId id ∨ (groupId = newGroupId ∧ id = db.roles.next) := by
  constructor
  · intro hexists
    obtain ⟨role, hmem, hgroup, hmanager⟩ := hexists
    rcases Table.mem_insert.mp hmem with hold | hnew
    · exact .inl ⟨role, hold, hgroup, hmanager⟩
    · cases hnew
      cases hgroup
      exact .inr ⟨rfl, rfl⟩
  · intro hcases
    rcases hcases with ⟨role, hmem, hrole⟩ | ⟨rfl, rfl⟩
    · exact ⟨role, Table.mem_insert.mpr (.inl hmem), hrole⟩
    · exact ⟨_, Table.mem_insert.mpr (.inr rfl), rfl, by simp⟩

end SaveNew

section PutRole

variable {roleId : Int} {role : RoleEntity} {name description : String}

theorem mem_putRole (hmem : (roleId, role) ∈ db.roles.rows) (P : Option Int → Option Bool → Prop) :
    (∃ role', (id, role') ∈ (db.putRole roleId { role with name, description }).roles.rows ∧
      P role'.groupId role'.isManager) ↔
      ∃ role', (id, role') ∈ db.roles.rows ∧ P role'.groupId role'.isManager := by
  constructor
  · intro hexists
    obtain ⟨role', hrole', hP⟩ := hexists
    rcases Table.mem_put.mp hrole' with ⟨hold, -⟩ | ⟨hnew, -⟩
    · exact ⟨role', hold, hP⟩
    · cases hnew
      exact ⟨role, hmem, hP⟩
  · intro hexists
    obtain ⟨role', hrole', hP⟩ := hexists
    by_cases hid : id = roleId
    · subst hid
      cases Table.eq_of_mem hmem hrole' rfl
      exact ⟨_, Table.mem_put.mpr (.inr ⟨rfl, role, hmem⟩), hP⟩
    · exact ⟨role', Table.mem_put.mpr (.inl ⟨hrole', hid⟩), hP⟩

theorem manages_putRole (hmem : (roleId, role) ∈ db.roles.rows) :
    (db.putRole roleId { role with name, description }).Manages groupId id ↔
      db.Manages groupId id :=
  mem_putRole hmem fun g b => g = some groupId ∧ b = some true

theorem member_putRole (hmem : (roleId, role) ∈ db.roles.rows) :
    (db.putRole roleId { role with name, description }).Member groupId id ↔
      db.Member groupId id :=
  mem_putRole hmem fun g b => g = some groupId ∧ b ≠ some true

end PutRole

section SaveOrUpdatePermission

variable {roleId : Int} {permissionList : PermissionList} (hrole : roleId < db.roles.next)

@[simp] theorem manages_saveOrUpdatePermission :
    (db.saveOrUpdatePermission roleId permissionList hrole).Manages groupId id ↔
      db.Manages groupId id := by
  simp only [Manages, roles_saveOrUpdatePermission]

@[simp] theorem member_saveOrUpdatePermission :
    (db.saveOrUpdatePermission roleId permissionList hrole).Member groupId id ↔
      db.Member groupId id := by
  simp only [Member, roles_saveOrUpdatePermission]

end SaveOrUpdatePermission

/-- The role may hold exactly the permissions of the list: the managers of its group
have them all, and if it is one itself, they cover what the others hold. -/
structure Fits (db : Database) (roleId : Int) (permissionList : PermissionList) : Prop where
  of_member : ∀ groupId m, db.Member groupId roleId → db.Manages groupId m →
    permissionList ⊆ db.permissionsOf m
  of_manages : ∀ groupId r, db.Manages groupId roleId → db.Member groupId r →
    db.permissionsOf r ⊆ permissionList

section Save

variable {roleId : Int} {permissionList : PermissionList}

theorem groupSafe_save (hsafe : db.GroupSafe) (hrole : roleId < db.roles.next) :
    (db.saveOrUpdatePermission roleId permissionList hrole).GroupSafe ↔
      (permissionList ≠ [] → db.Fits roleId permissionList) := by
  by_cases hnil : permissionList = []
  · subst hnil
    rw [saveOrUpdatePermission_nil]
    exact ⟨fun _ hne => absurd rfl hne, fun _ => hsafe⟩
  have hself {pid : Int} :
      pid ∈ (db.saveOrUpdatePermission roleId permissionList hrole).permissionsOf roleId ↔
        pid ∈ permissionList := mem_permissionsOf_save hrole hnil
  have hother {r pid : Int} (hr : r ≠ roleId) :
      pid ∈ (db.saveOrUpdatePermission roleId permissionList hrole).permissionsOf r ↔
        pid ∈ db.permissionsOf r := mem_permissionsOf_save_of_ne hrole hr
  constructor
  · intro h _
    refine ⟨fun g m hr hm pid hpid => ?_, fun g r hm hr pid hpid => ?_⟩
    · have hmr : m ≠ roleId := fun he => (he ▸ hm).not_member g hr
      rw [← hother hmr]
      exact h g m roleId (by simpa using hm) (by simpa using hr) pid (hself.mpr hpid)
    · have hrm : r ≠ roleId := fun he => hm.not_member g (he ▸ hr)
      rw [← hself]
      exact h g roleId r (by simpa using hm) (by simpa using hr) pid ((hother hrm).mpr hpid)
  · intro h g m r hm hr pid hpid
    have hfits := h hnil
    rw [manages_saveOrUpdatePermission] at hm
    rw [member_saveOrUpdatePermission] at hr
    by_cases hr' : r = roleId
    · subst hr'
      have hmr : m ≠ r := fun he => (he ▸ hm).not_member g hr
      rw [hother hmr]
      exact hfits.of_member g m hr hm (hself.mp hpid)
    · rw [hother hr'] at hpid
      by_cases hm' : m = roleId
      · subst hm'
        rw [hself]
        exact hfits.of_manages g r hm hr hpid
      · rw [hother hm']
        exact hsafe g m r hm hr pid hpid

end Save

theorem groupSafe_saveNew {dto : RoleCreateDTO} {newGroupId : Int} (hsafe : db.GroupSafe) :
    (db.saveNew dto (.member (some newGroupId))).GroupSafe := by
  intro g m r hm hr pid hpid
  rw [manages_saveNew] at hm
  rw [permissionsOf_saveNew] at hpid ⊢
  rcases member_saveNew.mp hr with hr | ⟨-, rfl⟩
  · exact hsafe g m r hm hr pid hpid
  · exact absurd hpid (permissionsOf_of_next_le (Int.le_refl _))

theorem fits_saveNew {dto : RoleCreateDTO} {newGroupId : Int} {permissionList : PermissionList} :
    (db.saveNew dto (.member (some newGroupId))).Fits db.roles.next permissionList ↔
      ∀ m, db.Manages newGroupId m → permissionList ⊆ db.permissionsOf m := by
  constructor
  · intro h m hm
    rw [← db.permissionsOf_saveNew dto (.member (some newGroupId))]
    exact h.of_member newGroupId m (member_saveNew.mpr (.inr ⟨rfl, rfl⟩)) (manages_saveNew.mpr hm)
  · intro h
    refine ⟨fun g m hr hm => ?_, fun g r hm => ?_⟩
    · rw [manages_saveNew] at hm
      rw [permissionsOf_saveNew]
      rcases member_saveNew.mp hr with hr | ⟨rfl, -⟩
      · exact absurd hr.lt_next (Int.lt_irrefl _)
      · exact h m hm
    · rw [manages_saveNew] at hm
      exact absurd hm.lt_next (Int.lt_irrefl _)

theorem groupSafe_putRole {roleId : Int} {role : RoleEntity} {name description : String}
    (hmem : (roleId, role) ∈ db.roles.rows) :
    (db.putRole roleId { role with name, description }).GroupSafe ↔ db.GroupSafe := by
  simp only [GroupSafe, manages_putRole hmem, member_putRole hmem, permissionsOf_putRole]

theorem fits_putRole {roleId : Int} {role : RoleEntity} {name description : String}
    {permissionList : PermissionList} (hmem : (roleId, role) ∈ db.roles.rows) :
    (db.putRole roleId { role with name, description }).Fits roleId permissionList ↔
      db.Fits roleId permissionList := by
  constructor <;> intro h <;> refine ⟨fun g m hr hm => ?_, fun g r hm hr => ?_⟩
  · exact h.of_member g m ((member_putRole hmem).mpr hr) ((manages_putRole hmem).mpr hm)
  · exact h.of_manages g r ((manages_putRole hmem).mpr hm) ((member_putRole hmem).mpr hr)
  · exact h.of_member g m ((member_putRole hmem).mp hr) ((manages_putRole hmem).mp hm)
  · exact h.of_manages g r ((manages_putRole hmem).mp hm) ((member_putRole hmem).mp hr)

end Database

/-! ## Runs -/

namespace RoleStore

variable {s : RoleStore}

def GroupSafe (s : RoleStore) : Prop := s.db.GroupSafe

/-- The call creates or updates a role, and its user is a group manager. -/
def ByGroupManager (s : RoleStore) : ServiceCall → Prop
  | .create userId _ => s.db.isGroupManager userId = true
  | .update userId _ => s.db.isGroupManager userId = true
  | _ => False

instance (s : RoleStore) (call : ServiceCall) : Decidable (s.ByGroupManager call) := by
  cases call <;> unfold ByGroupManager <;> infer_instance

/-- Where the call is not refused, what it submits fits into the group of its role. -/
def Within (s : RoleStore) : ServiceCall → Prop
  | .create userId dto => ∀ groupId m,
    s.db.checkCreate userId dto = .ok (.member (some groupId)) → s.db.Manages groupId m →
      dto.permissionList ⊆ s.db.permissionsOf m
  | .update userId dto => ∀ id role, s.db.checkUpdate userId dto = .ok (id, role) →
    dto.permissionList ≠ [] → s.db.Fits id dto.permissionList
  | _ => True

theorem groupSafe_create {userId : Option JLong} {dto : RoleCreateDTO} (hsafe : s.GroupSafe)
    (hmanager : s.db.isGroupManager userId = true) :
    (s.step (.create userId dto)).GroupSafe ↔ s.Within (.create userId dto) := by
  simp only [step, create, Within]
  split
  · rename_i e he
    simp [he, hsafe]
  · rename_i kind hcheck
    obtain ⟨newGroupId, rfl⟩ := Database.checkCreate_isGroupManager hmanager hcheck
    have hwithin : (∀ groupId m, s.db.checkCreate userId dto = .ok (.member (some groupId)) →
        s.db.Manages groupId m → dto.permissionList ⊆ s.db.permissionsOf m) ↔
        ∀ m, s.db.Manages newGroupId m → dto.permissionList ⊆ s.db.permissionsOf m := by
      constructor
      · exact fun h m => h newGroupId m hcheck
      · intro h groupId m hgroup
        cases hcheck.symm.trans hgroup
        exact h m
    rw [hwithin]
    refine (Database.groupSafe_save (Database.groupSafe_saveNew hsafe)
      (s.db.next_lt_saveNew dto _)).trans ?_
    rw [Database.fits_saveNew]
    constructor
    · intro h m hm pid hpid
      exact h (List.ne_nil_of_mem hpid) m hm hpid
    · exact fun h _ => h

theorem groupSafe_update {userId : Option JLong} {dto : RoleUpdateDTO} (hsafe : s.GroupSafe) :
    (s.step (.update userId dto)).GroupSafe ↔ s.Within (.update userId dto) := by
  simp only [step, update, Within]
  split
  · rename_i e he
    simp [he, hsafe]
  · rename_i id role hcheck
    have hmem := (Database.checkUpdate_ok hcheck).2.1
    have hwithin : (∀ id' role', s.db.checkUpdate userId dto = .ok (id', role') →
        dto.permissionList ≠ [] → s.db.Fits id' dto.permissionList) ↔
        (dto.permissionList ≠ [] → s.db.Fits id dto.permissionList) := by
      constructor
      · exact fun h => h id role hcheck
      · intro h id' role' hid
        cases hcheck.symm.trans hid
        exact h
    rw [hwithin]
    have hput : (s.db.putRole id
        { role with name := dto.name, description := dto.description }).GroupSafe :=
      (Database.groupSafe_putRole hmem).mpr hsafe
    refine (Database.groupSafe_save hput (s.db.roles.fresh _ hmem)).trans ?_
    rw [Database.fits_putRole hmem]

/-- What group managers do keeps the groups safe in exactly the runs in which every list
that goes through fits into the group. -/
theorem groupSafe_iff (s : RoleStore) (calls : List ServiceCall)
    (hmanagers : Along step ByGroupManager s calls) (hsafe : s.GroupSafe) :
    Throughout step GroupSafe s calls ↔ Along step Within s calls := by
  have hstep (s : RoleStore) (call : ServiceCall) (hby : s.ByGroupManager call)
      (hsafe : s.GroupSafe) : (s.step call).GroupSafe ↔ s.Within call := by
    cases call with
    | create userId dto => exact groupSafe_create hsafe hby
    | update userId dto => exact groupSafe_update hsafe
    | delete userId id => exact hby.elim
    | receiveReportData reportData => exact hby.elim
  refine throughout_iff_along
    (fun calls s => Along step ByGroupManager s calls ∧ s.GroupSafe) ?_ ?_ ?_ ⟨hmanagers, hsafe⟩
  · intro s calls h
    exact h.2
  · intro s call calls ⟨hby, hsafe⟩ hwithin
    exact ⟨hby.2, (hstep s call hby.1 hsafe).mpr hwithin⟩
  · intro s call calls ⟨hby, hsafe⟩ hwithin
    exact fun h => hwithin ((hstep s call hby.1 hsafe).mp h)

/-- One group, whose manager is user 7 and has the first of two permissions. -/
def oneGroup : RoleStore where
  db :=
    { roles := Table.empty.insert
        { name := "m", description := "d", groupId := some 1, isManager := some true }
      rolePermissions := Table.empty.insert { roleId := 1, permissionId := 1 }
      permissions := Table.empty.insertAll [{ resourceId := 1 }, { resourceId := 2 }]
      resources := Table.empty.insertAll
        [{ resourceServerId := 1, resourceServerName := "s", scope := "a:b", name := "n" },
          { resourceServerId := 1, resourceServerName := "s", scope := "a:c", name := "n" }]
      resourceServers := Table.empty.insert { name := some "s", clientId := some "c" }
      userRole := fun userId => if userId = some 7 then some 1 else none
      existsClient := fun clientId => clientId = some "c"
      role_allocated := by decide
      resource_allocated := by decide }
  roleScopes id := if id = 1 then some "s:a:b" else none

/-- The manager creates a member of its group. -/
def createMember (permissionList : PermissionList) : ServiceCall :=
  .create (some 7) { name := "r", description := "d", permissionList, isGroup := some false }

theorem groupSafe_oneGroup : oneGroup.GroupSafe := by
  rintro g m r - ⟨role, hmem, -, hne⟩
  have hrow := List.mem_singleton.mp hmem
  cases hrow
  exact absurd rfl hne

/-- A member with the manager's own permission. -/
theorem groupSafe_iff_own :
    Throughout step GroupSafe oneGroup [createMember [1]] := by
  rw [groupSafe_iff oneGroup [createMember [1]] (by decide) groupSafe_oneGroup]
  refine ⟨?_, trivial⟩
  rintro g m - ⟨role, hmem, -⟩
  have hrow := List.mem_singleton.mp hmem
  cases hrow
  decide

/-- The manager gives a new member the permission that it lacks. -/
theorem not_groupSafe_createMember :
    ¬ ∀ (s : RoleStore) (calls : List ServiceCall), Along step ByGroupManager s calls →
      s.GroupSafe → Throughout step GroupSafe s calls := by
  intro h
  have hsafe := (h oneGroup [createMember [2]] (by decide) groupSafe_oneGroup).last
  have hroles : (run step oneGroup [createMember [2]]).db.roles.rows =
      [(1, { name := "m", description := "d", groupId := some 1, isManager := some true }),
        (2, { name := "r", description := "d", groupId := some 1, isManager := some false })] := by
    decide
  have hpid := hsafe 1 1 2 ⟨_, hroles ▸ List.mem_cons_self, rfl, rfl⟩
    ⟨_, hroles ▸ List.mem_cons_of_mem _ List.mem_cons_self, rfl, by decide⟩ 2 (by decide)
  exact absurd hpid (by decide)

end RoleStore

end BigPlan.Auth

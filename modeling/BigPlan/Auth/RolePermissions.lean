import BigPlan.Auth.RoleGroups

/-!
# The permissions of a role after a save

A save adds what is new to the role and deletes what the set does not name, and it does neither
for the empty set: a role keeps its permissions then.
-/
namespace BigPlan.Auth

open Lib (Table)
open Lib.Java

variable {t t' : Table RolePermissionEntity} {roleId : Int} {permissionList : PermissionList}

/-- No two rows have the same role and permission. -/
def PairsOnce (t : Table RolePermissionEntity) : Prop :=
  ∀ p ∈ t.rows, ∀ q ∈ t.rows, p.2 = q.2 → p = q

instance : Decidable (PairsOnce t) :=
  inferInstanceAs (Decidable (∀ p ∈ t.rows, ∀ q ∈ t.rows, p.2 = q.2 → p = q))

/-- The second table gives the role exactly the permissions of the set, each in one row. The rows
of the role that the set names stay as they are, and so do those of the other roles. -/
structure Sets (t t' : Table RolePermissionEntity) (roleId : Int)
    (permissionList : PermissionList) : Prop where
  mem_iff : ∀ pid, (∃ id, (id, { roleId, permissionId := pid }) ∈ t'.rows) ↔ pid ∈ permissionList
  once : PairsOnce t'
  kept : ∀ p ∈ t.rows, p.2.roleId = roleId → p.2.permissionId ∈ permissionList → p ∈ t'.rows
  others : ∀ p, p.2.roleId ≠ roleId → (p ∈ t'.rows ↔ p ∈ t.rows)

namespace Database

variable {db : Database} (hrole : roleId < db.roles.next)

/-! ## One save -/

/-- What is added has another permission than what is there, and no two that are added have the
same. -/
theorem pairsOnce_save (hpairs : PairsOnce db.rolePermissions) (hset : permissionList.Nodup)
    (hne : permissionList ≠ []) :
    PairsOnce (db.saveOrUpdatePermission roleId permissionList hrole).rolePermissions := by
  have hnew {i : ℕ} {pid : Int}
      (h : (permissionList.filter (· ∉ db.permissionsOf roleId))[i]? = some pid) (id : Int) :
      (id, { roleId, permissionId := pid }) ∉ db.rolePermissions.rows := by
    intro hold
    have hpid := List.of_mem_filter (List.mem_of_getElem? h)
    exact of_decide_eq_true hpid (mem_permissionsOf.mpr ⟨id, hold⟩)
  intro p hp q hq heq
  rcases (mem_rows_save hrole hne).mp hp with ⟨hp, -⟩ | ⟨i, pid, hi, rfl⟩
  · rcases (mem_rows_save hrole hne).mp hq with ⟨hq, -⟩ | ⟨j, pid', hj, rfl⟩
    · exact hpairs p hp q hq heq
    · obtain ⟨id, row⟩ := p
      cases heq
      exact absurd hp (hnew hj id)
  · rcases (mem_rows_save hrole hne).mp hq with ⟨hq, -⟩ | ⟨j, pid', hj, rfl⟩
    · obtain ⟨id, row⟩ := q
      cases heq
      exact absurd hq (hnew hi id)
    · cases heq
      have hlt := (List.getElem?_eq_some_iff.mp hi).1
      rw [(List.getElem?_inj hlt (hset.filter _)).mp (hi.trans hj.symm)]

theorem sets_save (hpairs : PairsOnce db.rolePermissions) (hset : permissionList.Nodup)
    (hne : permissionList ≠ []) :
    Sets db.rolePermissions (db.saveOrUpdatePermission roleId permissionList hrole).rolePermissions
      roleId permissionList where
  mem_iff pid := by
    rw [← mem_permissionsOf]
    exact mem_permissionsOf_save hrole hne
  once := pairsOnce_save hrole hpairs hset hne
  kept p hp _ hpid := (mem_rows_save hrole hne).mpr (.inl ⟨hp, fun _ => hpid⟩)
  others p hr := mem_rows_save_of_ne hrole hr

theorem sets_save_iff (hpairs : PairsOnce db.rolePermissions) (hset : permissionList.Nodup) :
    Sets db.rolePermissions (db.saveOrUpdatePermission roleId permissionList hrole).rolePermissions
      roleId permissionList ↔ permissionList ≠ [] ∨ db.permissionsOf roleId = [] := by
  by_cases hnil : permissionList = []
  · subst hnil
    rw [saveOrUpdatePermission_nil, List.eq_nil_iff_forall_not_mem]
    constructor
    · intro h
      refine .inr fun pid hpid => ?_
      exact List.not_mem_nil ((h.mem_iff pid).mp (mem_permissionsOf.mp hpid))
    · intro h
      have hnone := h.resolve_left fun hne => hne rfl
      refine ⟨fun pid => ?_, hpairs, fun p _ _ hpid => ?_, fun p _ => Iff.rfl⟩
      · rw [← mem_permissionsOf]
        exact iff_of_false (hnone pid) List.not_mem_nil
      · cases hpid
  · exact iff_of_true (sets_save hrole hpairs hset hnil) (.inl hnil)

/-- A save of the set that the role has changes nothing. -/
theorem save_eq_self (h : ∀ pid, pid ∈ db.permissionsOf roleId ↔ pid ∈ permissionList) :
    db.saveOrUpdatePermission roleId permissionList hrole = db := by
  by_cases hnil : permissionList = []
  · subst hnil
    exact saveOrUpdatePermission_nil hrole
  · have hadd : permissionList.filter (· ∉ db.permissionsOf roleId) = [] := by
      rw [List.filter_eq_nil_iff]
      exact fun pid hpid hnew => of_decide_eq_true hnew ((h pid).mpr hpid)
    have hdelete : (db.rolePermissions.rows.filter fun p => p.2.roleId = roleId).filter
        (·.2.permissionId ∉ permissionList) = [] := by
      rw [List.filter_eq_nil_iff]
      intro p hp hdropped
      exact of_decide_eq_true hdropped ((h _).mp (List.mem_map_of_mem hp))
    unfold permissionsOf at hadd
    simp only [saveOrUpdatePermission, if_neg hnil, hadd, hdelete, List.map_nil,
      Table.insertAll_nil, Table.deleteAll_nil]

/-- Saving a set twice is saving it once. -/
theorem save_save (hrole' : roleId < (db.saveOrUpdatePermission roleId permissionList hrole).roles.next) :
    (db.saveOrUpdatePermission roleId permissionList hrole).saveOrUpdatePermission roleId
        permissionList hrole' =
      db.saveOrUpdatePermission roleId permissionList hrole := by
  by_cases hnil : permissionList = []
  · subst hnil
    exact saveOrUpdatePermission_nil hrole'
  · exact save_eq_self hrole' fun pid => mem_permissionsOf_save hrole hnil

/-! ## Two updates -/

/-- The check of the group reads neither the name of a role nor its description. -/
theorem checkRoleGroup_putRole {userId : Option JLong} {role roleEntity : RoleEntity}
    {name description : String} (hfind : db.roles.findById roleId = some role) :
    (db.putRole roleId { role with name, description }).checkRoleGroup userId roleEntity =
      db.checkRoleGroup userId roleEntity := by
  have huserRole : (db.putRole roleId { role with name, description }).userRole = db.userRole := rfl
  unfold checkRoleGroup findByUserId
  rw [huserRole]
  cases db.userRole userId with
  | none => rfl
  | some id =>
    rw [Option.bind_some, Option.bind_some]
    by_cases hid : id = roleId
    · subst hid
      rw [hfind, putRole, Table.findById_put hfind]
      rfl
    · rw [putRole, Table.findById_put_of_ne hid]

@[simp] theorem checkRoleGroup_saveOrUpdatePermission {userId : Option JLong}
    {roleEntity : RoleEntity} :
    (db.saveOrUpdatePermission roleId permissionList hrole).checkRoleGroup userId roleEntity =
      db.checkRoleGroup userId roleEntity := by
  unfold saveOrUpdatePermission
  split <;> rfl

theorem putRole_eq_self {role : RoleEntity} (hfind : db.roles.findById roleId = some role) :
    db.putRole roleId role = db := by
  simp only [putRole, Table.put_eq_self hfind]

theorem saveOrUpdatePermission_congr {db' : Database} (h : db' = db)
    (hrole' : roleId < db'.roles.next) :
    db'.saveOrUpdatePermission roleId permissionList hrole' =
      db.saveOrUpdatePermission roleId permissionList hrole := by
  subst h
  rfl

end Database

namespace RoleStore

open Database

variable {s : RoleStore} {userId : Option JLong} {dto : RoleUpdateDTO} {id : Int} {role : RoleEntity}

/-- What an update makes of the role. -/
def updated (dto : RoleUpdateDTO) (role : RoleEntity) : RoleEntity :=
  { role with name := dto.name, description := dto.description }

theorem lt_next_putRole (h : s.db.checkUpdate userId dto = .ok (id, role)) :
    id < (s.db.putRole id (updated dto role)).roles.next :=
  s.db.roles.fresh _ (checkUpdate_ok h).2.1

/-- The tables after an update that goes through. -/
def saved (h : s.db.checkUpdate userId dto = .ok (id, role)) : Database :=
  (s.db.putRole id (updated dto role)).saveOrUpdatePermission id dto.permissionList
    (lt_next_putRole h)

theorem update_of_ok (h : s.db.checkUpdate userId dto = .ok (id, role)) :
    s.update userId dto = (cacheRoleScopes { s with db := saved h } id, .ok true) := by
  unfold update
  split
  · rename_i hcheck
    cases h.symm.trans hcheck
  · rename_i hcheck
    cases h.symm.trans hcheck
    rfl

theorem exists_checkUpdate (h : (s.update userId dto).2 = .ok true) :
    ∃ id role, s.db.checkUpdate userId dto = .ok (id, role) := by
  unfold update at h
  split at h
  · cases h
  · rename_i id role hcheck
    exact ⟨id, role, hcheck⟩

theorem cacheRoleScopes_cacheRoleScopes :
    (s.cacheRoleScopes id).cacheRoleScopes id = s.cacheRoleScopes id := by
  simp only [cacheRoleScopes, Function.update_idem]

/-- The role as it is after an update passes the check of the same update. -/
theorem checkUpdate_saved (h : s.db.checkUpdate userId dto = .ok (id, role)) :
    (saved h).checkUpdate userId dto = .ok (id, updated dto role) := by
  obtain ⟨hid, hmem, hgroup⟩ := checkUpdate_ok h
  have hfind := Table.findById_eq_some.mpr hmem
  have hfind' : (s.db.putRole id (updated dto role)).roles.findById id = some (updated dto role) :=
    Table.findById_put hfind
  have hgroup' : (s.db.putRole id (updated dto role)).checkRoleGroup userId (updated dto role) =
      .ok () := (checkRoleGroup_putRole hfind).trans hgroup
  have hname : (updated dto role).name = dto.name := rfl
  simp only [checkUpdate, saved, hid, roles_saveOrUpdatePermission, hfind', hname, ne_eq,
    not_true_eq_false, false_and, if_false, checkRoleGroup_saveOrUpdatePermission, hgroup']

theorem saved_saved (h : s.db.checkUpdate userId dto = .ok (id, role)) {role' : RoleEntity}
    (h' : (saved h).checkUpdate userId dto = .ok (id, role')) (hrole' : updated dto role' = role') :
    @saved { s with db := saved h } userId dto id role' h' = saved h := by
  have hput : (saved h).putRole id (updated dto role') = saved h := by
    rw [hrole']
    exact putRole_eq_self (Table.findById_eq_some.mpr (checkUpdate_ok h').2.1)
  have hlt := (saved h).roles.fresh _ (checkUpdate_ok h').2.1
  exact (saveOrUpdatePermission_congr hlt hput _).trans (save_save _ hlt)

/-- An update that went through goes through again and changes nothing. -/
theorem update_update (h : (s.update userId dto).2 = .ok true) :
    (s.update userId dto).1.update userId dto = ((s.update userId dto).1, .ok true) := by
  obtain ⟨id, role, hcheck⟩ := exists_checkUpdate h
  rw [update_of_ok hcheck]
  have hcheck' : (cacheRoleScopes { s with db := saved hcheck } id).db.checkUpdate userId dto =
    .ok (id, updated dto role) := checkUpdate_saved hcheck
  have hsaved : saved hcheck' = saved hcheck := saved_saved hcheck (checkUpdate_saved hcheck) rfl
  refine (update_of_ok hcheck').trans ?_
  rw [hsaved]
  have hcached := @cacheRoleScopes_cacheRoleScopes { s with db := saved hcheck } id
  exact congrArg (·, Except.ok true) hcached

/-! ## Accepted calls -/

theorem sets_create {dto : RoleCreateDTO} (hpairs : PairsOnce s.db.rolePermissions)
    (hset : dto.permissionList.Nodup) (h : (s.create userId dto).2 = .ok true) :
    Sets s.db.rolePermissions (s.create userId dto).1.db.rolePermissions s.db.roles.next
      dto.permissionList := by
  unfold create at h ⊢
  split
  · rename_i e he
    rw [he] at h
    cases h
  · rename_i kind hkind
    have hrows : (s.db.saveNew dto kind).rolePermissions = s.db.rolePermissions := by
      cases kind <;> rfl
    have hnone : (s.db.saveNew dto kind).permissionsOf s.db.roles.next = [] := by
      rw [permissionsOf_saveNew, List.eq_nil_iff_forall_not_mem]
      exact fun pid => permissionsOf_of_next_le (Int.le_refl _)
    rw [← hrows] at hpairs ⊢
    exact (sets_save_iff (s.db.next_lt_saveNew dto kind) hpairs hset).mpr (.inr hnone)

/-- An update to the permissions that the role has leaves all rows as they are. -/
theorem update_of_exact (hid : dto.id = some id)
    (hexact : ∀ pid, pid ∈ s.db.permissionsOf id ↔ pid ∈ dto.permissionList) :
    (s.update userId dto).1.db.rolePermissions = s.db.rolePermissions := by
  unfold update
  split
  · rfl
  · rename_i id' role hcheck
    cases (checkUpdate_ok hcheck).1.symm.trans hid
    have hsaved := save_eq_self (lt_next_putRole hcheck) hexact
    have hrows := congrArg Database.rolePermissions hsaved
    exact hrows

/-- A created role has exactly the permissions of the set, and so has an updated one exactly if the
set is not empty or the role had no permissions. The same update again changes nothing. -/
theorem sets_iff (s : RoleStore) (hpairs : PairsOnce s.db.rolePermissions) (userId : Option JLong) :
    (∀ dto : RoleCreateDTO, dto.permissionList.Nodup → (s.create userId dto).2 = .ok true →
      let created := (s.create userId dto).1
      Sets s.db.rolePermissions created.db.rolePermissions s.db.roles.next dto.permissionList ∧
      ∀ userId' dto', dto'.id = some s.db.roles.next → dto'.permissionList = dto.permissionList →
        (created.update userId' dto').1.db.rolePermissions = created.db.rolePermissions) ∧
    ∀ dto id, dto.id = some id → dto.permissionList.Nodup → (s.update userId dto).2 = .ok true →
      let updated := (s.update userId dto).1
      ((Sets s.db.rolePermissions updated.db.rolePermissions id dto.permissionList ∧
          updated.update userId dto = (updated, .ok true)) ↔
        dto.permissionList ≠ [] ∨ s.db.permissionsOf id = []) := by
  constructor
  · intro dto hset h
    have hsets := sets_create hpairs hset h
    refine ⟨hsets, fun userId' dto' hid hpermissions => update_of_exact hid fun pid => ?_⟩
    rw [hpermissions, ← hsets.mem_iff, mem_permissionsOf]
  · intro dto id hid hset h
    refine (and_iff_left (update_update h)).trans ?_
    obtain ⟨id', role, hcheck⟩ := exists_checkUpdate h
    cases (checkUpdate_ok hcheck).1.symm.trans hid
    rw [update_of_ok hcheck]
    exact sets_save_iff (lt_next_putRole hcheck) hpairs hset

/-- The manager gives itself the other permission, and a new member of its group both. -/
theorem sets_iff_oneGroup :
    let created := (oneGroup.create (some 7) ⟨"r", "d", [1, 2], some false⟩).1
    let updated := (oneGroup.update (some 7) ⟨some 1, "m", "d", [2]⟩).1
    (Sets oneGroup.db.rolePermissions created.db.rolePermissions 2 [1, 2] ∧
      ∀ userId' dto', dto'.id = some 2 → dto'.permissionList = [1, 2] →
        (created.update userId' dto').1.db.rolePermissions = created.db.rolePermissions) ∧
    ((Sets oneGroup.db.rolePermissions updated.db.rolePermissions 1 [2] ∧
        updated.update (some 7) ⟨some 1, "m", "d", [2]⟩ = (updated, .ok true)) ↔
      ([2] : List Int) ≠ [] ∨ oneGroup.db.permissionsOf 1 = []) := by
  have hpairs : PairsOnce oneGroup.db.rolePermissions := by decide
  exact ⟨(sets_iff oneGroup hpairs (some 7)).1 ⟨"r", "d", [1, 2], some false⟩ (by decide) (by decide),
    (sets_iff oneGroup hpairs (some 7)).2 ⟨some 1, "m", "d", [2]⟩ 1 rfl (by decide) (by decide)⟩

/-- A role whose permissions are all taken away keeps them. -/
theorem not_sets_update : ¬ ∀ s : RoleStore, PairsOnce s.db.rolePermissions →
    ∀ (userId : Option JLong) (dto : RoleUpdateDTO) (id : Int), dto.id = some id →
      dto.permissionList.Nodup → (s.update userId dto).2 = .ok true →
      Sets s.db.rolePermissions (s.update userId dto).1.db.rolePermissions id dto.permissionList := by
  intro h
  have hsets := h oneGroup (by decide) (some 7) ⟨some 1, "m", "d", []⟩ 1 rfl List.nodup_nil (by decide)
  have hkept : (1, ⟨1, 1⟩) ∈
      (oneGroup.update (some 7) ⟨some 1, "m", "d", []⟩).1.db.rolePermissions.rows := by decide
  exact List.not_mem_nil ((hsets.mem_iff 1).mp ⟨1, hkept⟩)

end RoleStore

end BigPlan.Auth

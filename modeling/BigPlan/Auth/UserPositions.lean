import BigPlan.Auth.OrgTree
import BigPlan.Auth.RoleService

/-!
# Users in their positions

`UserServiceImpl` of the auth center where it reads and writes the positions of users: who is
whose superior, the role that a superior sets, and the owners of a new user. The user server, the
password encoder and the JSON parser are parameters. A call that throws leaves the store as it
was, which the transaction sees to.
-/
namespace BigPlan.Auth

open Lib (Table)
open User (UserVO POSITION_ID SUPERIOR_ID VEA)

structure UserPositionEntity where
  userId : Int
  positionId : Option Int
  superiorId : Option Int
  deriving DecidableEq, Repr

structure UserClientRelationEntity where
  userId : Int
  clientId : Int
  deriving DecidableEq, Repr

structure UserStore where
  db : Database
  positions : Table PositionEntity
  userPositions : Table UserPositionEntity
  userClientRelations : Table UserClientRelationEntity
  /-- The row id of the client with the given name. -/
  findByClientId : Option String → Option Int

def UserStore.empty : UserStore where
  db :=
    { roles := .empty
      rolePermissions := .empty
      permissions := .empty
      resources := .empty
      resourceServers := .empty
      userRole := fun _ => none
      existsClient := fun _ => false
      role_allocated := by simp [Table.empty]
      resource_allocated := by simp [Table.empty] }
  positions := .empty
  userPositions := .empty
  userClientRelations := .empty
  findByClientId := fun _ => none

structure JsonResult (α : Type) where
  code : Int := 0
  data : Option α

def JsonResult.requestSuccess {α : Type} (result : JsonResult α) : Bool := result.code = 0

structure SetUserRoleDTO where
  userId : Option Int
  roleId : Option Int
  deriving DecidableEq, Repr

structure SaveUserRelationVO where
  type : Int
  ownerIdList : List Int
  userId : Option Int
  deriving DecidableEq, Repr

/-- What the map of a `CustomerInfo` may have under the key of the position. -/
inductive CustomId where
  | long (id : Int)
  | other
  deriving DecidableEq, Repr

/-- What is read of the access card of the caller; without `customerInfo` there is no map. -/
structure Caller where
  userId : Option Int
  clientId : Option String := none
  customerInfo : Option (Option CustomId)
  deriving DecidableEq, Repr

def Caller.checkClientId (caller : Caller) : String :=
  if Lib.Java.isBlank caller.clientId then VEA else caller.clientId.getD ""

/-- The roles of users are kept by machine words. -/
def toLong (id : Option Int) : Option Lib.Java.JLong := id.map (BitVec.ofInt 64)

namespace UserServiceImpl

open Lib.Java

abbrev UserPositionRow := Int × UserPositionEntity

/-- No row has `null` for its user. -/
def findAllByUserId (t : Table UserPositionEntity) (userId : Option Int) : List UserPositionRow :=
  t.rows.filter fun p => some p.2.userId = userId

theorem mem_findAllByUserId {t : Table UserPositionEntity} {userId : Option Int}
    {p : UserPositionRow} : p ∈ findAllByUserId t userId ↔ p ∈ t.rows ∧ some p.2.userId = userId := by
  simp [findAllByUserId]

/-- A row of the first user names the second one as its superior. -/
def Superior (t : Table UserPositionEntity) (u v : Int) : Prop :=
  ∃ p ∈ t.rows, p.2.userId = u ∧ p.2.superiorId = some v

/-- The rows of a user whose positions belong to the company. -/
def findAllByUserIdAndCompanyId (s : UserStore) (userId : Option Int) (companyId : Int) :
    List UserPositionRow :=
  (findAllByUserId s.userPositions userId).filter fun p =>
    ((p.2.positionId.bind s.positions.findById).map (·.companyId)) = some companyId

/-- The loop over the rows returns in its first round. -/
def checkSubordinate (t : Table UserPositionEntity) (myUserId : Int) :
    ℕ → List UserPositionRow → Except Thrown Bool
  | 0, _ => .error .stackOverflow
  | depth + 1, userPositionEntities =>
    if myUserId = 0 then .ok true
    else
      match userPositionEntities with
      | [] => .ok false
      | p :: _ =>
        if p.2.superiorId = some myUserId then .ok true
        else checkSubordinate t myUserId depth (findAllByUserId t p.2.superiorId)

/-! ## Roles -/

def existsByIdAndGroupIdAndIsManager (db : Database) (id : Option Int) (groupId : Int)
    (isManager : Bool) : Bool :=
  db.roles.rows.any fun p =>
    some p.1 = id ∧ p.2.groupId = some groupId ∧ p.2.isManager = some isManager

/-- In a group, only the manager sets roles, and only those of the group's members. -/
def checkRoleGroup (db : Database) (userId roleId : Option Int) : Except Thrown Unit :=
  match db.findByUserId (toLong userId) with
  | none => .ok ()
  | some (_, role) =>
    match role.groupId with
    | none => .ok ()
    | some groupId =>
      match role.isManager with
      | none => .error .nullPointer
      | some isManager =>
        if ¬ isManager then .error (.business .ROLE_PERMISSION_DENY)
        else if ¬ existsByIdAndGroupIdAndIsManager db roleId groupId false then
          .error (.business .ROLE_PERMISSION_DENY)
        else .ok ()

/-- A caller with a position sets the roles of subordinates in its company only. -/
def checkPosition (s : UserStore) (depth : ℕ) (caller : Caller) (userId : Option Int) :
    Option CustomId → Except Thrown Unit
  | none => .ok ()
  | some .other => .error .classCast
  | some (.long positionId) =>
    match s.positions.findById positionId with
    | none => .ok ()
    | some positionEntity =>
      match caller.userId with
      | none => .error .nullPointer
      | some myUserId => do
        let isSubordinate ← checkSubordinate s.userPositions myUserId depth
          (findAllByUserIdAndCompanyId s userId positionEntity.companyId)
        if isSubordinate then .ok () else .error (.business .POSITION_PERMISSION_DENY)

/-- The row of the user's role gets the role; without one it is added. -/
def saveUserRole (s : UserStore) (userId : Option Int) (roleId : Int) : UserStore :=
  { s with db.userRole := Function.update s.db.userRole (toLong userId) (some roleId) }

/-- Any use of a reference. -/
def nonNull {α : Type} : Option α → Except Thrown α
  | some a => .ok a
  | none => .error .nullPointer

/-- A failure of the user server and a missing role make it answer `false`. -/
def assignRole (userIsExisted : Option Int → JsonResult Bool) (dto : SetUserRoleDTO)
    (s : UserStore) : Except Thrown (UserStore × Bool) :=
  let result := userIsExisted dto.userId
  if ¬ result.requestSuccess then .ok (s, false)
  else
    match result.data, dto.roleId with
    | none, _ => .error .nullPointer
    | some false, _ => .error (.business .USER_NOT_FOUND)
    | some true, none => .error .illegalArgument
    | some true, some roleId =>
      if (s.db.roles.findById roleId).isNone then .ok (s, false)
      else .ok (saveUserRole s dto.userId roleId, true)

def setUserRole (userIsExisted : Option Int → JsonResult Bool) (depth : ℕ) (caller : Caller)
    (dto : SetUserRoleDTO) (checksPosition : Bool) (s : UserStore) :
    Except Thrown (UserStore × Bool) := do
  checkRoleGroup s.db caller.userId dto.roleId
  let positionId ← nonNull caller.customerInfo
  checkPosition s depth caller dto.userId (if checksPosition then positionId else none)
  assignRole userIsExisted dto s

/-! ## New users -/

/-- The rows are looked up by the ids of superiors, who are users. -/
def deepSearchOwnerId (t : Table UserPositionEntity) :
    ℕ → List Int → Option Int → Except Thrown (List Int)
  | 0, _, _ => .error .stackOverflow
  | _ + 1, ownerIdList, none => .ok ownerIdList
  | depth + 1, ownerIdList, some superiorId =>
    match t.findById superiorId with
    | none => .ok (ownerIdList ++ [superiorId])
    | some entity => deepSearchOwnerId t depth (ownerIdList ++ [superiorId]) entity.superiorId

/-- A `JSONObject`: the keys, and the value of a key as a `Long`. -/
structure JSONObject where
  containsKey : String → Bool
  getLong : String → Except Thrown (Option Int)

/-- What the call rests on outside of the server. -/
structure Outside where
  encode : Option String → Except Thrown String
  parseObject : String → Except Thrown JSONObject
  createUser : UserVO → JsonResult UserVO
  userIsExisted : Option Int → JsonResult Bool

/-- The store after the call, which answers `true`, and what the user server is told to save. -/
structure Created where
  store : UserStore
  saveUserRelation : List SaveUserRelationVO := []

/-- The id of a new user in a column that is never `null`. -/
def newUserId (result : JsonResult UserVO) : Except Thrown Int := do
  let created ← nonNull result.data
  match created.id with
  | none => .error .dataIntegrityViolation
  | some userId => .ok userId

def setNewRole (outside : Outside) (depth : ℕ) (caller : Caller) (vo : UserVO)
    (result : JsonResult UserVO) (s : UserStore) : Except Thrown UserStore :=
  match vo.roleId with
  | none => .ok s
  | some roleId => do
    let created ← nonNull result.data
    let (s, _) ← setUserRole outside.userIsExisted depth caller ⟨created.id, some roleId⟩ false s
    return s

def bindClient (vo : UserVO) (result : JsonResult UserVO) (s : UserStore) :
    Except Thrown UserStore :=
  if vo.client = some VEA then .ok s
  else
    match s.findByClientId vo.client with
    | none => .error (.business .CLIENT_ERROR)
    | some clientId => do
      let userId ← newUserId result
      return { s with userClientRelations := s.userClientRelations.insert { userId, clientId } }

def savePosition (positionId superiorId : Option Int) (result : JsonResult UserVO)
    (s : UserStore) : Except Thrown UserStore :=
  match positionId with
  | none => .ok s
  | some _ => do
    let userId ← newUserId result
    return { s with userPositions := s.userPositions.insert { userId, positionId, superiorId } }

/-- The owners are looked up after the row of the new user is saved. -/
def saveOwners (depth : ℕ) (superiorId : Option Int) (result : JsonResult UserVO)
    (s : UserStore) : Except Thrown Created :=
  match superiorId with
  | none => .ok { store := s }
  | some superiorId => do
    let ownerIdList ← deepSearchOwnerId s.userPositions depth [] (some superiorId)
    let created ← nonNull result.data
    return { store := s, saveUserRelation := [{ type := 0, ownerIdList, userId := created.id }] }

def saveCustomizeInfo (outside : Outside) (depth : ℕ) (vo : UserVO) (result : JsonResult UserVO)
    (s : UserStore) : Except Thrown Created :=
  if isBlank vo.customizeInfo then .ok { store := s }
  else do
    let customerInfo ← outside.parseObject (vo.customizeInfo.getD "")
    if customerInfo.containsKey POSITION_ID || customerInfo.containsKey SUPERIOR_ID then do
      let positionId ← customerInfo.getLong POSITION_ID
      let superiorId ← customerInfo.getLong SUPERIOR_ID
      let s ← savePosition positionId superiorId result s
      saveOwners depth superiorId result s
    else return { store := s }

/-- An unsuccessful creation of the user is not reported. -/
def create (outside : Outside) (depth : ℕ) (caller : Caller) (vo : UserVO) (s : UserStore) :
    Except Thrown Created := do
  let password ← outside.encode vo.password
  let vo : UserVO := { vo with client := some caller.checkClientId, password := some password }
  let result := outside.createUser vo
  if ¬ result.requestSuccess then return { store := s }
  else do
    let s ← setNewRole outside depth caller vo result s
    let s ← bindClient vo result s
    saveCustomizeInfo outside depth vo result s

end UserServiceImpl

end BigPlan.Auth

import BigPlan.Auth.AccessCard
import BigPlan.Lib.Table

/-!
# The users and their lookups

`UserServiceImpl` over the rows of `tb_user`, `tb_user_customize_info` and `tb_user_relation`.
Deletion leaves the row and sets its flag, and each lookup has a condition of its own on the
flag.
-/
namespace BigPlan.User

open Auth (AccessCard)
open Lib (Table)
open Lib.Java

def VEA : String := "vea-admin"
def POSITION_ID : String := "positionId"
def SUPERIOR_ID : String := "superiorId"

inductive UserError where
  | USERNAME_EXISTED
  | USER_NOT_FOUND
  deriving DecidableEq, Repr

namespace UserError

def code : UserError → Nat
  | USERNAME_EXISTED => 20001
  | USER_NOT_FOUND => 20002

def error : UserError → String
  | USERNAME_EXISTED => "username existed"
  | USER_NOT_FOUND => "user not found"

end UserError

inductive Thrown where
  /-- The exception of `ThrowUtils.throwIfTrue`. -/
  | business (e : UserError)
  | nullPointer
  | illegalArgument
  /-- Two values under one key of `Collectors.toMap`. -/
  | illegalState
  | dataIntegrityViolation
  | incorrectResultSize
  /-- A sort that the query does not take. -/
  | invalidSort
  deriving DecidableEq, Repr

/-! ## Rows and requests -/

structure UserEntity where
  username : String
  password : String
  isDelete : Option Bool
  deriving DecidableEq, Repr

structure UserCustomizeInfoEntity where
  userId : Int
  clientId : String
  info : Option String
  deriving DecidableEq, Repr

structure UserRelationEntity where
  ownerId : Int
  userId : Int
  deriving DecidableEq, Repr

structure Database where
  users : Table UserEntity
  infos : Table UserCustomizeInfoEntity
  relations : Table UserRelationEntity

/-- `none` stands for `null` in every field. -/
structure UserVO where
  id : Option Int := none
  username : Option String := none
  password : Option String := none
  client : Option String := none
  customizeInfo : Option String := none
  roleId : Option Int := none
  isDelete : Option Bool := none
  deriving DecidableEq, Repr

structure IPageRequest where
  page : Option JInt := some 1
  number : Option JInt := some 10
  sort : Option String := none
  asc : Option Bool := some false
  customParams : Option UserVO := none
  deriving DecidableEq, Repr

structure PageResult where
  total : Nat
  items : List UserVO
  deriving DecidableEq, Repr

/-- A `PageRequest`; the sort is the property and whether it is ascending. -/
structure Pageable where
  page : Nat
  size : Nat
  sort : Option (String × Bool)
  deriving DecidableEq, Repr

abbrev UserRow := Int × UserEntity

/-- A `Page<UserEntity>`. -/
structure Page where
  totalElements : Nat
  content : List UserRow

def PageRequest.of (page size : JInt) (sort : Option (String × Bool)) : Except Thrown Pageable :=
  if page.toInt < 0 ∨ size.toInt < 1 then .error .illegalArgument
  else .ok ⟨page.toNat, size.toNat, sort⟩

/-- `Integer.intValue`, or any other use of a reference. -/
def nonNull {α : Type} : Option α → Except Thrown α
  | some a => .ok a
  | none => .error .nullPointer

/-- Without a sort the page is taken for the size, too. -/
def PageHelper.of (pageRequest : IPageRequest) : Except Thrown Pageable := do
  let page ← nonNull pageRequest.page
  if isBlank pageRequest.sort then PageRequest.of (page - 1) page none
  else do
    let number ← nonNull pageRequest.number
    PageRequest.of (page - 1) number (some (pageRequest.sort.getD "", pageRequest.asc.getD false))

def FindUtils.allMatch (origin : String) : String := "%" ++ origin ++ "%"

/-- A position or a superior restricts a page to one's own users. -/
def isRestricted (customerInfo : Auth.CustomerInfo) : Bool :=
  customerInfo.any fun entry => entry.1 = POSITION_ID || entry.1 = SUPERIOR_ID

def checkClientId (accessCard : AccessCard) : String :=
  if isBlank accessCard.clientId then VEA else accessCard.clientId.getD ""

/-! ## The repositories -/

/-- What the database decides: which texts are like a pattern, and the order of the rows under
a sort, where native queries name columns and the others properties. -/
structure Sql where
  like : String → String → Bool
  order : Bool → Option (String × Bool) → List UserRow → Option (List UserRow)
  order_perm : ∀ {isNative sort rows ordered}, order isNative sort rows = some ordered →
    ordered.Perm rows

/-- `column <> v`, which is not true of `null`. -/
def isNot (column : Option Bool) (v : Bool) : Bool :=
  match column with
  | some b => b != v
  | none => false

def Pageable.slice {α : Type} (pageable : Pageable) (rows : List α) : List α :=
  (rows.drop (pageable.page * pageable.size)).take pageable.size

def Sql.findPage (sql : Sql) (isNative : Bool) (rows : List UserRow) (pageable : Pageable) :
    Except Thrown Page :=
  match sql.order isNative pageable.sort rows with
  | some ordered => .ok ⟨rows.length, pageable.slice ordered⟩
  | none => .error .invalidSort

/-- A query for one entity. -/
def single {α : Type} : List α → Except Thrown (Option α)
  | [] => .ok none
  | [a] => .ok (some a)
  | _ => .error .incorrectResultSize

namespace Database

variable (db : Database)

def existsByUsername (username : Option String) : Bool :=
  db.users.rows.any fun p => some p.2.username = username

def findByUsernameAndIsDeleteIsNot (username : Option String) (delete : Bool) :
    Except Thrown (Option UserRow) :=
  single (db.users.rows.filter fun p => some p.2.username = username && isNot p.2.isDelete delete)

/-- The rows of the join of the users with their relations; those without one have no owner. -/
def findAllByOwnerId (ownerId : Option JLong) : List UserRow :=
  db.users.rows.flatMap fun p =>
    (db.relations.rows.filter fun r =>
      r.2.userId = p.1 && p.2.isDelete != some true &&
        some r.2.ownerId = ownerId.map BitVec.toInt).map fun _ => p

def findAllByOwnerIdAndUsernameLike (sql : Sql) (username : String) (ownerId : Option JLong) :
    List UserRow :=
  (db.findAllByOwnerId ownerId).filter fun p => sql.like username p.2.username

def findAllByIdInAndIsDeleteIsNot (ids : List (Option Int)) (isDelete : Bool) : List UserRow :=
  db.users.rows.filter fun p => some p.1 ∈ ids && isNot p.2.isDelete isDelete

def existsByIdAndIsDelete (id : Option Int) (isDelete : Bool) : Bool :=
  db.users.rows.any fun p => some p.1 = id && p.2.isDelete = some isDelete

def findById (id : Option Int) : Except Thrown (Option UserRow) :=
  match id with
  | some id => .ok ((db.users.findById id).map fun e => (id, e))
  | none => .error .illegalArgument

def findByUserIdAndClientId (userId : Int) (clientId : String) :
    Except Thrown (Option UserCustomizeInfoEntity) :=
  single ((db.infos.rows.map Prod.snd).filter fun e => e.userId = userId && e.clientId = clientId)

def findAllByUserIdInAndClientId (userIds : List Int) (clientId : String) :
    List UserCustomizeInfoEntity :=
  (db.infos.rows.map Prod.snd).filter fun e => e.userId ∈ userIds && e.clientId = clientId

/-! ## The service -/

def create (vo : UserVO) : Database × Except Thrown UserVO :=
  if db.existsByUsername vo.username then (db, .error (.business .USERNAME_EXISTED))
  else
    match vo.username, vo.password with
    | some username, some password =>
      let id := db.users.next
      let infos :=
        if isBlank vo.client || isBlank vo.customizeInfo then db.infos
        else db.infos.insert ⟨id, vo.client.getD "", vo.customizeInfo⟩
      ({ db with users := db.users.insert ⟨username, password, some false⟩, infos },
        .ok { vo with id := some id })
    | _, _ => (db, .error .dataIntegrityViolation)

def userIsExisted (id : Option Int) : Bool := db.existsByIdAndIsDelete id false

/-- The info of the user at the client. -/
def getCustomerInfo (clientId : Option String) (userId : Int) (vo : UserVO) :
    Except Thrown UserVO := do
  let entity ← db.findByUserIdAndClientId userId
    (if isBlank clientId then VEA else clientId.getD "")
  match entity with
  | some entity => return { vo with customizeInfo := entity.info }
  | none => return vo

def findByUsername (username clientId : Option String) : Except Thrown UserVO := do
  match ← db.findByUsernameAndIsDeleteIsNot username true with
  | none => throw (.business .USER_NOT_FOUND)
  | some (id, e) =>
    db.getCustomerInfo clientId id
      { id := some id, username := some e.username, password := some e.password, client := clientId }

def delete (id : Option Int) : Database × Except Thrown Bool :=
  match id with
  | none => (db, .error .illegalArgument)
  | some id =>
    match db.users.findById id with
    | some e => ({ db with users := db.users.put id { e with isDelete := some true } }, .ok true)
    | none => (db, .ok true)

def entity2Vo (p : UserRow) : UserVO :=
  { id := some p.1, username := some p.2.username, isDelete := p.2.isDelete }

def findPage (sql : Sql) (accessCard : AccessCard) (params : Option UserVO) (pageable : Pageable) :
    Except Thrown Page := do
  let customerInfo ← nonNull accessCard.customerInfo
  if isRestricted customerInfo then do
    let params ← nonNull params
    if isBlank params.username then
      sql.findPage true (db.findAllByOwnerId accessCard.userId) pageable
    else
      sql.findPage true (db.findAllByOwnerIdAndUsernameLike sql
        (FindUtils.allMatch (params.username.getD "")) accessCard.userId) pageable
  else
    sql.findPage false (db.users.rows.filter fun p =>
      match params with
      | some params =>
        (isBlank params.username ||
          sql.like (FindUtils.allMatch (params.username.getD "")) p.2.username) &&
          isNot p.2.isDelete true
      | none => true) pageable

/-- The infos to the users of a page; the number is the capacity of the map. -/
def findInfos (accessCard : AccessCard) (iPageRequest : IPageRequest) (content : List UserRow) :
    Except Thrown (List UserCustomizeInfoEntity) := do
  let number ← nonNull iPageRequest.number
  if number.toInt < 0 then throw .illegalArgument
  match iPageRequest.customParams with
  | none => return []
  | some params =>
    if isBlank params.client then
      let infos :=
        db.findAllByUserIdInAndClientId (content.map Prod.fst) (checkClientId accessCard)
      if (infos.map UserCustomizeInfoEntity.userId).Nodup then return infos
      else throw .illegalState
    else return []

def page (sql : Sql) (accessCard : AccessCard) (iPageRequest : IPageRequest) :
    Except Thrown PageResult := do
  let pageable ← PageHelper.of iPageRequest
  let page ← db.findPage sql accessCard iPageRequest.customParams pageable
  let infos ← db.findInfos accessCard iPageRequest page.content
  return {
    total := page.totalElements
    items := page.content.map fun p =>
      match infos.find? fun e => e.userId = p.1 with
      | some e => { entity2Vo p with customizeInfo := e.info }
      | none => entity2Vo p }

def get (id : Option Int) (clientId : Option String) : Except Thrown UserVO := do
  match ← db.findById id with
  | none => throw (.business .USER_NOT_FOUND)
  | some p => db.getCustomerInfo clientId p.1 (entity2Vo p)

def findAllByIdIn (userIds : List (Option Int)) : List UserVO :=
  (db.findAllByIdInAndIsDeleteIsNot userIds false).map entity2Vo

end Database

end BigPlan.User

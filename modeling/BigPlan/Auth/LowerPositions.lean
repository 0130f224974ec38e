import BigPlan.Auth.UserPositions

/-!
# The positions below one's own

`PositionServiceImpl.findAll` lists the positions of the caller and those below them, and
`UserServiceImpl.findAllByPositionIdBetween` puts the list into a map by position. The client of
the user server is a parameter.
-/
namespace BigPlan.Auth

open Lib (Table)

structure PositionStore where
  positions : Table PositionEntity
  companies : Table CompanyEntity
  userPositions : Table UserPositionEntity

structure PositionDTO where
  id : Int
  companyId : Int
  aboveId : Option Int
  name : String
  deriving DecidableEq, Repr

abbrev PositionRow := Int × PositionEntity

namespace PositionServiceImpl

open OrgTree

def deepFindLower (t : Table PositionEntity) (lowerId : Option Int) :
    ℕ → Bool → Int → List PositionRow → Except Thrown (List PositionRow)
  | 0, _, _, _ => .error .stackOverflow
  | depth + 1, init, rootId, entities =>
    if some rootId = lowerId then .ok entities
    else
      match t.findById rootId with
      | none => .ok entities
      | some root =>
        let entities := if init then entities else entities ++ [(rootId, root)]
        (findAllByAboveId t rootId).foldlM
          (fun entities p => deepFindLower t lowerId depth false p.1 entities) entities

variable (s : PositionStore)

/-- The company of the position, with its id. -/
def companyEntity (lowerId : Option Int) : Option (Int × CompanyEntity) := do
  let id ← lowerId
  let position ← s.positions.findById id
  let company ← s.companies.findById position.companyId
  return (position.companyId, company)

/-- The positions that rows of the user name, each once. -/
def findAllByUserPosition (userId : Int) : List PositionRow :=
  let positionIds := (UserServiceImpl.findAllByUserId s.userPositions (some userId)).map
    (·.2.positionId)
  s.positions.rows.filter fun p => positionIds.contains (some p.1)

/-- A join: a position comes once for each row of the user that names it. -/
def findAllByCompanyIdAndUserPosition (companyId userId : Int) : List PositionRow :=
  (s.positions.rows.filter fun p => p.2.companyId = companyId).flatMap fun p =>
    ((UserServiceImpl.findAllByUserId s.userPositions (some userId)).filter fun q =>
      q.2.positionId = some p.1).map fun _ => p

def positionEntities (userId : Int) : Option (Int × CompanyEntity) → List PositionRow
  | none => findAllByUserPosition s userId
  | some (companyId, _) => findAllByCompanyIdAndUserPosition s companyId userId

def findAllCompaniesById (ids : List Int) : List (Int × CompanyEntity) :=
  s.companies.rows.filter fun p => p.1 ∈ ids

def toDTO (companyEntities : List (Int × CompanyEntity)) (p : PositionRow) : PositionDTO where
  id := p.1
  companyId := p.2.companyId
  aboveId := p.2.aboveId
  name :=
    match companyEntities.lookup p.2.companyId with
    | none => p.2.name
    | some company => company.name ++ (":" ++ p.2.name)

/-- What is listed to the user 0: all positions of the client's companies, or of one company. -/
def findAllOfCompanies (accessCard : AccessCard) (company : Option (Int × CompanyEntity)) :
    List PositionDTO :=
  let companyEntities :=
    match company with
    | none => CompanyServiceImpl.findAllByClientId s.companies (User.checkClientId accessCard)
    | some company => [company]
  let all := s.positions.rows.filter fun p => p.2.companyId ∈ companyEntities.map Prod.fst
  all.map (toDTO companyEntities)

def findAllOfUser (depth : ℕ) (userId : Int) (includingSelf : Bool) (lowerId : Option Int) :
    Except Thrown (List PositionDTO) := do
  let company := companyEntity s lowerId
  let own := positionEntities s userId company
  let companyEntities :=
    match company with
    | none => findAllCompaniesById s (own.map (·.2.companyId))
    | some company => [company]
  let result := if includingSelf then own else []
  let result ← own.foldlM
    (fun result p => deepFindLower s.positions lowerId depth true p.1 result) result
  return result.map (toDTO companyEntities)

def findAll (depth : ℕ) (accessCard : AccessCard) (includingSelf : Bool) (lowerId : Option Int) :
    Except Thrown (List PositionDTO) :=
  match accessCard.userId with
  | none => .error .nullPointer
  | some userId =>
    if userId = 0 then .ok (findAllOfCompanies s accessCard (companyEntity s lowerId))
    else findAllOfUser s depth userId.toInt includingSelf lowerId

end PositionServiceImpl

namespace UserServiceImpl

open User (UserVO)

/-- `Collectors.toMap`. -/
def toMap {κ ν : Type} [DecidableEq κ] (entries : List (κ × ν)) : Except Thrown (List (κ × ν)) :=
  if (entries.map Prod.fst).Nodup then .ok entries else .error .illegalState

def positionIdMap (all : List PositionDTO) : Except Thrown (List (Int × String)) :=
  toMap (all.map fun p => (p.id, p.name))

/-- The user with the name of its position in front. -/
def withPositionName (positionIdMap : List (Int × String))
    (userIdPositionIdMap : List (Int × Option Int)) (user : UserVO) : Except Thrown UserVO := do
  let positionId ← nonNull (user.id.bind fun id => userIdPositionIdMap.lookup id)
  let positionName ← nonNull (positionId.bind fun id => positionIdMap.lookup id)
  let username ← nonNull user.username
  return { user with username := some (positionName ++ (":" ++ username)) }

def findAllByPositionIdBetween (findAllByIdIn : List Int → JsonResult (List UserVO)) (depth : ℕ)
    (s : PositionStore) (accessCard : AccessCard) (lowPositionId : Option Int) :
    Except Thrown (List UserVO) := do
  let all ← PositionServiceImpl.findAll s depth accessCard true lowPositionId
  let positionIdMap ← positionIdMap all
  let userPositionEntities := s.userPositions.rows.filter fun p =>
    (all.map fun dto => some dto.id).contains p.2.positionId
  let userIdPositionIdMap ← toMap (userPositionEntities.map fun p => (p.2.userId, p.2.positionId))
  let listUserResult := findAllByIdIn (userIdPositionIdMap.map Prod.fst)
  if ¬ listUserResult.requestSuccess then return []
  else do
    let users ← nonNull listUserResult.data
    users.mapM (withPositionName positionIdMap userIdPositionIdMap)

end UserServiceImpl

end BigPlan.Auth

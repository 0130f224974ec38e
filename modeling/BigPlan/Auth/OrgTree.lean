import BigPlan.Lib.Decimal
import BigPlan.Lib.Forest
import BigPlan.Lib.Recursion
import BigPlan.User.UserService

/-!
# The trees of positions and of companies

`PositionServiceImpl` and `CompanyServiceImpl` keep rows that name the row above them, and
delete, show and rewrite the trees of such rows in the same way. What they share is defined once,
over the fields that it reads and writes, and each service applies it to its own rows.
-/
namespace BigPlan.Auth

open Lib (Table)
open Lib.Decimal Lib.Forest

structure PositionEntity where
  name : String
  aboveId : Option Int
  companyId : Int
  deriving DecidableEq, Repr

structure CompanyEntity where
  name : String
  aboveId : Option Int
  clientId : String
  deriving DecidableEq, Repr

/-- A row of a tree. -/
class Linked (ε : Type) where
  name : ε → String
  aboveId : ε → Option Int
  setAboveId : Int → ε → ε
  aboveId_setAboveId (a : Int) (e : ε) : aboveId (setAboveId a e) = some a

attribute [simp] Linked.aboveId_setAboveId

instance : Linked PositionEntity where
  name := PositionEntity.name
  aboveId := PositionEntity.aboveId
  setAboveId a e := { e with aboveId := some a }
  aboveId_setAboveId _ _ := rfl

instance : Linked CompanyEntity where
  name := CompanyEntity.name
  aboveId := CompanyEntity.aboveId
  setAboveId a e := { e with aboveId := some a }
  aboveId_setAboveId _ _ := rfl

/-- What an `ElmUiTreeNode` has beside its children; only companies are given as data. -/
structure NodeFields where
  id : Option String
  label : Option String := none
  data : Option (Int × CompanyEntity) := none
  deriving DecidableEq, Repr

/-- `null` and the empty list of children are treated alike. -/
abbrev ElmUiTreeNode := RoseTree NodeFields

/-- A result takes effect when the transaction commits; after an exception nothing has. -/
def transactional {σ : Type} (s : σ) : Except Thrown σ → σ × Except Thrown Bool
  | .error e => (s, .error e)
  | .ok s' => (s', .ok true)

namespace OrgTree

open Linked

variable {ε : Type} [Linked ε]

/-- The rows that have the given id above them. -/
def kidsOf (rows : List (Int × ε)) (id : Int) : List (Int × ε) :=
  rows.filter fun p => aboveId p.2 = some id

def findAllByAboveId (t : Table ε) (id : Int) : List (Int × ε) := kidsOf t.rows id

def deleteById (t : Table ε) (id : Int) : Except Thrown (Table ε) :=
  if (t.findById id).isSome then .ok (t.deleteAll [id]) else .error .emptyResultDataAccess

def delete : ℕ → Int → Table ε → Except Thrown (Table ε)
  | 0, _, _ => .error .stackOverflow
  | depth + 1, id, t => do
    let t ← deleteById t id
    (findAllByAboveId t id).foldlM (fun t p => delete depth p.1 t) t

def deepScanPosition (data : Int × ε → Option (Int × CompanyEntity)) (all : List (Int × ε)) :
    ℕ → Int × ε → Except Thrown ElmUiTreeNode
  | 0, _ => .error .stackOverflow
  | depth + 1, p => do
    let children ← (kidsOf all p.1).mapM (deepScanPosition data all depth)
    return .node ⟨some p.1.repr, some (name p.2), data p⟩ children

/-- The rows are grouped by the id above, which throws where there is none. -/
def findTree (label : String) (data : Int × ε → Option (Int × CompanyEntity))
    (all : List (Int × ε)) (depth : ℕ) : Except Thrown (List ElmUiTreeNode) :=
  if all.any fun p => (aboveId p.2).isNone then .error .nullPointer
  else do
    let list ← (kidsOf all 0).mapM (deepScanPosition data all depth)
    return [.node { id := some "0", label := some label } list]

mutual

def deepScanUpdate (aboveId : Int) : List ElmUiTreeNode → Table ε → Table ε × Except Thrown Unit
  | [], t => (t, .ok ())
  | node :: list, t =>
    match scanNode aboveId node t with
    | (t, .error e) => (t, .error e)
    | (t, .ok ()) => deepScanUpdate aboveId list t

/-- One round of the loop. -/
def scanNode (aboveId : Int) : ElmUiTreeNode → Table ε → Table ε × Except Thrown Unit
  | .node node children, t =>
    match parseLong node.id with
    | none => (t, .error .numberFormat)
    | some id =>
      match t.findById id with
      | none => (t, .ok ())
      | some entity => deepScanUpdate id children (t.put id (setAboveId aboveId entity))

end

/-- A root that has nothing above it stays so. -/
def updateAll : List ElmUiTreeNode → Table ε → Table ε × Except Thrown Unit
  | [], t => (t, .ok ())
  | .node node children :: nodes, t =>
    match parseLong node.id with
    | none => (t, .error .numberFormat)
    | some id =>
      match t.findById id with
      | none => updateAll nodes t
      | some entity =>
        let t := if (aboveId entity).isSome then t.put id (setAboveId 0 entity) else t
        match deepScanUpdate id children t with
        | (t, .error e) => (t, .error e)
        | (t, .ok ()) => updateAll nodes t

end OrgTree

/-! ## The services -/

namespace PositionServiceImpl

variable (t : Table PositionEntity)

def delete (depth : ℕ) (id : Int) : Table PositionEntity × Except Thrown Bool :=
  transactional t (OrgTree.delete depth id t)

def findAllByCompanyId (companyId : Int) : List (Int × PositionEntity) :=
  t.rows.filter fun p => p.2.companyId = companyId

def findTree (depth : ℕ) (companyId : Int) : Except Thrown (List ElmUiTreeNode) :=
  OrgTree.findTree "组织架构" (fun _ => none) (findAllByCompanyId t companyId) depth

/-- Nothing is rewritten after an exception. -/
def updateAll (nodes : List ElmUiTreeNode) : Table PositionEntity × Except Thrown Bool :=
  match OrgTree.updateAll nodes t with
  | (_, .error e) => (t, .error e)
  | (t, .ok ()) => (t, .ok true)

end PositionServiceImpl

namespace CompanyServiceImpl

variable (t : Table CompanyEntity)

def delete (depth : ℕ) (id : Int) : Table CompanyEntity × Except Thrown Bool :=
  transactional t (OrgTree.delete depth id t)

def findAllByClientId (clientId : String) : List (Int × CompanyEntity) :=
  t.rows.filter fun p => p.2.clientId = clientId

def findTree (depth : ℕ) (accessCard : AccessCard) : Except Thrown (List ElmUiTreeNode) :=
  OrgTree.findTree "公司架构" some (findAllByClientId t (User.checkClientId accessCard)) depth

/-- Without a transaction, what was rewritten before an exception stays. -/
def updateAll (nodes : List ElmUiTreeNode) : Table CompanyEntity × Except Thrown Bool :=
  match OrgTree.updateAll nodes t with
  | (t, .error e) => (t, .error e)
  | (t, .ok ()) => (t, .ok true)

end CompanyServiceImpl

end BigPlan.Auth

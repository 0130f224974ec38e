import BigPlan.Auth.OwnerChain

/-!
# Who is whose subordinate

A user may hold several positions and have a superior in each. The check follows the superior of
the first row only: of the rows given, and then of each superior's own rows. It is right exactly
if the rows that it skips do not lead to the user asked about.
-/
namespace BigPlan.Auth.UserServiceImpl

open Lib
open Lib.Forest Lib.Recursion

variable {t : Table UserPositionEntity} {m : Int} {rows rows' rest : List UserPositionRow}
  {p q : UserPositionRow}

/-- The superior that the row names is the user or a subordinate of the user. -/
def LeadsTo (t : Table UserPositionEntity) (p : UserPositionRow) (m : Int) : Prop :=
  ∃ u, p.2.superiorId = some u ∧ Relation.ReflTransGen (Superior t) u m

/-- The user is reached from one of the rows, through any of the positions on the way. -/
def Reached (t : Table UserPositionEntity) (rows : List UserPositionRow) (m : Int) : Prop :=
  ∃ p ∈ rows, LeadsTo t p m

/-- The check comes from the first rows to the second ones: each time it goes on with the rows of
the superior that the first row names. -/
inductive Visits (t : Table UserPositionEntity) : List UserPositionRow → List UserPositionRow → Prop
  | here (rows : List UserPositionRow) : Visits t rows rows
  | next {p : UserPositionRow} {rest rows : List UserPositionRow}
      (h : Visits t (findAllByUserId t p.2.superiorId) rows) : Visits t (p :: rest) rows

/-- A first row on the way names the user. -/
def OnFirstRows (t : Table UserPositionEntity) (rows : List UserPositionRow) (m : Int) : Prop :=
  ∃ p rest, Visits t rows (p :: rest) ∧ p.2.superiorId = some m

/-- A row after a first row on the way leads to the user. -/
def SkippedLeads (t : Table UserPositionEntity) (rows : List UserPositionRow) (m : Int) : Prop :=
  ∃ p rest, Visits t rows (p :: rest) ∧ ∃ q ∈ rest, LeadsTo t q m

/-! ## The rows on the way -/

/-- A row leads to the superior that it names, and to whom the superior's rows lead to. -/
theorem leadsTo_iff : LeadsTo t p m ↔
    p.2.superiorId = some m ∨ Reached t (findAllByUserId t p.2.superiorId) m := by
  constructor
  · intro h
    obtain ⟨u, hu, hreach⟩ := h
    rcases Relation.ReflTransGen.cases_head hreach with rfl | ⟨v, hstep, hrest⟩
    · exact .inl hu
    · obtain ⟨q, hq, rfl, hv⟩ := hstep
      exact .inr ⟨q, mem_findAllByUserId.mpr ⟨hq, hu.symm⟩, v, hv, hrest⟩
  · intro h
    rcases h with hm | ⟨q, hq, v, hv, hreach⟩
    · exact ⟨m, hm, .refl⟩
    · obtain ⟨hmem, huser⟩ := mem_findAllByUserId.mp hq
      exact ⟨q.2.userId, huser.symm, hreach.head ⟨q, hmem, rfl, hv⟩⟩

theorem onFirstRows_nil : ¬ OnFirstRows t [] m := by
  intro h
  obtain ⟨p, rest, hvisits, -⟩ := h
  cases hvisits

theorem onFirstRows_cons : OnFirstRows t (p :: rest) m ↔
    p.2.superiorId = some m ∨ OnFirstRows t (findAllByUserId t p.2.superiorId) m := by
  constructor
  · intro h
    obtain ⟨q, rest', hvisits, hm⟩ := h
    cases hvisits with
    | here => exact .inl hm
    | next hvisits => exact .inr ⟨q, rest', hvisits, hm⟩
  · intro h
    rcases h with hm | ⟨q, rest', hvisits, hm⟩
    · exact ⟨p, rest, .here _, hm⟩
    · exact ⟨q, rest', .next hvisits, hm⟩

theorem SkippedLeads.next (h : SkippedLeads t (findAllByUserId t p.2.superiorId) m) :
    SkippedLeads t (p :: rest) m := by
  obtain ⟨q, rest', hvisits, hq⟩ := h
  exact ⟨q, rest', .next hvisits, hq⟩

theorem reached_of_visits (h : Visits t rows rows') (hreached : Reached t rows' m) :
    Reached t rows m := by
  induction h with
  | here => exact hreached
  | next h ih => exact ⟨_, List.mem_cons_self, leadsTo_iff.mpr (.inr (ih hreached))⟩

/-- A first row that leads to the user is on the way itself. -/
theorem onFirstRows_or_skippedLeads (h : LeadsTo t p m) :
    OnFirstRows t (p :: rest) m ∨ SkippedLeads t (p :: rest) m := by
  obtain ⟨u, hu, hreach⟩ := h
  induction hreach using Relation.ReflTransGen.head_induction_on generalizing p rest with
  | refl => exact .inl (onFirstRows_cons.mpr (.inl hu))
  | head hstep hreach ih =>
    obtain ⟨q, hq, huser, hv⟩ := hstep
    have hmem : q ∈ findAllByUserId t p.2.superiorId :=
      mem_findAllByUserId.mpr ⟨hq, by rw [huser, hu]⟩
    cases hrows : findAllByUserId t p.2.superiorId with
    | nil =>
      rw [hrows] at hmem
      cases hmem
    | cons first others =>
      rw [hrows] at hmem
      rcases List.mem_cons.mp hmem with rfl | hother
      · have hrest : OnFirstRows t (q :: others) m ∨ SkippedLeads t (q :: others) m := ih hv
        rcases hrest with hfirst | hskipped
        · exact .inl (onFirstRows_cons.mpr (.inr (hrows ▸ hfirst)))
        · exact .inr (SkippedLeads.next (hrows ▸ hskipped))
      · exact .inr (SkippedLeads.next (hrows ▸ ⟨first, others, .here _, q, hother, _, hv, hreach⟩))

/-- Whom the rows lead to is named by a first row on the way, or a skipped row leads there. -/
theorem reached_iff : Reached t rows m ↔ OnFirstRows t rows m ∨ SkippedLeads t rows m := by
  constructor
  · intro h
    obtain ⟨p, hp, hleads⟩ := h
    cases rows with
    | nil => cases hp
    | cons first others =>
      rcases List.mem_cons.mp hp with rfl | hother
      · exact onFirstRows_or_skippedLeads hleads
      · exact .inr ⟨first, others, .here _, p, hother, hleads⟩
  · intro h
    rcases h with ⟨p, rest, hvisits, hm⟩ | ⟨p, rest, hvisits, q, hq, hleads⟩
    · exact reached_of_visits hvisits ⟨p, List.mem_cons_self, leadsTo_iff.mpr (.inl hm)⟩
    · exact reached_of_visits hvisits ⟨q, List.mem_cons_of_mem _ hq, hleads⟩

/-! ## What the check returns -/

/-- For a user other than 0, the check of the rows returns whether a first row names the user. -/
def Follows (t : Table UserPositionEntity) (m : Int) (rows : List UserPositionRow) : Prop :=
  ∃ b, Returns (fun depth => checkSubordinate t m depth rows) b ∧
    (b = true ↔ OnFirstRows t rows m)

theorem follows_nil (hm : m ≠ 0) : Follows t m [] := by
  refine ⟨false, returns_succ.mp ?_, by simp [onFirstRows_nil]⟩
  simp only [checkSubordinate, if_neg hm]
  exact returns_of_eq rfl

theorem follows_cons (hm : m ≠ 0) (h : Follows t m (findAllByUserId t p.2.superiorId)) :
    Follows t m (p :: rest) := by
  by_cases hp : p.2.superiorId = some m
  · refine ⟨true, returns_succ.mp ?_, by simp [onFirstRows_cons, hp]⟩
    simp only [checkSubordinate, if_neg hm, if_pos hp]
    exact returns_of_eq rfl
  · obtain ⟨b, hb, hfirst⟩ := h
    refine ⟨b, returns_succ.mp ?_, by rw [onFirstRows_cons, hfirst]; simp [hp]⟩
    simp only [checkSubordinate, if_neg hm, if_neg hp]
    exact hb

/-- Each call goes on with the rows of a user that is higher up. -/
theorem follows_findAllByUserId (hm : m ≠ 0)
    (hacyclic : ∀ u, ¬ Relation.TransGen (Superior t) u u) (userId : Option Int) :
    Follows t m (findAllByUserId t userId) := by
  obtain ⟨rank, hrank, -⟩ :=
    exists_rank (Superior t) (t.rows.map (·.2.userId)) (fun u v => mem_of_superior) hacyclic
  have hnone : Follows t m (findAllByUserId t none) := by
    simpa [findAllByUserId] using follows_nil hm
  cases userId with
  | none => exact hnone
  | some u =>
    induction hn : rank u using Nat.strong_induction_on generalizing u with
    | h n ih =>
      cases hrows : findAllByUserId t (some u) with
      | nil => exact follows_nil hm
      | cons p rest =>
        refine follows_cons hm ?_
        have hp : p ∈ findAllByUserId t (some u) := hrows ▸ List.mem_cons_self
        obtain ⟨hmem, huser⟩ := mem_findAllByUserId.mp hp
        cases hv : p.2.superiorId with
        | none => exact hnone
        | some v =>
          exact ih (rank v) (hn ▸ hrank u v ⟨p, hmem, Option.some_inj.mp huser, hv⟩) v rfl

theorem returns_checkSubordinate (hacyclic : ∀ u, ¬ Relation.TransGen (Superior t) u u) (m : Int)
    (rows : List UserPositionRow) :
    ∃ b, Returns (fun depth => checkSubordinate t m depth rows) b ∧
      (b = true ↔ m = 0 ∨ OnFirstRows t rows m) := by
  by_cases hm : m = 0
  · refine ⟨true, returns_succ.mp ?_, by simp [hm]⟩
    simp only [checkSubordinate, if_pos hm]
    exact returns_of_eq rfl
  · have hfollows : Follows t m rows := by
      cases rows with
      | nil => exact follows_nil hm
      | cons p rest => exact follows_cons hm (follows_findAllByUserId hm hacyclic _)
    obtain ⟨b, hb, hfirst⟩ := hfollows
    exact ⟨b, hb, by simp [hm, hfirst]⟩

/-! ## Setting a role -/

section SetUserRole

variable {userIsExisted : Option Int → JsonResult Bool} {depth : ℕ} {caller : Caller}
  {dto : SetUserRoleDTO} {s : UserStore} {positionId : Int} {positionEntity : PositionEntity}

theorem assignRole_ne_denied :
    assignRole userIsExisted dto s ≠ .error (.business .POSITION_PERMISSION_DENY) := by
  unfold assignRole
  dsimp only
  split
  · simp
  · split
    · simp
    · simp
    · simp
    · split <;> simp

/-- The call gets to the position check: nothing before it throws, and the position is there. -/
structure GetsToCheck (s : UserStore) (caller : Caller) (dto : SetUserRoleDTO) (m positionId : Int)
    (positionEntity : PositionEntity) : Prop where
  group : checkRoleGroup s.db caller.userId dto.roleId = .ok ()
  userId : caller.userId = some m
  customerInfo : caller.customerInfo = some (some (.long positionId))
  position : s.positions.findById positionId = some positionEntity

/-- Refused for the position is exactly who is no subordinate by the check. -/
theorem setUserRole_denied_iff (userIsExisted : Option Int → JsonResult Bool)
    (h : GetsToCheck s caller dto m positionId positionEntity) {b : Bool}
    (hcheck : checkSubordinate s.userPositions m depth
      (findAllByUserIdAndCompanyId s dto.userId positionEntity.companyId) = .ok b) :
    setUserRole userIsExisted depth caller dto true s =
      .error (.business .POSITION_PERMISSION_DENY) ↔ b = false := by
  have hset : setUserRole userIsExisted depth caller dto true s =
      (if b then assignRole userIsExisted dto s
        else .error (.business .POSITION_PERMISSION_DENY)) := by
    rw [setUserRole, h.group]
    simp only [h.customerInfo, nonNull, checkPosition, if_true, h.position, h.userId, hcheck, bind,
      Except.bind]
    cases b <;> rfl
  rw [hset]
  cases b with
  | true => simp [assignRole_ne_denied]
  | false => simp

end SetUserRole

/-! ## When the check is right -/

/-- The check is right exactly if it asks about 0, a first row on the way names the user, or no
skipped row leads to it, and so is what a caller with a position is refused. -/
theorem checkSubordinate_iff (m : Int) :
    (∀ (t : Table UserPositionEntity), (∀ u, ¬ Relation.TransGen (Superior t) u u) →
      ∀ rows : List UserPositionRow,
      (∃ b, (∃ n, ∀ depth, n ≤ depth → checkSubordinate t m depth rows = .ok b) ∧
        (b = true ↔ m = 0 ∨ Reached t rows m)) ↔
      m = 0 ∨ OnFirstRows t rows m ∨ ¬ SkippedLeads t rows m) ∧
    ∀ (s : UserStore), (∀ u, ¬ Relation.TransGen (Superior s.userPositions) u u) →
      ∀ (userIsExisted : Option Int → JsonResult Bool) (caller : Caller) (dto : SetUserRoleDTO)
        (positionId : Int) (positionEntity : PositionEntity),
      GetsToCheck s caller dto m positionId positionEntity →
      let rows := findAllByUserIdAndCompanyId s dto.userId positionEntity.companyId
      ((∃ n, ∀ depth, n ≤ depth →
          (setUserRole userIsExisted depth caller dto true s =
            .error (.business .POSITION_PERMISSION_DENY) ↔
          ¬ (m = 0 ∨ Reached s.userPositions rows m))) ↔
        m = 0 ∨ OnFirstRows s.userPositions rows m ∨ ¬ SkippedLeads s.userPositions rows m) := by
  have hright (t : Table UserPositionEntity) (rows : List UserPositionRow) :
      (m = 0 ∨ OnFirstRows t rows m ↔ m = 0 ∨ Reached t rows m) ↔
        m = 0 ∨ OnFirstRows t rows m ∨ ¬ SkippedLeads t rows m := by
    rw [reached_iff]
    tauto
  constructor
  · intro t hacyclic rows
    obtain ⟨b, hb, hfirst⟩ := returns_checkSubordinate hacyclic m rows
    rw [← hright, ← hfirst]
    constructor
    · intro h
      obtain ⟨b', hb', hreached⟩ := h
      rwa [hb.unique hb']
    · exact fun hreached => ⟨b, hb, hreached⟩
  · intro s hacyclic userIsExisted caller dto positionId positionEntity hgets
    dsimp only
    obtain ⟨b, ⟨n, hn⟩, hfirst⟩ := returns_checkSubordinate hacyclic m
      (findAllByUserIdAndCompanyId s dto.userId positionEntity.companyId)
    rw [← hright, ← hfirst]
    have hdenied depth (hdepth : n ≤ depth) :=
      setUserRole_denied_iff userIsExisted hgets (hn depth hdepth)
    constructor
    · intro h
      obtain ⟨n', hn'⟩ := h
      have hmax := hn' (max n n') (Nat.le_max_right n n')
      rwa [hdenied _ (Nat.le_max_left n n'), ← Bool.not_eq_true, not_iff_not] at hmax
    · intro h
      refine ⟨n, fun depth hdepth => ?_⟩
      rwa [hdenied depth hdepth, ← Bool.not_eq_true, not_iff_not]

/-- A user with two superiors in one position. -/
def two : Table UserPositionEntity := Table.empty.insertAll [⟨5, some 1, some 7⟩, ⟨5, some 1, some 6⟩]

theorem acyclic_two : ∀ u, ¬ Relation.TransGen (Superior two) u u := acyclic_of_lt (by decide)

def company : UserStore :=
  { UserStore.empty with
    positions := Table.empty.insert ⟨"p", some 0, 1⟩
    userPositions := two }

theorem checkSubordinate_iff_two :
    ((∃ b, (∃ n, ∀ depth, n ≤ depth → checkSubordinate two 7 depth two.rows = .ok b) ∧
        (b = true ↔ (7 : Int) = 0 ∨ Reached two two.rows 7)) ↔
      (7 : Int) = 0 ∨ OnFirstRows two two.rows 7 ∨ ¬ SkippedLeads two two.rows 7) ∧
    let rows := findAllByUserIdAndCompanyId company (some 5) 1
    (∃ n, ∀ depth, n ≤ depth →
        (setUserRole (fun _ => { data := some true }) depth ⟨some 7, none, some (some (.long 1))⟩
            ⟨some 5, some 1⟩ true company =
          .error (.business .POSITION_PERMISSION_DENY) ↔
        ¬ ((7 : Int) = 0 ∨ Reached company.userPositions rows 7))) ↔
      (7 : Int) = 0 ∨ OnFirstRows company.userPositions rows 7 ∨
        ¬ SkippedLeads company.userPositions rows 7 :=
  ⟨(checkSubordinate_iff 7).1 two acyclic_two two.rows,
    (checkSubordinate_iff 7).2 company acyclic_two _ ⟨some 7, none, some (some (.long 1))⟩
      ⟨some 5, some 1⟩ 1 ⟨"p", some 0, 1⟩ ⟨rfl, rfl, rfl, rfl⟩⟩

/-- The second superior is not found. -/
theorem not_checkSubordinate : ¬ ∀ (t : Table UserPositionEntity),
    (∀ u, ¬ Relation.TransGen (Superior t) u u) → ∀ (m : Int) (rows : List UserPositionRow),
    ∃ b, (∃ n, ∀ depth, n ≤ depth → checkSubordinate t m depth rows = .ok b) ∧
      (b = true ↔ m = 0 ∨ Reached t rows m) := by
  intro h
  obtain ⟨b, hb, hreached⟩ := h two acyclic_two 6 two.rows
  obtain ⟨b', hb', hfirst⟩ := returns_checkSubordinate acyclic_two 6 two.rows
  have hrows : two.rows = [(1, ⟨5, some 1, some 7⟩), (2, ⟨5, some 1, some 6⟩)] := rfl
  have hseven : findAllByUserId two (some 7) = [] := rfl
  have hsecond : Reached two two.rows 6 :=
    ⟨(2, ⟨5, some 1, some 6⟩), .tail _ (.head _), 6, rfl, .refl⟩
  rw [hb'.unique hb, hreached, hrows, onFirstRows_cons, hseven] at hfirst
  rcases hfirst.mp (.inr (hrows ▸ hsecond)) with hzero | hseven | hnil
  · cases hzero
  · cases hseven
  · exact onFirstRows_nil hnil

end BigPlan.Auth.UserServiceImpl

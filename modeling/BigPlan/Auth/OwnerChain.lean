import BigPlan.Auth.UserPositions
import BigPlan.Lib.Fallible

/-!
# The owners of a new user

The owners are to be the superior, the superior's superior and so on. The search follows the ids
of users, but takes them for row ids: it goes along what the rows under these ids name. It finds
the owners exactly if the two agree on the whole chain.
-/
namespace BigPlan.Auth.UserServiceImpl

open Lib
open Lib.Forest Lib.Recursion
open User (UserVO SUPERIOR_ID)

variable {t : Table UserPositionEntity} {s u v : Int} {list result owners : List Int}

/-- The row under the first id, taken for a row id, names the second one. -/
def NamedByRow (t : Table UserPositionEntity) (u v : Int) : Prop :=
  (t.findById u).bind (·.superiorId) = some v

/-- Every user has at most one row, and none is above itself. -/
structure Hierarchy (t : Table UserPositionEntity) : Prop where
  single : (t.rows.map (·.2.userId)).Nodup
  acyclic : ∀ u, ¬ Relation.TransGen (Superior t) u u

theorem Hierarchy.rightUnique (h : Hierarchy t) : Relator.RightUnique (Superior t) := by
  intro u v w hv hw
  obtain ⟨p, hp, hpu, hpv⟩ := hv
  obtain ⟨q, hq, hqu, hqw⟩ := hw
  have heq := List.inj_on_of_nodup_map h.single hp hq (hpu.trans hqu.symm)
  rw [heq, hqw] at hpv
  exact (Option.some_inj.mp hpv).symm

theorem namedByRow_rightUnique : Relator.RightUnique (NamedByRow t) :=
  fun _ _ _ hv hw => Option.some_inj.mp (hv.symm.trans hw)

/-- Only the users of rows have superiors. -/
theorem mem_of_superior (h : Superior t u v) : u ∈ t.rows.map (·.2.userId) := by
  obtain ⟨p, hp, rfl, -⟩ := h
  exact List.mem_map_of_mem hp

/-! ## What the search finds -/

theorem deepSearchOwnerId_ok {depth : ℕ}
    (h : deepSearchOwnerId t depth list (some s) = .ok result) :
    ∃ l, result = list ++ l ∧ Ascends (NamedByRow t) s l := by
  induction depth generalizing list s with
  | zero => cases h
  | succ depth ih =>
    rw [deepSearchOwnerId] at h
    split at h
    · rename_i hfind
      cases h
      refine ⟨[s], rfl, .last fun v hv => ?_⟩
      rw [NamedByRow, hfind] at hv
      cases hv
    · rename_i entity hfind
      cases hsuperior : entity.superiorId with
      | none =>
        rw [hsuperior] at h
        cases depth with
        | zero => cases h
        | succ depth =>
          cases h
          refine ⟨[s], rfl, .last fun v hv => ?_⟩
          rw [NamedByRow, hfind, Option.bind_some, hsuperior] at hv
          cases hv
      | some v =>
        rw [hsuperior] at h
        obtain ⟨l, rfl, hl⟩ := ih h
        refine ⟨s :: l, by simp, .step ?_ hl⟩
        rw [NamedByRow, hfind, Option.bind_some, hsuperior]

theorem returns_deepSearchOwnerId {l : List Int} (h : Ascends (NamedByRow t) s l)
    (list : List Int) :
    Returns (fun depth => deepSearchOwnerId t depth list (some s)) (list ++ l) := by
  induction h generalizing list with
  | @last s hlast =>
    refine returns_succ.mp ?_
    simp only [deepSearchOwnerId]
    cases hfind : t.findById s with
    | none => exact returns_pure _
    | some entity =>
      have hsuperior : entity.superiorId = none := by
        rw [Option.eq_none_iff_forall_ne_some]
        intro v hv
        exact hlast v (by rw [NamedByRow, hfind, Option.bind_some, hv])
      dsimp only
      rw [hsuperior]
      exact returns_succ.mp (returns_pure _)
  | @step s v l hs hl ih =>
    refine returns_succ.mp ?_
    obtain ⟨entity, hfind, hsuperior⟩ := Option.bind_eq_some_iff.mp hs
    have hrest := ih (list ++ [s])
    rw [List.append_assoc, List.singleton_append] at hrest
    simp only [deepSearchOwnerId, hfind, hsuperior]
    exact hrest

theorem returns_deepSearchOwnerId_iff :
    (∀ list, Returns (fun depth => deepSearchOwnerId t depth list (some s)) (list ++ owners)) ↔
      Ascends (NamedByRow t) s owners := by
  constructor
  · intro h
    obtain ⟨n, hn⟩ := h []
    obtain ⟨l, hl, hascends⟩ := deepSearchOwnerId_ok (hn n (Nat.le_refl n))
    rw [List.nil_append, List.nil_append] at hl
    rwa [hl]
  · exact fun h list => returns_deepSearchOwnerId h list

/-! ## What is saved for a new user -/

section Create

variable {outside : Outside} {depth : ℕ} {caller : Caller} {vo : UserVO} {store : UserStore}
  {result : JsonResult UserVO} {created : Created} {saved : SaveUserRelationVO}

theorem saveOwners_saved {superiorId : Option Int}
    (h : saveOwners depth superiorId result store = .ok created)
    (hsaved : saved ∈ created.saveUserRelation) :
    ∃ s, superiorId = some s ∧
      deepSearchOwnerId created.store.userPositions depth [] (some s) =
        .ok saved.ownerIdList := by
  cases superiorId with
  | none =>
    cases h
    cases hsaved
  | some s =>
    obtain ⟨owners, howners, h⟩ := Fallible.bind_eq_ok.mp h
    obtain ⟨user, -, h⟩ := Fallible.bind_eq_ok.mp h
    cases h
    rw [List.mem_singleton.mp hsaved]
    exact ⟨s, rfl, howners⟩

/-- The owners that are saved are those that the search finds above the superior of the customize
info, in the table that has the new user's row. -/
theorem saveCustomizeInfo_saved (h : saveCustomizeInfo outside depth vo result store = .ok created)
    (hsaved : saved ∈ created.saveUserRelation) :
    ∃ customerInfo s, outside.parseObject (vo.customizeInfo.getD "") = .ok customerInfo ∧
      customerInfo.getLong SUPERIOR_ID = .ok (some s) ∧
      deepSearchOwnerId created.store.userPositions depth [] (some s) =
        .ok saved.ownerIdList := by
  unfold saveCustomizeInfo at h
  split at h
  · cases h
    cases hsaved
  · obtain ⟨customerInfo, hinfo, h⟩ := Fallible.bind_eq_ok.mp h
    split at h
    · obtain ⟨positionId, -, h⟩ := Fallible.bind_eq_ok.mp h
      obtain ⟨superiorId, hsuperior, h⟩ := Fallible.bind_eq_ok.mp h
      obtain ⟨store', -, h⟩ := Fallible.bind_eq_ok.mp h
      obtain ⟨s, rfl, hsearch⟩ := saveOwners_saved h hsaved
      exact ⟨customerInfo, s, hinfo, hsuperior, hsearch⟩
    · cases h
      cases hsaved

theorem create_saved (h : create outside depth caller vo store = .ok created)
    (hsaved : saved ∈ created.saveUserRelation) :
    ∃ customerInfo s, outside.parseObject (vo.customizeInfo.getD "") = .ok customerInfo ∧
      customerInfo.getLong SUPERIOR_ID = .ok (some s) ∧
      deepSearchOwnerId created.store.userPositions depth [] (some s) =
        .ok saved.ownerIdList := by
  obtain ⟨password, -, h⟩ := Fallible.bind_eq_ok.mp h
  dsimp only at h
  split at h
  · cases h
    cases hsaved
  · obtain ⟨s, -, h⟩ := Fallible.bind_eq_ok.mp h
    obtain ⟨s', -, h⟩ := Fallible.bind_eq_ok.mp h
    exact saveCustomizeInfo_saved h hsaved

/-- The user is created, and its customize info names a superior. -/
structure NamesSuperior (outside : Outside) (caller : Caller) (vo : UserVO) (s : Int) : Prop where
  created : ∀ password, outside.encode vo.password = .ok password →
    (outside.createUser { vo with
      client := some caller.checkClientId, password := some password }).requestSuccess = true
  notBlank : Lib.Java.isBlank vo.customizeInfo = false
  superior : ∃ customerInfo, outside.parseObject (vo.customizeInfo.getD "") = .ok customerInfo ∧
    customerInfo.containsKey SUPERIOR_ID = true ∧
    customerInfo.getLong SUPERIOR_ID = .ok (some s)

theorem saveOwners_some {s : Int} (h : saveOwners depth (some s) result store = .ok created) :
    ∃ saved, created.saveUserRelation = [saved] := by
  obtain ⟨owners, -, h⟩ := Fallible.bind_eq_ok.mp h
  obtain ⟨user, -, h⟩ := Fallible.bind_eq_ok.mp h
  cases h
  exact ⟨_, rfl⟩

/-- A superior is saved with its owners if the call comes through. -/
theorem create_saves {s : Int} (hnames : NamesSuperior outside caller vo s)
    (h : create outside depth caller vo store = .ok created) :
    ∃ saved, created.saveUserRelation = [saved] := by
  obtain ⟨password, hpassword, h⟩ := Fallible.bind_eq_ok.mp h
  dsimp only at h
  rw [if_neg (not_not.mpr (hnames.created password hpassword))] at h
  obtain ⟨s₁, -, h⟩ := Fallible.bind_eq_ok.mp h
  obtain ⟨s₂, -, h⟩ := Fallible.bind_eq_ok.mp h
  obtain ⟨customerInfo, hinfo, hcontains, hsuperior⟩ := hnames.superior
  unfold saveCustomizeInfo at h
  rw [if_neg (ne_true_of_eq_false hnames.notBlank)] at h
  obtain ⟨info, hparsed, h⟩ := Fallible.bind_eq_ok.mp h
  cases hinfo.symm.trans hparsed
  rw [if_pos (by rw [hcontains, Bool.or_true])] at h
  obtain ⟨positionId, -, h⟩ := Fallible.bind_eq_ok.mp h
  obtain ⟨superiorId, hsome, h⟩ := Fallible.bind_eq_ok.mp h
  obtain ⟨s₃, -, h⟩ := Fallible.bind_eq_ok.mp h
  cases hsuperior.symm.trans hsome
  exact saveOwners_some h

end Create

/-! ## When they are the superiors -/

/-- The search appends the superiors from a user up, and they are what is saved for a new user,
exactly if the row under the id of each of them names its superior, or none if it has none. A user
that is created with a superior is saved with its owners. -/
theorem owners_iff (t : Table UserPositionEntity) (h : Hierarchy t) :
    (∀ s, ∃ owners, Ascends (Superior t) s owners ∧ owners.Nodup ∧
      ((∀ list, ∃ n, ∀ depth, n ≤ depth →
          deepSearchOwnerId t depth list (some s) = .ok (list ++ owners)) ↔
        ∀ u ∈ owners, ∀ v, NamedByRow t u v ↔ Superior t u v)) ∧
    ∀ (outside : Outside) (depth : ℕ) (caller : Caller) (vo : UserVO) (store : UserStore)
      (created : Created), create outside depth caller vo store = .ok created →
      created.store.userPositions = t →
      (∀ s, NamesSuperior outside caller vo s → ∃ saved, created.saveUserRelation = [saved]) ∧
      ∀ saved ∈ created.saveUserRelation, ∃ customerInfo s owners,
        outside.parseObject (vo.customizeInfo.getD "") = .ok customerInfo ∧
        customerInfo.getLong SUPERIOR_ID = .ok (some s) ∧ Ascends (Superior t) s owners ∧
        (saved.ownerIdList = owners ↔ ∀ u ∈ owners, ∀ v, NamedByRow t u v ↔ Superior t u v) := by
  constructor
  · intro s
    obtain ⟨owners, howners⟩ := exists_ascends (fun x y => mem_of_superior) h.acyclic s
    refine ⟨owners, howners, howners.nodup h.acyclic, ?_⟩
    exact returns_deepSearchOwnerId_iff.trans
      (howners.congr_iff h.rightUnique namedByRow_rightUnique)
  · intro outside depth caller vo store created hcreate ht
    refine ⟨fun s hnames => create_saves hnames hcreate, fun saved hsaved => ?_⟩
    subst ht
    obtain ⟨customerInfo, s, hinfo, hsuperior, hsearch⟩ := create_saved hcreate hsaved
    obtain ⟨owners, howners⟩ := exists_ascends (fun x y => mem_of_superior) h.acyclic s
    refine ⟨customerInfo, s, owners, hinfo, hsuperior, howners, ?_⟩
    rw [← howners.congr_iff h.rightUnique namedByRow_rightUnique]
    obtain ⟨l, hl, hascends⟩ := deepSearchOwnerId_ok hsearch
    rw [List.nil_append] at hl
    constructor
    · intro heq
      rwa [← heq, hl]
    · intro hnamed
      rw [hl]
      exact hascends.unique namedByRow_rightUnique hnamed

/-! ## Two tables -/

/-- Superiors with greater ids are not in a circle. -/
theorem acyclic_of_lt (h : ∀ p ∈ t.rows, ∀ v ∈ p.2.superiorId, p.2.userId < v) :
    ∀ u, ¬ Relation.TransGen (Superior t) u u := by
  intro u hcycle
  have hlt : ∀ u v, Superior t u v → u < v := by
    intro u v hsuperior
    obtain ⟨p, hp, rfl, hv⟩ := hsuperior
    exact h p hp v hv
  have hcycle' := Relation.TransGen.mono hlt u u hcycle
  rw [Relation.transGen_eq_self] at hcycle'
  exact lt_irrefl u hcycle'

/-- Two users whose rows have their own ids. -/
def aligned : Table UserPositionEntity := Table.empty.insertAll [⟨1, some 4, some 2⟩, ⟨2, some 5, none⟩]

theorem hierarchy_aligned : Hierarchy aligned := ⟨by decide, acyclic_of_lt (by decide)⟩

/-- A store with a superior, and what is around a call that creates a user below it. -/
def withSuperior : UserStore :=
  { UserStore.empty with userPositions := Table.empty.insertAll [⟨1, some 5, none⟩] }

def below : Outside where
  encode _ := .ok "password"
  parseObject _ := .ok ⟨fun _ => true, fun key => .ok (if key = SUPERIOR_ID then some 1 else none)⟩
  createUser vo := { data := some { vo with id := some 2 } }
  userIsExisted _ := { data := some true }

theorem owners_iff_aligned :
    (∃ owners, Ascends (Superior aligned) 1 owners ∧ owners.Nodup ∧
      ((∀ list, ∃ n, ∀ depth, n ≤ depth →
          deepSearchOwnerId aligned depth list (some 1) = .ok (list ++ owners)) ↔
        ∀ u ∈ owners, ∀ v, NamedByRow aligned u v ↔ Superior aligned u v)) ∧
    ∃ created, create below 3 ⟨some 0, none, none⟩ { customizeInfo := some "info" } withSuperior =
        .ok created ∧
      created.saveUserRelation = [{ type := 0, ownerIdList := [1], userId := some 2 }] ∧
      ∃ customerInfo s owners, below.parseObject "info" = .ok customerInfo ∧
        customerInfo.getLong SUPERIOR_ID = .ok (some s) ∧
        Ascends (Superior created.store.userPositions) s owners ∧
        ([1] = owners ↔ ∀ u ∈ owners, ∀ v, NamedByRow created.store.userPositions u v ↔
          Superior created.store.userPositions u v) := by
  have hbelow : Hierarchy withSuperior.userPositions := ⟨by decide, acyclic_of_lt (by decide)⟩
  refine ⟨(owners_iff aligned hierarchy_aligned).1 1,
    { store := withSuperior, saveUserRelation := _ }, rfl, rfl, ?_⟩
  exact ((owners_iff _ hbelow).2 below 3 ⟨some 0, none, none⟩ { customizeInfo := some "info" }
    withSuperior _ rfl rfl).2 _ List.mem_cons_self

/-- A user whose row has another id, and who has a superior. -/
def apart : Table UserPositionEntity := Table.empty.insert ⟨5, some 4, some 6⟩

/-- The search does not find the superior of the superior. -/
theorem not_owners : ¬ ∀ (t : Table UserPositionEntity), Hierarchy t → ∀ s,
    ∃ owners, Ascends (Superior t) s owners ∧ ∀ list, ∃ n, ∀ depth, n ≤ depth →
      deepSearchOwnerId t depth list (some s) = .ok (list ++ owners) := by
  intro h
  obtain ⟨owners, howners, hsearch⟩ := h apart ⟨by decide, acyclic_of_lt (by decide)⟩ 5
  have hnamed := returns_deepSearchOwnerId_iff.mp hsearch
  have hsuperior : Superior apart 5 6 := ⟨(1, ⟨5, some 4, some 6⟩), .head _, rfl, rfl⟩
  cases hnamed with
  | last hlast =>
    cases howners with
    | last hlast' => exact hlast' 6 hsuperior
    | step hstep hrest => cases hrest
  | step hstep hrest => cases hstep

end BigPlan.Auth.UserServiceImpl

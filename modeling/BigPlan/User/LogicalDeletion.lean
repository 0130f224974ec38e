import BigPlan.Lib.Fallible
import BigPlan.Lib.Runs
import BigPlan.User.UserService

/-!
# Users that are deleted logically

After any calls the table says which users were created and which of them were deleted. The
lookup `get` does not look at the flag, `findAllByIdIn` takes it the wrong way round, and `page`
looks at it only where there are parameters.
-/
namespace BigPlan.User

open Auth (AccessCard)
open Lib (Table)
open Lib.Fallible Lib.Java Lib.Runs

/-- What the calls so far were told: the names of the users that were created, by id, and
which of them were deleted. -/
structure Accounts where
  created : Int → Option String
  deleted : Int → Bool

namespace Accounts

def Live (accounts : Accounts) (id : Int) (username : String) : Prop :=
  accounts.created id = some username ∧ accounts.deleted id = false

def afterCreate (accounts : Accounts) (result : Except Thrown UserVO) : Accounts :=
  match result with
  | .ok { id := some id, username := some username, .. } =>
    { accounts with created := Function.update accounts.created id (some username) }
  | _ => accounts

/-- There is nothing to delete under an id that was not handed out. -/
def afterDelete (accounts : Accounts) (id : Option Int) : Accounts :=
  match id with
  | some id =>
    { accounts with
      deleted := Function.update accounts.deleted id
        (accounts.deleted id || (accounts.created id).isSome) }
  | none => accounts

end Accounts

structure Service where
  db : Database
  accounts : Accounts

inductive Call where
  | create (vo : UserVO)
  | delete (id : Option Int)

inductive Query where
  | findByUsername (username clientId : Option String)
  | userIsExisted (id : Option Int)
  | get (id : Option Int) (clientId : Option String)
  | findAllByIdIn (userIds : List (Option Int))
  | page (accessCard : AccessCard) (iPageRequest : IPageRequest)

/-- A page need not hold any user. -/
def Query.Asks (id : Int) (name : String) : Query → Prop
  | .findByUsername username _ => username = some name
  | .userIsExisted id' => id' = some id
  | .get id' _ => id' = some id
  | .findAllByIdIn userIds => some id ∈ userIds
  | .page _ _ => False

def idsOf : Except Thrown UserVO → List Int
  | .ok vo => vo.id.toList
  | .error _ => []

/-- The users that are in the answer to a query, or that it says to exist. -/
def Database.returned (sql : Sql) (db : Database) : Query → List Int
  | .findByUsername username clientId => idsOf (db.findByUsername username clientId)
  | .userIsExisted id => if db.userIsExisted id then id.toList else []
  | .get id clientId => idsOf (db.get id clientId)
  | .findAllByIdIn userIds => (db.findAllByIdIn userIds).filterMap UserVO.id
  | .page accessCard iPageRequest =>
    match db.page sql accessCard iPageRequest with
    | .ok result => result.items.filterMap UserVO.id
    | .error _ => []

namespace Service

def start (relations : Table UserRelationEntity) : Service :=
  ⟨⟨.empty, .empty, relations⟩, ⟨fun _ => none, fun _ => false⟩⟩

def step (s : Service) : Call → Service
  | .create vo => ⟨(s.db.create vo).1, s.accounts.afterCreate (s.db.create vo).2⟩
  | .delete id => ⟨(s.db.delete id).1, s.accounts.afterDelete id⟩

/-- Only users that are not deleted are returned, and all of them that are asked for. -/
def Honours (sql : Sql) (s : Service) (q : Query) : Prop :=
  (∀ id ∈ s.db.returned sql q, ∃ name, s.accounts.Live id name) ∧
    ∀ id name, s.accounts.Live id name → q.Asks id name → id ∈ s.db.returned sql q

/-- No deleted user is asked for by id, no created one in a list of ids, and none that is
deleted stands in the requested part of the whole table. -/
def Spares (sql : Sql) (s : Service) : Query → Prop
  | .findByUsername _ _ => True
  | .userIsExisted _ => True
  | .get id _ => ∀ id', id = some id' → s.accounts.deleted id' = false
  | .findAllByIdIn userIds => ∀ id, some id ∈ userIds → s.accounts.created id = none
  | .page accessCard r =>
    ∀ customerInfo number pageable ordered, r.customParams = none →
      accessCard.customerInfo = some customerInfo → isRestricted customerInfo = false →
      r.number = some number → 0 ≤ number.toInt → PageHelper.of r = .ok pageable →
      sql.order false pageable.sort s.db.users.rows = some ordered →
      ∀ p ∈ pageable.slice ordered, s.accounts.deleted p.1 = false

/-! ## What the table says about the users -/

/-- Each user that was created has its row, with its name and the flag; names are unique, and
a user has the info of one client. -/
structure Agrees (s : Service) : Prop where
  of_mem : ∀ p ∈ s.db.users.rows, s.accounts.created p.1 = some p.2.username ∧
    p.2.isDelete = some (s.accounts.deleted p.1)
  mem : ∀ id name, s.accounts.created id = some name → ∃ e, (id, e) ∈ s.db.users.rows
  unknown : ∀ id, s.accounts.created id = none → s.accounts.deleted id = false
  names : ∀ p ∈ s.db.users.rows, ∀ q ∈ s.db.users.rows, p.2.username = q.2.username → p = q
  infos : (s.db.infos.rows.map fun p => p.2.userId).Nodup
  infoIds : ∀ p ∈ s.db.infos.rows, p.2.userId < s.db.users.next

theorem agrees_start (relations : Table UserRelationEntity) : (start relations).Agrees where
  of_mem _ h := by cases h
  mem _ _ h := by cases h
  unknown _ _ := rfl
  names _ h := by cases h
  infos := List.nodup_nil
  infoIds _ h := by cases h

section Agrees

variable {s : Service} (h : s.Agrees)

include h

theorem Agrees.created_next : s.accounts.created s.db.users.next = none := by
  cases hcreated : s.accounts.created s.db.users.next with
  | none => rfl
  | some name =>
    obtain ⟨e, he⟩ := h.mem _ _ hcreated
    have hlt := s.db.users.fresh _ he
    exact absurd hlt (Int.lt_irrefl _)

end Agrees

/-- A new row under a name that no row has, perhaps with its info. -/
def insertUser (s : Service) (user : UserEntity) (info : Option UserCustomizeInfoEntity) :
    Service where
  db := { s.db with
    users := s.db.users.insert user
    infos := info.elim s.db.infos s.db.infos.insert }
  accounts := { s.accounts with
    created := Function.update s.accounts.created s.db.users.next (some user.username) }

theorem step_create (s : Service) (vo : UserVO) :
    s.step (.create vo) = s ∨
      ∃ user info, (∀ p ∈ s.db.users.rows, p.2.username ≠ user.username) ∧
        user.isDelete = some false ∧ (∀ e ∈ info, e.userId = s.db.users.next) ∧
        s.step (.create vo) = s.insertUser user info := by
  obtain ⟨id, username, password, client, customizeInfo, isDelete⟩ := vo
  cases hexists : s.db.existsByUsername username with
  | true => exact .inl (by simp [step, Database.create, hexists, Accounts.afterCreate])
  | false =>
    cases username with
    | none => exact .inl (by simp [step, Database.create, hexists, Accounts.afterCreate])
    | some username =>
      cases password with
      | none => exact .inl (by simp [step, Database.create, hexists, Accounts.afterCreate])
      | some password =>
        have hnew (p : UserRow) (hp : p ∈ s.db.users.rows) : p.2.username ≠ username := by
          intro heq
          have hno := List.any_eq_false.mp hexists p hp
          simp [heq] at hno
        cases hinfo : isBlank client || isBlank customizeInfo with
        | true =>
          refine .inr ⟨⟨username, password, some false⟩, none, hnew, rfl, fun _ he => (by cases he),
            ?_⟩
          simp only [step, Database.create, hexists, hinfo, Accounts.afterCreate]
          rfl
        | false =>
          refine .inr ⟨⟨username, password, some false⟩,
            some ⟨s.db.users.next, client.getD "", customizeInfo⟩, hnew, rfl, fun e he => ?_, ?_⟩
          · cases he
            rfl
          · simp only [step, Database.create, hexists, hinfo, Accounts.afterCreate]
            rfl

theorem agrees_insertUser {s : Service} (h : s.Agrees) {user : UserEntity}
    {info : Option UserCustomizeInfoEntity}
    (hnew : ∀ p ∈ s.db.users.rows, p.2.username ≠ user.username)
    (hflag : user.isDelete = some false) (hinfo : ∀ e ∈ info, e.userId = s.db.users.next) :
    (s.insertUser user info).Agrees where
  of_mem p hp := by
    rcases Table.mem_insert.mp hp with hp | hp
    · simp only [insertUser]
      rw [Function.update_of_ne (Int.ne_of_lt (s.db.users.fresh p hp))]
      exact h.of_mem p hp
    · subst hp
      simp only [insertUser]
      rw [Function.update_self, h.unknown _ h.created_next]
      exact ⟨rfl, hflag⟩
  mem id name hcreated := by
    simp only [insertUser] at hcreated ⊢
    by_cases hid : id = s.db.users.next
    · exact ⟨user, Table.mem_insert.mpr (.inr (by rw [hid]))⟩
    · rw [Function.update_of_ne hid] at hcreated
      obtain ⟨e, he⟩ := h.mem id name hcreated
      exact ⟨e, Table.mem_insert.mpr (.inl he)⟩
  unknown id hcreated := by
    simp only [insertUser] at hcreated ⊢
    by_cases hid : id = s.db.users.next
    · rw [hid]
      exact h.unknown _ h.created_next
    · rw [Function.update_of_ne hid] at hcreated
      exact h.unknown id hcreated
  names p hp q hq hname := by
    rcases Table.mem_insert.mp hp with hp | hp <;> rcases Table.mem_insert.mp hq with hq | hq
    · exact h.names p hp q hq hname
    · subst hq
      exact absurd hname (hnew p hp)
    · subst hp
      exact absurd hname.symm (hnew q hq)
    · rw [hp, hq]
  infos := by
    cases info with
    | none => exact h.infos
    | some info =>
      have hid : info.userId = s.db.users.next := hinfo info rfl
      simp only [insertUser, Option.elim_some, Table.insert, List.map_append, List.map_singleton]
      refine List.nodup_append.mpr ⟨h.infos, List.nodup_singleton _, fun userId huser id hmem => ?_⟩
      obtain ⟨p, hp, hpid⟩ := List.mem_map.mp huser
      have hlt := h.infoIds p hp
      rw [List.mem_singleton.mp hmem, hid, ← hpid]
      exact Int.ne_of_lt hlt
  infoIds p hp := by
    simp only [insertUser, Table.next_insert]
    cases info with
    | none =>
      have hlt := h.infoIds p hp
      omega
    | some info =>
      have hid : info.userId = s.db.users.next := hinfo info rfl
      rcases Table.mem_insert.mp hp with hp | hp
      · have hlt := h.infoIds p hp
        omega
      · rw [hp]
        simp only
        omega

/-- The row of a user with the flag set. -/
def deleteUser (s : Service) (id : Int) (user : UserEntity) : Service where
  db := { s.db with users := s.db.users.put id { user with isDelete := some true } }
  accounts := { s.accounts with deleted := Function.update s.accounts.deleted id true }

theorem step_delete {s : Service} (h : s.Agrees) (id? : Option Int) :
    s.step (.delete id?) = s ∨
      ∃ id user, (id, user) ∈ s.db.users.rows ∧ s.step (.delete id?) = s.deleteUser id user := by
  cases id? with
  | none => exact .inl rfl
  | some id =>
    unfold step Database.delete
    cases hfind : s.db.users.findById id with
    | none =>
      have hcreated : s.accounts.created id = none := by
        cases hcreated : s.accounts.created id with
        | none => rfl
        | some name =>
          obtain ⟨e, he⟩ := h.mem id name hcreated
          rw [Table.findById_eq_some.mpr he] at hfind
          cases hfind
      left
      simp [hfind, Accounts.afterDelete, hcreated]
    | some user =>
      have hmem := Table.findById_eq_some.mp hfind
      have hcreated := (h.of_mem _ hmem).1
      refine .inr ⟨id, user, hmem, ?_⟩
      simp only [hfind, Accounts.afterDelete, hcreated, Option.isSome_some, Bool.or_true]
      rfl

/-- A row after the deletion is one of before, apart from the flag. -/
theorem mem_deleteUser {s : Service} {id : Int} {user : UserEntity}
    (hmem : (id, user) ∈ s.db.users.rows) {p : UserRow}
    (hp : p ∈ (s.deleteUser id user).db.users.rows) :
    ∃ e, (p.1, e) ∈ s.db.users.rows ∧ e.username = p.2.username ∧
      ((p.1 = id ∧ p.2.isDelete = some true) ∨ (p.1 ≠ id ∧ e = p.2)) := by
  rcases Table.mem_put.mp hp with ⟨hold, hne⟩ | ⟨heq, -⟩
  · exact ⟨p.2, hold, rfl, .inr ⟨hne, rfl⟩⟩
  · subst heq
    exact ⟨user, hmem, rfl, .inl ⟨rfl, rfl⟩⟩

theorem agrees_deleteUser {s : Service} (h : s.Agrees) {id : Int} {user : UserEntity}
    (hmem : (id, user) ∈ s.db.users.rows) : (s.deleteUser id user).Agrees where
  of_mem p hp := by
    obtain ⟨e, he, hname, hflag⟩ := mem_deleteUser hmem hp
    obtain ⟨hcreated, hdeleted⟩ := h.of_mem _ he
    simp only [deleteUser]
    refine ⟨by rw [hcreated, hname], ?_⟩
    rcases hflag with ⟨hid, htrue⟩ | ⟨hid, rfl⟩
    · rw [hid, Function.update_self, htrue]
    · rw [Function.update_of_ne hid, hdeleted]
  mem id' name hcreated := by
    obtain ⟨e, he⟩ := h.mem id' name hcreated
    by_cases hid : id' = id
    · subst hid
      exact ⟨_, Table.mem_put.mpr (.inr ⟨rfl, e, he⟩)⟩
    · exact ⟨e, Table.mem_put.mpr (.inl ⟨he, hid⟩)⟩
  unknown id' hcreated := by
    have hne : id' ≠ id := by
      intro hid
      have hsome := (h.of_mem _ hmem).1
      rw [← hid] at hsome
      exact absurd (hcreated.symm.trans hsome) (by simp)
    simp only [deleteUser]
    rw [Function.update_of_ne hne]
    exact h.unknown id' hcreated
  names p hp q hq hname := by
    obtain ⟨e, he, hep, -⟩ := mem_deleteUser hmem hp
    obtain ⟨f, hf, hfq, -⟩ := mem_deleteUser hmem hq
    have heq := h.names _ he _ hf (by rw [hep, hfq, hname])
    exact Table.eq_of_mem hp hq (Prod.mk.inj heq).1
  infos := h.infos
  infoIds := h.infoIds

theorem agrees_step {s : Service} (h : s.Agrees) (call : Call) : (s.step call).Agrees := by
  cases call with
  | create vo =>
    rcases step_create s vo with hsame | ⟨user, info, hnew, hflag, hinfo, hstep⟩
    · rwa [hsame]
    · rw [hstep]
      exact agrees_insertUser h hnew hflag hinfo
  | delete id =>
    rcases step_delete h id with hsame | ⟨id, user, hmem, hstep⟩
    · rwa [hsame]
    · rw [hstep]
      exact agrees_deleteUser h hmem

/-- The table after any calls says which users were created and which deleted. -/
theorem agrees_run (relations : Table UserRelationEntity) (calls : List Call) :
    (run step (start relations) calls).Agrees :=
  invariant_run (P := Agrees) (fun _ call h => agrees_step h call) (agrees_start relations) calls

/-! ## What each query returns -/

theorem single_filter {α : Type} {f : α → Bool} {l : List α} (hnodup : l.Nodup)
    (hunique : ∀ a ∈ l, ∀ b ∈ l, f a = true → f b = true → a = b) :
    single (l.filter f) = .ok (l.find? f) := by
  induction l with
  | nil => rfl
  | cons a l ih =>
    obtain ⟨hnotin, hnodup⟩ := List.nodup_cons.mp hnodup
    cases ha : f a with
    | false =>
      rw [List.filter_cons_of_neg (by simp [ha]), List.find?_cons_of_neg (by simp [ha])]
      exact ih hnodup fun b hb c hc =>
        hunique b (List.mem_cons_of_mem _ hb) c (List.mem_cons_of_mem _ hc)
    | true =>
      have hempty : l.filter f = [] := by
        rw [List.filter_eq_nil_iff]
        intro b hb hfb
        have heq := hunique a List.mem_cons_self b (List.mem_cons_of_mem _ hb) ha hfb
        exact hnotin (by rwa [heq])
      rw [List.filter_cons_of_pos ha, hempty, List.find?_cons_of_pos ha]
      rfl

section Returned

variable {s : Service} (h : s.Agrees)

include h

/-- There is at most one info, so a user that is found is answered. -/
theorem Agrees.idsOf_getCustomerInfo (clientId : Option String) (userId : Int) (vo : UserVO) :
    idsOf (s.db.getCustomerInfo clientId userId vo) = vo.id.toList := by
  have hnodup : ((s.db.infos.rows.map Prod.snd).map UserCustomizeInfoEntity.userId).Nodup := by
    rw [List.map_map]
    exact h.infos
  unfold Database.getCustomerInfo Database.findByUserIdAndClientId
  rw [single_filter hnodup.of_map]
  · cases List.find? _ (s.db.infos.rows.map Prod.snd) <;> rfl
  · intro a ha b hb hfa hfb
    simp only [Bool.and_eq_true, decide_eq_true_eq] at hfa hfb
    exact List.inj_on_of_nodup_map hnodup ha hb (hfa.1.trans hfb.1.symm)

theorem Agrees.live_iff {id : Int} {name : String} :
    s.accounts.Live id name ↔
      ∃ e, (id, e) ∈ s.db.users.rows ∧ e.username = name ∧ e.isDelete = some false := by
  constructor
  · intro hlive
    obtain ⟨hcreated, hdeleted⟩ := hlive
    obtain ⟨e, he⟩ := h.mem id name hcreated
    obtain ⟨hname, hflag⟩ := h.of_mem _ he
    refine ⟨e, he, Option.some.inj (hname.symm.trans hcreated), ?_⟩
    rw [hflag, hdeleted]
  · intro hrow
    obtain ⟨e, he, hname, hflag⟩ := hrow
    obtain ⟨hcreated, hdeleted⟩ := h.of_mem _ he
    refine ⟨by rw [hcreated, hname], ?_⟩
    exact Option.some.inj (hdeleted.symm.trans hflag)

/-- The flag tells who is deleted, and it is never `null`. -/
theorem Agrees.isNot_iff {p : UserRow} (hp : p ∈ s.db.users.rows) (v : Bool) :
    isNot p.2.isDelete v = true ↔ s.accounts.deleted p.1 = !v := by
  rw [(h.of_mem p hp).2, isNot]
  cases s.accounts.deleted p.1 <;> cases v <;> decide

theorem Agrees.isSome_created {id : Int} :
    (∃ e, (id, e) ∈ s.db.users.rows) ↔ s.accounts.created id ≠ none := by
  constructor
  · intro hrow hnone
    obtain ⟨e, he⟩ := hrow
    rw [(h.of_mem _ he).1] at hnone
    cases hnone
  · intro hcreated
    obtain ⟨name, hname⟩ := Option.ne_none_iff_exists'.mp hcreated
    exact h.mem id name hname

theorem Agrees.mem_findByUsername {username clientId : Option String} {id : Int} :
    id ∈ idsOf (s.db.findByUsername username clientId) ↔
      ∃ name, username = some name ∧ s.accounts.Live id name := by
  have hfound (p : UserRow) :
      (some p.2.username = username && isNot p.2.isDelete true) = true ↔
        some p.2.username = username ∧ isNot p.2.isDelete true = true := by
    rw [Bool.and_eq_true, decide_eq_true_eq]
  have hsingle : s.db.findByUsernameAndIsDeleteIsNot username true =
      .ok (s.db.users.rows.find? fun p =>
        some p.2.username = username && isNot p.2.isDelete true) := by
    refine single_filter s.db.users.nodup.of_map fun p hp q hq hfp hfq => h.names p hp q hq ?_
    exact Option.some.inj (((hfound p).mp hfp).1.trans ((hfound q).mp hfq).1.symm)
  cases hfind : s.db.users.rows.find? fun p =>
      some p.2.username = username && isNot p.2.isDelete true with
  | none =>
    have hnone : s.db.findByUsername username clientId = .error (.business .USER_NOT_FOUND) := by
      simp only [Database.findByUsername, hsingle, hfind]
      rfl
    rw [hnone]
    refine iff_of_false (fun hmem => by cases hmem) fun hlive => ?_
    obtain ⟨name, rfl, hlive⟩ := hlive
    obtain ⟨e, he, rfl, hflag⟩ := h.live_iff.mp hlive
    refine List.find?_eq_none.mp hfind _ he ((hfound _).mpr ⟨rfl, ?_⟩)
    rw [hflag]
    rfl
  | some p =>
    have hp := List.mem_of_find?_eq_some hfind
    have hfp := List.find?_some hfind
    obtain ⟨hname, hnot⟩ := (hfound p).mp hfp
    have hsome : s.db.findByUsername username clientId = s.db.getCustomerInfo clientId p.1
        { id := some p.1, username := some p.2.username, password := some p.2.password,
          client := clientId } := by
      simp only [Database.findByUsername, hsingle, hfind]
      rfl
    rw [hsome, h.idsOf_getCustomerInfo, Option.mem_toList, Option.some.injEq]
    constructor
    · intro hid
      subst hid
      exact ⟨p.2.username, hname.symm, (h.of_mem p hp).1, (h.isNot_iff hp true).mp hnot⟩
    · intro hlive
      obtain ⟨name, husername, hlive⟩ := hlive
      obtain ⟨e, he, hename, -⟩ := h.live_iff.mp hlive
      have heq := h.names p hp _ he (by
        rw [hename]
        exact Option.some.inj (hname.trans husername))
      rw [heq]

theorem Agrees.mem_get {id? : Option Int} {clientId : Option String} {id : Int} :
    id ∈ idsOf (s.db.get id? clientId) ↔ id? = some id ∧ s.accounts.created id ≠ none := by
  rw [← h.isSome_created]
  cases id? with
  | none =>
    refine iff_of_false (fun hmem => by cases hmem) fun hsome => ?_
    cases hsome.1
  | some id' =>
    cases hfind : s.db.users.findById id' with
    | none =>
      have hget : s.db.get (some id') clientId = .error (.business .USER_NOT_FOUND) := by
        simp only [Database.get, Database.findById, hfind]
        rfl
      rw [hget]
      refine iff_of_false (fun hmem => by cases hmem) fun hrow => ?_
      obtain ⟨hid, e, he⟩ := hrow
      cases hid
      rw [Table.findById_eq_some.mpr he] at hfind
      cases hfind
    | some e =>
      have he := Table.findById_eq_some.mp hfind
      have hget : s.db.get (some id') clientId =
          s.db.getCustomerInfo clientId id' (Database.entity2Vo (id', e)) := by
        simp only [Database.get, Database.findById, hfind]
        rfl
      rw [hget, h.idsOf_getCustomerInfo, Option.mem_toList, Database.entity2Vo, Option.some.injEq]
      constructor
      · intro hid
        subst hid
        exact ⟨rfl, e, he⟩
      · exact fun hrow => hrow.1

theorem Agrees.userIsExisted_iff {id? : Option Int} :
    s.db.userIsExisted id? = true ↔ ∃ id name, id? = some id ∧ s.accounts.Live id name := by
  simp only [Database.userIsExisted, Database.existsByIdAndIsDelete, List.any_eq_true,
    Bool.and_eq_true, decide_eq_true_eq]
  constructor
  · intro hrow
    obtain ⟨p, hp, hid, hflag⟩ := hrow
    exact ⟨p.1, p.2.username, hid.symm, h.live_iff.mpr ⟨p.2, hp, rfl, hflag⟩⟩
  · intro hlive
    obtain ⟨id, name, hid, hlive⟩ := hlive
    obtain ⟨e, he, -, hflag⟩ := h.live_iff.mp hlive
    exact ⟨(id, e), he, hid.symm, hflag⟩

theorem Agrees.mem_findAllByIdIn {userIds : List (Option Int)} {id : Int} :
    id ∈ (s.db.findAllByIdIn userIds).filterMap UserVO.id ↔
      some id ∈ userIds ∧ s.accounts.created id ≠ none ∧ s.accounts.deleted id = true := by
  rw [← h.isSome_created]
  simp only [Database.findAllByIdIn, Database.findAllByIdInAndIsDeleteIsNot, List.filterMap_map,
    List.mem_filterMap, List.mem_filter, Bool.and_eq_true, decide_eq_true_eq, Function.comp,
    Database.entity2Vo, Option.some.injEq]
  constructor
  · intro hrow
    obtain ⟨p, ⟨hp, hids, hnot⟩, rfl⟩ := hrow
    exact ⟨hids, ⟨p.2, hp⟩, (h.isNot_iff hp false).mp hnot⟩
  · intro hrow
    obtain ⟨hids, ⟨e, he⟩, hdeleted⟩ := hrow
    exact ⟨(id, e), ⟨he, hids, (h.isNot_iff he false).mpr hdeleted⟩, rfl⟩

end Returned

/-! ## Pages -/

section Pages

variable {sql : Sql} {db : Database} {accessCard : AccessCard} {r : IPageRequest}

theorem mem_slice {α : Type} {pageable : Pageable} {rows : List α} {a : α}
    (h : a ∈ pageable.slice rows) : a ∈ rows :=
  List.mem_of_mem_drop (List.mem_of_mem_take h)

theorem findPage_eq_ok {isNative : Bool} {rows : List UserRow} {pageable : Pageable} {page : Page}
    (h : sql.findPage isNative rows pageable = .ok page) :
    ∃ ordered, sql.order isNative pageable.sort rows = some ordered ∧
      page.content = pageable.slice ordered := by
  unfold Sql.findPage at h
  cases horder : sql.order isNative pageable.sort rows with
  | none =>
    rw [horder] at h
    cases h
  | some ordered =>
    rw [horder] at h
    cases h
    exact ⟨ordered, rfl, rfl⟩

theorem mem_findPage {isNative : Bool} {rows : List UserRow} {pageable : Pageable} {page : Page}
    (h : sql.findPage isNative rows pageable = .ok page) {p : UserRow} (hp : p ∈ page.content) :
    p ∈ rows := by
  obtain ⟨ordered, horder, hcontent⟩ := findPage_eq_ok h
  rw [hcontent] at hp
  exact (sql.order_perm horder).mem_iff.mp (mem_slice hp)

theorem nonNull_eq_ok {α : Type} {a? : Option α} {a : α} : nonNull a? = .ok a ↔ a? = some a := by
  cases a? with
  | none =>
    refine iff_of_false (fun h => ?_) fun h => ?_
    · cases h
    · cases h
  | some b => simp [nonNull]

theorem mem_findAllByOwnerId {ownerId : Option JLong} {p : UserRow}
    (h : p ∈ db.findAllByOwnerId ownerId) : p ∈ db.users.rows ∧ p.2.isDelete ≠ some true := by
  obtain ⟨q, hq, hmem⟩ := List.mem_flatMap.mp h
  obtain ⟨relation, hrelation, rfl⟩ := List.mem_map.mp hmem
  have hwhere := (List.mem_filter.mp hrelation).2
  simp only [Bool.and_eq_true, bne_iff_ne] at hwhere
  exact ⟨hq, hwhere.1.2⟩

/-- A page of all users without parameters is the only one that may hold deleted users. -/
theorem mem_page_content {params : Option UserVO} {pageable : Pageable} {page : Page}
    (h : db.findPage sql accessCard params pageable = .ok page) {p : UserRow}
    (hp : p ∈ page.content) (hnull : params = none → ∀ customerInfo,
      accessCard.customerInfo = some customerInfo → isRestricted customerInfo = true) :
    p ∈ db.users.rows ∧ p.2.isDelete ≠ some true := by
  unfold Database.findPage at h
  obtain ⟨customerInfo, hinfo, h⟩ := bind_eq_ok.mp h
  cases hrestricted : isRestricted customerInfo with
  | true =>
    rw [hrestricted, if_pos rfl] at h
    obtain ⟨params', -, h⟩ := bind_eq_ok.mp h
    cases hblank : isBlank params'.username with
    | true =>
      rw [hblank, if_pos rfl] at h
      exact mem_findAllByOwnerId (mem_findPage h hp)
    | false =>
      rw [hblank, if_neg Bool.false_ne_true] at h
      exact mem_findAllByOwnerId (List.mem_of_mem_filter (mem_findPage h hp))
  | false =>
    rw [hrestricted, if_neg Bool.false_ne_true] at h
    obtain ⟨hmem, hwhere⟩ := List.mem_filter.mp (mem_findPage h hp)
    refine ⟨hmem, ?_⟩
    cases params with
    | none =>
      have htrue := hnull rfl customerInfo (nonNull_eq_ok.mp hinfo)
      rw [hrestricted] at htrue
      cases htrue
    | some params =>
      have hnot := (Bool.and_eq_true_iff.mp hwhere).2
      intro hdeleted
      rw [hdeleted] at hnot
      cases hnot

theorem findInfos_eq_ok {content : List UserRow} {infos : List UserCustomizeInfoEntity}
    (h : db.findInfos accessCard r content = .ok infos) :
    ∃ number, r.number = some number ∧ 0 ≤ number.toInt := by
  unfold Database.findInfos at h
  obtain ⟨number, hnumber, h⟩ := bind_eq_ok.mp h
  refine ⟨number, nonNull_eq_ok.mp hnumber, ?_⟩
  by_contra hneg
  rw [if_pos (Int.not_le.mp hneg)] at h
  cases h

/-- What an answered request for a page returns. -/
theorem page_eq_ok {result : PageResult} (h : db.page sql accessCard r = .ok result) :
    ∃ pageable page, PageHelper.of r = .ok pageable ∧
      db.findPage sql accessCard r.customParams pageable = .ok page ∧
      (∃ number, r.number = some number ∧ 0 ≤ number.toInt) ∧
      result.items.filterMap UserVO.id = page.content.map Prod.fst := by
  unfold Database.page at h
  obtain ⟨pageable, hpageable, h⟩ := bind_eq_ok.mp h
  obtain ⟨page, hpage, h⟩ := bind_eq_ok.mp h
  obtain ⟨infos, hinfos, h⟩ := bind_eq_ok.mp h
  cases h
  refine ⟨pageable, page, hpageable, hpage, findInfos_eq_ok hinfos, ?_⟩
  rw [List.filterMap_map, ← List.filterMap_eq_map]
  apply List.filterMap_congr
  intro p _
  simp only [Function.comp]
  cases infos.find? fun e => e.userId = p.1 <;> rfl

/-- Without parameters the rows are those of the whole table. -/
theorem findPage_null {customerInfo : Auth.CustomerInfo}
    (hinfo : accessCard.customerInfo = some customerInfo)
    (hrestricted : isRestricted customerInfo = false) (pageable : Pageable) :
    db.findPage sql accessCard none pageable = sql.findPage false db.users.rows pageable := by
  simp only [Database.findPage, hinfo, nonNull, bind, Except.bind, hrestricted,
    Bool.false_eq_true, if_false, List.filter_true]

theorem page_of_null {customerInfo : Auth.CustomerInfo} {number : JInt} {pageable : Pageable}
    {ordered : List UserRow} (hparams : r.customParams = none)
    (hinfo : accessCard.customerInfo = some customerInfo)
    (hrestricted : isRestricted customerInfo = false) (hnumber : r.number = some number)
    (hpos : 0 ≤ number.toInt) (hpageable : PageHelper.of r = .ok pageable)
    (horder : sql.order false pageable.sort db.users.rows = some ordered) :
    ∃ result, db.page sql accessCard r = .ok result ∧
      result.items.filterMap UserVO.id = (pageable.slice ordered).map Prod.fst := by
  have hfind : db.findPage sql accessCard r.customParams pageable =
      .ok ⟨db.users.rows.length, pageable.slice ordered⟩ := by
    rw [hparams, findPage_null hinfo hrestricted]
    simp only [Sql.findPage, horder]
  have hinfos (content : List UserRow) : db.findInfos accessCard r content = .ok [] := by
    simp only [Database.findInfos, hnumber, hparams, nonNull, bind, Except.bind,
      if_neg (Int.not_lt.mpr hpos)]
    rfl
  have hpage : ∃ result, db.page sql accessCard r = .ok result := by
    simp only [Database.page, hpageable, hfind, hinfos, bind, Except.bind]
    exact ⟨_, rfl⟩
  obtain ⟨result, hresult⟩ := hpage
  refine ⟨result, hresult, ?_⟩
  obtain ⟨pageable', page, hpageable', hpage, -, hitems⟩ := page_eq_ok hresult
  cases hpageable.symm.trans hpageable'
  cases hfind.symm.trans hpage
  exact hitems

end Pages

/-! ## When deletion is honoured -/

theorem mem_returned_page {sql : Sql} {db : Database} {accessCard : AccessCard} {r : IPageRequest}
    {id : Int} : id ∈ db.returned sql (.page accessCard r) ↔
      ∃ result, db.page sql accessCard r = .ok result ∧
        id ∈ result.items.filterMap UserVO.id := by
  cases hpage : db.page sql accessCard r with
  | error e => simp [Database.returned, hpage]
  | ok result => simp [Database.returned, hpage]

theorem honours_page {sql : Sql} {s : Service} (h : s.Agrees) (accessCard : AccessCard)
    (r : IPageRequest) :
    s.Honours sql (.page accessCard r) ↔ s.Spares sql (.page accessCard r) := by
  constructor
  · intro hhonours customerInfo number pageable ordered hparams hinfo hrestricted hnumber hpos
      hpageable horder p hp
    obtain ⟨result, hresult, hitems⟩ :=
      page_of_null hparams hinfo hrestricted hnumber hpos hpageable horder
    have hmem := mem_returned_page.mpr ⟨result, hresult, by
      rw [hitems]
      exact List.mem_map_of_mem hp⟩
    obtain ⟨name, hlive⟩ := hhonours.1 p.1 hmem
    exact hlive.2
  · intro hspares
    refine ⟨fun id hid => ?_, fun _ _ _ hasks => hasks.elim⟩
    obtain ⟨result, hresult, hid⟩ := mem_returned_page.mp hid
    obtain ⟨pageable, page, hpageable, hpage, ⟨number, hnumber, hpos⟩, hitems⟩ :=
      page_eq_ok hresult
    rw [hitems] at hid
    obtain ⟨p, hp, rfl⟩ := List.mem_map.mp hid
    have hrow : p ∈ s.db.users.rows ∧ s.accounts.deleted p.1 = false := by
      by_cases hnull : r.customParams = none → ∀ customerInfo,
          accessCard.customerInfo = some customerInfo → isRestricted customerInfo = true
      · obtain ⟨hmem, hflag⟩ := mem_page_content hpage hp hnull
        rw [(h.of_mem p hmem).2] at hflag
        exact ⟨hmem, by simpa using hflag⟩
      · -- the table is not filtered
        push Not at hnull
        obtain ⟨hparams, customerInfo, hinfo, hrestricted⟩ := hnull
        have hrestricted := Bool.eq_false_iff.mpr hrestricted
        rw [hparams, findPage_null hinfo hrestricted] at hpage
        obtain ⟨ordered, horder, hcontent⟩ := findPage_eq_ok hpage
        refine ⟨mem_findPage hpage hp, ?_⟩
        rw [hcontent] at hp
        exact hspares customerInfo number pageable ordered hparams hinfo hrestricted hnumber hpos
          hpageable horder p hp
    exact ⟨p.2.username, (h.of_mem p hrow.1).1, hrow.2⟩

section Honours

variable {sql : Sql} {s : Service} (h : s.Agrees)

include h

theorem honours_findByUsername (username clientId : Option String) :
    s.Honours sql (.findByUsername username clientId) := by
  refine ⟨fun id hid => ?_, fun id name hlive hasks => ?_⟩
  · obtain ⟨name, -, hlive⟩ := h.mem_findByUsername.mp hid
    exact ⟨name, hlive⟩
  · exact h.mem_findByUsername.mpr ⟨name, hasks, hlive⟩

theorem honours_userIsExisted (id? : Option Int) : s.Honours sql (.userIsExisted id?) := by
  refine ⟨fun id hid => ?_, fun id name hlive hasks => ?_⟩
  · cases hexisted : s.db.userIsExisted id? with
    | false =>
      simp only [Database.returned, hexisted] at hid
      cases hid
    | true =>
      simp only [Database.returned, hexisted, if_true, Option.mem_toList] at hid
      obtain ⟨id', name, hid', hlive⟩ := h.userIsExisted_iff.mp hexisted
      cases hid.symm.trans hid'
      exact ⟨name, hlive⟩
  · have hexisted := h.userIsExisted_iff.mpr ⟨id, name, hasks, hlive⟩
    simp only [Database.returned, hexisted, if_true, Option.mem_toList]
    exact hasks

/-- The row is found, deleted or not. -/
theorem honours_get (id? : Option Int) (clientId : Option String) :
    s.Honours sql (.get id? clientId) ↔ s.Spares sql (.get id? clientId) := by
  constructor
  · intro hhonours id hid
    cases hcreated : s.accounts.created id with
    | none => exact h.unknown id hcreated
    | some name =>
      obtain ⟨name', hlive⟩ := hhonours.1 id (h.mem_get.mpr ⟨hid, by simp [hcreated]⟩)
      exact hlive.2
  · intro hspares
    refine ⟨fun id hid => ?_, fun id name hlive hasks => ?_⟩
    · obtain ⟨hid, hcreated⟩ := h.mem_get.mp hid
      obtain ⟨name, hname⟩ := Option.ne_none_iff_exists'.mp hcreated
      exact ⟨name, hname, hspares id hid⟩
    · exact h.mem_get.mpr ⟨hasks, by rw [hlive.1]; simp⟩

/-- Exactly the deleted users are found. -/
theorem honours_findAllByIdIn (userIds : List (Option Int)) :
    s.Honours sql (.findAllByIdIn userIds) ↔ s.Spares sql (.findAllByIdIn userIds) := by
  constructor
  · intro hhonours id hid
    by_contra hcreated
    obtain ⟨name, hname⟩ := Option.ne_none_iff_exists'.mp hcreated
    cases hdeleted : s.accounts.deleted id with
    | true =>
      obtain ⟨name', hlive⟩ := hhonours.1 id (h.mem_findAllByIdIn.mpr ⟨hid, hcreated, hdeleted⟩)
      exact absurd (hlive.2.symm.trans hdeleted) Bool.false_ne_true
    | false =>
      have hmem := hhonours.2 id name ⟨hname, hdeleted⟩ hid
      have htrue := (h.mem_findAllByIdIn.mp hmem).2.2
      exact absurd (hdeleted.symm.trans htrue) Bool.false_ne_true
  · intro hspares
    refine ⟨fun id hid => ?_, fun id name hlive hasks => ?_⟩
    · obtain ⟨hid, hcreated, -⟩ := h.mem_findAllByIdIn.mp hid
      exact absurd (hspares id hid) hcreated
    · exact absurd ((hspares id hasks).symm.trans hlive.1) (by simp)

theorem honours_iff_spares (q : Query) : s.Honours sql q ↔ s.Spares sql q := by
  cases q with
  | findByUsername username clientId =>
    exact iff_of_true (honours_findByUsername h username clientId) trivial
  | userIsExisted id? => exact iff_of_true (honours_userIsExisted h id?) trivial
  | get id? clientId => exact honours_get h id? clientId
  | findAllByIdIn userIds => exact honours_findAllByIdIn h userIds
  | page accessCard r => exact honours_page h accessCard r

end Honours

/-- After any calls, a query honours deletion exactly if it spares the deleted users. -/
theorem honours_iff (sql : Sql) (relations : Table UserRelationEntity) (calls : List Call)
    (q : Query) :
    (run step (start relations) calls).Honours sql q ↔
      (run step (start relations) calls).Spares sql q :=
  honours_iff_spares (agrees_run relations calls) q

/-- Every row matches, and the rows come in the order of their ids. -/
def anySql : Sql where
  like _ _ := true
  order _ _ rows := some rows
  order_perm h := by
    cases h
    exact .refl _

/-- A deleted user is found by its id. -/
theorem not_honours :
    ¬ ∀ (sql : Sql) (relations : Table UserRelationEntity) (calls : List Call) (q : Query),
      (run step (start relations) calls).Honours sql q := by
  intro h
  have hhonours := h anySql .empty
    [.create { username := some "a", password := some "b", client := some "c" },
      .delete (some 1)] (.get (some 1) none)
  obtain ⟨name, hlive⟩ := hhonours.1 1 (by decide +kernel)
  exact absurd hlive.2 (by decide +kernel)

end Service

end BigPlan.User

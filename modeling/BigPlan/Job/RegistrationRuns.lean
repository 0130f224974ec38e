import BigPlan.Job.JobGroupService

/-!
# Runs of registrations

The scheduler agrees with the table after every registration exactly if none of them changes
how a running job is scheduled, adds a running job with a cron that the scheduler does not
take, or fails after it has changed the scheduler.
-/
namespace BigPlan.Job

open Lib (Table)
open Lib.Java Lib.Runs

namespace SingleServer

/-! ## What `saveJobs` does -/

section SaveJobs

variable {valid : String → Bool} {port : JInt} {infos : List JobInfo} {groupId : Int}
  {group : JobGroupEntity} {jobs : Table JobEntity} {scheduler : Scheduler} {job : JobEntity}
  {p : Int × JobEntity} {key : String × String}

theorem mem_findAllByJobGroupId :
    p ∈ findAllByJobGroupId groupId jobs ↔ p ∈ jobs.rows ∧ p.2.jobGroupId = some groupId := by
  simp [findAllByJobGroupId]

theorem infoOf_eq_some {info : JobInfo} (h : infoOf infos job = some info) :
    info ∈ infos ∧ info.name = job.name :=
  ⟨List.mem_of_find?_eq_some h, by simpa using List.find?_some h⟩

theorem infoOf_congr {job' : JobEntity} (h : job.name = job'.name) :
    infoOf infos job = infoOf infos job' := by
  rw [infoOf, infoOf, h]

theorem mem_gone : p ∈ gone infos groupId jobs ↔
    p ∈ findAllByJobGroupId groupId jobs ∧ infoOf infos p.2 = none := by
  simp [gone]

theorem mem_newAdd : job ∈ newAdd infos groupId jobs ↔ ∃ info ∈ infos,
    (∀ q ∈ findAllByJobGroupId groupId jobs, q.2.name ≠ info.name) ∧
      info.toJob groupId = job := by
  simp only [newAdd, List.mem_map, List.mem_filter, Bool.not_eq_true', ← Bool.not_eq_true,
    List.contains_iff_mem, not_exists, not_and]
  constructor
  · intro hexists
    obtain ⟨info, ⟨hinfo, hnew⟩, rfl⟩ := hexists
    exact ⟨info, hinfo, hnew, rfl⟩
  · intro hexists
    obtain ⟨info, hinfo, hnew, rfl⟩ := hexists
    exact ⟨info, ⟨hinfo, hnew⟩, rfl⟩

theorem mem_gone_ids {q : Int × JobEntity} (hq : q ∈ jobs.rows) :
    q.1 ∈ (gone infos groupId jobs).map Prod.fst ↔ q ∈ gone infos groupId jobs := by
  constructor
  · intro h
    obtain ⟨q', hq', hid⟩ := List.mem_map.mp h
    have hrow := (mem_findAllByJobGroupId.mp (mem_gone.mp hq').1).1
    rwa [Table.eq_of_mem hq hrow hid.symm]
  · exact List.mem_map_of_mem

/-- The rows that a registration keeps: those of other groups, and those that stay. -/
theorem mem_keptRows : p ∈ ((jobs.deleteAll ((gone infos groupId jobs).map Prod.fst)).mapRows
      (updateIn infos groupId)).rows ↔
    (p ∈ jobs.rows ∧ p.2.jobGroupId ≠ some groupId) ∨
      ∃ job info, (p.1, job) ∈ findAllByJobGroupId groupId jobs ∧
        infoOf infos job = some info ∧ p.2 = job.update info := by
  rw [Table.mem_mapRows]
  simp only [Table.mem_deleteAll]
  constructor
  · intro hexists
    obtain ⟨q, ⟨hq, hstays⟩, rfl⟩ := hexists
    rw [mem_gone_ids hq, mem_gone, mem_findAllByJobGroupId] at hstays
    by_cases hgroup : q.2.jobGroupId = some groupId
    · cases hinfo : infoOf infos q.2 with
      | none => exact absurd ⟨⟨hq, hgroup⟩, hinfo⟩ hstays
      | some info =>
        refine .inr ⟨q.2, info, mem_findAllByJobGroupId.mpr ⟨hq, hgroup⟩, hinfo, ?_⟩
        simp only [updateIn, if_pos hgroup, hinfo]
    · left
      simp only [updateIn, if_neg hgroup]
      exact ⟨hq, hgroup⟩
  · intro hcases
    rcases hcases with ⟨hp, hgroup⟩ | ⟨job, info, hjob, hinfo, heq⟩
    · refine ⟨p, ⟨hp, fun h => ?_⟩, ?_⟩
      · exact hgroup (mem_findAllByJobGroupId.mp (mem_gone.mp ((mem_gone_ids hp).mp h)).1).2
      · simp only [updateIn, if_neg hgroup]
    · obtain ⟨hrow, hgroup⟩ := mem_findAllByJobGroupId.mp hjob
      refine ⟨(p.1, job), ⟨hrow, fun h => ?_⟩, ?_⟩
      · have hnone := (mem_gone.mp ((mem_gone_ids hrow).mp h)).2
        rw [hinfo] at hnone
        cases hnone
      · simp only [updateIn, if_pos hgroup, hinfo]
        rw [← heq]

/-- The rows after a registration: those of other groups, those that stay, and new ones. -/
theorem mem_savedRows : p ∈ (savedRows infos groupId jobs).rows ↔
    (p ∈ jobs.rows ∧ p.2.jobGroupId ≠ some groupId) ∨
    (∃ job info, (p.1, job) ∈ findAllByJobGroupId groupId jobs ∧
      infoOf infos job = some info ∧ p.2 = job.update info) ∨
    ∃ i : ℕ, (newAdd infos groupId jobs)[i]? = some p.2 ∧ p.1 = jobs.next + i := by
  have hnew : (∃ (i : ℕ) (job : JobEntity), (newAdd infos groupId jobs)[i]? = some job ∧
      p = (jobs.next + i, job)) ↔
        ∃ i : ℕ, (newAdd infos groupId jobs)[i]? = some p.2 ∧ p.1 = jobs.next + i := by
    constructor
    · intro hexists
      obtain ⟨i, job, hjob, rfl⟩ := hexists
      exact ⟨i, hjob, rfl⟩
    · intro hexists
      obtain ⟨i, hjob, hid⟩ := hexists
      exact ⟨i, p.2, hjob, Prod.ext hid rfl⟩
  rw [savedRows, Table.mem_insertAll, mem_keptRows, Table.next_mapRows, Table.next_deleteAll, hnew,
    or_assoc]

theorem removeJob_apply {name : Option String} (h : key.1 = group.appName ∧ name = some key.2) :
    QuartzManager.removeJob group.appName name scheduler key = none := by
  have hkey : key = (group.appName, key.2) := Prod.ext h.1 rfl
  rw [hkey, h.2]
  exact Function.update_self ..

theorem removeJob_of_ne {name : Option String}
    (h : ¬ (key.1 = group.appName ∧ name = some key.2)) :
    QuartzManager.removeJob group.appName name scheduler key = scheduler key := by
  cases name with
  | none => rfl
  | some name =>
    have hne : key ≠ (group.appName, name) := by
      intro hsame
      subst hsame
      exact h ⟨rfl, rfl⟩
    exact Function.update_of_ne hne _ _

/-- A running job that is gone has the key. -/
def RunningGone (infos : List JobInfo) (groupId : Int) (group : JobGroupEntity)
    (jobs : Table JobEntity) (key : String × String) : Prop :=
  ∃ p ∈ gone infos groupId jobs,
    p.2.status = some .running ∧ key.1 = group.appName ∧ p.2.name = some key.2

theorem foldl_removeJob_of_none (l : List (Int × JobEntity)) (h : scheduler key = none) :
    l.foldl (fun scheduler p => if p.2.status = some .running then
      QuartzManager.removeJob group.appName p.2.name scheduler else scheduler) scheduler key =
        none := by
  induction l generalizing scheduler with
  | nil => exact h
  | cons p l ih =>
    refine ih ?_
    beta_reduce
    split_ifs
    · by_cases hkey : key.1 = group.appName ∧ p.2.name = some key.2
      · exact removeJob_apply hkey
      · rw [removeJob_of_ne hkey, h]
    · exact h

theorem removeGone_of_runningGone (h : RunningGone infos groupId group jobs key) :
    removeGone infos groupId group jobs scheduler key = none := by
  unfold RunningGone at h
  unfold removeGone
  generalize gone infos groupId jobs = l at h ⊢
  induction l generalizing scheduler with
  | nil =>
    obtain ⟨p, hp, -⟩ := h
    cases hp
  | cons p l ih =>
    obtain ⟨q, hq, hrunning, hkey⟩ := h
    rcases List.mem_cons.mp hq with rfl | hq
    · rw [List.foldl_cons, if_pos hrunning]
      exact foldl_removeJob_of_none l (removeJob_apply hkey)
    · exact ih ⟨q, hq, hrunning, hkey⟩

theorem removeGone_of_not (h : ¬ RunningGone infos groupId group jobs key) :
    removeGone infos groupId group jobs scheduler key = scheduler key := by
  unfold RunningGone at h
  unfold removeGone
  generalize gone infos groupId jobs = l at h ⊢
  induction l generalizing scheduler with
  | nil => rfl
  | cons p l ih =>
    have hl : ¬ ∃ q ∈ l, q.2.status = some .running ∧ key.1 = group.appName ∧
        q.2.name = some key.2 := by
      intro hexists
      obtain ⟨q, hq, hqkey⟩ := hexists
      exact h ⟨q, List.mem_cons_of_mem _ hq, hqkey⟩
    rw [List.foldl_cons, ih hl]
    split_ifs with hrunning
    · apply removeJob_of_ne
      intro hkey
      exact h ⟨p, List.mem_cons_self, hrunning, hkey⟩
    · rfl

theorem addNew_eq : addNew valid port infos groupId group jobs scheduler =
    scheduleAll valid port (((newAdd infos groupId jobs).filter
      fun job => job.status ≠ some .stop).map fun job => (group, job)) scheduler := by
  simp only [addNew, scheduleAll, List.foldl_map, List.foldl_filter, decide_eq_true_eq, ite_not]

end SaveJobs

/-! ## Groups -/

/-- What the database promises: the names of the groups are unique, and the id of a group that
a job names was handed out. -/
structure WellFormed (db : JobDatabase) : Prop where
  unique : ∀ p ∈ db.groups.rows, ∀ q ∈ db.groups.rows, p.2.appName = q.2.appName → p.1 = q.1
  allocated : ∀ p ∈ db.jobs.rows, ∀ id, p.2.jobGroupId = some id → id < db.groups.next

section Groups

variable {groups : Table JobGroupEntity} {db : JobDatabase} {saved : SavedGroup}
  {registration : Registration} {p : Int × JobGroupEntity}

theorem findByAppName_some {appName : String} (h : findByAppName groups appName = some p) :
    p ∈ groups.rows ∧ p.2.appName = appName :=
  ⟨List.mem_of_find?_eq_some h, by simpa using List.find?_some h⟩

theorem findByAppName_none {appName : String} (h : findByAppName groups appName = none)
    (hp : p ∈ groups.rows) : p.2.appName ≠ appName := by
  simpa using List.find?_eq_none.mp h p hp

/-- The group was there, or it gets the next id. -/
theorem savedGroup_cases (h : savedGroup groups registration = some saved) :
    (∃ group, (saved.groupId, group) ∈ groups.rows ∧ saved.group.appName = group.appName ∧
      saved.groups = groups.put saved.groupId saved.group) ∨
    (saved.groupId = groups.next ∧ saved.groups = groups.insert saved.group ∧
      ∀ p ∈ groups.rows, p.2.appName ≠ saved.group.appName) := by
  cases registration with
  | checkAndSave clientInfo instances =>
    simp only [savedGroup] at h
    cases hfind : clientInfo.appName.bind (findByAppName groups) with
    | some p =>
      obtain ⟨appName, -, hp⟩ := Option.bind_eq_some_iff.mp hfind
      simp only [hfind, Option.some.injEq] at h
      subst h
      exact .inl ⟨p.2, (findByAppName_some hp).1, rfl, rfl⟩
    | none =>
      cases happName : clientInfo.appName with
      | none => simp [happName] at h
      | some appName =>
        cases hname : clientInfo.name with
        | none => simp [happName, hname] at h hfind; simp [hfind] at h
        | some name =>
          rw [happName, Option.bind_some] at hfind
          simp only [happName, hname, Option.bind_some, hfind, Option.some.injEq] at h
          subst h
          exact .inr ⟨rfl, rfl, fun p hp => findByAppName_none hfind hp⟩
  | listening serviceName instances =>
    simp only [savedGroup, Option.map_eq_some_iff] at h
    obtain ⟨p, hp, rfl⟩ := h
    exact .inl ⟨p.2, (findByAppName_some hp).1, rfl, rfl⟩

/-- How the keys of the jobs stand to the group that was saved. -/
structure Placed (db : JobDatabase) (saved : SavedGroup) : Prop where
  inside : ∀ job : JobEntity, job.jobGroupId = some saved.groupId → ∀ key,
    keyOf saved.groups job = some key ↔
      key.1 = saved.group.appName ∧ job.name = some key.2
  same : ∀ p ∈ db.jobs.rows, keyOf saved.groups p.2 = keyOf db.groups p.2
  outside : ∀ p ∈ db.jobs.rows, p.2.jobGroupId ≠ some saved.groupId → ∀ key,
    keyOf db.groups p.2 = some key → key.1 ≠ saved.group.appName

theorem keyOf_congr {groups' : Table JobGroupEntity} {job : JobEntity}
    (h : ∀ id, job.jobGroupId = some id → ∀ appName, (∃ group, (id, group) ∈ groups'.rows ∧
      appName = group.appName) ↔ ∃ group, (id, group) ∈ groups.rows ∧ appName = group.appName) :
    keyOf groups' job = keyOf groups job := by
  apply Option.ext
  intro key
  rw [keyOf_eq_some, keyOf_eq_some]
  constructor
  · intro hexists
    obtain ⟨id, group, hid, hgroup, hname, happ⟩ := hexists
    obtain ⟨group', hgroup', happ'⟩ := (h id hid key.1).mp ⟨group, hgroup, happ⟩
    exact ⟨id, group', hid, hgroup', hname, happ'⟩
  · intro hexists
    obtain ⟨id, group, hid, hgroup, hname, happ⟩ := hexists
    obtain ⟨group', hgroup', happ'⟩ := (h id hid key.1).mpr ⟨group, hgroup, happ⟩
    exact ⟨id, group', hid, hgroup', hname, happ'⟩

/-- The saved group is the one under its id. -/
theorem mem_savedGroup_self (h : savedGroup db.groups registration = some saved)
    (group : JobGroupEntity) :
    (saved.groupId, group) ∈ saved.groups.rows ↔ group = saved.group := by
  rcases savedGroup_cases h with ⟨old, hold, -, hgroups⟩ | ⟨hid, hgroups, -⟩
  · rw [hgroups, Table.mem_put]
    constructor
    · intro hcases
      rcases hcases with ⟨-, hne⟩ | ⟨heq, -⟩
      · exact absurd rfl hne
      · exact (Prod.ext_iff.mp heq).2
    · intro hsame
      subst hsame
      exact .inr ⟨rfl, old, hold⟩
  · rw [hgroups, hid, Table.mem_insert]
    constructor
    · intro hcases
      rcases hcases with hmem | heq
      · exact absurd (db.groups.fresh _ hmem) (Int.lt_irrefl _)
      · exact (Prod.ext_iff.mp heq).2
    · intro hsame
      subst hsame
      exact .inr rfl

/-- A group that there was keeps its app name. -/
theorem appName_savedGroup (h : savedGroup db.groups registration = some saved) {id : Int}
    (hlt : id < db.groups.next) (appName : String) :
    (∃ group, (id, group) ∈ saved.groups.rows ∧ appName = group.appName) ↔
      ∃ group, (id, group) ∈ db.groups.rows ∧ appName = group.appName := by
  rcases savedGroup_cases h with ⟨old, hold, happ, hgroups⟩ | ⟨-, hgroups, -⟩
  · simp only [hgroups, Table.mem_put, Prod.mk.injEq]
    constructor
    · intro hexists
      obtain ⟨group, ⟨hgroup, -⟩ | ⟨⟨hsaved, hgroup⟩, -⟩, heq⟩ := hexists
      · exact ⟨group, hgroup, heq⟩
      · exact ⟨old, hsaved ▸ hold, by rw [heq, hgroup, happ]⟩
    · intro hexists
      obtain ⟨group, hgroup, rfl⟩ := hexists
      by_cases hsaved : id = saved.groupId
      · have heq : group = old := congrArg Prod.snd (Table.eq_of_mem hgroup hold hsaved)
        exact ⟨saved.group, .inr ⟨⟨hsaved, rfl⟩, old, hold⟩, by rw [happ, heq]⟩
      · exact ⟨group, .inl ⟨hgroup, hsaved⟩, rfl⟩
  · simp only [hgroups, Table.mem_insert, Prod.mk.injEq]
    constructor
    · intro hexists
      obtain ⟨group, hgroup | ⟨hnext, -⟩, rfl⟩ := hexists
      · exact ⟨group, hgroup, rfl⟩
      · omega
    · intro hexists
      obtain ⟨group, hgroup, rfl⟩ := hexists
      exact ⟨group, .inl hgroup, rfl⟩

theorem placed_of_savedGroup (hwell : WellFormed db)
    (h : savedGroup db.groups registration = some saved) : Placed db saved := by
  constructor
  · intro job hjob key
    rw [keyOf_eq_some]
    constructor
    · intro hexists
      obtain ⟨id, group, hid, hgroup, hname, happ⟩ := hexists
      obtain rfl : saved.groupId = id := Option.some.inj (hjob.symm.trans hid)
      rw [(mem_savedGroup_self h group).mp hgroup] at happ
      exact ⟨happ, hname⟩
    · intro hboth
      obtain ⟨happ, hname⟩ := hboth
      exact ⟨saved.groupId, saved.group, hjob, (mem_savedGroup_self h _).mpr rfl, hname, happ⟩
  · intro p hp
    exact keyOf_congr fun id hid => appName_savedGroup h (hwell.allocated p hp id hid)
  · intro p hp hne key hkey happ
    obtain ⟨id, group, hid, hgroup, -, happ'⟩ := keyOf_eq_some.mp hkey
    rcases savedGroup_cases h with ⟨old, hold, holdApp, -⟩ | ⟨-, -, hfresh⟩
    · have heq := hwell.unique _ hgroup _ hold (happ'.symm.trans (happ.trans holdApp))
      exact hne (hid.trans (congrArg some heq))
    · exact hfresh _ hgroup (happ'.symm.trans happ)

end Groups

/-! ## When a registration is followed -/

section Registers

variable (valid : String → Bool) (infos : List JobInfo) (groupId : Int) (jobs : Table JobEntity)

def NoneGone : Prop := ∀ p ∈ gone infos groupId jobs, p.2.status ≠ some .running

def NoneAdded : Prop := ∀ job ∈ newAdd infos groupId jobs, job.status = some .running →
  ∀ cron, job.cron = some cron → valid cron = false

def AllAdded : Prop := ∀ job ∈ newAdd infos groupId jobs, job.status = some .running →
  ∀ cron, job.cron = some cron → valid cron = true

/-- A running job that stays is registered as it is scheduled. -/
def Unchanged : Prop := ∀ p ∈ findAllByJobGroupId groupId jobs, ∀ info,
  infoOf infos p.2 = some info → p.2.status = some .running →
    p.2.cron = info.cron ∧ p.2.retryTimes = some info.retryTimes ∧
      p.2.routeStrategy = info.routeStrategy

/-- A new row with a `null` that its column does not take. -/
def NewNull : Prop := ∃ job ∈ newAdd infos groupId jobs, ¬ job.NotNull

/-- The same for a row that stays. -/
def KeptNull : Prop := ∃ p ∈ findAllByJobGroupId groupId jobs, ∃ info,
  infoOf infos p.2 = some info ∧ ¬ (p.2.update info).NotNull

/-- A registration that fails has changed nothing in the scheduler before; one that comes
through brings valid crons and leaves the running jobs as they are scheduled. -/
def Registers : Prop :=
  Ambiguous infos groupId jobs ∨
    ¬ Ambiguous infos groupId jobs ∧
      (NewNull infos groupId jobs ∧ NoneGone infos groupId jobs ∨
        ¬ NewNull infos groupId jobs ∧
          (KeptNull infos groupId jobs ∧ NoneGone infos groupId jobs ∧
              NoneAdded valid infos groupId jobs ∨
            ¬ KeptNull infos groupId jobs ∧ AllAdded valid infos groupId jobs ∧
              Unchanged infos groupId jobs))

end Registers

section Cases

variable {valid : String → Bool} {port : JInt} {infos : List JobInfo} {s : SingleServer}
  {saved : SavedGroup} {key : String × String}

/-- The rows of the group that have a key. -/
theorem keyOf_iff_name (hplaced : Placed s.db saved) {p : Int × JobEntity}
    (hp : p ∈ findAllByJobGroupId saved.groupId s.db.jobs) :
    keyOf s.db.groups p.2 = some key ↔ key.1 = saved.group.appName ∧ p.2.name = some key.2 := by
  obtain ⟨hrow, hgroup⟩ := mem_findAllByJobGroupId.mp hp
  rw [← hplaced.same p hrow]
  exact hplaced.inside p.2 hgroup key

theorem exists_scheduled (h : s.Agrees) {p : Int × JobEntity} (hp : p ∈ s.db.jobs.rows)
    (hkey : keyOf s.db.groups p.2 = some key) (hstatus : p.2.status = some .running) :
    ∃ scheduled, s.scheduler key = some scheduled ∧ Matches scheduled p.2 := by
  obtain ⟨scheduled, hscheduled⟩ :=
    Option.isSome_iff_exists.mp ((h.isSome key).mpr ⟨p, hp, hkey, hstatus⟩)
  exact ⟨scheduled, hscheduled, h.entry p hp key hkey hstatus scheduled hscheduled⟩

theorem exists_row (h : s.Agrees) {scheduled : Scheduled}
    (hscheduled : s.scheduler key = some scheduled) :
    ∃ p ∈ s.db.jobs.rows, keyOf s.db.groups p.2 = some key ∧ p.2.status = some .running :=
  (h.isSome key).mp (Option.isSome_iff_exists.mpr ⟨scheduled, hscheduled⟩)

/-- A scheduled job of the group is a running row of it. -/
theorem exists_row_of_group (h : s.Agrees) (hplaced : Placed s.db saved) {scheduled : Scheduled}
    (hscheduled : s.scheduler key = some scheduled) (happ : key.1 = saved.group.appName) :
    ∃ p ∈ findAllByJobGroupId saved.groupId s.db.jobs,
      p.2.name = some key.2 ∧ p.2.status = some .running := by
  obtain ⟨p, hp, hkey, hstatus⟩ := exists_row h hscheduled
  by_cases hgroup : p.2.jobGroupId = some saved.groupId
  · have hmem := mem_findAllByJobGroupId.mpr ⟨hp, hgroup⟩
    exact ⟨p, hmem, ((keyOf_iff_name hplaced hmem).mp hkey).2, hstatus⟩
  · exact absurd happ (hplaced.outside p hp hgroup key hkey)

theorem name_ne_none {p : Int × JobEntity} (hp : p ∈ s.db.jobs.rows) :
    ∃ name, p.2.name = some name :=
  Option.ne_none_iff_exists'.mp (s.db.not_null p hp).2.1

theorem removeGone_of_noneGone {groupId : Int} {group : JobGroupEntity} {jobs : Table JobEntity}
    {scheduler : Scheduler} (h : NoneGone infos groupId jobs) :
    removeGone infos groupId group jobs scheduler = scheduler := by
  funext key
  apply removeGone_of_not
  intro hexists
  obtain ⟨p, hp, hrunning, -⟩ := hexists
  exact h p hp hrunning

/-- Among the new jobs there is none with the name of a row. -/
theorem name_ne_of_newAdd {groupId : Int} {jobs : Table JobEntity} {job : JobEntity}
    (hjob : job ∈ newAdd infos groupId jobs) {p : Int × JobEntity}
    (hp : p ∈ findAllByJobGroupId groupId jobs) : p.2.name ≠ job.name := by
  obtain ⟨info, -, hnew, rfl⟩ := mem_newAdd.mp hjob
  exact hnew p hp

theorem of_addNew {groupId : Int} {group : JobGroupEntity} {jobs : Table JobEntity}
    {scheduler : Scheduler} {scheduled : Scheduled}
    (h : addNew valid port infos groupId group jobs scheduler key = some scheduled) :
    scheduler key = some scheduled ∨ ∃ job ∈ newAdd infos groupId jobs,
      job.status ≠ some .stop ∧ Entry valid group job key scheduled := by
  rw [addNew_eq] at h
  rcases of_scheduleAll h with hold | ⟨a, ha, hentry⟩
  · exact .inl hold
  · obtain ⟨job, hjob, rfl⟩ := List.mem_map.mp ha
    rw [List.mem_filter, decide_eq_true_eq] at hjob
    exact .inr ⟨job, hjob.1, hjob.2, hentry⟩

theorem addNew_of_some {groupId : Int} {group : JobGroupEntity} {jobs : Table JobEntity}
    {scheduler : Scheduler} {scheduled : Scheduled} (h : scheduler key = some scheduled) :
    addNew valid port infos groupId group jobs scheduler key = some scheduled := by
  rw [addNew_eq]
  exact scheduleAll_of_some h

theorem isSome_addNew (port : JInt) (group : JobGroupEntity) (scheduler : Scheduler)
    {groupId : Int} {jobs : Table JobEntity} {job : JobEntity} (hjob : job ∈ newAdd infos groupId jobs)
    (hstatus : job.status = some .running) {name cron : String} (hname : job.name = some name)
    (hcron : job.cron = some cron) (hvalid : valid cron = true) :
    (addNew valid port infos groupId group jobs scheduler (group.appName, name)).isSome := by
  rw [addNew_eq]
  have hmem : (group, job) ∈ ((newAdd infos groupId jobs).filter
      fun job => job.status ≠ some .stop).map fun job => (group, job) := by
    refine List.mem_map_of_mem (List.mem_filter.mpr ⟨hjob, ?_⟩)
    simp [hstatus]
  exact isSome_scheduleAll port scheduler hmem hname hcron hvalid

theorem status_of_notNull {job : JobEntity} (hnull : job.NotNull) (hstop : job.status ≠ some .stop) :
    job.status = some .running := by
  obtain ⟨status, hstatus⟩ := Option.ne_none_iff_exists'.mp hnull.2.2.2.2.1
  cases status with
  | stop => exact absurd hstatus hstop
  | running => exact hstatus

/-- A job that is gone, and was running, is scheduled as long as its row is there. -/
theorem Agrees.isSome_gone {scheduler : Scheduler} (h : Agrees ⟨s.db, scheduler⟩)
    (hplaced : Placed s.db saved) {p : Int × JobEntity}
    (hp : p ∈ gone infos saved.groupId s.db.jobs) (hrunning : p.2.status = some .running) :
    ∃ name, p.2.name = some name ∧
      RunningGone infos saved.groupId saved.group s.db.jobs (saved.group.appName, name) ∧
      (scheduler (saved.group.appName, name)).isSome := by
  have hmem := (mem_gone.mp hp).1
  have hrow := (mem_findAllByJobGroupId.mp hmem).1
  obtain ⟨name, hname⟩ := name_ne_none hrow
  have hkey : keyOf s.db.groups p.2 = some (saved.group.appName, name) :=
    (keyOf_iff_name hplaced hmem).mpr ⟨rfl, hname⟩
  exact ⟨name, hname, ⟨p, hp, hrunning, rfl, hname⟩, (h.isSome _).mpr ⟨p, hrow, hkey, hrunning⟩⟩

/-- The rows are rolled back, but the jobs that are gone are removed. -/
theorem agrees_of_newNull (h : s.Agrees) (hplaced : Placed s.db saved) :
    Agrees ⟨s.db, removeGone infos saved.groupId saved.group s.db.jobs s.scheduler⟩ ↔
      NoneGone infos saved.groupId s.db.jobs := by
  constructor
  · intro hafter p hp hrunning
    obtain ⟨name, -, hgone, hsome⟩ := hafter.isSome_gone hplaced hp hrunning
    rw [removeGone_of_runningGone hgone] at hsome
    cases hsome
  · intro hnone
    rw [removeGone_of_noneGone hnone]
    exact h

/-- The rows are rolled back after the new jobs have been added, too. -/
theorem agrees_of_keptNull (h : s.Agrees) (hplaced : Placed s.db saved)
    (hnew : ¬ NewNull infos saved.groupId s.db.jobs) :
    Agrees ⟨s.db, addNew valid port infos saved.groupId saved.group s.db.jobs
      (removeGone infos saved.groupId saved.group s.db.jobs s.scheduler)⟩ ↔
        NoneGone infos saved.groupId s.db.jobs ∧ NoneAdded valid infos saved.groupId s.db.jobs := by
  constructor
  · intro hafter
    constructor
    · intro p hp hrunning
      obtain ⟨name, hname, hgone, hsome⟩ := hafter.isSome_gone hplaced hp hrunning
      obtain ⟨scheduled, hscheduled⟩ := Option.isSome_iff_exists.mp hsome
      rcases of_addNew hscheduled with hold | ⟨job, hjob, -, hentry⟩
      · rw [removeGone_of_runningGone hgone] at hold
        cases hold
      · exact name_ne_of_newAdd hjob (mem_gone.mp hp).1 (hname.trans hentry.name.symm)
    · intro job hjob hrunning cron hcron
      by_contra hvalid
      have hnull : job.NotNull := not_not.mp fun hnull => hnew ⟨job, hjob, hnull⟩
      obtain ⟨name, hname⟩ := Option.ne_none_iff_exists'.mp hnull.2.1
      have hsome := isSome_addNew port saved.group
        (removeGone infos saved.groupId saved.group s.db.jobs s.scheduler) hjob hrunning hname hcron
        (by simpa using hvalid)
      obtain ⟨scheduled, hscheduled⟩ := Option.isSome_iff_exists.mp hsome
      obtain ⟨p, hp, hpname, -⟩ := exists_row_of_group hafter hplaced hscheduled rfl
      exact name_ne_of_newAdd hjob hp (hpname.trans hname.symm)
  · intro hboth
    obtain ⟨hgone, hadded⟩ := hboth
    have hsame : addNew valid port infos saved.groupId saved.group s.db.jobs s.scheduler =
        s.scheduler := by
      funext key
      cases hkey : addNew valid port infos saved.groupId saved.group s.db.jobs s.scheduler key with
      | none =>
        cases hold : s.scheduler key with
        | none => rfl
        | some scheduled =>
          rw [addNew_of_some hold] at hkey
          cases hkey
      | some scheduled =>
        rcases of_addNew hkey with hold | ⟨job, hjob, hstop, hentry⟩
        · exact hold.symm
        · have hnull : job.NotNull := not_not.mp fun hnull => hnew ⟨job, hjob, hnull⟩
          have hinvalid := hadded job hjob (status_of_notNull hnull hstop) _ hentry.cron
          rw [hentry.valid] at hinvalid
          cases hinvalid
    rw [removeGone_of_noneGone hgone, hsame]
    exact h

/-! ### A registration that comes through -/

/-- The scheduler after a registration that comes through. -/
def registered (valid : String → Bool) (port : JInt) (infos : List JobInfo) (s : SingleServer)
    (saved : SavedGroup) : Scheduler :=
  addNew valid port infos saved.groupId saved.group s.db.jobs
    (removeGone infos saved.groupId saved.group s.db.jobs s.scheduler)

theorem registered_of_some {scheduled : Scheduled} (hscheduled : s.scheduler key = some scheduled)
    (hgone : ¬ RunningGone infos saved.groupId saved.group s.db.jobs key) :
    registered valid port infos s saved key = some scheduled := by
  apply addNew_of_some
  rw [removeGone_of_not hgone]
  exact hscheduled

/-- A job that stays is not one that is gone. -/
theorem not_runningGone {p : Int × JobEntity} {info : JobInfo}
    (hinfo : infoOf infos p.2 = some info) (hname : p.2.name = some key.2) :
    ¬ RunningGone infos saved.groupId saved.group s.db.jobs key := by
  intro hexists
  obtain ⟨q, hq, -, -, hqname⟩ := hexists
  have hnone := (mem_gone.mp hq).2
  rw [infoOf_congr (hqname.trans hname.symm), hinfo] at hnone
  cases hnone

theorem name_update {job : JobEntity} {info : JobInfo} (hinfo : infoOf infos job = some info) :
    (job.update info).name = job.name :=
  (infoOf_eq_some hinfo).2

theorem jobGroupId_of_newAdd {groupId : Int} {jobs : Table JobEntity} {job : JobEntity}
    (hjob : job ∈ newAdd infos groupId jobs) : job.jobGroupId = some groupId := by
  obtain ⟨info, -, -, rfl⟩ := mem_newAdd.mp hjob
  rfl

theorem newAdd_ext {groupId : Int} {jobs : Table JobEntity} (hnodup : (infos.map JobInfo.name).Nodup)
    {job job' : JobEntity} (hjob : job ∈ newAdd infos groupId jobs)
    (hjob' : job' ∈ newAdd infos groupId jobs) (hname : job.name = job'.name) : job = job' := by
  obtain ⟨info, hinfo, -, rfl⟩ := mem_newAdd.mp hjob
  obtain ⟨info', hinfo', -, rfl⟩ := mem_newAdd.mp hjob'
  rw [List.inj_on_of_nodup_map hnodup hinfo hinfo' hname]

/-- What is scheduled under the name of a new job comes from that job. -/
theorem entry_of_newAdd (h : s.Agrees) (hplaced : Placed s.db saved)
    (hnodup : (infos.map JobInfo.name).Nodup) {job : JobEntity}
    (hjob : job ∈ newAdd infos saved.groupId s.db.jobs) (happ : key.1 = saved.group.appName)
    (hname : job.name = some key.2) {scheduled : Scheduled}
    (hscheduled : registered valid port infos s saved key = some scheduled) :
    Entry valid saved.group job key scheduled := by
  rcases of_addNew hscheduled with hold | ⟨job', hjob', -, hentry⟩
  · by_cases hgone : RunningGone infos saved.groupId saved.group s.db.jobs key
    · rw [removeGone_of_runningGone hgone] at hold
      cases hold
    · rw [removeGone_of_not hgone] at hold
      obtain ⟨p, hp, hpname, -⟩ := exists_row_of_group h hplaced hold happ
      exact absurd (hpname.trans hname.symm) (name_ne_of_newAdd hjob hp)
  · rwa [newAdd_ext hnodup hjob hjob' (hname.trans hentry.name.symm)]

/-- Every running row is scheduled as it is. -/
theorem exists_registered (h : s.Agrees) (hplaced : Placed s.db saved)
    (hnodup : (infos.map JobInfo.name).Nodup)
    (hall : AllAdded valid infos saved.groupId s.db.jobs)
    (hsame : Unchanged infos saved.groupId s.db.jobs) {p : Int × JobEntity}
    (hp : p ∈ (savedRows infos saved.groupId s.db.jobs).rows) (hnull : p.2.NotNull)
    (hkey : keyOf saved.groups p.2 = some key) (hstatus : p.2.status = some .running) :
    ∃ scheduled, registered valid port infos s saved key = some scheduled ∧
      Matches scheduled p.2 := by
  rcases mem_savedRows.mp hp with ⟨hrow, hgroup⟩ | ⟨job, info, hjob, hinfo, heq⟩ | ⟨i, hi, -⟩
  · rw [hplaced.same p hrow] at hkey
    obtain ⟨scheduled, hscheduled, hmatches⟩ := exists_scheduled h hrow hkey hstatus
    refine ⟨scheduled, registered_of_some hscheduled ?_, hmatches⟩
    intro hexists
    obtain ⟨q, -, -, happ, -⟩ := hexists
    exact hplaced.outside p hrow hgroup key hkey happ
  · obtain ⟨hrow, hgroup⟩ := mem_findAllByJobGroupId.mp hjob
    rw [heq] at hkey hstatus ⊢
    rw [hplaced.inside (job.update info) hgroup, name_update hinfo] at hkey
    obtain ⟨scheduled, hscheduled, hmatches⟩ :=
      exists_scheduled h hrow ((keyOf_iff_name hplaced hjob).mpr hkey) hstatus
    obtain ⟨hcron, hretry, hroute⟩ := hsame _ hjob info hinfo hstatus
    exact ⟨scheduled, registered_of_some hscheduled (not_runningGone (p := (p.1, job)) hinfo hkey.2),
      hmatches.cron.trans hcron, hmatches.jobCron.trans hcron, hmatches.retryTimes.trans hretry,
      hmatches.routeStrategy.trans hroute⟩
  · have hjob := List.mem_of_getElem? hi
    rw [hplaced.inside _ (jobGroupId_of_newAdd hjob)] at hkey
    obtain ⟨cron, hcron⟩ := Option.ne_none_iff_exists'.mp hnull.2.2.1
    have hsome := isSome_addNew port saved.group
      (removeGone infos saved.groupId saved.group s.db.jobs s.scheduler) hjob hstatus hkey.2 hcron
      (hall p.2 hjob hstatus cron hcron)
    obtain ⟨scheduled, hscheduled⟩ := Option.isSome_iff_exists.mp hsome
    have hkeyEq : key = (saved.group.appName, key.2) := Prod.ext hkey.1 rfl
    rw [← hkeyEq] at hscheduled
    exact ⟨scheduled, hscheduled,
      (entry_of_newAdd h hplaced hnodup hjob hkey.1 hkey.2 hscheduled).matches⟩

theorem mem_savedRows_of_kept {p : Int × JobEntity} {info : JobInfo}
    (hp : p ∈ findAllByJobGroupId saved.groupId s.db.jobs) (hinfo : infoOf infos p.2 = some info) :
    (p.1, p.2.update info) ∈ (savedRows infos saved.groupId s.db.jobs).rows :=
  mem_savedRows.mpr (.inr (.inl ⟨p.2, info, hp, hinfo, rfl⟩))

theorem exists_mem_savedRows_of_new {job : JobEntity}
    (hjob : job ∈ newAdd infos saved.groupId s.db.jobs) :
    ∃ id, (id, job) ∈ (savedRows infos saved.groupId s.db.jobs).rows := by
  obtain ⟨i, hi⟩ := List.getElem?_of_mem hjob
  exact ⟨_, mem_savedRows.mpr (.inr (.inr ⟨i, hi, rfl⟩))⟩

/-- A scheduled job is a running row. -/
theorem exists_savedRow (h : s.Agrees) (hplaced : Placed s.db saved)
    (hnew : ¬ NewNull infos saved.groupId s.db.jobs) {scheduled : Scheduled}
    (hscheduled : registered valid port infos s saved key = some scheduled) :
    ∃ p ∈ (savedRows infos saved.groupId s.db.jobs).rows,
      keyOf saved.groups p.2 = some key ∧ p.2.status = some .running := by
  rcases of_addNew hscheduled with hold | ⟨job, hjob, hstop, hentry⟩
  · have hgone : ¬ RunningGone infos saved.groupId saved.group s.db.jobs key := by
      intro hgone
      rw [removeGone_of_runningGone hgone] at hold
      cases hold
    rw [removeGone_of_not hgone] at hold
    obtain ⟨p, hp, hkey, hstatus⟩ := exists_row h hold
    by_cases hgroup : p.2.jobGroupId = some saved.groupId
    · have hmem := mem_findAllByJobGroupId.mpr ⟨hp, hgroup⟩
      have hname := (keyOf_iff_name hplaced hmem).mp hkey
      cases hinfo : infoOf infos p.2 with
      | none => exact absurd ⟨p, mem_gone.mpr ⟨hmem, hinfo⟩, hstatus, hname⟩ hgone
      | some info =>
        refine ⟨_, mem_savedRows_of_kept hmem hinfo, ?_, hstatus⟩
        rw [hplaced.inside (p.2.update info) hgroup, name_update hinfo]
        exact hname
    · exact ⟨p, mem_savedRows.mpr (.inl ⟨hp, hgroup⟩), (hplaced.same p hp).trans hkey, hstatus⟩
  · obtain ⟨id, hid⟩ := exists_mem_savedRows_of_new hjob
    have hnull : job.NotNull := not_not.mp fun hnull => hnew ⟨job, hjob, hnull⟩
    refine ⟨_, hid, ?_, status_of_notNull hnull hstop⟩
    rw [hplaced.inside _ (jobGroupId_of_newAdd hjob)]
    exact ⟨hentry.appName, hentry.name⟩

theorem agrees_of_saved (h : s.Agrees) (hplaced : Placed s.db saved)
    (hnodup : (infos.map JobInfo.name).Nodup) (hnew : ¬ NewNull infos saved.groupId s.db.jobs)
    (hnull : ∀ p ∈ (savedRows infos saved.groupId s.db.jobs).rows, p.2.NotNull) :
    Agrees ⟨⟨saved.groups, savedRows infos saved.groupId s.db.jobs, hnull⟩,
      registered valid port infos s saved⟩ ↔
        AllAdded valid infos saved.groupId s.db.jobs ∧
          Unchanged infos saved.groupId s.db.jobs := by
  constructor
  · intro hafter
    constructor
    · intro job hjob hrunning cron hcron
      obtain ⟨id, hid⟩ := exists_mem_savedRows_of_new hjob
      obtain ⟨name, hname⟩ := Option.ne_none_iff_exists'.mp (hnull _ hid).2.1
      have hkey : keyOf saved.groups job = some (saved.group.appName, name) :=
        (hplaced.inside _ (jobGroupId_of_newAdd hjob) _).mpr ⟨rfl, hname⟩
      obtain ⟨scheduled, hscheduled, -⟩ := exists_scheduled hafter hid hkey hrunning
      have hentry := entry_of_newAdd h hplaced hnodup hjob rfl hname hscheduled
      have heq : scheduled.cron = cron := Option.some.inj (hentry.cron.symm.trans hcron)
      exact heq ▸ hentry.valid
    · intro p hp info hinfo hrunning
      obtain ⟨hrow, hgroup⟩ := mem_findAllByJobGroupId.mp hp
      obtain ⟨name, hname⟩ := name_ne_none hrow
      have hkey : keyOf s.db.groups p.2 = some (saved.group.appName, name) :=
        (keyOf_iff_name hplaced hp).mpr ⟨rfl, hname⟩
      obtain ⟨scheduled, hscheduled, hmatches⟩ := exists_scheduled h hrow hkey hrunning
      have hkey' : keyOf saved.groups (p.2.update info) = some (saved.group.appName, name) := by
        rw [hplaced.inside (p.2.update info) hgroup, name_update hinfo]
        exact ⟨rfl, hname⟩
      have hmatches' : Matches scheduled (p.2.update info) :=
        hafter.entry _ (mem_savedRows_of_kept hp hinfo) _ hkey' hrunning scheduled
          (registered_of_some hscheduled (not_runningGone hinfo hname))
      exact ⟨hmatches.cron.symm.trans hmatches'.cron,
        hmatches.retryTimes.symm.trans hmatches'.retryTimes,
        hmatches.routeStrategy.symm.trans hmatches'.routeStrategy⟩
  · intro hboth
    obtain ⟨hall, hsame⟩ := hboth
    constructor
    · intro key
      constructor
      · intro hsome
        obtain ⟨scheduled, hscheduled⟩ := Option.isSome_iff_exists.mp hsome
        exact exists_savedRow h hplaced hnew hscheduled
      · intro hexists
        obtain ⟨p, hp, hkey, hstatus⟩ := hexists
        obtain ⟨scheduled, hscheduled, -⟩ :=
          exists_registered h hplaced hnodup hall hsame hp (hnull p hp) hkey hstatus
        exact Option.isSome_iff_exists.mpr ⟨scheduled, hscheduled⟩
    · intro p hp key hkey hstatus scheduled hscheduled
      obtain ⟨scheduled', hscheduled', hmatches⟩ :=
        exists_registered h hplaced hnodup hall hsame hp (hnull p hp) hkey hstatus
      obtain rfl : scheduled' = scheduled := Option.some.inj (hscheduled'.symm.trans hscheduled)
      exact hmatches

/-! ### One registration -/

/-- The transaction can be committed. -/
theorem notNull_savedRows {groupId : Int} {db : JobDatabase} :
    (∀ p ∈ (savedRows infos groupId db.jobs).rows, p.2.NotNull) ↔
      ¬ NewNull infos groupId db.jobs ∧ ¬ KeptNull infos groupId db.jobs := by
  constructor
  · intro hnull
    constructor
    · intro hnew
      obtain ⟨job, hjob, hnot⟩ := hnew
      obtain ⟨i, hi⟩ := List.getElem?_of_mem hjob
      exact hnot (hnull (db.jobs.next + i, job) (mem_savedRows.mpr (.inr (.inr ⟨i, hi, rfl⟩))))
    · intro hkept
      obtain ⟨p, hp, info, hinfo, hnot⟩ := hkept
      exact hnot (hnull (p.1, p.2.update info)
        (mem_savedRows.mpr (.inr (.inl ⟨p.2, info, hp, hinfo, rfl⟩))))
  · intro h p hp
    obtain ⟨hnew, hkept⟩ := h
    rcases mem_savedRows.mp hp with ⟨hrow, -⟩ | ⟨job, info, hjob, hinfo, heq⟩ | ⟨i, hi, -⟩
    · exact db.not_null p hrow
    · rw [heq]
      exact not_not.mp fun hnot => hkept ⟨(p.1, job), hjob, info, hinfo, hnot⟩
    · exact not_not.mp fun hnot => hnew ⟨p.2, List.mem_of_getElem? hi, hnot⟩

/-- An empty list of instances moves the addresses of the group only. -/
theorem agrees_of_noInstance (h : s.Agrees) (hplaced : Placed s.db saved) :
    Agrees ⟨⟨saved.groups, s.db.jobs, s.db.not_null⟩, s.scheduler⟩ := by
  constructor
  · intro key
    rw [h.isSome key]
    constructor
    · intro hrow
      obtain ⟨p, hp, hkey, hstatus⟩ := hrow
      exact ⟨p, hp, (hplaced.same p hp).trans hkey, hstatus⟩
    · intro hrow
      obtain ⟨p, hp, hkey, hstatus⟩ := hrow
      exact ⟨p, hp, (hplaced.same p hp).symm.trans hkey, hstatus⟩
  · intro p hp key hkey
    exact h.entry p hp key ((hplaced.same p hp).symm.trans hkey)

/-- The group that a registration saves follows the jobs of the first instance. -/
def Follows (valid : String → Bool) (s : SingleServer) (registration : Registration) : Prop :=
  ∀ saved, savedGroup s.db.groups registration = some saved →
    ∀ i ∈ registration.instances.head?, Registers valid i.jobs saved.groupId s.db.jobs

theorem step_of_none {registration : Registration}
    (hsaved : savedGroup s.db.groups registration = none) :
    step valid port s registration = s := by
  rw [step, hsaved]

theorem commit_of_notNull {db : JobDatabase} {groups : Table JobGroupEntity}
    {jobs : Table JobEntity} (hnull : ∀ p ∈ jobs.rows, p.2.NotNull) :
    db.commit groups jobs = ⟨groups, jobs, hnull⟩ := dif_pos hnull

theorem commit_of_not {db : JobDatabase} {groups : Table JobGroupEntity} {jobs : Table JobEntity}
    (hnull : ¬ ∀ p ∈ jobs.rows, p.2.NotNull) : db.commit groups jobs = db := dif_neg hnull

variable (valid port) in
/-- All that a registration can do to the tables and the scheduler. -/
theorem step_cases {registration : Registration}
    (hsaved : savedGroup s.db.groups registration = some saved) :
    (registration.instances = [] ∧ step valid port s registration =
        ⟨⟨saved.groups, s.db.jobs, s.db.not_null⟩, s.scheduler⟩) ∨
    ∃ i, registration.instances.head? = some i ∧
      ((Ambiguous i.jobs saved.groupId s.db.jobs ∧ step valid port s registration = s) ∨
      ¬ Ambiguous i.jobs saved.groupId s.db.jobs ∧
        ((NewNull i.jobs saved.groupId s.db.jobs ∧ step valid port s registration =
          ⟨s.db, removeGone i.jobs saved.groupId saved.group s.db.jobs s.scheduler⟩) ∨
        ¬ NewNull i.jobs saved.groupId s.db.jobs ∧
          ((KeptNull i.jobs saved.groupId s.db.jobs ∧ step valid port s registration =
            ⟨s.db, registered valid port i.jobs s saved⟩) ∨
          ¬ KeptNull i.jobs saved.groupId s.db.jobs ∧
            ∃ hnull, step valid port s registration =
              ⟨⟨saved.groups, savedRows i.jobs saved.groupId s.db.jobs, hnull⟩,
                registered valid port i.jobs s saved⟩))) := by
  cases hinstances : registration.instances with
  | nil =>
    left
    simp only [step, hsaved, hinstances, saveJobs, commit_of_notNull s.db.not_null, and_self]
  | cons i rest =>
    refine .inr ⟨i, rfl, ?_⟩
    simp only [step, hsaved, hinstances, saveJobs]
    by_cases hambiguous : Ambiguous i.jobs saved.groupId s.db.jobs
    · left
      simp only [if_pos hambiguous, and_true]
      exact hambiguous
    · refine .inr ⟨hambiguous, ?_⟩
      by_cases hnew : NewNull i.jobs saved.groupId s.db.jobs
      · left
        simp only [if_neg hambiguous]
        rw [if_pos (by exact hnew)]
        exact ⟨hnew, rfl⟩
      · refine .inr ⟨hnew, ?_⟩
        simp only [if_neg hambiguous]
        rw [if_neg (by exact hnew)]
        by_cases hkept : KeptNull i.jobs saved.groupId s.db.jobs
        · refine .inl ⟨hkept, ?_⟩
          have hnull : ¬ ∀ p ∈ (savedRows i.jobs saved.groupId s.db.jobs).rows, p.2.NotNull := by
            intro hnull
            exact (notNull_savedRows.mp hnull).2 hkept
          simp only [commit_of_not hnull, registered]
        · have hnull := notNull_savedRows.mpr ⟨hnew, hkept⟩
          refine .inr ⟨hkept, hnull, ?_⟩
          simp only [commit_of_notNull hnull, registered]

theorem agrees_step (hwell : WellFormed s.db) (h : s.Agrees) (registration : Registration) :
    (step valid port s registration).Agrees ↔ Follows valid s registration := by
  cases hsaved : savedGroup s.db.groups registration with
  | none =>
    rw [step_of_none hsaved]
    refine iff_of_true h fun saved hsome => ?_
    rw [hsaved] at hsome
    cases hsome
  | some saved =>
    have hplaced := placed_of_savedGroup hwell hsaved
    have hfollows : Follows valid s registration ↔ ∀ i ∈ registration.instances.head?,
        Registers valid i.jobs saved.groupId s.db.jobs := by
      simp only [Follows, hsaved, Option.some.injEq, forall_eq']
    rw [hfollows]
    rcases step_cases valid port hsaved with
      ⟨hnil, hstep⟩ | ⟨i, hhead, hcases⟩
    · rw [hstep, hnil]
      refine iff_of_true (agrees_of_noInstance h hplaced) fun i hi => ?_
      cases hi
    · simp only [hhead, Option.mem_def, Option.some.injEq, forall_eq']
      unfold Registers
      rcases hcases with ⟨hambiguous, hstep⟩ | ⟨hambiguous, hcases⟩
      · rw [hstep]
        exact iff_of_true h (.inl hambiguous)
      · rcases hcases with ⟨hnew, hstep⟩ | ⟨hnew, hcases⟩
        · rw [hstep, agrees_of_newNull h hplaced]
          simp only [hambiguous, hnew, false_or, not_false_eq_true, not_true_eq_false, true_and,
            false_and, or_false]
        · rcases hcases with ⟨hkept, hstep⟩ | ⟨hkept, hnull, hstep⟩
          · rw [hstep, registered, agrees_of_keptNull h hplaced hnew]
            simp only [hambiguous, hnew, hkept, false_or, not_false_eq_true, not_true_eq_false,
              true_and, false_and, or_false]
          · have hnodup : (i.jobs.map JobInfo.name).Nodup := by
              by_contra hdup
              exact hambiguous (.inl hdup)
            rw [hstep, agrees_of_saved h hplaced hnodup hnew hnull]
            simp only [hambiguous, hnew, hkept, false_or, not_false_eq_true, true_and, false_and]

end Cases

/-! ## Runs -/

section Runs

variable {valid : String → Bool} {port : JInt} {db : JobDatabase} {s : SingleServer}
  {saved : SavedGroup}

/-- The rows of the jobs name groups that are there. -/
theorem jobGroupId_savedRows {infos : List JobInfo} {groupId : Int} {jobs : Table JobEntity}
    {p : Int × JobEntity} (hp : p ∈ (savedRows infos groupId jobs).rows) :
    p.2.jobGroupId = some groupId ∨ p ∈ jobs.rows := by
  rcases mem_savedRows.mp hp with ⟨hrow, -⟩ | ⟨job, info, hjob, -, heq⟩ | ⟨i, hi, -⟩
  · exact .inr hrow
  · rw [heq]
    exact .inl (mem_findAllByJobGroupId.mp hjob).2
  · exact .inl (jobGroupId_of_newAdd (List.mem_of_getElem? hi))

theorem groupId_lt {registration : Registration}
    (hsaved : savedGroup db.groups registration = some saved) :
    saved.groupId < saved.groups.next ∧ db.groups.next ≤ saved.groups.next := by
  rcases savedGroup_cases hsaved with ⟨group, hgroup, -, hgroups⟩ | ⟨hid, hgroups, -⟩
  · rw [hgroups]
    exact ⟨db.groups.fresh _ hgroup, Int.le_refl _⟩
  · rw [hgroups, hid, Table.next_insert]
    omega

theorem unique_savedGroup (hwell : WellFormed db) {registration : Registration}
    (hsaved : savedGroup db.groups registration = some saved) :
    ∀ p ∈ saved.groups.rows, ∀ q ∈ saved.groups.rows, p.2.appName = q.2.appName → p.1 = q.1 := by
  -- a saved row has the id and the name of a row that was there, or it is the only new one
  rcases savedGroup_cases hsaved with ⟨old, hold, happ, hgroups⟩ | ⟨-, hgroups, hfresh⟩
  · have hrow : ∀ p ∈ saved.groups.rows, ∃ q ∈ db.groups.rows,
        p.1 = q.1 ∧ p.2.appName = q.2.appName := by
      intro p hp
      rw [hgroups, Table.mem_put] at hp
      rcases hp with ⟨hp, -⟩ | ⟨rfl, -⟩
      · exact ⟨p, hp, rfl, rfl⟩
      · exact ⟨_, hold, rfl, happ⟩
    intro p hp q hq hname
    obtain ⟨p', hp', hpid, hpname⟩ := hrow p hp
    obtain ⟨q', hq', hqid, hqname⟩ := hrow q hq
    rw [hpid, hqid]
    exact hwell.unique p' hp' q' hq' (hpname.symm.trans (hname.trans hqname))
  · intro p hp q hq hname
    rw [hgroups, Table.mem_insert] at hp hq
    rcases hp with hp | rfl <;> rcases hq with hq | rfl
    · exact hwell.unique p hp q hq hname
    · exact absurd hname (hfresh p hp)
    · exact absurd hname.symm (hfresh q hq)
    · rfl

theorem wellFormed_step (hwell : WellFormed s.db) (registration : Registration) :
    WellFormed (step valid port s registration).db := by
  cases hsaved : savedGroup s.db.groups registration with
  | none =>
    rw [step_of_none hsaved]
    exact hwell
  | some saved =>
    obtain ⟨hid, hnext⟩ := groupId_lt hsaved
    have hunique := unique_savedGroup hwell hsaved
    rcases step_cases valid port hsaved with
      ⟨-, hstep⟩ | ⟨i, -, ⟨-, hstep⟩ | ⟨-, ⟨-, hstep⟩ | ⟨-, ⟨-, hstep⟩ | ⟨-, hnull, hstep⟩⟩⟩⟩ <;>
      rw [hstep]
    · exact ⟨hunique, fun p hp id hgroup => Int.lt_of_lt_of_le (hwell.allocated p hp id hgroup) hnext⟩
    · exact hwell
    · exact hwell
    · exact hwell
    · refine ⟨hunique, fun p hp id hgroup => ?_⟩
      rcases jobGroupId_savedRows hp with hsame | hrow
      · obtain rfl : saved.groupId = id := Option.some.inj (hsame.symm.trans hgroup)
        exact hid
      · exact Int.lt_of_lt_of_le (hwell.allocated p hrow id hgroup) hnext

theorem keepsStopped_step (s : SingleServer) (registration : Registration) :
    KeepsStopped s (step valid port s registration) := by
  intro p hp hstop job' hjob'
  have hsame (hrow : (p.1, job') ∈ s.db.jobs.rows) : job'.status = some .stop := by
    have heq : job' = p.2 := congrArg Prod.snd (Table.eq_of_mem hrow hp rfl)
    rw [heq, hstop]
  cases hsaved : savedGroup s.db.groups registration with
  | none =>
    rw [step_of_none hsaved] at hjob'
    exact hsame hjob'
  | some saved =>
    rcases step_cases valid port hsaved with
      ⟨-, hstep⟩ | ⟨i, -, ⟨-, hstep⟩ | ⟨-, ⟨-, hstep⟩ | ⟨-, ⟨-, hstep⟩ | ⟨-, hnull, hstep⟩⟩⟩⟩ <;>
      rw [hstep] at hjob'
    · exact hsame hjob'
    · exact hsame hjob'
    · exact hsame hjob'
    · exact hsame hjob'
    · rcases mem_savedRows.mp hjob' with ⟨hrow, -⟩ | ⟨job, info, hjob, -, heq⟩ | ⟨k, -, hid⟩
      · exact hsame hrow
      · have hold : job = p.2 :=
          congrArg Prod.snd (Table.eq_of_mem (mem_findAllByJobGroupId.mp hjob).1 hp rfl)
        change job' = _ at heq
        rw [heq, hold]
        exact hstop
      · -- a new row has an id that no row has had
        have hlt := s.db.jobs.fresh p hp
        have hge : p.1 = s.db.jobs.next + k := hid
        omega

theorem throughout_agrees_iff (hwell : WellFormed db) (hstart : (start valid port db).Agrees)
    (registrations : List Registration) :
    Throughout (step valid port) Agrees (start valid port db) registrations ↔
      Along (step valid port) (Follows valid) (start valid port db) registrations := by
  apply throughout_iff_along fun _ s => WellFormed s.db ∧ s.Agrees
  · intro s registrations h
    exact h.2
  · intro s registration registrations h hfollows
    exact ⟨wellFormed_step h.1 registration, (agrees_step h.1 h.2 registration).mpr hfollows⟩
  · intro s registration registrations h hfollows hafter
    exact hfollows ((agrees_step h.1 h.2 registration).mp hafter)
  · exact ⟨hwell, hstart⟩

/-- From the start, the scheduler agrees with the table and no stopped job comes back exactly
if the table was settled and every registration is followed. -/
theorem registrations_agree_iff (valid : String → Bool) (port : JInt) (db : JobDatabase)
    (hwell : WellFormed db) (registrations : List Registration) :
    (Throughout (step valid port) Agrees (start valid port db) registrations ∧
        Along (step valid port) (fun s registration =>
          KeepsStopped s (step valid port s registration)) (start valid port db) registrations) ↔
      Settled valid db ∧
        Along (step valid port) (Follows valid) (start valid port db) registrations := by
  have hstopped : Along (step valid port) (fun s registration =>
      KeepsStopped s (step valid port s registration)) (start valid port db) registrations :=
    along_of_forall keepsStopped_step _ _
  constructor
  · intro h
    obtain ⟨hagrees, -⟩ := h
    have hstart := hagrees.first
    exact ⟨(agrees_start valid port db).mp hstart,
      (throughout_agrees_iff hwell hstart registrations).mp hagrees⟩
  · intro h
    obtain ⟨hsettled, hfollows⟩ := h
    have hstart := (agrees_start valid port db).mpr hsettled
    exact ⟨(throughout_agrees_iff hwell hstart registrations).mpr hfollows, hstopped⟩

end Runs

/-- The job of `syncDatabase` as an executor brings it along. -/
def syncInfo (cron : String) : JobInfo where
  name := syncJob.name
  author := syncJob.author
  cron := some cron
  description := syncJob.description
  status := some .stop
  blockingStrategy := syncJob.blockingStrategy
  retryTimes := 0
  routeStrategy := syncJob.routeStrategy
  email := none

def syncRegistration (cron : String) : Registration :=
  .checkAndSave ⟨some "app", some "app"⟩ [⟨"10.0.0.1", 8081, [syncInfo cron]⟩]

theorem wellFormed_sync : WellFormed syncDatabase where
  unique := by decide
  allocated := by decide

/-- The job is registered again as it is scheduled. -/
theorem registrations_agree_iff_sync :
    Throughout (step (fun _ => true) 8080) Agrees (start (fun _ => true) 8080 syncDatabase)
        [syncRegistration "0 0 1 * * ?"] ∧
      Along (step (fun _ => true) 8080) (fun s registration =>
        KeepsStopped s (step (fun _ => true) 8080 s registration))
        (start (fun _ => true) 8080 syncDatabase) [syncRegistration "0 0 1 * * ?"] := by
  apply (registrations_agree_iff _ _ _ wellFormed_sync _).mpr
  refine ⟨⟨fun _ _ _ _ _ _ _ => rfl, ?_⟩, ?_, trivial⟩
  · intro p hp q hq _ _ _ _ _
    obtain rfl := List.mem_singleton.mp hp
    obtain rfl := List.mem_singleton.mp hq
    exact ⟨rfl, rfl, rfl⟩
  · intro saved hsaved i hi
    cases hsaved
    cases hi
    refine .inr ⟨by decide, .inr ⟨?_, .inr ⟨?_, ?_, ?_⟩⟩⟩
    · unfold NewNull
      decide
    · unfold KeptNull
      decide
    · unfold AllAdded
      decide
    · unfold Unchanged
      decide

/-- A new cron for a running job goes into the table only. -/
theorem not_registrations_agree :
    ¬ ∀ (valid : String → Bool) (port : JInt) (db : JobDatabase) (registrations : List Registration),
      WellFormed db → (∀ registration ∈ registrations, ∀ i ∈ registration.instances.head?,
        (i.jobs.map JobInfo.name).Nodup) →
        Throughout (step valid port) Agrees (start valid port db) registrations := by
  intro h
  have hrun := h (fun _ => true) 8080 syncDatabase [syncRegistration "0 0 2 * * ?"]
    wellFormed_sync (by decide)
  let s := step (fun _ => true) 8080 (start (fun _ => true) 8080 syncDatabase)
    (syncRegistration "0 0 2 * * ?")
  have hafter : s.Agrees := hrun.2
  have hrow : (1, { syncJob with cron := some "0 0 2 * * ?" }) ∈ s.db.jobs.rows := by
    decide +kernel
  have hkey : (s.scheduler ("app", "sync")).map Scheduled.cron = some "0 0 1 * * ?" := by
    decide +kernel
  obtain ⟨scheduled, hscheduled, hcron⟩ := Option.map_eq_some_iff.mp hkey
  have hmatches := hafter.entry _ hrow ("app", "sync") (by decide +kernel) rfl scheduled hscheduled
  have heq := hmatches.cron
  rw [hcron] at heq
  exact absurd heq (by decide)

end SingleServer

end BigPlan.Job

import BigPlan.Job.JobTable
import BigPlan.Lib.Runs

/-!
# Registration of executors

`JobScheduler` schedules the running jobs of the table; `JobGroupServiceImpl` then follows the
jobs that executors bring with them: those that are gone are deleted, those that stay are
updated, and new ones are added. A job that stays keeps the trigger that it had.
-/
namespace BigPlan.Job

open Lib (Table)
open Lib.Java Lib.Runs

structure JobInfo where
  name : Option String
  author : Option String
  cron : Option String
  description : Option String
  status : Option JobStatus
  blockingStrategy : Option BlockingStrategy
  retryTimes : JInt
  routeStrategy : Option RouteStrategy
  email : Option String
  deriving DecidableEq, Repr

/-- An instance with the jobs in its metadata. -/
structure Instance where
  ip : String
  port : JInt
  jobs : List JobInfo
  deriving DecidableEq, Repr

structure ClientInfo where
  appName : Option String
  name : Option String
  deriving DecidableEq, Repr

/-- What a job that stays takes over. -/
def JobEntity.update (job : JobEntity) (info : JobInfo) : JobEntity :=
  { job with
    name := info.name
    author := info.author
    cron := info.cron
    description := info.description
    retryTimes := some info.retryTimes
    routeStrategy := info.routeStrategy
    email := info.email }

def JobInfo.toJob (groupId : Int) (info : JobInfo) : JobEntity where
  jobGroupId := some groupId
  name := info.name
  cron := info.cron
  author := info.author
  status := info.status
  description := info.description
  params := none
  blockingStrategy := info.blockingStrategy
  retryTimes := some info.retryTimes
  routeStrategy := info.routeStrategy
  email := info.email

def addressList (instances : List Instance) : Option String :=
  if instances = [] then none
  else some (",".intercalate (instances.map fun i => i.ip ++ ":" ++ toString i.port.toInt))

/-! ## `saveJobs` -/

section SaveJobs

variable (valid : String → Bool) (port : JInt) (infos : List JobInfo) (groupId : Int)
  (group : JobGroupEntity) (jobs : Table JobEntity)

def findAllByJobGroupId (groupId : Int) (jobs : Table JobEntity) : List (Int × JobEntity) :=
  jobs.rows.filter fun p => p.2.jobGroupId = some groupId

/-- `nameJobInfoMap.get`. -/
def infoOf (job : JobEntity) : Option JobInfo := infos.find? fun info => info.name = job.name

def gone : List (Int × JobEntity) :=
  (findAllByJobGroupId groupId jobs).filter fun p => (infoOf infos p.2).isNone

def newAdd : List JobEntity :=
  (infos.filter fun info =>
    !((findAllByJobGroupId groupId jobs).map (·.2.name)).contains info.name).map
    (JobInfo.toJob groupId)

def updateIn (job : JobEntity) : JobEntity :=
  if job.jobGroupId = some groupId then
    match infoOf infos job with
    | some info => job.update info
    | none => job
  else job

def savedRows : Table JobEntity :=
  ((jobs.deleteAll ((gone infos groupId jobs).map Prod.fst)).mapRows
    (updateIn infos groupId)).insertAll (newAdd infos groupId jobs)

def removeGone (scheduler : Scheduler) : Scheduler :=
  (gone infos groupId jobs).foldl (fun scheduler p =>
    if p.2.status = some .running then QuartzManager.removeJob group.appName p.2.name scheduler
    else scheduler) scheduler

/-- `QuartzManager.addJob` with the data map of a job. -/
def addJobOf (job : JobEntity) (scheduler : Scheduler) : Scheduler :=
  QuartzManager.addJob valid group.appName job.name job.description job.cron
    { job, group, port, params := "" } scheduler

def addNew (scheduler : Scheduler) : Scheduler :=
  (newAdd infos groupId jobs).foldl (fun scheduler job =>
    if job.status = some .stop then scheduler else addJobOf valid port group job scheduler) scheduler

/-- Two jobs or two rows of one name do not go into a map. -/
def Ambiguous : Prop :=
  ¬ (infos.map JobInfo.name).Nodup ∨
    ¬ ((findAllByJobGroupId groupId jobs).map (·.2.name)).Nodup

instance : Decidable (Ambiguous infos groupId jobs) := by
  unfold Ambiguous
  infer_instance

/-- The rows that are to be committed, none after an exception, and the scheduler. A new row is
inserted at once, a changed one at the end of the transaction. -/
def saveJobs (instances : List Instance) (scheduler : Scheduler) :
    Option (Table JobEntity) × Scheduler :=
  match instances with
  | [] => (some jobs, scheduler)
  | i :: _ =>
    if Ambiguous i.jobs groupId jobs then (none, scheduler)
    else
      let scheduler := removeGone i.jobs groupId group jobs scheduler
      if ∃ job ∈ newAdd i.jobs groupId jobs, ¬ job.NotNull then (none, scheduler)
      else
        (some (savedRows i.jobs groupId jobs), addNew valid port i.jobs groupId group jobs scheduler)

end SaveJobs

/-! ## The server -/

/-- The tables and the scheduler of a single server. -/
structure SingleServer where
  db : JobDatabase
  scheduler : Scheduler

inductive Registration where
  | checkAndSave (clientInfo : ClientInfo) (instances : List Instance)
  | listening (serviceName : String) (instances : List Instance)

def Registration.instances : Registration → List Instance
  | .checkAndSave _ instances | .listening _ instances => instances

/-- A saved group: the groups with it, its id and itself. -/
structure SavedGroup where
  groups : Table JobGroupEntity
  groupId : Int
  group : JobGroupEntity

namespace SingleServer

variable (valid : String → Bool) (port : JInt)

def findByAppName (groups : Table JobGroupEntity) (appName : String) :
    Option (Int × JobGroupEntity) :=
  groups.rows.find? fun p => p.2.appName = appName

/-- The group with its new addresses; it is made if it is missing, unless a name of it is. -/
def savedGroup (groups : Table JobGroupEntity) : Registration → Option SavedGroup
  | .checkAndSave clientInfo instances =>
    match clientInfo.appName.bind (findByAppName groups) with
    | some (groupId, group) =>
      let group := { group with addressList := addressList instances }
      some ⟨groups.put groupId group, groupId, group⟩
    | none =>
      match clientInfo.appName, clientInfo.name with
      | some appName, some name =>
        let group : JobGroupEntity := ⟨appName, name, addressList instances⟩
        some ⟨groups.insert group, groups.next, group⟩
      | _, _ => none
  | .listening serviceName instances =>
    (findByAppName groups serviceName).map fun (groupId, group) =>
      let group := { group with addressList := addressList instances }
      ⟨groups.put groupId group, groupId, group⟩

/-- One call of `checkAndSave` or `listening`. -/
def step (s : SingleServer) (registration : Registration) : SingleServer :=
  match savedGroup s.db.groups registration with
  | none => s
  | some saved =>
    match saveJobs valid port saved.groupId saved.group s.db.jobs registration.instances
      s.scheduler with
    | (some jobs, scheduler) => ⟨s.db.commit saved.groups jobs, scheduler⟩
    | (none, scheduler) => ⟨s.db, scheduler⟩

/-- `JobScheduler.start` on an empty scheduler. -/
def start (db : JobDatabase) : SingleServer where
  db := db
  scheduler := db.groups.rows.foldl (fun scheduler g =>
    (findAllByJobGroupId g.1 db.jobs).foldl (fun scheduler p =>
      if p.2.status = some .running then addJobOf valid port g.2 p.2 scheduler
      else scheduler) scheduler) fun _ => none

/-- The trigger and its data map are those of the row. -/
structure Matches (scheduled : Scheduled) (job : JobEntity) : Prop where
  cron : some scheduled.cron = job.cron
  jobCron : scheduled.jobDataMap.job.cron = job.cron
  retryTimes : scheduled.jobDataMap.job.retryTimes = job.retryTimes
  routeStrategy : scheduled.jobDataMap.job.routeStrategy = job.routeStrategy

/-- Exactly the running rows are scheduled, and as they are in the table. -/
structure Agrees (s : SingleServer) : Prop where
  isSome : ∀ key, (s.scheduler key).isSome ↔
    ∃ p ∈ s.db.jobs.rows, keyOf s.db.groups p.2 = some key ∧ p.2.status = some .running
  entry : ∀ p ∈ s.db.jobs.rows, ∀ key, keyOf s.db.groups p.2 = some key → p.2.status = some .running →
    ∀ scheduled, s.scheduler key = some scheduled → Matches scheduled p.2

/-- A row that is stopped stays stopped. -/
def KeepsStopped (s s' : SingleServer) : Prop :=
  ∀ p ∈ s.db.jobs.rows, p.2.status = some .stop → ∀ job', (p.1, job') ∈ s'.db.jobs.rows →
    job'.status = some .stop

/-! ## Jobs that are added one after the other -/

section ScheduleAll

variable {valid : String → Bool} {port : JInt} {l : List (JobGroupEntity × JobEntity)}
  {scheduler : Scheduler} {key : String × String} {scheduled : Scheduled}

def scheduleAll (valid : String → Bool) (port : JInt) (l : List (JobGroupEntity × JobEntity))
    (scheduler : Scheduler) : Scheduler :=
  l.foldl (fun scheduler a => addJobOf valid port a.1 a.2 scheduler) scheduler

/-- What is scheduled for a job of a group. -/
structure Entry (valid : String → Bool) (group : JobGroupEntity) (job : JobEntity)
    (key : String × String) (scheduled : Scheduled) : Prop where
  appName : key.1 = group.appName
  name : job.name = some key.2
  cron : job.cron = some scheduled.cron
  valid : valid scheduled.cron = true
  job : scheduled.jobDataMap.job = job

theorem Entry.matches {group : JobGroupEntity} {job : JobEntity}
    (h : Entry valid group job key scheduled) : Matches scheduled job :=
  ⟨h.cron.symm, by rw [h.job], by rw [h.job], by rw [h.job]⟩

/-- Without a name, a valid cron and a free key nothing is added. -/
theorem addJobOf_apply (valid : String → Bool) (port : JInt) (group : JobGroupEntity)
    (job : JobEntity) (scheduler : Scheduler)
    (key : String × String) :
    addJobOf valid port group job scheduler key = scheduler key ∨
      scheduler key = none ∧ ∃ scheduled,
        addJobOf valid port group job scheduler key = some scheduled ∧
        Entry valid group job key scheduled := by
  unfold addJobOf QuartzManager.addJob
  cases hname : job.name with
  | none => exact .inl rfl
  | some name =>
    cases hcron : job.cron with
    | none => exact .inl rfl
    | some cron =>
      simp only
      split_ifs with hadd
      · by_cases hkey : key = (group.appName, name)
        · subst hkey
          exact .inr ⟨hadd.2, _, Function.update_self .., rfl, hname, hcron, hadd.1, rfl⟩
        · exact .inl (Function.update_of_ne hkey _ _)
      · exact .inl rfl

theorem addJobOf_of_some {group : JobGroupEntity} {job : JobEntity}
    (h : scheduler key = some scheduled) :
    addJobOf valid port group job scheduler key = some scheduled := by
  rcases addJobOf_apply valid port group job scheduler key with
    hsame | ⟨hnone, -⟩
  · exact hsame.trans h
  · rw [h] at hnone
    cases hnone

theorem of_addJobOf {group : JobGroupEntity} {job : JobEntity}
    (h : addJobOf valid port group job scheduler key = some scheduled) :
    scheduler key = some scheduled ∨ Entry valid group job key scheduled := by
  rcases addJobOf_apply valid port group job scheduler key with
    hsame | ⟨-, added, hadded, hentry⟩
  · exact .inl (hsame ▸ h)
  · rw [h, Option.some.injEq] at hadded
    exact .inr (hadded ▸ hentry)

theorem isSome_addJobOf (port : JInt) (group : JobGroupEntity) (scheduler : Scheduler)
    {job : JobEntity} {name cron : String} (hname : job.name = some name)
    (hcron : job.cron = some cron) (hvalid : valid cron = true) :
    (addJobOf valid port group job scheduler (group.appName, name)).isSome := by
  unfold addJobOf QuartzManager.addJob
  rw [hname, hcron]
  by_cases h : scheduler (group.appName, name) = none
  · simp [h, hvalid]
  · simp [h, Option.isSome_iff_ne_none]

theorem scheduleAll_of_some (h : scheduler key = some scheduled) :
    scheduleAll valid port l scheduler key = some scheduled := by
  induction l generalizing scheduler with
  | nil => exact h
  | cons a l ih => exact ih (addJobOf_of_some h)

theorem of_scheduleAll (h : scheduleAll valid port l scheduler key = some scheduled) :
    scheduler key = some scheduled ∨ ∃ a ∈ l, Entry valid a.1 a.2 key scheduled := by
  induction l generalizing scheduler with
  | nil => exact .inl h
  | cons a l ih =>
    rcases ih h with h | ⟨b, hb, hentry⟩
    · rcases of_addJobOf h with h | hentry
      · exact .inl h
      · exact .inr ⟨a, List.mem_cons_self, hentry⟩
    · exact .inr ⟨b, List.mem_cons_of_mem _ hb, hentry⟩

theorem isSome_scheduleAll (port : JInt) (scheduler : Scheduler)
    {a : JobGroupEntity × JobEntity} (ha : a ∈ l) {name cron : String}
    (hname : a.2.name = some name) (hcron : a.2.cron = some cron) (hvalid : valid cron = true) :
    (scheduleAll valid port l scheduler (a.1.appName, name)).isSome := by
  induction l generalizing scheduler with
  | nil => cases ha
  | cons b l ih =>
    rcases List.mem_cons.mp ha with rfl | ha
    · obtain ⟨scheduled, hscheduled⟩ := Option.isSome_iff_exists.mp
        (isSome_addJobOf port a.1 scheduler hname hcron hvalid)
      exact Option.isSome_iff_exists.mpr ⟨scheduled, scheduleAll_of_some (l := l) hscheduled⟩
    · exact ih _ ha

end ScheduleAll

/-! ## The start -/

section Start

variable {valid : String → Bool} {port : JInt} {db : JobDatabase} {key : String × String}

theorem keyOf_eq_some {groups : Table JobGroupEntity} {job : JobEntity} :
    keyOf groups job = some key ↔ ∃ id group, job.jobGroupId = some id ∧
      (id, group) ∈ groups.rows ∧ job.name = some key.2 ∧ key.1 = group.appName := by
  simp only [keyOf, Option.bind_eq_bind, Option.bind_eq_some_iff, Table.findById_eq_some]
  constructor
  · intro hexists
    obtain ⟨id, hid, group, hgroup, name, hname, hkey⟩ := hexists
    cases hkey
    exact ⟨id, group, hid, hgroup, hname, rfl⟩
  · intro hexists
    obtain ⟨id, group, hid, hgroup, hname, happ⟩ := hexists
    refine ⟨id, hid, group, hgroup, key.2, hname, ?_⟩
    rw [← happ]
    rfl

/-- The running jobs of the groups, as `JobScheduler` goes through them. -/
def runningJobs (db : JobDatabase) : List (JobGroupEntity × JobEntity) :=
  db.groups.rows.flatMap fun g => ((findAllByJobGroupId g.1 db.jobs).filter
    fun p => p.2.status = some .running).map fun p => (g.2, p.2)

theorem start_scheduler (valid : String → Bool) (port : JInt) (db : JobDatabase) :
    (start valid port db).scheduler = scheduleAll valid port (runningJobs db) fun _ => none := by
  simp only [start, scheduleAll, runningJobs, List.foldl_flatMap, List.foldl_map,
    List.foldl_filter, decide_eq_true_eq]

theorem mem_runningJobs {a : JobGroupEntity × JobEntity} : a ∈ runningJobs db ↔
    ∃ id jobId, (id, a.1) ∈ db.groups.rows ∧ (jobId, a.2) ∈ db.jobs.rows ∧
      a.2.jobGroupId = some id ∧ a.2.status = some .running := by
  simp only [runningJobs, findAllByJobGroupId, List.mem_flatMap, List.mem_map, List.mem_filter,
    decide_eq_true_eq]
  constructor
  · intro hexists
    obtain ⟨⟨id, group⟩, hgroup, ⟨jobId, job⟩, ⟨⟨hjob, hid⟩, hstatus⟩, rfl⟩ := hexists
    exact ⟨id, jobId, hgroup, hjob, hid, hstatus⟩
  · intro hexists
    obtain ⟨id, jobId, hgroup, hjob, hid, hstatus⟩ := hexists
    exact ⟨(id, a.1), hgroup, (jobId, a.2), ⟨⟨hjob, hid⟩, hstatus⟩, rfl⟩

/-- The running rows of the groups have crons that the scheduler takes, and those of one name
in one group are scheduled alike. -/
structure Settled (valid : String → Bool) (db : JobDatabase) : Prop where
  valid : ∀ p ∈ db.jobs.rows, ∀ key, keyOf db.groups p.2 = some key →
    p.2.status = some .running → ∀ cron, p.2.cron = some cron → valid cron = true
  alike : ∀ p ∈ db.jobs.rows, ∀ q ∈ db.jobs.rows, ∀ key, keyOf db.groups p.2 = some key →
    keyOf db.groups q.2 = some key → p.2.status = some .running → q.2.status = some .running →
    p.2.cron = q.2.cron ∧ p.2.retryTimes = q.2.retryTimes ∧ p.2.routeStrategy = q.2.routeStrategy

/-- A running row has a place in the list that `JobScheduler` goes through. -/
theorem exists_runningJobs {p : Int × JobEntity} (hp : p ∈ db.jobs.rows)
    (hkey : keyOf db.groups p.2 = some key) (hstatus : p.2.status = some .running) :
    ∃ group, (group, p.2) ∈ runningJobs db ∧ key.1 = group.appName ∧ p.2.name = some key.2 := by
  obtain ⟨id, group, hid, hgroup, hname, happ⟩ := keyOf_eq_some.mp hkey
  exact ⟨group, mem_runningJobs.mpr ⟨id, p.1, hgroup, hp, hid, hstatus⟩, happ, hname⟩

theorem exists_row_of_start {scheduled : Scheduled}
    (h : (start valid port db).scheduler key = some scheduled) :
    ∃ p ∈ db.jobs.rows, keyOf db.groups p.2 = some key ∧ p.2.status = some .running ∧
      valid scheduled.cron = true ∧ Matches scheduled p.2 := by
  rw [start_scheduler] at h
  rcases of_scheduleAll h with hnone | ⟨a, ha, hentry⟩
  · cases hnone
  · obtain ⟨id, jobId, hgroup, hjob, hid, hstatus⟩ := mem_runningJobs.mp ha
    exact ⟨(jobId, a.2), hjob, keyOf_eq_some.mpr ⟨id, a.1, hid, hgroup, hentry.name, hentry.appName⟩,
      hstatus, hentry.valid, hentry.matches⟩

theorem agrees_start (valid : String → Bool) (port : JInt) (db : JobDatabase) :
    (start valid port db).Agrees ↔ Settled valid db := by
  constructor
  · intro h
    have hscheduled {p : Int × JobEntity} {key : String × String} (hp : p ∈ db.jobs.rows)
        (hkey : keyOf db.groups p.2 = some key) (hstatus : p.2.status = some .running) :
        ∃ scheduled, (start valid port db).scheduler key = some scheduled ∧
          Matches scheduled p.2 := by
      obtain ⟨scheduled, hscheduled⟩ :=
        Option.isSome_iff_exists.mp ((h.isSome key).mpr ⟨p, hp, hkey, hstatus⟩)
      exact ⟨scheduled, hscheduled, h.entry p hp key hkey hstatus scheduled hscheduled⟩
    constructor
    · intro p hp key hkey hstatus cron hcron
      obtain ⟨scheduled, hfind, hmatches⟩ := hscheduled hp hkey hstatus
      obtain ⟨q, -, -, -, hvalid, -⟩ := exists_row_of_start hfind
      have heq : scheduled.cron = cron := Option.some.inj (hmatches.cron.trans hcron)
      exact heq ▸ hvalid
    · intro p hp q hq key hpkey hqkey hpstatus hqstatus
      obtain ⟨scheduled, hfind, hpmatches⟩ := hscheduled hp hpkey hpstatus
      obtain ⟨scheduled', hfind', hqmatches⟩ := hscheduled hq hqkey hqstatus
      obtain rfl : scheduled = scheduled' := Option.some.inj (hfind.symm.trans hfind')
      exact ⟨hpmatches.cron.symm.trans hqmatches.cron,
        hpmatches.retryTimes.symm.trans hqmatches.retryTimes,
        hpmatches.routeStrategy.symm.trans hqmatches.routeStrategy⟩
  · intro h
    constructor
    · intro key
      constructor
      · intro hsome
        obtain ⟨scheduled, hfind⟩ := Option.isSome_iff_exists.mp hsome
        obtain ⟨p, hp, hkey, hstatus, -, -⟩ := exists_row_of_start hfind
        exact ⟨p, hp, hkey, hstatus⟩
      · intro hexists
        obtain ⟨p, hp, hkey, hstatus⟩ := hexists
        obtain ⟨group, hmem, happ, hname⟩ := exists_runningJobs hp hkey hstatus
        obtain ⟨cron, hcron⟩ := Option.ne_none_iff_exists'.mp (db.not_null p hp).2.2.1
        have hsome := isSome_scheduleAll port (fun _ => none) hmem hname hcron
          (h.valid p hp key hkey hstatus cron hcron)
        have hkeyEq : key = (group.appName, key.2) := Prod.ext happ rfl
        rw [start_scheduler, hkeyEq]
        exact hsome
    · intro p hp key hkey hstatus scheduled hfind
      obtain ⟨q, hq, hqkey, hqstatus, -, hmatches⟩ := exists_row_of_start hfind
      obtain ⟨hcron, hretry, hroute⟩ := h.alike q hq p hp key hqkey hkey hqstatus hstatus
      exact ⟨hmatches.cron.trans hcron, hmatches.jobCron.trans hcron,
        hmatches.retryTimes.trans hretry, hmatches.routeStrategy.trans hroute⟩

end Start

end SingleServer

end BigPlan.Job

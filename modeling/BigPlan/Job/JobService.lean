import BigPlan.Job.JobTable
import BigPlan.Lib.Runs

/-!
# Pushed job configurations

`changeStatus` and `changeCron` publish the job as it was posted, and every node executes what
was published on the one table and on its own scheduler. The copy into the row ignores the
properties that were posted.
-/
namespace BigPlan.Job

open Lib (Table)
open Lib.Java Lib.Runs

structure JobVO extends JobEntity where
  id : Option Int
  deriving DecidableEq, Repr

/-! ## The copy of a bean -/

/-- A property that the source has is one of the `ignoreProperties`. -/
def copyProperty {α : Type} (source target : Option α) : Option α :=
  if source.isSome then target else none

/-- `BeanCopyUtils.copyIgnoreProperties`; the id is among the properties that are ignored. -/
def copyIgnoreProperties (source target : JobEntity) : JobEntity where
  jobGroupId := copyProperty source.jobGroupId target.jobGroupId
  name := copyProperty source.name target.name
  cron := copyProperty source.cron target.cron
  author := copyProperty source.author target.author
  status := copyProperty source.status target.status
  description := copyProperty source.description target.description
  params := copyProperty source.params target.params
  blockingStrategy := copyProperty source.blockingStrategy target.blockingStrategy
  retryTimes := copyProperty source.retryTimes target.retryTimes
  routeStrategy := copyProperty source.routeStrategy target.routeStrategy
  email := copyProperty source.email target.email

/-- The target with exactly the non-null fields of the source. -/
def replaceNonNull (source target : JobEntity) : JobEntity where
  jobGroupId := source.jobGroupId.or target.jobGroupId
  name := source.name.or target.name
  cron := source.cron.or target.cron
  author := source.author.or target.author
  status := source.status.or target.status
  description := source.description.or target.description
  params := source.params.or target.params
  blockingStrategy := source.blockingStrategy.or target.blockingStrategy
  retryTimes := source.retryTimes.or target.retryTimes
  routeStrategy := source.routeStrategy.or target.routeStrategy
  email := source.email.or target.email

section Copy

variable {α : Type} {source target : Option α}

theorem copyProperty_idem :
    copyProperty source (copyProperty source target) = copyProperty source target := by
  unfold copyProperty
  split <;> rfl

theorem copyProperty_self : copyProperty source source = source := by
  cases source <;> rfl

theorem copyProperty_eq_or (h : copyProperty source target = source.or target) :
    copyProperty source target = target := by
  cases source with
  | none => exact h
  | some a => rfl

end Copy

theorem eq_of_copyProperty {α : Type} {source target : Option α}
    (hcopy : copyProperty source target = target) (hor : source.or target = target) :
    source = target := by
  cases source with
  | none => exact hcopy
  | some a => exact hor

theorem copyIgnoreProperties_idem (source target : JobEntity) :
    copyIgnoreProperties source (copyIgnoreProperties source target) =
      copyIgnoreProperties source target := by
  simp only [copyIgnoreProperties, copyProperty_idem]

theorem copyIgnoreProperties_self (job : JobEntity) : copyIgnoreProperties job job = job := by
  simp only [copyIgnoreProperties, copyProperty_self]

/-- The copy does what is wanted only where there is nothing to do. -/
theorem copyIgnoreProperties_eq_replaceNonNull {source target : JobEntity}
    (h : copyIgnoreProperties source target = replaceNonNull source target) :
    copyIgnoreProperties source target = target := by
  simp only [copyIgnoreProperties, replaceNonNull, JobEntity.mk.injEq] at h
  obtain ⟨h1, h2, h3, h4, h5, h6, h7, h8, h9, h10, h11⟩ := h
  simp only [copyIgnoreProperties, copyProperty_eq_or h1, copyProperty_eq_or h2,
    copyProperty_eq_or h3, copyProperty_eq_or h4, copyProperty_eq_or h5, copyProperty_eq_or h6,
    copyProperty_eq_or h7, copyProperty_eq_or h8, copyProperty_eq_or h9, copyProperty_eq_or h10,
    copyProperty_eq_or h11]

theorem eq_of_copy_eq {source target : JobEntity} (hcopy : copyIgnoreProperties source target = target)
    (hreplace : replaceNonNull source target = target) : source = target := by
  obtain ⟨a1, a2, a3, a4, a5, a6, a7, a8, a9, a10, a11⟩ := source
  obtain ⟨b1, b2, b3, b4, b5, b6, b7, b8, b9, b10, b11⟩ := target
  simp only [copyIgnoreProperties, replaceNonNull, JobEntity.mk.injEq] at hcopy hreplace
  obtain ⟨h1, h2, h3, h4, h5, h6, h7, h8, h9, h10, h11⟩ := hcopy
  obtain ⟨k1, k2, k3, k4, k5, k6, k7, k8, k9, k10, k11⟩ := hreplace
  simp only [JobEntity.mk.injEq]
  exact ⟨eq_of_copyProperty h1 k1, eq_of_copyProperty h2 k2, eq_of_copyProperty h3 k3,
    eq_of_copyProperty h4 k4, eq_of_copyProperty h5 k5, eq_of_copyProperty h6 k6,
    eq_of_copyProperty h7 k7, eq_of_copyProperty h8 k8, eq_of_copyProperty h9 k9,
    eq_of_copyProperty h10 k10, eq_of_copyProperty h11 k11⟩

/-! ## A node executes what was published -/

/-- `StringUtils.equalsIgnoreCase`; the letters of a cron expression are ASCII letters. -/
def equalsIgnoreCase : Option String → Option String → Bool
  | some a, some b => a.toLower == b.toLower
  | none, none => true
  | _, _ => false

section Execute

variable (valid : String → Bool) (port : JInt) (groups : Table JobGroupEntity)

/-- The group of a row, if it exists; to look for `null` throws. -/
def ifGroupPresent (job : JobEntity) (scheduler : Scheduler)
    (change : JobGroupEntity → Scheduler → Scheduler) : Option Scheduler :=
  job.jobGroupId.map fun id => ((groups.findById id).map fun group => change group scheduler).getD scheduler

/-- The data map holds the entity itself, so what is copied into it later shows there. -/
def reschedule (vo job : JobEntity) (scheduler : Scheduler) : Option Scheduler :=
  if vo.status = some .stop ∧ job.status = some .running then
    ifGroupPresent groups job scheduler fun group =>
      QuartzManager.removeJob group.appName job.name
  else if vo.status = some .running ∧ job.status = some .stop then
    ifGroupPresent groups job scheduler fun group =>
      QuartzManager.addJob valid group.appName job.name job.description job.cron
        { job := copyIgnoreProperties vo job, group, port, params := "" }
  else if job.status = some .running ∧ equalsIgnoreCase job.cron vo.cron = false then
    ifGroupPresent groups job scheduler fun group =>
      QuartzManager.modifyJobTime valid group.appName job.name vo.cron
  else some scheduler

/-- The loop over the published jobs, and no rows if it throws. -/
def executeEach : List JobVO → Table JobEntity → Scheduler → Option (Table JobEntity) × Scheduler
  | [], jobs, scheduler => (some jobs, scheduler)
  | vo :: configInfo, jobs, scheduler =>
    match vo.id with
    | none => (none, scheduler)
    | some id =>
      match jobs.findById id with
      | none => executeEach configInfo jobs scheduler
      | some job =>
        match reschedule valid port groups vo.toJobEntity job scheduler with
        | none => (none, scheduler)
        | some scheduler =>
          executeEach configInfo (jobs.put id (copyIgnoreProperties vo.toJobEntity job)) scheduler

end Execute

/-- The effects of `JobServiceImpl.execute` on a scheduler are not undone with the rows. -/
def execute (valid : String → Bool) (port : JInt) (configInfo : List JobVO) (db : JobDatabase)
    (scheduler : Scheduler) : JobDatabase × Scheduler :=
  match executeEach valid port db.groups configInfo db.jobs scheduler with
  | (some jobs, scheduler) => (db.commit db.groups jobs, scheduler)
  | (none, scheduler) => (db, scheduler)

/-! ## Pushes to all nodes -/

inductive Request where
  | changeStatus (vo : JobVO)
  | changeCron (vo : JobVO)

def Request.vo : Request → JobVO
  | .changeStatus vo | .changeCron vo => vo

/-- What is published for a job that exists. -/
def pushConfig (vo : JobVO) (db : JobDatabase) : Option (List JobVO) := do
  let id ← vo.id
  let _ ← db.jobs.findById id
  return [vo]

def changeStatus (vo : JobVO) (db : JobDatabase) : Option (List JobVO) := pushConfig vo db

def changeCron (vo : JobVO) (db : JobDatabase) : Option (List JobVO) := pushConfig vo db

def Request.published (db : JobDatabase) : Request → Option (List JobVO)
  | .changeStatus vo => Job.changeStatus vo db
  | .changeCron vo => Job.changeCron vo db

/-- A request, with the order in which the nodes execute what it publishes. -/
structure Push (n : Nat) where
  request : Request
  order : List (Fin n)
  once : order.Perm (List.finRange n)

/-- The table that a posted job is to leave. -/
def expect (vo : JobVO) (jobs : Table JobEntity) : Table JobEntity :=
  match vo.id with
  | none => jobs
  | some id =>
    match jobs.findById id with
    | none => jobs
    | some job => jobs.put id (replaceNonNull vo.toJobEntity job)

/-- The nodes on their table, and the table that the pushes were to leave. -/
structure JobServers (n : Nat) where
  db : JobDatabase
  schedulers : Fin n → Scheduler
  expected : Table JobEntity

namespace JobServers

variable {n : Nat} (valid : String → Bool) (port : JInt)

def start (db : JobDatabase) (schedulers : Fin n → Scheduler) : JobServers n :=
  ⟨db, schedulers, db.jobs⟩

def executeAt (configInfo : List JobVO) (s : JobServers n) (node : Fin n) : JobServers n :=
  let result := execute valid port configInfo s.db (s.schedulers node)
  { s with db := result.1, schedulers := Function.update s.schedulers node result.2 }

def step (s : JobServers n) (push : Push n) : JobServers n :=
  let s' := match push.request.published s.db with
    | none => s
    | some configInfo => push.order.foldl (executeAt valid port configInfo) s
  { s' with expected := expect push.request.vo s.expected }

/-- The cron with which a node has scheduled a job. -/
def scheduledCron (s : JobServers n) (node : Fin n) (job : JobEntity) : Option String :=
  (keyOf s.db.groups job).bind fun key => (s.schedulers node key).map Scheduled.cron

/-- Every node has scheduled exactly the running jobs, with their crons. -/
def Scheduled (s : JobServers n) : Prop :=
  ∀ node, ∀ p ∈ s.db.jobs.rows, s.scheduledCron node p.2 =
    if p.2.status = some .running then p.2.cron else none

/-- The rows are those that the pushes were to leave, and all nodes follow them. -/
structure Reached (s : JobServers n) : Prop where
  rows : s.db.jobs = s.expected
  scheduled : s.Scheduled

end JobServers

/-- The posted job repeats the row: its fields are those of the row, and it leaves out a column
that is not nullable, or else nothing that the row has. -/
def Repeats (vo job : JobEntity) : Prop :=
  replaceNonNull vo job = job ∧ (vo.NotNull → vo = job)

/-! ## What a node does with one posted job -/

section One

variable {valid : String → Bool} {port : JInt} {db : JobDatabase} {scheduler : Scheduler}
  {vo : JobVO} {id : Int} {job : JobEntity}

theorem copyProperty_ne_none {α : Type} {source target : Option α} (h : target ≠ none) :
    copyProperty source target ≠ none ↔ source ≠ none := by
  cases source with
  | none => simp [copyProperty]
  | some a => simpa [copyProperty] using h

theorem notNull_copyIgnoreProperties {source target : JobEntity} (h : target.NotNull) :
    (copyIgnoreProperties source target).NotNull ↔ source.NotNull := by
  obtain ⟨h1, h2, h3, h4, h5, h6, h7, h8⟩ := h
  simp only [JobEntity.NotNull, copyIgnoreProperties, copyProperty_ne_none h1,
    copyProperty_ne_none h2, copyProperty_ne_none h3, copyProperty_ne_none h4,
    copyProperty_ne_none h5, copyProperty_ne_none h6, copyProperty_ne_none h7,
    copyProperty_ne_none h8]

theorem notNull_of_findById (hjob : db.jobs.findById id = some job) : job.NotNull :=
  db.not_null _ (Table.findById_eq_some.mp hjob)

theorem exists_ifGroupPresent {groups : Table JobGroupEntity} (h : job.NotNull)
    (change : JobGroupEntity → Scheduler → Scheduler) :
    ∃ scheduler', ifGroupPresent groups job scheduler change = some scheduler' := by
  obtain ⟨groupId, hgroupId⟩ := Option.ne_none_iff_exists'.mp h.1
  exact ⟨_, by rw [ifGroupPresent, hgroupId]; rfl⟩

theorem exists_reschedule (valid : String → Bool) (port : JInt) (groups : Table JobGroupEntity)
    (scheduler : Scheduler) (h : job.NotNull) (vo : JobEntity) :
    ∃ scheduler', reschedule valid port groups vo job scheduler = some scheduler' := by
  unfold reschedule
  split_ifs
  · exact exists_ifGroupPresent h _
  · exact exists_ifGroupPresent h _
  · exact exists_ifGroupPresent h _
  · exact ⟨scheduler, rfl⟩

theorem commit_put (hjob : db.jobs.findById id = some job) (job' : JobEntity) :
    (db.commit db.groups (db.jobs.put id job')).groups = db.groups ∧
      (db.commit db.groups (db.jobs.put id job')).jobs =
        if job'.NotNull then db.jobs.put id job' else db.jobs := by
  have hiff : (∀ p ∈ (db.jobs.put id job').rows, p.2.NotNull) ↔ job'.NotNull := by
    constructor
    · intro h
      exact h (id, job') (Table.mem_put.mpr (.inr ⟨rfl, job, Table.findById_eq_some.mp hjob⟩))
    · intro h p hp
      rcases Table.mem_put.mp hp with ⟨hold, -⟩ | ⟨rfl, -⟩
      · exact db.not_null p hold
      · exact h
  unfold JobDatabase.commit
  by_cases h : job'.NotNull
  · rw [dif_pos (hiff.mpr h), if_pos h]
    exact ⟨rfl, rfl⟩
  · rw [dif_neg fun hall => h (hiff.mp hall), if_neg h]
    exact ⟨rfl, rfl⟩

/-- The row becomes the copy, unless a column that is not nullable would be `null`. -/
theorem execute_one (valid : String → Bool) (port : JInt) (scheduler : Scheduler)
    (hid : vo.id = some id) (hjob : db.jobs.findById id = some job) :
    (execute valid port [vo] db scheduler).1.groups = db.groups ∧
      (execute valid port [vo] db scheduler).1.jobs =
        (if vo.NotNull then db.jobs.put id (copyIgnoreProperties vo.toJobEntity job)
          else db.jobs) ∧
      reschedule valid port db.groups vo.toJobEntity job scheduler =
        some (execute valid port [vo] db scheduler).2 := by
  have hnull := notNull_of_findById hjob
  obtain ⟨scheduler', hscheduler'⟩ :=
    exists_reschedule valid port db.groups scheduler hnull vo.toJobEntity
  obtain ⟨hgroups, hjobs⟩ := commit_put hjob (copyIgnoreProperties vo.toJobEntity job)
  simp only [execute, executeEach, hid, hjob, hscheduler']
  refine ⟨hgroups, hjobs.trans ?_, trivial⟩
  simp only [notNull_copyIgnoreProperties hnull]

theorem reschedule_of_repeats {groups : Table JobGroupEntity} {vo : JobEntity}
    (h : replaceNonNull vo job = job) (hnull : job.NotNull) :
    reschedule valid port groups vo job scheduler = some scheduler := by
  have hstatus : vo.status.or job.status = job.status := congrArg JobEntity.status h
  have hcron : vo.cron.or job.cron = job.cron := congrArg JobEntity.cron h
  unfold reschedule
  split_ifs with hstop hstart hmodify
  · rw [hstop.1, hstop.2] at hstatus
    cases hstatus
  · rw [hstart.1, hstart.2] at hstatus
    cases hstatus
  · obtain ⟨groupId, hgroupId⟩ := Option.ne_none_iff_exists'.mp hnull.1
    obtain ⟨cron, hjobCron⟩ := Option.ne_none_iff_exists'.mp hnull.2.2.1
    cases hvoCron : vo.cron with
    | none =>
      -- there is no trigger without a cron
      have hmodify' (group : String) (scheduler : Scheduler) :
          QuartzManager.modifyJobTime valid group job.name none scheduler = scheduler := by
        cases job.name <;> rfl
      simp only [ifGroupPresent, hgroupId, hmodify', Option.map_some, Option.some.injEq]
      cases groups.findById groupId <;> rfl
    | some cron' =>
      rw [hvoCron, hjobCron] at hcron
      cases hcron
      simp [hvoCron, hjobCron, equalsIgnoreCase] at hmodify
  · rfl

/-- A job that repeats the row changes neither the row nor the scheduler. -/
theorem execute_of_repeats (hid : vo.id = some id) (hjob : db.jobs.findById id = some job)
    (h : Repeats vo.toJobEntity job) : execute valid port [vo] db scheduler = (db, scheduler) := by
  obtain ⟨hgroups, hjobs, hreschedule⟩ :=
    execute_one valid port scheduler hid hjob
  rw [reschedule_of_repeats h.1 (notNull_of_findById hjob), Option.some.injEq] at hreschedule
  have hsame : (execute valid port [vo] db scheduler).1.jobs = db.jobs := by
    rw [hjobs]
    split_ifs with hnull
    · rw [h.2 hnull, copyIgnoreProperties_self]
      exact Table.put_eq_self hjob
    · rfl
  have hdb : (execute valid port [vo] db scheduler).1 = db := by
    obtain ⟨groups, jobs, hnull⟩ := db
    revert hgroups hsame
    generalize (execute valid port [vo] _ scheduler).1 = db'
    intro hgroups hsame
    obtain ⟨groups', jobs', hnull'⟩ := db'
    cases hgroups
    cases hsame
    rfl
  exact Prod.ext hdb hreschedule.symm

end One

namespace JobServers

variable {n : Nat} {valid : String → Bool} {port : JInt} {vo : JobVO} {id : Int} {job : JobEntity}

theorem foldl_executeAt_of_repeats (hid : vo.id = some id) {s : JobServers n}
    (hjob : s.db.jobs.findById id = some job) (h : Repeats vo.toJobEntity job)
    (order : List (Fin n)) : order.foldl (executeAt valid port [vo]) s = s := by
  induction order with
  | nil => rfl
  | cons node order ih =>
    have hnode : executeAt valid port [vo] s node = s := by
      simp only [executeAt, execute_of_repeats hid hjob h, Function.update_eq_self]
    rw [List.foldl_cons, hnode, ih]

/-- Every node fails to commit a row with a `null` that its column does not take. -/
theorem jobs_foldl_of_null (hid : vo.id = some id) (hnull : ¬ vo.NotNull) (order : List (Fin n))
    {s : JobServers n} (hjob : s.db.jobs.findById id = some job) :
    (order.foldl (executeAt valid port [vo]) s).db.jobs = s.db.jobs := by
  induction order generalizing s with
  | nil => rfl
  | cons node order ih =>
    have hnode : (executeAt valid port [vo] s node).db.jobs = s.db.jobs := by
      rw [executeAt, (execute_one _ _ _ hid hjob).2.1, if_neg hnull]
    rw [List.foldl_cons, ih (by rw [hnode]; exact hjob), hnode]

/-- What the first node has stored, the others store again. -/
theorem jobs_foldl_of_notNull (hid : vo.id = some id) (hnull : vo.NotNull) (node : Fin n)
    (order : List (Fin n)) {s : JobServers n} (hjob : s.db.jobs.findById id = some job) :
    ((node :: order).foldl (executeAt valid port [vo]) s).db.jobs =
      s.db.jobs.put id (copyIgnoreProperties vo.toJobEntity job) := by
  induction order generalizing s node job with
  | nil => rw [List.foldl_cons, List.foldl_nil, executeAt, (execute_one _ _ _ hid hjob).2.1, if_pos hnull]
  | cons node' order ih =>
    have hnode : (executeAt valid port [vo] s node).db.jobs =
        s.db.jobs.put id (copyIgnoreProperties vo.toJobEntity job) := by
      rw [executeAt, (execute_one _ _ _ hid hjob).2.1, if_pos hnull]
    rw [List.foldl_cons, ih node' (by rw [hnode]; exact Table.findById_put hjob), hnode,
      Table.put_put, copyIgnoreProperties_idem]

/-- The condition on a push: the posted job, if it has a row, repeats it. -/
def PushRepeats (s : JobServers n) (push : Push n) : Prop :=
  ∀ id, push.request.vo.id = some id → ∀ job, s.db.jobs.findById id = some job →
    Repeats push.request.vo.toJobEntity job

theorem published_eq (request : Request) (db : JobDatabase) :
    request.published db = pushConfig request.vo db := by
  cases request <;> rfl

theorem pushConfig_of_findById {db : JobDatabase} (hid : vo.id = some id)
    (hjob : db.jobs.findById id = some job) : pushConfig vo db = some [vo] := by
  simp [pushConfig, hid, hjob]

theorem pushConfig_of_absent {db : JobDatabase}
    (h : ∀ id, vo.id = some id → db.jobs.findById id = none) : pushConfig vo db = none := by
  unfold pushConfig
  cases hid : vo.id with
  | none => rfl
  | some id => simp [h id hid]

theorem expect_of_absent {jobs : Table JobEntity}
    (h : ∀ id, vo.id = some id → jobs.findById id = none) : expect vo jobs = jobs := by
  unfold expect
  cases hid : vo.id with
  | none => rfl
  | some id => simp [h id hid]

theorem expect_of_findById {jobs : Table JobEntity} (hid : vo.id = some id)
    (hjob : jobs.findById id = some job) :
    expect vo jobs = jobs.put id (replaceNonNull vo.toJobEntity job) := by
  simp [expect, hid, hjob]

variable {s : JobServers n} {push : Push n}

/-- A push that repeats the row, or names none, leaves everything as it is. -/
theorem step_of_pushRepeats (h : s.Reached) (hpush : s.PushRepeats push) :
    step valid port s push = s := by
  have hsame : s.db.jobs = s.expected := h.rows
  unfold step
  rw [published_eq]
  by_cases habsent : ∀ id, push.request.vo.id = some id → s.db.jobs.findById id = none
  · rw [pushConfig_of_absent habsent, expect_of_absent (hsame ▸ habsent)]
  · push Not at habsent
    obtain ⟨id, hid, hne⟩ := habsent
    obtain ⟨job, hjob⟩ := Option.ne_none_iff_exists'.mp hne
    have hrepeats := hpush id hid job hjob
    rw [pushConfig_of_findById hid hjob, expect_of_findById hid (hsame ▸ hjob), hrepeats.1,
      Table.put_eq_self (hsame ▸ hjob)]
    simp only [foldl_executeAt_of_repeats hid hjob hrepeats]

/-- The row that the nodes leave is the wanted one only if the posted job repeats it. -/
theorem pushRepeats_of_reached {push : Push (n + 1)} {s : JobServers (n + 1)} (h : s.Reached)
    (hafter : (step valid port s push).Reached) : s.PushRepeats push := by
  intro id hid job hjob
  have hsame : s.db.jobs = s.expected := h.rows
  have hrows : (push.order.foldl (executeAt valid port [push.request.vo]) s).db.jobs =
      s.db.jobs.put id (replaceNonNull push.request.vo.toJobEntity job) := by
    have hrows := hafter.rows
    unfold step at hrows
    rw [published_eq, pushConfig_of_findById hid hjob,
      expect_of_findById hid (hsame ▸ hjob)] at hrows
    rw [hsame]
    exact hrows
  have hfind := congrArg (Table.findById · id) hrows
  simp only [Table.findById_put hjob] at hfind
  by_cases hnull : push.request.vo.NotNull
  · obtain ⟨node, order, horder⟩ : ∃ node order, push.order = node :: order := by
      apply List.exists_cons_of_ne_nil
      intro hnil
      have hlength := push.once.length_eq
      rw [hnil] at hlength
      simp at hlength
    rw [horder, jobs_foldl_of_notNull hid hnull node order hjob, Table.findById_put hjob,
      Option.some.injEq] at hfind
    have hcopy := copyIgnoreProperties_eq_replaceNonNull hfind
    refine ⟨hfind ▸ hcopy, fun _ => ?_⟩
    exact eq_of_copy_eq hcopy (hfind ▸ hcopy)
  · rw [jobs_foldl_of_null hid hnull push.order hjob, hjob, Option.some.injEq] at hfind
    exact ⟨hfind.symm, fun h => absurd h hnull⟩

/-- In a run of pushes to all nodes the table and the schedulers follow each push exactly if
each repeats what the row has. -/
theorem pushes_iff (n : Nat) (valid : String → Bool) (port : JInt) (db : JobDatabase)
    (schedulers : Fin (n + 1) → Scheduler) (pushes : List (Push (n + 1)))
    (h : (start db schedulers).Scheduled) :
    Throughout (step valid port) Reached (start db schedulers) pushes ↔
      Along (step valid port) PushRepeats (start db schedulers) pushes := by
  apply throughout_iff_along (fun _ s => s.Reached)
  · intro s _ hs
    exact hs
  · intro s push _ hs hpush
    rw [step_of_pushRepeats hs hpush]
    exact hs
  · intro s push _ hs hpush hafter
    exact hpush (pushRepeats_of_reached hs hafter)
  · exact ⟨rfl, h⟩

/-! ## A running job -/

def syncScheduler : Scheduler :=
  QuartzManager.addJob (fun _ => true) "app" syncJob.name syncJob.description syncJob.cron
    ⟨syncJob, ⟨"app", "app", none⟩, 8080, ""⟩ fun _ => none

theorem scheduled_sync (n : Nat) :
    (start syncDatabase fun _ : Fin n => syncScheduler).Scheduled := by
  intro node p hp
  rcases Table.mem_insert.mp hp with h | rfl
  · cases h
  · rfl

/-- The posted fields are those given here, and the others `null`. -/
def syncPost (status : Option JobStatus) (cron : Option String) : JobVO where
  id := some 1
  jobGroupId := none
  name := none
  cron := cron
  author := none
  status := status
  description := none
  params := none
  blockingStrategy := none
  retryTimes := none
  routeStrategy := none
  email := none

/-- The cron that the row has is posted again, to two nodes. -/
theorem pushes_iff_sync : Throughout (step (fun _ => true) 8080) Reached
    (start syncDatabase fun _ : Fin 2 => syncScheduler)
    [⟨.changeCron (syncPost none syncJob.cron), [1, 0], by decide⟩] := by
  rw [pushes_iff 1 _ _ _ _ _ (scheduled_sync 2)]
  refine ⟨?_, trivial⟩
  intro id hid job hjob
  cases hid
  cases hjob
  exact ⟨rfl, fun h => absurd rfl h.1⟩

/-- A running job that is stopped stays `RUNNING` in the table. -/
theorem not_pushes_reached :
    ¬ ∀ (n : Nat) (valid : String → Bool) (port : JInt) (db : JobDatabase)
      (schedulers : Fin (n + 1) → Scheduler) (pushes : List (Push (n + 1))),
      (start db schedulers).Scheduled →
        Throughout (step valid port) Reached (start db schedulers) pushes := by
  intro h
  have hrun := h 0 (fun _ => true) 8080 syncDatabase (fun _ => syncScheduler)
    [⟨.changeStatus (syncPost (some .stop) none), [0], by decide⟩] (scheduled_sync 1)
  have hrepeats := (pushRepeats_of_reached hrun.1 hrun.2 1 rfl syncJob rfl).1
  have hstatus := congrArg JobEntity.status hrepeats
  cases hstatus

end JobServers

end BigPlan.Job

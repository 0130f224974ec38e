import Mathlib.Logic.Function.Basic
import BigPlan.Lib.Java
import BigPlan.Lib.Table

/-!
# Jobs, their table and the scheduler

The rows of `tb_job` and `tb_job_group`, and what `QuartzManager` makes of the scheduler of
one node. A bean has `null` in any field; a transaction that leaves `null` in a column that
is not nullable is rolled back.
-/
namespace BigPlan.Job

open Lib (Table)
open Lib.Java

inductive JobStatus where
  | stop
  | running
  deriving DecidableEq, Repr

inductive BlockingStrategy where
  | standAloneSerial
  | discard
  | cover
  deriving DecidableEq, Repr

inductive RouteStrategy where
  | first
  | last
  | random
  | roundRobin
  | broadcast
  | nacos
  deriving DecidableEq, Repr

/-- The fields of a `JobEntity` besides its id. -/
structure JobEntity where
  jobGroupId : Option Int
  name : Option String
  cron : Option String
  author : Option String
  status : Option JobStatus
  description : Option String
  params : Option String
  blockingStrategy : Option BlockingStrategy
  retryTimes : Option JInt
  routeStrategy : Option RouteStrategy
  email : Option String
  deriving DecidableEq, Repr

structure JobGroupEntity where
  appName : String
  name : String
  addressList : Option String
  deriving DecidableEq, Repr

/-- All columns but `params`, `retry_times` and `email`. -/
def JobEntity.NotNull (job : JobEntity) : Prop :=
  job.jobGroupId ≠ none ∧ job.name ≠ none ∧ job.cron ≠ none ∧ job.author ≠ none ∧
    job.status ≠ none ∧ job.description ≠ none ∧ job.blockingStrategy ≠ none ∧
    job.routeStrategy ≠ none

instance : DecidablePred JobEntity.NotNull := fun job => by
  unfold JobEntity.NotNull
  infer_instance

structure JobDatabase where
  groups : Table JobGroupEntity
  jobs : Table JobEntity
  not_null : ∀ p ∈ jobs.rows, p.2.NotNull

/-! ## The scheduler -/

/-- What a trigger hands to `TriggerJob`. -/
structure JobDataMap where
  job : JobEntity
  group : JobGroupEntity
  port : JInt
  params : String
  deriving DecidableEq, Repr

/-- A job with its trigger. -/
structure Scheduled where
  description : Option String
  cron : String
  jobDataMap : JobDataMap
  deriving DecidableEq, Repr

/-- The jobs by group and name. -/
abbrev Scheduler := String × String → Option Scheduled

namespace QuartzManager

-- the expressions that `cronSchedule` takes and that have a time to fire
variable (valid : String → Bool)

/-- An exception is printed: without a name or a valid cron, and for a job that the scheduler
already has, nothing happens. -/
def addJob (group : String) (name description cron : Option String) (jobDataMap : JobDataMap)
    (scheduler : Scheduler) : Scheduler :=
  match name, cron with
  | some name, some cron =>
    if valid cron ∧ scheduler (group, name) = none then
      Function.update scheduler (group, name) (some ⟨description, cron, jobDataMap⟩)
    else scheduler
  | _, _ => scheduler

def modifyJobTime (group : String) (name cron : Option String) (scheduler : Scheduler) :
    Scheduler :=
  match name, cron with
  | some name, some cron =>
    if valid cron then
      Function.update scheduler (group, name)
        ((scheduler (group, name)).map fun job => { job with cron })
    else scheduler
  | _, _ => scheduler

def removeJob (group : String) (name : Option String) (scheduler : Scheduler) : Scheduler :=
  match name with
  | some name => Function.update scheduler (group, name) none
  | none => scheduler

end QuartzManager

/-- The key under which a job is scheduled. -/
def keyOf (groups : Table JobGroupEntity) (job : JobEntity) : Option (String × String) := do
  let id ← job.jobGroupId
  let group ← groups.findById id
  let name ← job.name
  return (group.appName, name)

/-- The end of a transaction that has written the rows. -/
def JobDatabase.commit (db : JobDatabase) (groups : Table JobGroupEntity) (jobs : Table JobEntity) :
    JobDatabase :=
  if h : ∀ p ∈ jobs.rows, p.2.NotNull then ⟨groups, jobs, h⟩ else db

/-- A running job of the group with id 1. -/
def syncJob : JobEntity where
  jobGroupId := some 1
  name := some "sync"
  cron := some "0 0 1 * * ?"
  author := some "a"
  status := some .running
  description := some "d"
  params := none
  blockingStrategy := some .standAloneSerial
  retryTimes := some 0
  routeStrategy := some .first
  email := none

def syncDatabase : JobDatabase where
  groups := Table.empty.insert ⟨"app", "app", none⟩
  jobs := Table.empty.insert syncJob
  not_null := by decide

end BigPlan.Job

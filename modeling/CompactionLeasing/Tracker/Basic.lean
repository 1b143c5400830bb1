import CompactionLeasing.Job
import CompactionLeasing.Metrics.Tally
import CompactionLeasing.Queues
import Std.Data.ExtTreeMap

/-!
# Trackers

A tracker holds the jobs of one tenant: those that wait to be leased, those that are leased, the
complete compaction jobs that the last plan still lists, and when the last plan was completed.
-/

namespace CompactionLeasing

structure Tracker where
  /-- The incomplete jobs. Pending jobs stand in the order in which they are leased, active ones in
  the order in which their leases run out. -/
  queues : Queues Job
  /-- Where each incomplete job is. -/
  slots : Std.ExtTreeMap JobId Slot
  /-- The complete compaction jobs. -/
  complete : Std.ExtTreeMap JobId CompactionJob
  planLeased : Bool
  /-- When the last plan was completed, unless a new plan job has been created since. -/
  planTime : Option Instant
  /-- Whether the tenant is being deleted. A retired tracker changes nothing. -/
  retired : Bool

/-- What can be seen of a tracker's jobs. -/
structure TrackerView where
  pending : List JobId
  active : List JobId
  complete : List JobId
  planLeased : Bool
  planTime : Option Instant
deriving DecidableEq

namespace Tracker

def empty : Tracker := ⟨.empty, ∅, ∅, false, none, false⟩

instance : Inhabited Tracker := ⟨empty⟩

def pending (t : Tracker) : List Job := t.queues.items .pending

def active (t : Tracker) : List Job := t.queues.items .active

def hasPending (t : Tracker) : Bool := !t.queues.isEmpty .pending

/-- How many names incomplete jobs have. -/
def incompleteCount (t : Tracker) : Nat := t.slots.size

/-- What can be seen of the jobs; complete ones are sorted by name. -/
def view (t : Tracker) : TrackerView :=
  ⟨t.pending.map Job.id, t.active.map Job.id, t.complete.keys, t.planLeased, t.planTime⟩

/-- The slot in front of which a job enters a queue. A compaction job enters pending after the last
compaction job whose order is not greater, and the plan job at the back. A job enters active after
the last one whose lease is not younger. -/
def position? (t : Tracker) (queue : Queue) (job : Job) : Option Slot :=
  match queue with
  | .pending =>
    match job.order? with
    | none => none
    | some order =>
      Queues.slotAfterLast (fun j => j.order?.any (· ≤ order)) (t.queues.toList .pending)
  | .active =>
    Queues.slotAfterLast (fun j => j.state.since ≤ job.state.since) (t.queues.toList .active)

/-- Whether the plan job is leased, after `job` has entered `queue`. -/
def planLeasedAfter (t : Tracker) (queue : Queue) (job : Job) : Bool :=
  if job.isPlan then queue = .active else t.planLeased

/-- Inserts a job at its position in a queue. -/
def place (t : Tracker) (queue : Queue) (job : Job) : Tracker :=
  let (slot, queues) := t.queues.insertBefore queue (t.position? queue job) job
  { t with
    queues := queues
    slots := t.slots.insert job.id slot
    planLeased := t.planLeasedAfter queue job }

def placeAll (t : Tracker) (queue : Queue) (jobs : List Job) : Tracker :=
  jobs.foldl (fun t job => t.place queue job) t

/-- Stores a new version of the job in a slot, and moves it to its position in a queue. The position
is determined among the jobs as they were before. -/
def replace (t : Tracker) (slot : Slot) (queue : Queue) (job : Job) : Tracker :=
  { t with
    queues := (t.queues.set slot job).moveBefore slot queue (t.position? queue job)
    planLeased := t.planLeasedAfter queue job }

def forget (t : Tracker) (slot : Slot) : Tracker :=
  match t.queues.remove slot with
  | (none, _) => t
  | (some job, queues) =>
    { t with
      queues := queues
      slots := t.slots.erase job.id
      planLeased := if job.isPlan then false else t.planLeased }

/-- The leased job of a name, if its lease has the given epoch. -/
def leased? (t : Tracker) (id : JobId) (epoch : UInt64) : Option (Slot × Job) :=
  match t.slots[id]? with
  | none => none
  | some slot =>
    match t.queues.queueOf? slot, t.queues.get? slot with
    | some .active, some job => if job.state.epoch = epoch then some (slot, job) else none
    | _, _ => none

/-- The gauges of the tracker as they stand. -/
def gauges (t : Tracker) : List TallyEvent :=
  [.sizes (t.queues.len .pending) (t.queues.len .active) t.complete.size,
    .planLeased t.planLeased, .lastPlan t.planTime]

end Tracker

end CompactionLeasing

import CompactionLeasing.Tracker.Basic

/-!
# Recovery of a tracker

A tracker is rebuilt from the jobs that were made durable.
-/

namespace CompactionLeasing

/-- The durable jobs of a tenant, apart by kind. -/
structure RecoveredJobs where
  compaction : List CompactionJob
  plan : Option JobState
deriving DecidableEq

namespace RecoveredJobs

/-- Takes jobs apart. Of several plan jobs the last counts. -/
def ofJobs (jobs : List Job) : RecoveredJobs :=
  ⟨jobs.filterMap Job.compaction?, (jobs.filterMap Job.plan?).getLast?⟩

/-- The compaction jobs of a status, in their order. -/
def withStatus (r : RecoveredJobs) (status : JobStatus) : List CompactionJob :=
  r.compaction.filter fun job => job.state.status = status

def planWithStatus (r : RecoveredJobs) (status : JobStatus) : List Job :=
  match r.plan with
  | some s => if s.status = status then [.plan s] else []
  | none => []

end RecoveredJobs

namespace Tracker

/-- Rebuilds the jobs: available ones are sorted by order, and the plan job follows them; leased ones
are sorted by the time of their lease. A retired tracker stays retired. -/
def recover (t : Tracker) (r : RecoveredJobs) : Tracker :=
  let available := (r.withStatus .available).mergeSort fun a b => a.order ≤ b.order
  let leased := ((r.withStatus .leased).map Job.compaction ++ r.planWithStatus .leased).mergeSort
    fun a b => a.state.since ≤ b.state.since
  let start : Tracker :=
    { empty with
      complete := (r.withStatus .complete).foldl (fun m job => m.insert job.id job) ∅
      planTime := (r.planWithStatus .complete).head?.map fun job => job.state.since
      retired := t.retired }
  start.placeAll .pending (available.map Job.compaction)
    |>.placeAll .pending (r.planWithStatus .available)
    |>.placeAll .active leased

end Tracker

end CompactionLeasing

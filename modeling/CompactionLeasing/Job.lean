import CompactionLeasing.Time

/-!
# Jobs

A tenant has compaction jobs, and at times one plan job, which decides what to compact next. Both
move between three statuses: available, leased to a worker, complete. The epoch of a job counts its
leases, so that the holder of an old lease can be told from the holder of the current one.
-/

namespace CompactionLeasing

/-- The name of a job, unique within its tenant. -/
abbrev JobId := String

/-- The name reserved for the plan job. -/
def planId : JobId := "__plan__"

inductive JobStatus where
  | available
  | leased
  | complete
deriving DecidableEq

def JobStatus.name : JobStatus → String
  | available => "available"
  | leased => "leased"
  | complete => "complete"

/-- Where a job stands. -/
structure JobState where
  status : JobStatus
  /-- When the status was taken on, or the lease last renewed. -/
  since : Instant
  /-- The number of leases so far. -/
  epoch : UInt64
  created : Instant
deriving DecidableEq

namespace JobState

def fresh (now : Instant) : JobState := ⟨.available, now, 0, now⟩

/-- Leased now, under the next epoch; `none` when the epochs are used up. -/
def lease? (s : JobState) (now : Instant) : Option JobState :=
  if s.epoch = 0xffffffffffffffff then none
  else some { s with status := .leased, since := now, epoch := s.epoch + 1 }

/-- The same lease, counted from now. -/
def renew (s : JobState) (now : Instant) : JobState := { s with since := now }

/-- Available again, under the same epoch. -/
def release (s : JobState) (now : Instant) : JobState := { s with status := .available, since := now }

/-- Complete, under the same epoch. -/
def complete (s : JobState) (now : Instant) : JobState := { s with status := .complete, since := now }

end JobState

/-- What a compaction job does: the blocks to merge, and whether the result is split. -/
structure CompactionSpec where
  blocks : List String
  split : Bool
deriving DecidableEq

structure CompactionJob where
  id : JobId
  spec : CompactionSpec
  /-- Smaller orders are leased first. -/
  order : UInt32
  state : JobState
deriving DecidableEq

structure PlannedJob where
  id : JobId
  spec : CompactionSpec
deriving DecidableEq

inductive Job where
  | plan (state : JobState)
  | compaction (job : CompactionJob)
deriving DecidableEq

namespace Job

def id : Job → JobId
  | plan _ => planId
  | compaction job => job.id

def isPlan : Job → Bool
  | plan _ => true
  | compaction _ => false

/-- The order of a compaction job; the plan job has none. -/
def order? : Job → Option UInt32
  | plan _ => none
  | compaction job => some job.order

def state : Job → JobState
  | plan state => state
  | compaction job => job.state

def withState : Job → JobState → Job
  | plan _, s => plan s
  | compaction job, s => compaction { job with state := s }

def compaction? : Job → Option CompactionJob
  | plan _ => none
  | compaction job => some job

def plan? : Job → Option JobState
  | plan state => some state
  | compaction _ => none

/-- The job leased now, under the next epoch; `none` when its epochs are used up. -/
def lease? (job : Job) (now : Instant) : Option Job :=
  (job.state.lease? now).map job.withState

def renew (job : Job) (now : Instant) : Job := job.withState (job.state.renew now)

def release (job : Job) (now : Instant) : Job := job.withState (job.state.release now)

def complete (job : Job) (now : Instant) : Job := job.withState (job.state.complete now)

@[simp] theorem id_withState (job : Job) (s : JobState) : (job.withState s).id = job.id := by
  cases job <;> rfl

@[simp] theorem isPlan_withState (job : Job) (s : JobState) :
    (job.withState s).isPlan = job.isPlan := by
  cases job <;> rfl

@[simp] theorem order?_withState (job : Job) (s : JobState) :
    (job.withState s).order? = job.order? := by
  cases job <;> rfl

@[simp] theorem state_withState (job : Job) (s : JobState) : (job.withState s).state = s := by
  cases job <;> rfl

@[simp] theorem withState_withState (job : Job) (s s' : JobState) :
    (job.withState s).withState s' = job.withState s' := by
  cases job <;> rfl

end Job

end CompactionLeasing

import CompactionLeasing.Tracker.Proposal

/-!
# Leases

A worker leases the first pending job. While it holds the lease it may renew it, give it back, or
complete the job; each time it names the epoch of its lease, and a lease that is no longer current is
refused.
-/

namespace CompactionLeasing

/-- What became of the jobs that a completed plan asked for. -/
structure PlanOutcome where
  /-- Jobs that entered pending. -/
  accepted : Nat
  /-- Jobs that were tracked already, or listed before. -/
  skipped : Nat
  /-- Complete jobs that the plan no longer lists. -/
  pruned : Nat
  /-- Whether pending, which was empty, no longer is. -/
  transitioned : Bool
deriving DecidableEq

namespace Tracker

def firstPending? (t : Tracker) : Option (Slot × Job) :=
  match t.queues.front? .pending with
  | none => none
  | some slot => (t.queues.get? slot).map fun job => (slot, job)

def lease (t : Tracker) (now : Instant) : Proposal (Option Job) :=
  if t.retired then .settled none
  else
    match t.firstPending? with
    | none => .settled none
    | some (slot, job) =>
      match job.lease? now with
      | none => .overflow
      | some job =>
        let t' := t.replace slot .active job
        .persist ⟨[job], []⟩
          { tracker := t', answer := some job, events := .leaseGranted :: t'.gauges
            refilled := false }

/-- Counts a lease from now. -/
def renew (t : Tracker) (id : JobId) (epoch : UInt64) (now : Instant) : Proposal Bool :=
  if t.retired then .settled false
  else
    match t.leased? id epoch with
    | none => .settled false
    | some (slot, job) =>
      let job := job.renew now
      .persist ⟨[job], []⟩
        { tracker := t.replace slot .active job, answer := true, events := [], refilled := false }

/-- Gives a lease back: the job enters pending again. -/
def cancel (t : Tracker) (id : JobId) (epoch : UInt64) (now : Instant) : Proposal Bool :=
  if t.retired then .settled false
  else
    match t.leased? id epoch with
    | none => .settled false
    | some (slot, job) =>
      let job := job.release now
      let t' := t.replace slot .pending job
      .persist ⟨[job], []⟩
        { tracker := t', answer := true, events := t'.gauges
          refilled := !t.hasPending && t'.hasPending }

/-- The jobs of a plan that are new, each with its position in the plan, counted from one, as its
order. A job is not new if it was listed before in the plan, if it has the plan job's name, or if it
is tracked. -/
def offers (t : Tracker) (now : Instant) (listed : List JobId) (position : Nat) :
    List PlannedJob → List CompactionJob
  | [] => []
  | p :: ps =>
    let rest := t.offers now (p.id :: listed) (position + 1) ps
    if listed.contains p.id || p.id == planId || t.slots.contains p.id || t.complete.contains p.id
    then rest
    else ⟨p.id, p.spec, .ofNat (min position 0xffffffff), .fresh now⟩ :: rest

/-- The complete jobs that a plan does not list, sorted by name. -/
def unlisted (t : Tracker) (planned : List PlannedJob) : List CompactionJob :=
  t.complete.values.filter fun job => !(planned.map (·.id)).contains job.id

/-- Completes the leased plan job: the new jobs of the plan enter pending, and complete jobs that it
does not list are dropped. -/
def completePlan (t : Tracker) (epoch : UInt64) (planned : List PlannedJob) (now : Instant) :
    Proposal (Option PlanOutcome) :=
  if t.retired then .settled none
  else
    match t.leased? planId epoch with
    | none => .settled none
    | some (slot, plan) =>
      let offered := (t.offers now [] 1 planned).map Job.compaction
      let pruned := t.unlisted planned
      let t' := { t.forget slot with planTime := some now }.placeAll .pending offered
      let t' := { t' with complete := pruned.foldl (fun m job => m.erase job.id) t'.complete }
      let refilled := !t.hasPending && t'.hasPending
      .persist ⟨plan.complete now :: offered, pruned.map Job.compaction⟩
        { tracker := t'
          answer := some
            { accepted := offered.length
              skipped := planned.length - offered.length
              pruned := pruned.length
              transitioned := refilled }
          events := .jobCompleted :: t'.gauges
          refilled := refilled }

/-- The complete jobs once `job` is one of them. The plan job is not kept. -/
def completeWith (t : Tracker) (job : Job) : Std.ExtTreeMap JobId CompactionJob :=
  match job with
  | .plan _ => t.complete
  | .compaction job => t.complete.insert job.id job

/-- Completes a leased job. The plan job completes as a plan that lists nothing. -/
def finish (t : Tracker) (id : JobId) (epoch : UInt64) (now : Instant) : Proposal Bool :=
  if id = planId then (t.completePlan epoch [] now).map Option.isSome
  else if t.retired then .settled false
  else
    match t.leased? id epoch with
    | none => .settled false
    | some (slot, job) =>
      let job := job.complete now
      let t' := { t.forget slot with complete := t.completeWith job }
      .persist ⟨[job], []⟩
        { tracker := t', answer := true, events := .jobCompleted :: t'.gauges, refilled := false }

end Tracker

end CompactionLeasing

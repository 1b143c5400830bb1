import CompactionLeasing.Tracker.Proposal

/-!
# Maintenance of a tracker

Leases that were not renewed in time run out, and a plan job is created when one is due.
-/

namespace CompactionLeasing

/-- The times that maintenance goes by. -/
structure MaintenancePolicy where
  /-- How long a lease lasts. -/
  leaseSpan : Span
  /-- Plans are spaced by boundaries at multiples of this. -/
  planInterval : Span
  /-- How long after a boundary the next plan waits. -/
  planDelay : Span
deriving DecidableEq

namespace Tracker

/-- Whether a lease taken or renewed at `since` has run out. A lease from the future has not. -/
def leaseRanOut (policy : MaintenancePolicy) (now since : Instant) : Bool :=
  match now.since? since with
  | none => false
  | some age => policy.leaseSpan < age

/-- The leases that have run out: as many as stand at the front of active. -/
def ranOut (t : Tracker) (policy : MaintenancePolicy) (now : Instant) : List (Slot × Job) :=
  (t.queues.toList .active).takeWhile fun e => leaseRanOut policy now e.2.state.since

/-- When the next plan is due after one was completed: `planDelay` after the last interval boundary
that is not later than one interval after the completion. `none` if that leaves the range. -/
def nextPlan? (policy : MaintenancePolicy) (completed : Instant) : Option Instant :=
  match completed.add? policy.planInterval with
  | none => none
  | some t => (t.floorTo policy.planInterval).add? policy.planDelay

/-- Whether a plan is due; `none` if its time leaves the range. -/
def planDue? (t : Tracker) (policy : MaintenancePolicy) (now : Instant) : Option Bool :=
  match t.planTime with
  | none => some true
  | some completed => (nextPlan? policy completed).map fun due => due ≤ now

/-- Whether a plan job is to be created: none is tracked, and it is forced or due. -/
def wantsPlan? (t : Tracker) (policy : MaintenancePolicy) (force : Bool) (now : Instant) :
    Option Bool :=
  if t.slots.contains planId then some false
  else if force then some true
  else t.planDue? policy now

/-- Lets leases run out and creates a plan job. Jobs whose leases ran out enter pending first. The
answer says whether pending, which was empty, no longer is. -/
def maintain (t : Tracker) (policy : MaintenancePolicy) (force : Bool) (now : Instant) :
    Proposal Bool :=
  if t.retired then .settled false
  else
    match t.wantsPlan? policy force now with
    | none => .overflow
    | some wanted =>
      let expired := (t.ranOut policy now).map fun e => (e.1, e.2.release now)
      let plans := if wanted then [Job.plan (.fresh now)] else []
      if expired.isEmpty && plans.isEmpty then .settled false
      else
        let t' := expired.foldl (fun t e => t.replace e.1 .pending e.2) t
        let t' := if wanted then { t'.placeAll .pending plans with planTime := none } else t'
        let refilled := !t.hasPending && t'.hasPending
        .persist ⟨expired.map (·.2) ++ plans, []⟩
          { tracker := t'
            answer := refilled
            events :=
              (if expired.isEmpty then [] else [.leasesExpired expired.length]) ++
                (if wanted then [.planCreated] else []) ++ t'.gauges
            refilled := refilled }

end Tracker

end CompactionLeasing

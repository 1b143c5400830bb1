import CompactionLeasing.Scheduler.Basic

/-!
# Requests to all trackers

Leases are handed out in rotation: each search for work begins one tenant further along. Maintenance
visits every registered tracker.
-/

namespace CompactionLeasing

/-- What a maintenance pass over all trackers did. -/
structure MaintenanceSummary where
  tenants : Nat
  /-- Trackers whose pending, which was empty, no longer is. -/
  transitioned : Nat
  /-- Trackers whose changes could not be made durable. -/
  failed : Nat
deriving DecidableEq

namespace Scheduler

/-- Asks trackers for a lease, one after the other, until one grants it. A tracker that cannot make
the lease durable is passed over. -/
def leaseFrom (s : Scheduler) (now : Instant) :
    List (TenantId × Handle) → Verdict Empty (Option (TenantId × Job)) × Scheduler
  | [] => (.done none, s)
  | (tenant, h) :: rest =>
    match s.call h now .lease with
    | (some (.done (.job (some job))), s) => (.done (some (tenant, job)), s)
    | (some .overflow, s) => (.overflow, s)
    | (_, s) => s.leaseFrom now rest

/-- Leases a job from the next registered tracker that has one. -/
def leaseAny (s : Scheduler) (now : Instant) :
    Verdict Empty (Option (TenantId × Job)) × Scheduler :=
  let entries := s.registered
  if entries.isEmpty then (.done none, s)
  else
    let first := s.roster.cursor.toNat % entries.length
    { s with roster := { s.roster with cursor := s.roster.cursor + 1 } }.leaseFrom now
      (entries.drop first ++ entries.take first)

/-- Maintains trackers one after the other, and adds to a summary. -/
def maintainFrom (s : Scheduler) (policy : MaintenancePolicy) (force : Bool) (now : Instant)
    (sum : MaintenanceSummary) :
    List (TenantId × Handle) → Verdict Empty MaintenanceSummary × Scheduler
  | [] => (.done sum, s)
  | (_, h) :: rest =>
    match s.call h now (.maintain policy force) with
    | (some (.done (.flag true)), s) =>
      s.maintainFrom policy force now { sum with transitioned := sum.transitioned + 1 } rest
    | (some (.failed _), s) =>
      s.maintainFrom policy force now { sum with failed := sum.failed + 1 } rest
    | (some .overflow, s) => (.overflow, s)
    | (_, s) => s.maintainFrom policy force now sum rest

/-- Maintains every registered tracker. Those who wait for work are woken if a tracker has work that
had none. -/
def maintainAll (s : Scheduler) (policy : MaintenancePolicy) (force : Bool) (now : Instant) :
    Verdict Empty MaintenanceSummary × Scheduler :=
  let entries := s.registered
  match s.maintainFrom policy force now ⟨entries.length, 0, 0⟩ entries with
  | (.done sum, s) => (.done sum, if 0 < sum.transitioned then s.give s.roster.signal else s)
  | r => r

end Scheduler

end CompactionLeasing

import CompactionLeasing.Scheduler.Basic

/-!
# Recovery of the scheduler

At the start every recorded tenant gets a tracker with its durable jobs.
-/

namespace CompactionLeasing

namespace Scheduler

def recoverTenant (outlet : Outlet) (s : Scheduler) (r : TenantId × RecoveredJobs) : Scheduler :=
  let (h, s) := s.enroll r.1 outlet s.roster.signal
  (s.rebuild h r.2).register r.1 h

/-- Makes and registers the trackers of all recorded tenants, whose names are the answer. -/
def recoverTrackers (s : Scheduler) : Except StoreError (Std.ExtTreeSet TenantId × Scheduler) := do
  let recovered ← s.storage.recoverAll
  return (.ofList (recovered.map (·.1)), recovered.foldl (recoverTenant .storage) s)

/-- Lets discovery keep tenants. -/
def keep (s : Scheduler) (tenants : Std.ExtTreeSet TenantId) : Scheduler :=
  { s with known := tenants.toList.foldl (·.insert ·) s.known }

/-- The scheduler with an empty roster, a signal of its own, an empty registry of tallies and no known
tenants. The storage stays, and so do trackers for those who hold their handles. -/
def reset (s : Scheduler) : Scheduler :=
  { s with
    signals := s.signals.push 0
    metrics := s.metrics.clear
    roster := ⟨∅, 0, s.signals.size⟩
    known := ∅ }

/-- Restarts the scheduler from its storage. The answer is the tenants that were recovered, sorted;
unless they are forgotten, discovery keeps them. -/
def restart (s : Scheduler) (forget : Bool) : Except StoreError (List TenantId) × Scheduler :=
  let s := s.reset
  match s.recoverTrackers with
  | .error e => (.error e, s)
  | .ok (tenants, s) => (.ok tenants.toList, if forget then s else s.keep tenants)

end Scheduler

end CompactionLeasing

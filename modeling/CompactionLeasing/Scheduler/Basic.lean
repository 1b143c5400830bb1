import CompactionLeasing.Admission
import CompactionLeasing.Metrics.Registry
import CompactionLeasing.Storage
import CompactionLeasing.Tracker.Request
import Std.Data.ExtTreeSet

/-!
# The scheduler

All trackers with what they share: the registry of tallies, the storage, the roster of registered
trackers and the signals by which waiting workers are woken. A tracker is known by a handle, which
stays valid when the tracker is no longer registered.
-/

namespace CompactionLeasing

abbrev Handle := Nat

abbrev Signal := Nat

/-- Where a tracker makes its jobs durable. -/
inductive Outlet where
  /-- Under its tenant in the storage. -/
  | storage
  /-- Nowhere: every batch counts as durable. -/
  | nowhere
deriving DecidableEq

/-- A tracker with what it was made for. -/
structure Member where
  tenant : TenantId
  /-- How many leases its users should hold at a time; zero is no limit. The tracker does not check
  it. -/
  maxLeases : UInt64
  tracker : Tracker
  /-- The number of its tally. -/
  tally : Nat
  /-- The signal that it gives when pending, which was empty, no longer is. -/
  signal : Signal
  outlet : Outlet

/-- The registered trackers, by the tenant under which they are registered. -/
structure Roster where
  trackers : Std.ExtTreeMap TenantId Handle
  /-- How many times a lease was asked for while trackers were registered. -/
  cursor : UInt64
  /-- The signal that workers wait for. -/
  signal : Signal

structure Scheduler where
  /-- All trackers there ever were, by handle. -/
  members : Array Member
  /-- How often each signal was given. -/
  signals : Array Nat
  metrics : Metrics
  roster : Roster
  storage : Storage
  /-- The tenants that discovery keeps. -/
  known : Std.ExtTreeSet TenantId
  admission : Admission
  /-- The limit on leases that new trackers get. -/
  maxLeases : UInt64

/-- How a worker fares who waits for work. -/
inductive Waiting where
  /-- Work was pending when the wait began. -/
  | ready
  | woken
  | waiting
deriving DecidableEq

namespace Scheduler

def start (storage : Storage) (admission : Admission) (maxLeases : UInt64) : Scheduler :=
  ⟨#[], #[0], .empty, ⟨∅, 0, 0⟩, storage, ∅, admission, maxLeases⟩

/-- Gives a signal: all that wait for it are woken. -/
def give (s : Scheduler) (signal : Signal) : Scheduler :=
  { s with signals := s.signals.modify signal (· + 1) }

/-- How often workers who wait for work have been woken. -/
def wakes (s : Scheduler) : Nat := s.signals[s.roster.signal]?.getD 0

/-- Makes a signal that nobody waits for. -/
def newSignal (s : Scheduler) : Signal × Scheduler :=
  (s.signals.size, { s with signals := s.signals.push 0 })

def modifyMember (s : Scheduler) (h : Handle) (f : Member → Member) : Scheduler :=
  { s with members := s.members.modify h f }

/-- Makes a tracker without jobs, which is not registered yet. It shares the tally that the registry
has for its tenant. -/
def enroll (s : Scheduler) (tenant : TenantId) (outlet : Outlet) (signal : Signal) :
    Handle × Scheduler :=
  let (tally, metrics) := s.metrics.numberOf tenant
  (s.members.size,
    { s with
      members := s.members.push ⟨tenant, s.maxLeases, .empty, tally, signal, outlet⟩
      metrics := metrics })

/-- Registers a tracker, in place of another one that may be registered for the tenant. -/
def register (s : Scheduler) (tenant : TenantId) (h : Handle) : Scheduler :=
  { s with roster := { s.roster with trackers := s.roster.trackers.insert tenant h } }

def unregister (s : Scheduler) (tenant : TenantId) : Option Handle × Scheduler :=
  (s.roster.trackers[tenant]?,
    { s with roster := { s.roster with trackers := s.roster.trackers.erase tenant } })

def registered (s : Scheduler) : List (TenantId × Handle) := s.roster.trackers.toList

/-- Whether a registered tracker has pending work. -/
def hasWork (s : Scheduler) : Bool :=
  s.registered.any fun e => (s.members[e.2]?).any fun m => m.tracker.hasPending

/-- What becomes of a worker who begins to wait for work in one state, once another is reached. -/
def waiting (before after : Scheduler) : Waiting :=
  if before.hasWork then .ready
  else if before.wakes < after.wakes then .woken
  else .waiting

def writeFor (m : Member) (storage : Storage) (batch : Batch) : Except StoreError Storage :=
  match m.outlet with
  | .storage => storage.writeBatch m.tenant batch
  | .nowhere => .ok storage

/-- Puts a request to a tracker. A handle that is not in use changes nothing. -/
def call (s : Scheduler) (h : Handle) (now : Instant) (request : Request) :
    Option (Verdict StoreError Reply) × Scheduler :=
  match s.members[h]? with
  | none => (none, s)
  | some m =>
    let r := m.tracker.serve now request s.storage (writeFor m s.storage)
    let s :=
      { s with
        members := s.members.modify h fun m => { m with tracker := r.tracker }
        metrics := s.metrics.record m.tally r.events
        storage := r.store }
    (some r.verdict, if r.refilled then s.give m.signal else s)

def rebuild (s : Scheduler) (h : Handle) (jobs : RecoveredJobs) : Scheduler :=
  match s.members[h]? with
  | none => s
  | some m =>
    let t := m.tracker.recover jobs
    { s with
      members := s.members.modify h fun m => { m with tracker := t }
      metrics := s.metrics.record m.tally t.gauges }

def retire (s : Scheduler) (h : Handle) : Scheduler :=
  s.modifyMember h fun m => { m with tracker := m.tracker.retire }

def reinstate (s : Scheduler) (h : Handle) : Scheduler :=
  s.modifyMember h fun m => { m with tracker := m.tracker.reinstate }

end Scheduler

end CompactionLeasing

import CompactionLeasing.Daemon.Launch

/-!
# Runs of the daemon

A run lets the discovery loop and the maintenance loop act as time passes, while the bucket changes.
It ends with a shutdown. The clock by which jobs are dated stands still.
-/

namespace CompactionLeasing

structure DaemonRun where
  files : Files
  scheduler : Scheduler
  discovery : DiscoveryLoop
  maintenance : MaintenanceLoop
  time : Tick

/-- What stays the same during a run. -/
structure DaemonPlan where
  discovery : DiscoveryPlan
  bucket : String
  now : Instant

/-- What happens to the files from outside. -/
inductive DaemonEvent where
  | sleep (ms : Nat)
  | makeDirectory (path : String)
  | removeDirectory (path : String)
deriving DecidableEq

/-- The plan that settings make. -/
def Launched.plan (l : Launched) (now : Instant) : DaemonPlan :=
  ⟨⟨l.settings.backoff, l.settings.discoveryInterval, false⟩, l.bucket, now⟩

def Launched.start (l : Launched) (now : Instant) : DaemonRun :=
  ⟨l.files, l.scheduler, .start (l.plan now).discovery,
    .start l.settings.maintenance l.settings.maintenanceInterval, 0⟩

namespace DaemonRun

def maintain (r : DaemonRun) (plan : DaemonPlan) (t : Tick) : DaemonRun :=
  let (loop, s) := r.maintenance.act (some plan.now) r.scheduler
  { r with maintenance := loop, scheduler := s, time := t }

def discover (r : DaemonRun) (plan : DaemonPlan) : DaemonRun :=
  let (loop, s) :=
    r.discovery.act plan.discovery plan.now (r.files.tenants plan.bucket) r.scheduler
  { r with discovery := loop, scheduler := s, time := r.discovery.due }

/-- The tick at which the discovery loop acts next, if that is not after `deadline`. -/
def discoveryDue? (r : DaemonRun) (deadline : Tick) : Option Tick :=
  match r.discovery.phase with
  | .ended _ => none
  | _ => if r.discovery.due ≤ deadline then some r.discovery.due else none

/-- Lets time pass up to `deadline`, while the loops act at most `n` times. Of two loops that are due
at one tick maintenance acts first. -/
def pass (plan : DaemonPlan) (deadline : Tick) : Nat → DaemonRun → DaemonRun
  | 0, r => { r with time := deadline }
  | n + 1, r =>
    match r.maintenance.dueBy? deadline, r.discoveryDue? deadline with
    | none, none => { r with time := deadline }
    | some t, none => pass plan deadline n (r.maintain plan t)
    | none, some _ => pass plan deadline n (r.discover plan)
    | some t, some t' =>
      if t ≤ t' then pass plan deadline n (r.maintain plan t)
      else pass plan deadline n (r.discover plan)

/-- More than the number of times that the loops act up to a tick. -/
def bound (r : DaemonRun) (deadline : Tick) : Nat := r.maintenance.bound deadline + deadline + 3

def react (plan : DaemonPlan) (r : DaemonRun) : DaemonEvent → DaemonRun
  | .sleep ms =>
    let deadline := r.time + Tick.wait ms
    if ms = 0 then r else r.pass plan deadline (r.bound deadline)
  | .makeDirectory path => { r with files := r.files.makeDirectories path }
  | .removeDirectory path => { r with files := r.files.removeAt path }

/-- The files after the shutdown: the store is what the scheduler has made of it, unless its file has
been removed. -/
def finalFiles (r : DaemonRun) (storePath : FilePath) : Files :=
  match r.files.node? storePath with
  | some (.store _) => r.files.put storePath (.store r.scheduler.storage.store)
  | _ => r.files

end DaemonRun

/-- A whole run of the daemon: the error that kept it from running, if there is one, and the files
that are left behind. -/
def runDaemon (o : LaunchOptions) (f : Files) (now : Instant) (events : List DaemonEvent) :
    Option LaunchError × Files :=
  match launch o f with
  | .error (e, f) => (some e, f)
  | .ok l => (none, (events.foldl (DaemonRun.react (l.plan now)) (l.start now)).finalFiles l.storePath)

end CompactionLeasing

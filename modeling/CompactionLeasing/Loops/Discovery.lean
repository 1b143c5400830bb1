import CompactionLeasing.Backoff
import CompactionLeasing.Loops.Ticks
import CompactionLeasing.Scheduler.Discovery

/-!
# The discovery loop

Passes of discovery are made one after the other: first until one succeeds, with growing delays in
between, and then at regular intervals. A shutdown ends the loop while it waits.
-/

namespace CompactionLeasing

structure DiscoveryPlan where
  backoff : BackoffPolicy
  /-- How long the loop waits once a pass has succeeded. -/
  interval : Span
  /-- Whether the first pass that succeeds ends the loop. -/
  once : Bool
deriving DecidableEq

inductive DiscoveryPhase where
  /-- No pass has succeeded yet; `last` is the error of the latest one. -/
  | starting (backoff : Backoff) (last : Option DiscoveryError)
  | settled
  | ended (verdict : Verdict DiscoveryError Unit)
deriving DecidableEq

structure DiscoveryLoop where
  phase : DiscoveryPhase
  /-- When the loop acts next. -/
  due : Tick
deriving DecidableEq

namespace DiscoveryLoop

def start (plan : DiscoveryPlan) : DiscoveryLoop := ⟨.starting (.start plan.backoff) none, 0⟩

/-- Whether the loop makes a pass when it acts next. -/
def makesPass (l : DiscoveryLoop) : Bool :=
  match l.phase with
  | .starting b _ => b.ongoing
  | .settled => true
  | .ended _ => false

def finish (l : DiscoveryLoop) (verdict : Verdict DiscoveryError Unit) : DiscoveryLoop :=
  { l with phase := .ended verdict }

/-- The loop after a pass. A pass that fails before any has succeeded is followed by a delay, even if
no retry is left after it. -/
def afterPass (l : DiscoveryLoop) (plan : DiscoveryPlan) (r : Except DiscoveryError Unit) :
    DiscoveryLoop :=
  match l.phase, r with
  | .starting b _, .error e =>
    match b.next with
    | (none, _) => l.finish .overflow
    | (some delay, b) => ⟨.starting b (some e), l.due + delay.ticks⟩
  | .starting _ _, .ok () =>
    if plan.once then l.finish (.done ()) else ⟨.settled, l.due + plan.interval.ticks⟩
  | .settled, _ => ⟨.settled, l.due + plan.interval.ticks⟩
  | .ended _, _ => l

/-- Acts: makes a pass, where `listing` is what the bucket then lists, unless no retry is left. -/
def act (l : DiscoveryLoop) (plan : DiscoveryPlan) (now : Instant)
    (listing : Except String (List TenantId)) (s : Scheduler) : DiscoveryLoop × Scheduler :=
  if l.makesPass then
    let (r, s) := s.discover now listing
    (l.afterPass plan r, s)
  else
    match l.phase with
    | .starting _ (some e) => (l.finish (.failed e), s)
    | .starting _ none => (l.finish (.failed .shutdown), s)
    | _ => (l, s)

/-- A shutdown while the loop waits, or before its first pass. -/
def interrupt (l : DiscoveryLoop) : DiscoveryLoop :=
  match l.phase with
  | .starting _ _ => l.finish (.failed .shutdown)
  | .settled => l.finish (.done ())
  | .ended _ => l

end DiscoveryLoop

/-- What a run of the discovery loop meets. -/
structure DiscoveryCourse where
  /-- What the bucket lists, time after time; the last listing repeats. -/
  listings : List (Except String (List TenantId))
  /-- After how many milliseconds shutdown is signalled. -/
  shutdown : Option Nat
  now : Instant

namespace DiscoveryCourse

def shutdownTick (c : DiscoveryCourse) : Option Tick := c.shutdown.map Tick.wait

/-- The listing after `n` others. -/
def listing (c : DiscoveryCourse) (n : Nat) : Except String (List TenantId) :=
  match c.listings[n]? with
  | some l => l
  | none => c.listings.getLast?.getD (.ok [])

end DiscoveryCourse

structure DiscoveryRun where
  loop : DiscoveryLoop
  scheduler : Scheduler
  /-- When the bucket was listed. -/
  listed : List Tick
  /-- When the loop ended. -/
  ended : Option Tick

namespace DiscoveryRun

/-- Lets the loop act, or end if shutdown is signalled before it would act. -/
def step (plan : DiscoveryPlan) (course : DiscoveryCourse) (r : DiscoveryRun) : DiscoveryRun :=
  match course.shutdownTick.filter (· < r.loop.due) with
  | some t => { r with loop := r.loop.interrupt, ended := some t }
  | none =>
    let (loop, scheduler) :=
      r.loop.act plan course.now (course.listing r.listed.length) r.scheduler
    { loop := loop
      scheduler := scheduler
      listed := if r.loop.makesPass then r.listed ++ [r.loop.due] else r.listed
      ended :=
        match loop.phase with
        | .ended _ => some r.loop.due
        | _ => none }

/-- At most `n` steps, up to the end of the loop. -/
def run (plan : DiscoveryPlan) (course : DiscoveryCourse) : Nat → DiscoveryRun → DiscoveryRun
  | 0, r => r
  | n + 1, r => if r.ended.isSome then r else run plan course n (r.step plan course)

/-- The beginning of a run; it ends at once where shutdown has been signalled already. -/
def start (plan : DiscoveryPlan) (s : Scheduler) (alreadyDown : Bool) : DiscoveryRun :=
  let loop := DiscoveryLoop.start plan
  if alreadyDown then ⟨loop.interrupt, s, [], some 0⟩ else ⟨loop, s, [], none⟩

/-- More steps than a run takes that comes to its end: a run makes a pass for each listing, each
retry and each tick up to the shutdown at most. -/
def bound (plan : DiscoveryPlan) (course : DiscoveryCourse) : Nat :=
  course.listings.length + plan.backoff.maxRetries.toNat + course.shutdown.getD 0 + 3

def complete (plan : DiscoveryPlan) (course : DiscoveryCourse) (s : Scheduler)
    (alreadyDown : Bool) : DiscoveryRun :=
  run plan course (bound plan course) (start plan s alreadyDown)

end DiscoveryRun

end CompactionLeasing

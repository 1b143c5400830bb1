import CompactionLeasing.Loops.Ticks
import CompactionLeasing.Scheduler.Rotation

/-!
# The maintenance loop

All trackers are maintained at regular intervals, for the first time at the start. The loop dies if a
time leaves its range.
-/

namespace CompactionLeasing

structure MaintenanceLoop where
  policy : MaintenancePolicy
  every : Span
  turns : Nat
  running : Bool
deriving DecidableEq

namespace MaintenanceLoop

/-- The loop before it acts for the first time. There is no loop without an interval. -/
def start (policy : MaintenancePolicy) (every : Span) : MaintenanceLoop :=
  ⟨policy, every, 0, !every.isZero⟩

/-- When the loop acts next. -/
def due? (l : MaintenanceLoop) : Option Tick :=
  if l.running then some (.ofNanos (l.turns * l.every.period)) else none

/-- The tick at which the loop acts next, if that is not after `deadline`. -/
def dueBy? (l : MaintenanceLoop) (deadline : Tick) : Option Tick :=
  match l.due? with
  | some t => if t ≤ deadline then some t else none
  | none => none

/-- More than the number of times that the loop acts up to a tick. -/
def bound (l : MaintenanceLoop) (deadline : Tick) : Nat := deadline * 1000000 / l.every.period + 2

def stop (l : MaintenanceLoop) : MaintenanceLoop := { l with running := false }

/-- Acts; `now` is what the clock shows, if it is in range. -/
def act (l : MaintenanceLoop) (now : Option Instant) (s : Scheduler) :
    MaintenanceLoop × Scheduler :=
  match now with
  | none => (l.stop, s)
  | some now =>
    match s.maintainAll l.policy false now with
    | (.done _, s) => ({ l with turns := l.turns + 1 }, s)
    | (_, s) => (l.stop, s)

end MaintenanceLoop

/-- A maintenance loop beside a program that acts in between. -/
structure MaintenanceRun where
  loop : MaintenanceLoop
  scheduler : Scheduler
  start : Instant
  time : Tick

namespace MaintenanceRun

def now? (r : MaintenanceRun) : Option Instant := r.time.instant? r.start

def act (r : MaintenanceRun) (t : Tick) : MaintenanceRun :=
  let (loop, scheduler) := r.loop.act (t.instant? r.start) r.scheduler
  { r with loop := loop, scheduler := scheduler, time := t }

/-- Lets time pass up to `deadline`, while the loop acts at most `n` times. With `untilWoken` it ends
as soon as those who wait for work are woken, and the answer is whether they were. -/
def pass (deadline : Tick) (untilWoken : Bool) : Nat → MaintenanceRun → Bool × MaintenanceRun
  | 0, r => (false, { r with time := deadline })
  | n + 1, r =>
    match r.loop.dueBy? deadline with
    | none => (false, { r with time := deadline })
    | some t =>
      let r' := r.act t
      if untilWoken && r.scheduler.wakes < r'.scheduler.wakes then (true, r')
      else pass deadline untilWoken n r'

/-- Sleeps. Nothing else happens while nobody waits. -/
def sleep (r : MaintenanceRun) (ms : Nat) : MaintenanceRun :=
  let deadline := r.time + Tick.wait ms
  if ms = 0 then r else (pass deadline false (r.loop.bound deadline) r).2

/-- Waits for work, but not longer than `ms`. The answer is whether there is any. -/
def awaitWork (r : MaintenanceRun) (ms : Nat) : Bool × MaintenanceRun :=
  let deadline := r.time + Tick.wait ms
  if r.scheduler.hasWork then (true, r)
  else if ms = 0 then (false, r)
  else pass deadline true (r.loop.bound deadline) r

/-- Shuts the loop down, and waits one tick. -/
def shutDown (r : MaintenanceRun) : MaintenanceRun :=
  { r with loop := r.loop.stop, time := r.time + 1 }

end MaintenanceRun

end CompactionLeasing

import CompactionLeasing.Time

/-!
# Ticks

The time of a running program, in milliseconds from its start. Timers go off on whole ticks, and none
waits for more than thirty years.
-/

namespace CompactionLeasing

/-- A point of time, in milliseconds from the start of the program. -/
abbrev Tick := Nat

namespace Tick

/-- The first tick that is not before a number of nanoseconds from the start. -/
def ofNanos (n : Nat) : Nat := (n + 999999) / 1000000

theorem le_ofNanos (n : Nat) : n ≤ ofNanos n * 1000000 := by
  unfold ofNanos
  omega

theorem ofNanos_lt (n : Nat) : ofNanos n * 1000000 < n + 1000000 := by
  unfold ofNanos
  omega

/-- How long a timer waits at most: thirty years of 365 days. -/
def longestWait : Nat := 946080000000

/-- How long a timer waits that is set to `ms` milliseconds. -/
def wait (ms : Nat) : Nat := min ms longestWait

/-- What a clock shows at a tick, if it showed `start` at the start. -/
def instant? (start : Instant) (t : Tick) : Option Instant :=
  Instant.ofNanos? (start.nanos + (t * 1000000 : Nat))

end Tick

/-- How many ticks a timer takes that is set to the span. -/
def Span.ticks (d : Span) : Nat := Tick.wait (Tick.ofNanos d.nanos)

/-- How many nanoseconds lie between the turns of a timer that is set to the span again and again. -/
def Span.period (d : Span) : Nat := Nat.min d.nanos (Tick.longestWait * 1000000)

end CompactionLeasing

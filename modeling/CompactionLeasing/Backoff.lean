import CompactionLeasing.Time

/-!
# Retry delays

Retries wait ever longer: each delay is twice the one before, up to a longest delay.
-/

namespace CompactionLeasing

/-- How retries are spaced and how many there are. -/
structure BackoffPolicy where
  shortest : Span
  longest : Span
  /-- How many retries are allowed; zero allows any number. -/
  maxRetries : UInt32
deriving DecidableEq

structure Backoff where
  policy : BackoffPolicy
  /-- Delays handed out so far, counted up to `2 ^ 32 - 1`. -/
  retries : UInt32
  /-- The delay that comes next. -/
  upcoming : Span
deriving DecidableEq

namespace Backoff

/-- No retry so far. The first delay never exceeds the longest one. -/
def start (policy : BackoffPolicy) : Backoff :=
  ⟨policy, 0, policy.shortest.min policy.longest⟩

def ongoing (b : Backoff) : Bool := b.policy.maxRetries == 0 || b.retries < b.policy.maxRetries

/-- Hands out the next delay. It is `none` when twice the delay is no span; the retry counts all the
same, and the delay stays as it is. -/
def next (b : Backoff) : Option Span × Backoff :=
  let counted := { b with retries := if b.retries = 0xffffffff then b.retries else b.retries + 1 }
  match b.upcoming.twice? with
  | none => (none, counted)
  | some twice => (some b.upcoming, { counted with upcoming := twice.min b.policy.longest })

end Backoff

end CompactionLeasing

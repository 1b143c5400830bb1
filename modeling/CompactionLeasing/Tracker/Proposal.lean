import CompactionLeasing.Tracker.Basic

/-!
# Proposals

A tracker changes in two steps. First it proposes: it works out what a request would change, as a
batch of jobs to be made durable and the tracker that would result. Only when the batch has been made
durable does that tracker take the place of the old one. So a failed write leaves everything as it
was.
-/

namespace CompactionLeasing

/-- Jobs to be written and deleted as one. -/
structure Batch where
  writes : List Job
  deletes : List Job
deriving DecidableEq

/-- What holds once a batch is durable. -/
structure Effect (α : Type) where
  tracker : Tracker
  answer : α
  events : List TallyEvent
  /-- Whether pending, which was empty, no longer is. -/
  refilled : Bool

/-- The answer of a tracker to a request, before anything is written. -/
inductive Proposal (α : Type) where
  /-- Nothing has to be written. -/
  | settled (answer : α)
  /-- A time or an epoch would leave its range. -/
  | overflow
  /-- The batch has to be made durable. -/
  | persist (batch : Batch) (effect : Effect α)

/-- How a request ended. -/
inductive Verdict (ε α : Type) where
  | done (answer : α)
  | failed (error : ε)
  | overflow
deriving DecidableEq

/-- What holds after a request: its verdict, the tracker, the store, what has happened, and whether
workers are to be woken. -/
structure Settlement (ε σ α : Type) where
  verdict : Verdict ε α
  tracker : Tracker
  store : σ
  events : List TallyEvent
  refilled : Bool

namespace Proposal

variable {α β ε σ : Type}

def map (f : α → β) : Proposal α → Proposal β
  | settled a => settled (f a)
  | overflow => overflow
  | persist b e => persist b ⟨e.tracker, f e.answer, e.events, e.refilled⟩

/-- Carries out a proposal of the tracker `t`, where `persist` makes a batch durable in the store or
says why it cannot. -/
def settle (p : Proposal α) (t : Tracker) (store : σ) (write : Batch → Except ε σ) :
    Settlement ε σ α :=
  match p with
  | settled a => ⟨.done a, t, store, [], false⟩
  | overflow => ⟨.overflow, t, store, [], false⟩
  | persist b e =>
    match write b with
    | .error err => ⟨.failed err, t, store, [.persistFailed], false⟩
    | .ok store => ⟨.done e.answer, e.tracker, store, e.events, e.refilled⟩

end Proposal

end CompactionLeasing

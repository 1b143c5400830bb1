import CompactionLeasing.Tracker.Lease
import CompactionLeasing.Tracker.Maintenance
import CompactionLeasing.Tracker.Recovery

/-!
# Requests to a tracker

All that a tracker can be asked to do, as one type.
-/

namespace CompactionLeasing

inductive Request where
  | maintain (policy : MaintenancePolicy) (force : Bool)
  | lease
  | renew (id : JobId) (epoch : UInt64)
  | cancel (id : JobId) (epoch : UInt64)
  | finish (id : JobId) (epoch : UInt64)
  | completePlan (epoch : UInt64) (planned : List PlannedJob)
deriving DecidableEq

inductive Reply where
  | flag (b : Bool)
  | job (job : Option Job)
  | plan (outcome : Option PlanOutcome)
deriving DecidableEq

namespace Tracker

def propose (t : Tracker) (now : Instant) : Request → Proposal Reply
  | .maintain policy force => (t.maintain policy force now).map .flag
  | .lease => (t.lease now).map .job
  | .renew id epoch => (t.renew id epoch now).map .flag
  | .cancel id epoch => (t.cancel id epoch now).map .flag
  | .finish id epoch => (t.finish id epoch now).map .flag
  | .completePlan epoch planned => (t.completePlan epoch planned now).map .plan

/-- Carries out a request, where `write` makes a batch durable or says why it cannot. -/
def serve {ε σ : Type} (t : Tracker) (now : Instant) (request : Request) (store : σ)
    (write : Batch → Except ε σ) : Settlement ε σ Reply :=
  (t.propose now request).settle t store write

/-- The tracker while its tenant is being deleted. -/
def retire (t : Tracker) : Tracker := { t with retired := true }

/-- The tracker after the deletion of its tenant failed. -/
def reinstate (t : Tracker) : Tracker := { t with retired := false }

end Tracker

end CompactionLeasing

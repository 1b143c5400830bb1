import CompactionLeasing.Tenant

/-!
# Tallies

The figures that are kept about one tenant: gauges, which show how things stand, and counters, which
show how often something happened. Counters wrap at `2 ^ 64`.
-/

namespace CompactionLeasing

structure Tally where
  pending : UInt64 := 0
  active : UInt64 := 0
  complete : UInt64 := 0
  planLeased : Bool := false
  /-- Unix seconds of the last completed plan; zero if there is none. -/
  lastPlan : UInt64 := 0
  plansCreated : UInt64 := 0
  granted : UInt64 := 0
  expired : UInt64 := 0
  completed : UInt64 := 0
  failures : UInt64 := 0
deriving DecidableEq, Inhabited

/-- What changes a tally. -/
inductive TallyEvent where
  | sizes (pending active complete : Nat)
  | planLeased (b : Bool)
  | lastPlan (t : Option Instant)
  | planCreated
  | leaseGranted
  | leasesExpired (n : Nat)
  | jobCompleted
  | persistFailed
deriving DecidableEq

namespace Tally

/-- The Unix seconds of an instant; zero before the epoch. -/
def unixSeconds : Option Instant → UInt64
  | none => 0
  | some t => .ofNat t.seconds.toNat

def record (y : Tally) : TallyEvent → Tally
  | .sizes p a c => { y with pending := .ofNat p, active := .ofNat a, complete := .ofNat c }
  | .planLeased b => { y with planLeased := b }
  | .lastPlan t => { y with lastPlan := unixSeconds t }
  | .planCreated => { y with plansCreated := y.plansCreated + 1 }
  | .leaseGranted => { y with granted := y.granted + 1 }
  | .leasesExpired n => { y with expired := y.expired + .ofNat n }
  | .jobCompleted => { y with completed := y.completed + 1 }
  | .persistFailed => { y with failures := y.failures + 1 }

def recordAll (y : Tally) (events : List TallyEvent) : Tally := events.foldl record y

end Tally

end CompactionLeasing

import CompactionLeasing.Metrics.Tally
import Std.Data.ExtTreeMap

/-!
# The registry of tallies

Every tally has a number, by which whoever keeps it can change it. The registry knows the current
tally of each tenant; a tally that it no longer knows can still be changed, and is not seen.
-/

namespace CompactionLeasing

structure Metrics where
  /-- All tallies there ever were, by number. -/
  tallies : Array Tally
  /-- The number of each tenant's tally. -/
  byTenant : Std.ExtTreeMap TenantId Nat
deriving DecidableEq

structure TenantTally where
  tenant : TenantId
  tally : Tally
deriving DecidableEq

namespace Metrics

def empty : Metrics := ⟨#[], ∅⟩

instance : Inhabited Metrics := ⟨empty⟩

/-- The number of a tenant's tally, which begins at zero if there is none yet. -/
def numberOf (m : Metrics) (tenant : TenantId) : Nat × Metrics :=
  match m.byTenant[tenant]? with
  | some n => (n, m)
  | none =>
    (m.tallies.size, ⟨m.tallies.push {}, m.byTenant.insert tenant m.tallies.size⟩)

/-- Records events in the tally with a number. -/
def record (m : Metrics) (n : Nat) (events : List TallyEvent) : Metrics :=
  { m with tallies := m.tallies.modify n (·.recordAll events) }

def remove (m : Metrics) (tenant : TenantId) : Metrics :=
  { m with byTenant := m.byTenant.erase tenant }

def clear (m : Metrics) : Metrics := { m with byTenant := ∅ }

/-- The tallies of the tenants, sorted by tenant. -/
def snapshot (m : Metrics) : List TenantTally :=
  m.byTenant.toList.map fun e => ⟨e.1, m.tallies[e.2]?.getD {}⟩

end Metrics

end CompactionLeasing

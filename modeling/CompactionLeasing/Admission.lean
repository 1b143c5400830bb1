import CompactionLeasing.Tenant
import Std.Data.ExtTreeSet

/-!
# Tenant admission

Which of the tenants found in the bucket are scheduled.
-/

namespace CompactionLeasing

/-- A rule on tenants: a set of enabled ones, where the empty set stands for all, less a set of
disabled ones. -/
structure Admission where
  enabled : Std.ExtTreeSet TenantId
  disabled : Std.ExtTreeSet TenantId
deriving DecidableEq

namespace Admission

def ofLists (enabled disabled : List TenantId) : Admission :=
  ⟨.ofList enabled, .ofList disabled⟩

def all : Admission := ⟨∅, ∅⟩

/-- Whether a tenant is admitted. A disabled tenant never is. -/
def admits (a : Admission) (tenant : TenantId) : Bool :=
  (a.enabled.isEmpty || a.enabled.contains tenant) && !a.disabled.contains tenant

end Admission

end CompactionLeasing

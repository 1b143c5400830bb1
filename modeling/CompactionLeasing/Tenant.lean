import CompactionLeasing.Time

/-!
# Tenants

A tenant owns one bucket directory and the compaction jobs of its blocks.
-/

namespace CompactionLeasing

abbrev TenantId := String

namespace TenantId

/-- A usable tenant name is not empty and holds no `/`, which separates a tenant from its jobs in the
store's keys. -/
def isValid (tenant : TenantId) : Bool := !tenant.isEmpty && !tenant.toList.contains '/'

end TenantId

/-- What the store keeps about a tenant. -/
structure TenantRecord where
  tenant : TenantId
  /-- When the tenant was first seen. -/
  initialized : Instant
deriving DecidableEq

end CompactionLeasing

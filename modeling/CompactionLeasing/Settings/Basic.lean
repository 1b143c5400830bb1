import CompactionLeasing.Admission
import CompactionLeasing.Backoff
import CompactionLeasing.SpanText
import CompactionLeasing.Tracker.Maintenance

/-!
# Settings

What can be configured. Spans are kept as they were written; `resolve` reads them, and refuses settings
that cannot be used.
-/

namespace CompactionLeasing

structure SchedulingSettings where
  leaseSpan : String := "10m"
  planInterval : String := "1h"
  planDelay : String := "15m"
  maintenanceInterval : String := "30s"
  /-- Zero leaves leases unlimited. -/
  maxLeases : UInt64 := 0
deriving DecidableEq

structure DiscoverySettings where
  /-- The directory whose subdirectories are the tenants. -/
  bucket : Option String := none
  interval : String := "5m"
  shortestBackoff : String := "1s"
  longestBackoff : String := "1m"
  /-- Zero retries the first discovery forever. -/
  maxRetries : UInt32 := 0
  enabled : List TenantId := []
  disabled : List TenantId := []
deriving DecidableEq

structure StorageSettings where
  /-- The directory of the store. -/
  dataDir : String := "data"
deriving DecidableEq

structure Settings where
  scheduling : SchedulingSettings := {}
  discovery : DiscoverySettings := {}
  storage : StorageSettings := {}
deriving DecidableEq

/-- Why settings cannot be used. -/
inductive SettingsError where
  /-- A field holds no span. -/
  | noSpan (name : String) (cause : SpanTextError)
  /-- A field holds the empty span, which cannot be used there. -/
  | emptySpan (name : String)
  /-- The shortest delay, as it was written, is longer than the longest one. -/
  | backoffOrder (shortest longest : String)
deriving DecidableEq

def SettingsError.message : SettingsError → String
  | noSpan name cause => "invalid configuration: " ++ name ++ ": " ++ cause.message
  | emptySpan name => "invalid configuration: " ++ name ++ " must be greater than zero"
  | backoffOrder shortest longest =>
    "invalid configuration: discovery.min_backoff (" ++ shortest ++
      ") exceeds discovery.max_backoff (" ++ longest ++ ")"

/-- Settings that can be used. -/
structure ResolvedSettings where
  maintenance : MaintenancePolicy
  maintenanceInterval : Span
  maxLeases : UInt64
  discoveryInterval : Span
  backoff : BackoffPolicy
  admission : Admission
  bucket : Option String
  dataDir : String
deriving DecidableEq

namespace Settings

/-- The span that a field holds. -/
def span (name text : String) : Except SettingsError Span :=
  match Span.ofText text with
  | .error cause => .error (.noSpan name cause)
  | .ok d => .ok d

/-- The span that a field holds, which must not be empty. -/
def properSpan (name text : String) : Except SettingsError Span := do
  let d ← span name text
  if d.isZero then throw (.emptySpan name) else return d

def maintenance (s : SchedulingSettings) : Except SettingsError MaintenancePolicy := do
  let leaseSpan ← properSpan "scheduler.lease_duration" s.leaseSpan
  let planInterval ← properSpan "scheduler.planning_interval" s.planInterval
  let planDelay ← span "scheduler.compaction_wait_period" s.planDelay
  return ⟨leaseSpan, planInterval, planDelay⟩

def backoff (d : DiscoverySettings) : Except SettingsError BackoffPolicy := do
  let shortest ← properSpan "discovery.min_backoff" d.shortestBackoff
  let longest ← properSpan "discovery.max_backoff" d.longestBackoff
  if longest < shortest then throw (.backoffOrder d.shortestBackoff d.longestBackoff)
  return ⟨shortest, longest, d.maxRetries⟩

/-- Reads the spans and checks them. Of several faults the first is told, in the order in which the
fields are read. -/
def resolve (s : Settings) : Except SettingsError ResolvedSettings := do
  let maintenance ← maintenance s.scheduling
  let backoff ← backoff s.discovery
  let maintenanceInterval ←
    properSpan "scheduler.maintenance_interval" s.scheduling.maintenanceInterval
  let discoveryInterval ← properSpan "discovery.interval" s.discovery.interval
  return {
    maintenance, maintenanceInterval, discoveryInterval, backoff
    maxLeases := s.scheduling.maxLeases
    admission := .ofLists s.discovery.enabled s.discovery.disabled
    bucket := s.discovery.bucket
    dataDir := s.storage.dataDir }

end Settings

end CompactionLeasing

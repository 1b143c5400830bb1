import CompactionLeasing.Readable
import CompactionLeasing.Settings.Basic
import CompactionLeasing.Toml.Document

/-!
# Reading settings

Settings are read from a TOML document with one section for each part. Fields that are absent have
their defaults, and fields without a meaning are skipped.
-/

namespace CompactionLeasing

open Toml (Value Fields)

instance Toml.Value.readable : Readable Value where
  text?
    | .text s => some s
    | _ => none
  items?
    | .array vs => some vs
    | _ => none
  whole?
    | .scalar (.integer n) => n.toNat?
    | _ => none

namespace Settings

open Readable (text? texts? natural?)

/-- The fields of a section. A section is a table, or an array of its fields in their order, of which
the last ones may be absent. A time in its place counts as a section without fields. -/
def section? (names : List String) : Value → Option Fields
  | .table _ fs => some fs
  | .array vs => some (names.zip vs)
  | .rows rs => some (names.zip (rs.map (.table .declared)))
  | .scalar .moment => some []
  | _ => none

/-- The value of a field, or its default where it is absent. -/
def field? {α : Type} (fs : Fields) (name : String) (default : α) (read : Value → Option α) :
    Option α :=
  match fs.get? name with
  | none => some default
  | some v => read v

def schedulingNames : List String :=
  ["lease_duration", "planning_interval", "compaction_wait_period", "maintenance_interval",
    "max_leases"]

def scheduling? (v : Value) : Option SchedulingSettings := do
  let d : SchedulingSettings := {}
  let fs ← section? schedulingNames v
  let leaseSpan ← field? fs "lease_duration" d.leaseSpan text?
  let planInterval ← field? fs "planning_interval" d.planInterval text?
  let planDelay ← field? fs "compaction_wait_period" d.planDelay text?
  let maintenanceInterval ← field? fs "maintenance_interval" d.maintenanceInterval text?
  let maxLeases ← field? fs "max_leases" d.maxLeases fun v => UInt64.ofNat <$> natural? UInt64.size v
  return { leaseSpan, planInterval, planDelay, maintenanceInterval, maxLeases }

def discoveryNames : List String :=
  ["bucket_dir", "interval", "min_backoff", "max_backoff", "max_retries", "enabled_tenants",
    "disabled_tenants"]

def discovery? (v : Value) : Option DiscoverySettings := do
  let d : DiscoverySettings := {}
  let fs ← section? discoveryNames v
  let bucket ← field? fs "bucket_dir" d.bucket fun v => (text? v).map some
  let interval ← field? fs "interval" d.interval text?
  let shortestBackoff ← field? fs "min_backoff" d.shortestBackoff text?
  let longestBackoff ← field? fs "max_backoff" d.longestBackoff text?
  let maxRetries ← field? fs "max_retries" d.maxRetries fun v => UInt32.ofNat <$> natural? UInt32.size v
  let enabled ← field? fs "enabled_tenants" d.enabled texts?
  let disabled ← field? fs "disabled_tenants" d.disabled texts?
  return { bucket, interval, shortestBackoff, longestBackoff, maxRetries, enabled, disabled }

def storageNames : List String := ["data_dir"]

def storage? (v : Value) : Option StorageSettings := do
  let d : StorageSettings := {}
  let fs ← section? storageNames v
  let dataDir ← field? fs "data_dir" d.dataDir text?
  return { dataDir }

/-- The settings that a document holds. -/
def ofFields? (fs : Fields) : Option Settings := do
  let scheduling ← field? fs "scheduler" {} scheduling?
  let discovery ← field? fs "discovery" {} discovery?
  let storage ← field? fs "storage" {} storage?
  return { scheduling, discovery, storage }

def ofText? (s : String) : Option Settings := (Toml.Document.ofText? s).bind ofFields?

end Settings

end CompactionLeasing

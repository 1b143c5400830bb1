import CompactionLeasing.Record
import CompactionLeasing.Store.Error
import CompactionLeasing.Tracker.Proposal
import CompactionLeasing.Tracker.Recovery
import Std.Data.ExtTreeMap

/-!
# The job store

Two tables of texts under ordered keys: tenant records under the name of their tenant, and jobs under
the name of their tenant, a slash and their own name. As tenant names hold no slash, the jobs of a
tenant form one range of keys. Each call is one transaction: it takes effect as a whole or not at all.
-/

namespace CompactionLeasing

/-- The common beginning of the keys of a tenant's jobs. -/
def jobPrefix (tenant : TenantId) : String := tenant ++ "/"

def jobKey (tenant : TenantId) (id : JobId) : String := jobPrefix tenant ++ id

structure Store where
  tenants : Std.ExtTreeMap String String
  jobs : Std.ExtTreeMap String String
deriving DecidableEq

namespace Store

def empty : Store := ⟨∅, ∅⟩

instance : Inhabited Store := ⟨empty⟩

/-- Whether a key lies in the range of a tenant's jobs. -/
def inRange (start : String) (key : String) : Bool := start.toList.isPrefixOf key.toList

/-- The rows whose keys begin with `start`, in key order. Such keys are the first ones that do not
come before it. -/
def scan (rows : Std.ExtTreeMap String String) (start : String) : List (String × String) :=
  (rows.toList.dropWhile fun e => e.1 < start).takeWhile fun e => inRange start e.1

/-- Runs a call for a tenant, unless its name is not valid. -/
def withTenant {α : Type} (tenant : TenantId) (call : Except StoreError α) : Except StoreError α :=
  if TenantId.isValid tenant then call else .error (.invalidTenant tenant)

/-- Records a tenant, seen for the first time now. A tenant that is recorded keeps its record. -/
def putTenant (s : Store) (tenant : TenantId) (now : Instant) : Except StoreError Store :=
  withTenant tenant <|
    if s.tenants.contains tenant then .ok s
    else
      match TenantRecord.toText? ⟨tenant, now⟩ with
      | none => .error (.serialize StoreError.beforeEpoch)
      | some text => .ok { s with tenants := s.tenants.insert tenant text }

def decodeTenant (text : String) : Except StoreError TenantRecord :=
  match TenantRecord.ofText? text with
  | none => .error .deserialize
  | some r => .ok r

def decodeJob (text : String) : Except StoreError Job :=
  match Job.ofText? text with
  | none => .error .deserialize
  | some job => .ok job

def tenantRecords (s : Store) : Except StoreError (List TenantRecord) :=
  s.tenants.values.mapM decodeTenant

/-- Drops a tenant's record and jobs. The answer is how many jobs there were, counted in 32 bits. -/
def removeTenant (s : Store) (tenant : TenantId) : Except StoreError (UInt32 × Store) :=
  withTenant tenant <|
    let rows := scan s.jobs (jobPrefix tenant)
    .ok (.ofNat rows.length,
      ⟨s.tenants.erase tenant, rows.foldl (fun m e => m.erase e.1) s.jobs⟩)

/-- The jobs of a tenant, in key order. -/
def tenantJobs (s : Store) (tenant : TenantId) : Except StoreError (List Job) :=
  withTenant tenant <| (scan s.jobs (jobPrefix tenant)).mapM fun e => decodeJob e.2

def putJob (tenant : TenantId) (rows : Std.ExtTreeMap String String) (job : Job) :
    Except StoreError (Std.ExtTreeMap String String) :=
  match job.toText? with
  | none => .error (.serialize StoreError.beforeEpoch)
  | some text => .ok (rows.insert (jobKey tenant job.id) text)

/-- Makes a batch durable: first its jobs to be deleted go, then its jobs to be written come, each in
their order. -/
def writeBatch (s : Store) (tenant : TenantId) (batch : Batch) : Except StoreError Store :=
  withTenant tenant <| do
    let kept := batch.deletes.foldl (fun m job => m.erase (jobKey tenant job.id)) s.jobs
    let rows ← batch.writes.foldlM (putJob tenant) kept
    return { s with jobs := rows }

/-- The jobs of a recorded tenant, apart by kind. -/
def recoverTenant (s : Store) (r : TenantRecord) :
    Except StoreError (TenantId × RecoveredJobs) := do
  let jobs ← s.tenantJobs r.tenant
  return (r.tenant, .ofJobs jobs)

/-- The recorded tenants with their jobs, in key order. The name of a tenant is the one inside its
record. -/
def recoverAll (s : Store) : Except StoreError (List (TenantId × RecoveredJobs)) := do
  let records ← s.tenantRecords
  records.mapM s.recoverTenant

end Store

end CompactionLeasing

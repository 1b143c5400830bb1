import CompactionLeasing.Metrics.Registry
import CompactionLeasing.Text.Decimal

/-!
# Text exposition of tallies

Tallies are shown as families of samples. A family has one line of help, one line with its type and
one line for each tenant.
-/

namespace CompactionLeasing

namespace Exposition

/-- One figure of a tally, as it is shown. -/
structure Family where
  name : String
  help : String
  kind : String
  value : Tally → Nat

def families : List Family := [
  ⟨"compactd_scheduler_pending_jobs", "Jobs waiting to be leased.", "gauge", (·.pending.toNat)⟩,
  ⟨"compactd_scheduler_active_jobs", "Jobs currently leased to a worker.", "gauge",
    (·.active.toNat)⟩,
  ⟨"compactd_scheduler_complete_jobs", "Completed compaction jobs retained by the tracker.",
    "gauge", (·.complete.toNat)⟩,
  ⟨"compactd_scheduler_plan_job_leased", "Whether the plan job is currently leased (0 or 1).",
    "gauge", (·.planLeased.toNat)⟩,
  ⟨"compactd_scheduler_last_plan_completion_timestamp_seconds",
    "Unix time of the last completed plan job, 0 if never planned.", "gauge", (·.lastPlan.toNat)⟩,
  ⟨"compactd_scheduler_plans_created_total", "Plan jobs created by maintenance.", "counter",
    (·.plansCreated.toNat)⟩,
  ⟨"compactd_scheduler_leases_granted_total", "Leases granted to workers.", "counter",
    (·.granted.toNat)⟩,
  ⟨"compactd_scheduler_leases_expired_total", "Leases reverted to pending after expiring.",
    "counter", (·.expired.toNat)⟩,
  ⟨"compactd_scheduler_jobs_completed_total", "Jobs completed by workers.", "counter",
    (·.completed.toNat)⟩,
  ⟨"compactd_scheduler_persist_failures_total", "Job persistence calls that failed.", "counter",
    (·.failures.toNat)⟩]

/-- A character inside the quotes of a label. -/
def escapeChar (c : Char) : List Char :=
  if c = '\\' then ['\\', '\\']
  else if c = '"' then ['\\', '"']
  else if c = '\n' then ['\\', 'n']
  else [c]

/-- A text inside the quotes of a label. -/
def escape (cs : List Char) : List Char := cs.flatMap escapeChar

def helpLine (f : Family) : List Char := ("# HELP " ++ f.name ++ " " ++ f.help).toList

def typeLine (f : Family) : List Char := ("# TYPE " ++ f.name ++ " " ++ f.kind).toList

/-- The line with the sample of one tenant. -/
def sampleLine (f : Family) (t : TenantTally) : List Char :=
  f.name.toList ++ '{' :: "tenant=".toList ++ '"' :: escape t.tenant.toList ++ ['"', '}', ' '] ++
    Text.decimal (f.value t.tally)

def familyLines (ts : List TenantTally) (f : Family) : List (List Char) :=
  helpLine f :: typeLine f :: ts.map (sampleLine f)

def lines (ts : List TenantTally) : List (List Char) := families.flatMap (familyLines ts)

/-- The text of the lines, each with its end. -/
def ofLines (ls : List (List Char)) : List Char := ls.flatMap fun l => l ++ ['\n']

def render (ts : List TenantTally) : String := String.ofList (ofLines (lines ts))

end Exposition

end CompactionLeasing

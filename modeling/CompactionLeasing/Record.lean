import CompactionLeasing.Job
import CompactionLeasing.Json.Value
import CompactionLeasing.Readable
import CompactionLeasing.Tenant

/-!
# Stored records

Jobs and tenant records are stored as JSON texts. A text is written in one way. It is read with some
latitude: the fields of a record may stand in any order, and fields without a meaning are skipped; a
record may also be given as the array of its fields in their written order.
-/

namespace CompactionLeasing

open Json (Value)

namespace Record

/-- How deep arrays and objects may be nested in the text of a job. -/
def maxDepth : Nat := 127

def object (fields : List (String × Value)) : Value :=
  .object (fields.map fun (k, v) => (some k, v))

/-- The value of the only field of a name; `none` when there is no such field or more than one. -/
def only? (name : String) (fields : List (Option String × Value)) : Option Value :=
  match fields.filter fun f => f.1 == some name with
  | [(_, v)] => some v
  | _ => none

/-- The fields of a record, in the order of their names: from an object that may have further fields,
or from an array of exactly these fields. -/
def fields? (names : List String) : Value → Option (List Value)
  | .object fs => if fs.all (·.1.isSome) then names.mapM (only? · fs) else none
  | .array vs => if vs.length = names.length then some vs else none
  | _ => none

/-- The fields of a record that allows no further fields. -/
def exactFields? (names : List String) : Value → Option (List Value)
  | .object fs =>
    if fs.all fun f => names.any fun n => f.1 == some n then names.mapM (only? · fs) else none
  | .array vs => if vs.length = names.length then some vs else none
  | _ => none

def bool? : Value → Option Bool
  | .bool b => some b
  | _ => none

end Record

instance Json.Value.readable : Readable Value where
  text?
    | .text t => t
    | _ => none
  items?
    | .array vs => some vs
    | _ => none
  whole?
    | .number (.natural n) => some n
    | _ => none

open Record
open Readable (text? texts? natural?)

namespace Instant

/-- The record of an instant; an instant before the epoch has none. -/
def toJson? (t : Instant) : Option Value :=
  if 0 ≤ t.nanos then
    some (object [
      ("secs_since_epoch", .number (.natural t.seconds.toNat)),
      ("nanos_since_epoch", .number (.natural t.subsec))])
  else none

/-- The instant that a record denotes. Nanoseconds may exceed a second. -/
def ofJson? (v : Value) : Option Instant :=
  match exactFields? ["secs_since_epoch", "nanos_since_epoch"] v with
  | some [secs, nanos] =>
    match natural? UInt64.size secs, natural? UInt32.size nanos with
    | some secs, some nanos => ofNanos? (secs * 1000000000 + nanos : Nat)
    | _, _ => none
  | _ => none

end Instant

namespace JobStatus

def ofName? (name : String) : Option JobStatus :=
  if name = "available" then some available
  else if name = "leased" then some leased
  else if name = "complete" then some complete
  else none

/-- The status that a value names: by its name alone, or as the only field of an object, with nothing
as its value. -/
def ofJson? : Value → Option JobStatus
  | .text (some name) => ofName? name
  | .object [(some name, .null)] => ofName? name
  | .object [(some name, .object [])] => ofName? name
  | _ => none

end JobStatus

namespace JobState

def toJson? (s : JobState) : Option Value :=
  match s.since.toJson?, s.created.toJson? with
  | some since, some created =>
    some (object [
      ("status", .text (some s.status.name)),
      ("status_time", since),
      ("epoch", .number (.natural s.epoch.toNat)),
      ("created_at", created)])
  | _, _ => none

def ofJson? (v : Value) : Option JobState :=
  match fields? ["status", "status_time", "epoch", "created_at"] v with
  | some [status, since, epoch, created] =>
    match JobStatus.ofJson? status, Instant.ofJson? since, natural? UInt64.size epoch,
        Instant.ofJson? created with
    | some status, some since, some epoch, some created =>
      some ⟨status, since, .ofNat epoch, created⟩
    | _, _, _, _ => none
  | _ => none

end JobState

namespace CompactionSpec

def toJson (s : CompactionSpec) : Value :=
  object [("block_ids", .array (s.blocks.map fun b => .text (some b))), ("split", .bool s.split)]

def ofJson? (v : Value) : Option CompactionSpec :=
  match fields? ["block_ids", "split"] v with
  | some [blocks, split] =>
    match texts? blocks, bool? split with
    | some blocks, some split => some ⟨blocks, split⟩
    | _, _ => none
  | _ => none

end CompactionSpec

namespace Job

/-- The record of a job; there is none if one of its times lies before the epoch. -/
def toJson? : Job → Option Value
  | plan state => state.toJson?.map fun s => object [("kind", .text (some "plan")), ("state", s)]
  | compaction job => job.state.toJson?.map fun s =>
    object [
      ("kind", .text (some "compaction")),
      ("id", .text (some job.id)),
      ("spec", job.spec.toJson),
      ("order", .number (.natural job.order.toNat)),
      ("state", s)]

/-- The job of a kind that a record denotes. -/
def ofFields? (kind : String) (v : Value) : Option Job :=
  if kind = "plan" then
    match fields? ["state"] v with
    | some [state] => (JobState.ofJson? state).map plan
    | _ => none
  else if kind = "compaction" then
    match fields? ["id", "spec", "order", "state"] v with
    | some [id, spec, order, state] =>
      match text? id, CompactionSpec.ofJson? spec, natural? UInt32.size order,
          JobState.ofJson? state with
      | some id, some spec, some order, some state =>
        some (compaction ⟨id, spec, .ofNat order, state⟩)
      | _, _, _, _ => none
    | _ => none
  else none

/-- The job that a record denotes. The kind decides what the other fields mean; in an array it comes
first. -/
def ofJson? : Value → Option Job
  | .object fs =>
    match only? "kind" fs with
    | some (.text (some kind)) =>
      ofFields? kind (.object (fs.filter fun f => f.1 != some "kind"))
    | _ => none
  | .array (.text (some kind) :: vs) => ofFields? kind (.array vs)
  | _ => none

/-- The text of a job; there is none if one of its times lies before the epoch. -/
def toText? (job : Job) : Option String := job.toJson?.map Value.render

def ofText? (s : String) : Option Job :=
  match Value.ofText? s with
  | some v => if v.isSound maxDepth then ofJson? v else none
  | none => none

end Job

namespace TenantRecord

def toJson? (r : TenantRecord) : Option Value :=
  r.initialized.toJson?.map fun t => object [("tenant", .text (some r.tenant)), ("initialized_at", t)]

def ofJson? (v : Value) : Option TenantRecord :=
  match fields? ["tenant", "initialized_at"] v with
  | some [tenant, initialized] =>
    match text? tenant, Instant.ofJson? initialized with
    | some tenant, some initialized => some ⟨tenant, initialized⟩
    | _, _ => none
  | _ => none

/-- The text of a tenant record; there is none if its time lies before the epoch. -/
def toText? (r : TenantRecord) : Option String := r.toJson?.map Value.render

def ofText? (s : String) : Option TenantRecord := (Value.ofText? s).bind ofJson?

end TenantRecord

end CompactionLeasing

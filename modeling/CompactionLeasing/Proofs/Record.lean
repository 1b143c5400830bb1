import CompactionLeasing.Proofs.Json.Reading
import CompactionLeasing.Record

/-!
# Reading records back

`Job.ofText?_toText?` and `TenantRecord.ofText?_toText?`: the text of a record denotes the record. There is a
text unless a time lies before the epoch. `Record.decodes` says both of the bytes that are stored.
-/

namespace CompactionLeasing

open Json (Value)
open Record
open Readable (text? texts? natural?)

/-- Whether a value is written in a way that reads back, also as a record nested at most `room` deep. -/
def Json.Value.Keeps (room : Nat) (v : Value) : Prop := v.fits = true ∧ v.isSound room = true

theorem Record.text?_text (s : String) : text? (Value.text (some s)) = some s := rfl

theorem Record.natural?_natural {bound n : Nat} (h : n < bound) :
    natural? bound (Value.number (.natural n)) = some n :=
  Readable.natural?_eq rfl h

namespace Instant
variable {t : Instant} {v : Value}

theorem toJson?_eq_some : t.toJson? = some v ↔ 0 ≤ t.nanos ∧ v = object [
    ("secs_since_epoch", .number (.natural t.seconds.toNat)),
      ("nanos_since_epoch", .number (.natural t.subsec))] := by
  rw [toJson?]
  split_ifs with h <;> simp [h, eq_comm]

theorem isSome_toJson? : t.toJson?.isSome ↔ 0 ≤ t.nanos := by
  rw [toJson?]
  split_ifs with h <;> simp [h]

theorem ofJson?_toJson? (h : t.toJson? = some v) : ofJson? v = some t := by
  obtain ⟨h0, rfl⟩ := toJson?_eq_some.1 h
  have hlt := t.nanos_lt
  have hle := t.le_nanos
  have hsecs : t.seconds.toNat < UInt64.size := by rw [seconds, UInt64.size]; omega
  have hsub : t.subsec < UInt32.size := by rw [subsec, UInt32.size]; omega
  have hn : ((t.seconds.toNat * 1000000000 + t.subsec : Nat) : Int) = t.nanos := by
      rw [seconds, subsec]; omega
  have hfields : exactFields? ["secs_since_epoch", "nanos_since_epoch"] (object [
    ("secs_since_epoch", .number (.natural t.seconds.toNat)),
      ("nanos_since_epoch", .number (.natural t.subsec))]) =
      some [.number (.natural t.seconds.toNat), .number (.natural t.subsec)] := rfl
  simp only [ofJson?, hfields, natural?_natural hsecs, natural?_natural hsub, hn]
  rw [ofNanos?, dif_pos ⟨hle, hlt⟩]

theorem keeps_toJson? (h : t.toJson? = some v) (n : Nat) : v.Keeps (n + 1) := by
  obtain ⟨h0, rfl⟩ := toJson?_eq_some.1 h
  have hlt := t.nanos_lt
  have hsecs : t.seconds.toNat < UInt64.size := by rw [seconds, UInt64.size]; omega
  have hsub : t.subsec < UInt64.size := by rw [subsec, UInt64.size]; omega
  simp [Value.Keeps, object, Value.fits, Value.fieldsFit, Value.isSound, Value.fieldsAreSound,
    Json.Number.fits, hsecs, hsub]

end Instant

theorem JobStatus.ofJson?_name (s : JobStatus) : ofJson? (.text (some s.name)) = some s := by
  cases s <;> rfl

namespace JobState
variable {s : JobState} {v : Value}

theorem toJson?_eq_some : s.toJson? = some v ↔ ∃ since created, s.since.toJson? = some since ∧
    s.created.toJson? = some created ∧ v = object [
      ("status", .text (some s.status.name)), ("status_time", since),
        ("epoch", .number (.natural s.epoch.toNat)),
      ("created_at", created)] := by
  rw [toJson?]
  cases s.since.toJson? <;> cases s.created.toJson? <;> simp [eq_comm]

theorem isSome_toJson? : s.toJson?.isSome ↔ 0 ≤ s.since.nanos ∧ 0 ≤ s.created.nanos := by
  rw [← Instant.isSome_toJson?, ← Instant.isSome_toJson?, toJson?]
  cases s.since.toJson? <;> cases s.created.toJson? <;> simp

theorem ofJson?_toJson? (h : s.toJson? = some v) : ofJson? v = some s := by
  obtain ⟨since, created, hs, hc, rfl⟩ := toJson?_eq_some.1 h
  have hfields : fields? ["status", "status_time", "epoch", "created_at"] (object [
      ("status", .text (some s.status.name)), ("status_time", since),
        ("epoch", .number (.natural s.epoch.toNat)),
      ("created_at", created)]) =
      some [.text (some s.status.name), since, .number (.natural s.epoch.toNat), created] := rfl
  simp only [ofJson?, hfields, JobStatus.ofJson?_name, Instant.ofJson?_toJson? hs,
    Instant.ofJson?_toJson? hc,
    natural?_natural s.epoch.toNat_lt_size]
  simp

theorem keeps_toJson? (h : s.toJson? = some v) (n : Nat) : v.Keeps (n + 2) := by
  obtain ⟨since, created, hs, hc, rfl⟩ := toJson?_eq_some.1 h
  have hs := Instant.keeps_toJson? hs n
  have hc := Instant.keeps_toJson? hc n
  simp [Value.Keeps, object, Value.fits, Value.fieldsFit, Value.isSound, Value.fieldsAreSound,
    Json.Number.fits,
    s.epoch.toNat_lt_size, hs.1, hs.2, hc.1, hc.2]

end JobState

namespace CompactionSpec

theorem texts?_map (blocks : List String) :
    texts? (Value.array (blocks.map fun b => .text (some b))) = some blocks :=
  Readable.texts?_eq text?_text rfl

theorem ofJson?_toJson (s : CompactionSpec) : ofJson? s.toJson = some s := by
  have hfields : fields? ["block_ids", "split"] s.toJson =
      some [.array (s.blocks.map fun b => .text (some b)), .bool s.split] := rfl
  simp only [ofJson?, hfields, texts?_map, bool?]

theorem keeps_toJson (s : CompactionSpec) (n : Nat) : s.toJson.Keeps (n + 2) := by
  have hfit : Value.allFit (s.blocks.map fun b => .text (some b)) = true := by
    induction s.blocks <;> simp_all [Value.allFit, Value.fits]
  have hsound : Value.areSound n (s.blocks.map fun b => .text (some b)) = true := by
    induction s.blocks <;> simp_all [Value.areSound, Value.isSound]
  simp [Value.Keeps, toJson, object, Value.fits, Value.fieldsFit, Value.isSound, Value.fieldsAreSound,
    hfit, hsound]

end CompactionSpec

namespace Job
variable {job : Job} {v : Value} {text : String}

theorem ofJson?_toJson? (h : job.toJson? = some v) : ofJson? v = some job := by
  cases job with
  | plan s =>
    obtain ⟨w, hw, rfl⟩ := Option.map_eq_some_iff.1 h
    have hkind : ofJson? (object [("kind", .text (some "plan")), ("state", w)]) =
      ofFields? "plan" (object [("state", w)]) := rfl
    have hfields : fields? ["state"] (object [("state", w)]) = some [w] := rfl
    rw [hkind, ofFields?, if_pos rfl, hfields]
    simp only [JobState.ofJson?_toJson? hw, Option.map_some]
  | compaction c =>
    obtain ⟨w, hw, rfl⟩ := Option.map_eq_some_iff.1 h
    have hkind : ofJson?
        (object [("kind", .text (some "compaction")), ("id", .text (some c.id)), ("spec", c.spec.toJson),
        ("order", .number (.natural c.order.toNat)), ("state", w)]) =
      ofFields? "compaction" (object [("id", .text (some c.id)), ("spec", c.spec.toJson),
        ("order", .number (.natural c.order.toNat)), ("state", w)]) := rfl
    have hfields : fields? ["id", "spec", "order", "state"]
        (object [("id", .text (some c.id)), ("spec", c.spec.toJson),
        ("order", .number (.natural c.order.toNat)), ("state", w)]) =
      some [.text (some c.id), c.spec.toJson, .number (.natural c.order.toNat), w] := rfl
    rw [hkind, ofFields?, if_neg (by decide), if_pos rfl, hfields]
    simp only [text?_text, CompactionSpec.ofJson?_toJson, natural?_natural c.order.toNat_lt_size,
      JobState.ofJson?_toJson? hw]
    simp

theorem keeps_toJson? (h : job.toJson? = some v) : v.Keeps maxDepth := by
  cases job with
  | plan s =>
    obtain ⟨w, hw, rfl⟩ := Option.map_eq_some_iff.1 h
    have hs := JobState.keeps_toJson? hw 124
    simp [Value.Keeps, object, Value.fits, Value.fieldsFit, Value.isSound, Value.fieldsAreSound, maxDepth,
      hs.1, hs.2]
  | compaction c =>
    obtain ⟨w, hw, rfl⟩ := Option.map_eq_some_iff.1 h
    have hs := JobState.keeps_toJson? hw 124
    have hspec := c.spec.keeps_toJson 124
    have horder : c.order.toNat < UInt64.size := Nat.lt_trans c.order.toNat_lt_size (by decide)
    simp [Value.Keeps, object, Value.fits, Value.fieldsFit, Value.isSound, Value.fieldsAreSound, maxDepth,
      Json.Number.fits, horder, hs.1, hs.2, hspec.1, hspec.2]

/-- The text of a job denotes the job. -/
theorem ofText?_toText? (h : job.toText? = some text) : ofText? text = some job := by
  obtain ⟨v, hv, rfl⟩ := Option.map_eq_some_iff.1 h
  obtain ⟨hfits, hsound⟩ := keeps_toJson? hv
  rw [ofText?, Value.ofText?_render hfits]
  simp only [hsound, if_true, ofJson?_toJson? hv]

theorem isSome_toText? (job : Job) :
    job.toText?.isSome ↔ 0 ≤ job.state.since.nanos ∧ 0 ≤ job.state.created.nanos := by
  rw [← JobState.isSome_toJson?, toText?, Option.isSome_map]
  cases job <;> rw [toJson?, Option.isSome_map] <;> rfl

end Job

namespace TenantRecord
variable {r : TenantRecord} {v : Value} {text : String}

theorem ofJson?_toJson? (h : r.toJson? = some v) : ofJson? v = some r := by
  obtain ⟨w, hw, rfl⟩ := Option.map_eq_some_iff.1 h
  have hfields : fields? ["tenant", "initialized_at"]
      (object [("tenant", .text (some r.tenant)), ("initialized_at", w)]) =
      some [.text (some r.tenant), w] := rfl
  simp only [ofJson?, hfields, text?_text, Instant.ofJson?_toJson? hw]

theorem fits_toJson? (h : r.toJson? = some v) : v.fits = true := by
  obtain ⟨w, hw, rfl⟩ := Option.map_eq_some_iff.1 h
  have ht := Instant.keeps_toJson? hw 0
  simp [object, Value.fits, Value.fieldsFit, ht.1]

/-- The text of a tenant record denotes the record. -/
theorem ofText?_toText? (h : r.toText? = some text) : ofText? text = some r := by
  obtain ⟨v, hv, rfl⟩ := Option.map_eq_some_iff.1 h
  rw [ofText?, Value.ofText?_render (fits_toJson? hv), Option.bind_some, ofJson?_toJson? hv]

theorem isSome_toText? (r : TenantRecord) : r.toText?.isSome ↔ 0 ≤ r.initialized.nanos := by
  rw [← Instant.isSome_toJson?, toText?, Option.isSome_map, toJson?, Option.isSome_map]

end TenantRecord

namespace Record

/-- The value that stored bytes denote: they must be the UTF-8 form of a text that denotes it. -/
def ofBytes? {α : Type} (ofText? : String → Option α) (bytes : ByteArray) : Option α :=
  (String.fromUTF8? bytes).bind ofText?

theorem fromUTF8?_toUTF8 (s : String) : String.fromUTF8? s.toUTF8 = some s := by
  simp only [String.fromUTF8?, String.toUTF8_eq_toByteArray, dif_pos s.isValidUTF8]
  rfl

theorem ofBytes?_toUTF8 {α : Type} (ofText? : String → Option α) (s : String) :
    ofBytes? ofText? s.toUTF8 = ofText? s := by
  rw [ofBytes?, fromUTF8?_toUTF8, Option.bind_some]

/-- What is written may fail, and what is written is read back: both as one equation. -/
theorem bind_ofBytes? {α : Type} {P : Prop} [Decidable P] {write : Option String} {ofText? : String → Option α}
    {a : α} (hsome : write.isSome ↔ P) (hread : ∀ text, write = some text → ofText? text = some a) :
    (write.bind fun text => ofBytes? ofText? text.toUTF8) = if P then some a else none := by
  by_cases hp : P
  · obtain ⟨text, ht⟩ := Option.isSome_iff_exists.1 (hsome.2 hp)
    rw [if_pos hp, ht, Option.bind_some, ofBytes?_toUTF8, hread text ht]
  · have hnone : write = none := Option.not_isSome_iff_eq_none.1 fun h => hp (hsome.1 h)
    rw [if_neg hp, hnone, Option.bind_none]

/-- Stored values decode to what was written. A job is written exactly if neither of its times lies before the
epoch, a tenant record exactly if its time does not, and the bytes written denote the job or the record. -/
theorem decodes (job : Job) (r : TenantRecord) :
    ((job.toText?.isSome ↔ 0 ≤ job.state.since.nanos ∧ 0 ≤ job.state.created.nanos) ∧
      (job.toText?.bind fun text => ofBytes? Job.ofText? text.toUTF8) =
        if 0 ≤ job.state.since.nanos ∧ 0 ≤ job.state.created.nanos then some job else none) ∧
    ((r.toText?.isSome ↔ 0 ≤ r.initialized.nanos) ∧
      (r.toText?.bind fun text => ofBytes? TenantRecord.ofText? text.toUTF8) =
        if 0 ≤ r.initialized.nanos then some r else none) := by
  have hjob := job.isSome_toText?
  have hrecord := r.isSome_toText?
  exact ⟨⟨hjob, bind_ofBytes? hjob fun _ => Job.ofText?_toText?⟩,
    ⟨hrecord, bind_ofBytes? hrecord fun _ => TenantRecord.ofText?_toText?⟩⟩

example : (TenantRecord.mk "a\"\\\x01😀" ⟨9223372036854775807999999999, by decide, by decide⟩).toText? =
    some ("\x7b\"tenant\":\"a\\\"\\\\\\u0001😀\",\"initialized_at\":" ++
      "\x7b\"secs_since_epoch\":9223372036854775807,\"nanos_since_epoch\":999999999\x7d\x7d") := by
  decide

end Record

end CompactionLeasing

import CompactionLeasing.Proofs.ByteOrder
import CompactionLeasing.Proofs.Store.Rows

/-!
# What the store holds

The two tables of texts stand for a record of each tenant and, apart for each tenant, a table of its jobs.
`Holdings.act` says what the calls mean for these, without keys or texts. `answers_eq`: whatever calls are
made of a new store, the answers are those of the holdings.
-/

namespace CompactionLeasing

open Std (ExtTreeMap)

namespace Store

inductive Call where
  | putTenant (tenant : TenantId) (now : Instant)
  | removeTenant (tenant : TenantId)
  | write (tenant : TenantId) (b : Batch)
  | jobs (tenant : TenantId)
  | records
  | recover

inductive Answer where
  | done
  | removed (count : UInt32)
  | jobs (jobs : List Job)
  | records (records : List TenantRecord)
  | recovered (tenants : List (TenantId × RecoveredJobs))
deriving DecidableEq

/-- The answer to a call, and the store after it. A call that fails leaves the store as it is. -/
def act (s : Store) : Call → Except StoreError Answer × Store
  | .putTenant tenant now =>
    match s.putTenant tenant now with
    | .error err => (.error err, s)
    | .ok s' => (.ok .done, s')
  | .removeTenant tenant =>
    match s.removeTenant tenant with
    | .error err => (.error err, s)
    | .ok (count, s') => (.ok (.removed count), s')
  | .write tenant b =>
    match s.writeBatch tenant b with
    | .error err => (.error err, s)
    | .ok s' => (.ok .done, s')
  | .jobs tenant => ((s.tenantJobs tenant).map .jobs, s)
  | .records => (s.tenantRecords.map .records, s)
  | .recover => (s.recoverAll.map .recovered, s)

/-- The answers to calls that are made one after the other. -/
def answers {σ : Type} (act : σ → Call → Except StoreError Answer × σ) (s : σ) :
    List Call → List (Except StoreError Answer)
  | [] => []
  | c :: cs => (act s c).1 :: answers act (act s c).2 cs

end Store

/-- Whether the times of the job can be written. -/
def Job.IsDated (job : Job) : Prop := 0 ≤ job.state.since.nanos ∧ 0 ≤ job.state.created.nanos

instance (job : Job) : Decidable job.IsDated := inferInstanceAs (Decidable (_ ∧ _))

/-- The records of the tenants, and the jobs of each tenant by name. -/
structure Holdings where
  records : ExtTreeMap TenantId TenantRecord
  jobs : TenantId → ExtTreeMap JobId Job

namespace Holdings

open Store (Call Answer)

def empty : Holdings := ⟨∅, fun _ => ∅⟩

/-- A call for a tenant. Without a valid name it has no effect. -/
def forTenant (h : Holdings) (tenant : TenantId) (r : Except StoreError Answer × Holdings) :
    Except StoreError Answer × Holdings :=
  if tenant.isValid then r else (.error (.invalidTenant tenant), h)

/-- The jobs of a tenant after a batch: those to be deleted go first, and of the writes of one name the last
stays. -/
def commit (m : ExtTreeMap JobId Job) (b : Batch) : ExtTreeMap JobId Job :=
  b.writes.foldl (fun m job => m.insert job.id job) (b.deletes.foldl (fun m job => m.erase job.id) m)

/-- What a call means. -/
def act (h : Holdings) : Call → Except StoreError Answer × Holdings
  | .putTenant tenant now => h.forTenant tenant <|
    if h.records.contains tenant then (.ok .done, h)
    else if now.nanos < 0 then (.error (.serialize StoreError.beforeEpoch), h)
    else (.ok .done, { h with records := h.records.insert tenant ⟨tenant, now⟩ })
  | .removeTenant tenant => h.forTenant tenant
    (.ok (.removed (.ofNat (h.jobs tenant).size)),
      ⟨h.records.erase tenant, Function.update h.jobs tenant ∅⟩)
  | .write tenant b => h.forTenant tenant <|
    if ∀ job ∈ b.writes, job.IsDated then
      (.ok .done, { h with jobs := Function.update h.jobs tenant (commit (h.jobs tenant) b) })
    else (.error (.serialize StoreError.beforeEpoch), h)
  | .jobs tenant => h.forTenant tenant (.ok (.jobs (h.jobs tenant).values), h)
  | .records => (.ok (.records h.records.values), h)
  | .recover =>
    (.ok (.recovered (h.records.values.map fun r => (r.tenant, .ofJobs (h.jobs r.tenant).values))), h)

end Holdings

namespace Store
variable {s s' : Store} {h h' : Holdings} {tenant : TenantId} {b : Batch} {now : Instant}

/-! ### Writing -/

theorem putJobs (tenant : TenantId) (jobs : List Job) (rows : ExtTreeMap String String) :
    ((∀ job ∈ jobs, job.IsDated) → ∃ rows', jobs.foldlM (putJob tenant) rows = .ok rows') ∧
      ((¬ ∀ job ∈ jobs, job.IsDated) →
        jobs.foldlM (putJob tenant) rows = .error (.serialize StoreError.beforeEpoch)) := by
  induction jobs generalizing rows with
  | nil => exact ⟨fun _ => ⟨rows, rfl⟩, fun hn => absurd (by simp) hn⟩
  | cons job jobs ih =>
    have hdated : job.toText?.isSome ↔ job.IsDated := job.isSome_toText?
    rw [List.foldlM_cons, putJob, List.forall_mem_cons]
    cases ht : job.toText? with
    | none =>
      rw [ht] at hdated
      have hn : ¬ job.IsDated := fun hd => by simpa using hdated.2 hd
      exact ⟨fun hd => absurd hd.1 hn, fun _ => rfl⟩
    | some text =>
      rw [ht] at hdated
      obtain ⟨hok, herr⟩ := ih (rows.insert (jobKey tenant job.id) text)
      exact ⟨fun hd => hok hd.2, fun hn => herr fun hd => hn ⟨hdated.1 rfl, hd⟩⟩

/-- A batch is written unless one of its jobs cannot be. -/
theorem writeBatch_cases (hv : tenant.isValid = true) (s : Store) (b : Batch) :
    ((∀ job ∈ b.writes, job.IsDated) → ∃ s', s.writeBatch tenant b = .ok s') ∧
      ((¬ ∀ job ∈ b.writes, job.IsDated) →
        s.writeBatch tenant b = .error (.serialize StoreError.beforeEpoch)) := by
  rw [Store.writeBatch, withTenant, if_pos hv]
  dsimp only
  obtain ⟨hok, herr⟩ := putJobs tenant b.writes
    (b.deletes.foldl (fun m job => m.erase (jobKey tenant job.id)) s.jobs)
  constructor
  · intro hd
    obtain ⟨rows, hr⟩ := hok hd
    rw [hr]
    exact ⟨_, rfl⟩
  · intro hn
    rw [herr hn]; rfl

theorem getElem?_commit (m : ExtTreeMap JobId Job) (b : Batch) (id : JobId) :
    (Holdings.commit m b)[id]? = JobTable.commit (fun id => m[id]?) b id := by
  have hputs : ∀ (jobs : List Job) (m : ExtTreeMap JobId Job),
      (jobs.foldl (fun m job => m.insert job.id job) m)[id]? = JobTable.putAll (fun id => m[id]?) jobs id := by
    intro jobs
    induction jobs with
    | nil => exact fun m => rfl
    | cons job jobs ih =>
      intro m
      rw [List.foldl_cons, ih, JobTable.putAll_cons]
      congr 1
      funext id
      rw [Table.getElem?_insert, JobTable.put_apply]
  rw [Holdings.commit, hputs, JobTable.commit]
  congr 1
  funext id
  rw [Table.getElem?_foldl_erase, JobTable.dropAll_apply]

theorem mapM_eq_ok {ε α β : Type} {f : α → Except ε β} {xs : List α} {ys : List β} :
    xs.mapM f = .ok ys ↔ List.Forall₂ (fun x y => f x = .ok y) xs ys := by
  constructor
  · intro h
    induction xs generalizing ys with
    | nil => cases h; exact .nil
    | cons x xs ih =>
      rw [List.mapM_cons] at h
      cases hx : f x with
      | error err => rw [hx] at h; cases h
      | ok y =>
        cases hxs : xs.mapM f with
        | error err => rw [hx, hxs] at h; cases h
        | ok ys =>
          rw [hx, hxs] at h
          cases h
          exact .cons hx (ih hxs)
  · intro h
    induction h with
    | nil => rfl
    | cons hx _ ih =>
      rw [List.mapM_cons, hx, ih]
      rfl

/-! ### The store stands for its holdings -/

/-- The tables of the store stand for the holdings. -/
structure Holds (s : Store) (h : Holdings) : Prop where
  texts : ∀ key : TenantId, s.tenants[key]? = h.records[key]?.bind TenantRecord.toText?
  recorded : ∀ (key : TenantId) r, h.records[key]? = some r →
    key.isValid = true ∧ r.tenant = key ∧ 0 ≤ r.initialized.nanos
  own : ∀ tenant, tenant.isValid = true → OwnRows s.jobs tenant
  jobs : ∀ tenant, tenant.isValid = true → ∀ id : JobId, tableOf s.jobs tenant id = (h.jobs tenant)[id]?

theorem holds_empty : Holds .empty .empty := by
  refine ⟨fun key => ?_, fun key r hr => ?_, fun tenant _ id text ht => ?_, fun tenant _ id => ?_⟩
  · simp [empty, Holdings.empty]
  · simp [Holdings.empty] at hr
  · simp [empty] at ht
  · simp [tableOf, empty, Holdings.empty]

namespace Holds

theorem isSome_toText? (hs : s.Holds h) {key : TenantId} {r : TenantRecord} (hr : h.records[key]? = some r) :
    ∃ text, r.toText? = some text :=
  Option.isSome_iff_exists.1 (r.isSome_toText?.2 (hs.recorded key r hr).2.2)

theorem contains_iff (hs : s.Holds h) (key : TenantId) : s.tenants.contains key = h.records.contains key := by
  rw [ExtTreeMap.contains_eq_isSome_getElem?, ExtTreeMap.contains_eq_isSome_getElem?, hs.texts]
  cases hr : h.records[key]? with
  | none => rfl
  | some r =>
    obtain ⟨text, ht⟩ := hs.isSome_toText? hr
    rw [Option.bind_some, ht]; rfl

/-- The rows of other tenants stay, so only those of the one whose rows change have to be compared. -/
theorem changed (hs : s.Holds h) (hv : tenant.isValid = true) {rows : ExtTreeMap String String}
    {f : JobTable} (hc : Change tenant s.jobs rows f) {m : ExtTreeMap JobId Job} (hf : ∀ id, f id = m[id]?) :
    (∀ t, t.isValid = true → OwnRows rows t) ∧
      ∀ t, t.isValid = true → ∀ id : JobId, tableOf rows t id = (Function.update h.jobs tenant m t)[id]? := by
  have hother : ∀ t, t.isValid = true → t ≠ tenant → ∀ id, rows[jobKey t id]? = s.jobs[jobKey t id]? :=
    fun t ht hne id => hc.others _ fun _ hk => hne (jobKey_inj ht hv hk).1
  refine ⟨fun t ht => ?_, fun t ht id => ?_⟩
  · by_cases hne : t = tenant
    · rw [hne]
      exact hc.own (hs.own tenant hv)
    · intro id text hrow
      rw [hother t ht hne] at hrow
      exact hs.own t ht id text hrow
  · by_cases hne : t = tenant
    · rw [hne, Function.update_self, hc.table, hf]
    · rw [Function.update_of_ne hne, ← hs.jobs t ht, tableOf, hother t ht hne]; rfl

/-! ### One call -/

theorem putTenant (hs : s.Holds h) (tenant : TenantId) (now : Instant) :
    (s.act (.putTenant tenant now)).1 = (h.act (.putTenant tenant now)).1 ∧
      (s.act (.putTenant tenant now)).2.Holds (h.act (.putTenant tenant now)).2 := by
  rw [act, Holdings.act, Holdings.forTenant, Store.putTenant, withTenant]
  by_cases hv : tenant.isValid = true
  swap
  · rw [if_neg hv, if_neg hv]
    exact ⟨rfl, hs⟩
  rw [if_pos hv, if_pos hv, hs.contains_iff]
  by_cases hc : h.records.contains tenant = true
  · rw [if_pos hc, if_pos hc]
    exact ⟨rfl, hs⟩
  rw [if_neg hc, if_neg hc]
  have hdated : (TenantRecord.mk tenant now).toText?.isSome ↔ 0 ≤ now.nanos := TenantRecord.isSome_toText? _
  cases ht : (TenantRecord.mk tenant now).toText? with
  | none =>
    rw [ht] at hdated
    have hneg : now.nanos < 0 := by simpa using hdated
    rw [if_pos hneg]
    exact ⟨rfl, hs⟩
  | some text =>
    rw [ht] at hdated
    have hpos : 0 ≤ now.nanos := hdated.1 rfl
    rw [if_neg (by omega)]
    refine ⟨rfl, fun key => ?_, fun key r hr => ?_, hs.own, hs.jobs⟩
    · rw [Table.getElem?_insert, Table.getElem?_insert]
      split_ifs
      · exact ht.symm
      · exact hs.texts key
    · rw [Table.getElem?_insert] at hr
      split_ifs at hr with hk
      · cases hr
        subst hk
        exact ⟨hv, rfl, hpos⟩
      · exact hs.recorded key r hr

theorem removeTenant (hs : s.Holds h) (tenant : TenantId) :
    (s.act (.removeTenant tenant)).1 = (h.act (.removeTenant tenant)).1 ∧
      (s.act (.removeTenant tenant)).2.Holds (h.act (.removeTenant tenant)).2 := by
  rw [act, Holdings.act, Holdings.forTenant]
  by_cases hv : tenant.isValid = true
  swap
  · rw [Store.removeTenant, withTenant, if_neg hv, if_neg hv]
    exact ⟨rfl, hs⟩
  obtain ⟨rows, hr, -, hc⟩ := removeTenant_eq (s := s) hv
  have hlength : (scan s.jobs (jobPrefix tenant)).length = (h.jobs tenant).size := by
    have hjobs := (hs.own tenant hv).rowJobs_eq (hs.jobs tenant hv)
    have hkeys := congrArg List.length (hs.own tenant hv).map_jobKey
    rw [List.length_map, List.length_map, hjobs, Table.values_eq, List.length_map,
      ExtTreeMap.length_toList] at hkeys
    exact hkeys.symm
  obtain ⟨hown, hjobs⟩ := hs.changed hv hc (m := ∅) fun id => by simp
  rw [hr, if_pos hv, hlength]
  refine ⟨rfl, fun key => ?_, fun key r hr => ?_, hown, hjobs⟩
  · rw [Table.getElem?_erase, Table.getElem?_erase]
    split_ifs
    · rfl
    · exact hs.texts key
  · rw [Table.getElem?_erase] at hr
    split_ifs at hr
    exact hs.recorded key r hr

theorem write (hs : s.Holds h) (tenant : TenantId) (b : Batch) :
    (s.act (.write tenant b)).1 = (h.act (.write tenant b)).1 ∧
      (s.act (.write tenant b)).2.Holds (h.act (.write tenant b)).2 := by
  rw [act, Holdings.act, Holdings.forTenant]
  by_cases hv : tenant.isValid = true
  swap
  · rw [Store.writeBatch, withTenant, if_neg hv, if_neg hv]
    exact ⟨rfl, hs⟩
  rw [if_pos hv]
  obtain ⟨hok, herr⟩ := writeBatch_cases hv s b
  by_cases hd : ∀ job ∈ b.writes, job.IsDated
  · obtain ⟨s', hw⟩ := hok hd
    rw [hw, if_pos hd]
    obtain ⟨htenants, hc⟩ := writeBatch_ok hw
    obtain ⟨hown, hjobs⟩ := hs.changed hv hc (m := Holdings.commit (h.jobs tenant) b) fun id => by
      rw [getElem?_commit]
      congr 1
      exact funext (hs.jobs tenant hv)
    exact ⟨rfl, fun key => htenants ▸ hs.texts key, hs.recorded, hown, hjobs⟩
  · rw [herr hd, if_neg hd]
    exact ⟨rfl, hs⟩

theorem jobs_eq (hs : s.Holds h) (hv : tenant.isValid = true) :
    s.tenantJobs tenant = .ok (h.jobs tenant).values := by
  rw [(hs.own tenant hv).tenantJobs hv, (hs.own tenant hv).rowJobs_eq (hs.jobs tenant hv)]

theorem mem_values (hs : s.Holds h) {r : TenantRecord} (hr : r ∈ h.records.values) :
    r.tenant.isValid = true ∧ h.records[r.tenant]? = some r := by
  obtain ⟨key, hk⟩ := Table.mem_values.1 hr
  obtain ⟨hv, rfl, -⟩ := hs.recorded key r hk
  exact ⟨hv, hk⟩

theorem records_eq (hs : s.Holds h) : s.tenantRecords = .ok h.records.values := by
  have hlist : s.tenants.toList = h.records.toList.map fun e => (e.1, e.2.toText?.getD "") := by
    refine Table.toList_eq (List.pairwise_map.2 (Table.pairwise_toList h.records)) fun key text => ?_
    rw [hs.texts, Option.bind_eq_some_iff, List.mem_map]
    constructor
    · rintro ⟨⟨key, r⟩, he, heq⟩
      cases heq
      rw [ExtTreeMap.mem_toList_iff_getElem?_eq_some] at he
      obtain ⟨text, ht⟩ := hs.isSome_toText? he
      exact ⟨r, he, by rw [ht]; rfl⟩
    · rintro ⟨r, hr, ht⟩
      exact ⟨(key, r), ExtTreeMap.mem_toList_iff_getElem?_eq_some.2 hr, by rw [ht]; rfl⟩
  have hvalues : s.tenants.values = h.records.values.map fun r => r.toText?.getD "" := by
    rw [Table.values_eq, Table.values_eq, hlist, List.map_map, List.map_map]; rfl
  rw [Store.tenantRecords, hvalues]
  refine mapM_eq_ok.2 (List.forall₂_map_left_iff.2 (List.forall₂_same.2 fun r hr => ?_))
  obtain ⟨text, ht⟩ := hs.isSome_toText? (hs.mem_values hr).2
  rw [ht, Option.getD_some, decodeTenant, TenantRecord.ofText?_toText? ht]

theorem recover_eq (hs : s.Holds h) :
    s.recoverAll = .ok (h.records.values.map fun r => (r.tenant, .ofJobs (h.jobs r.tenant).values)) := by
  rw [Store.recoverAll, hs.records_eq]
  refine mapM_eq_ok.2 (List.forall₂_map_right_iff.2 (List.forall₂_same.2 fun r hr => ?_))
  rw [Store.recoverTenant, hs.jobs_eq (hs.mem_values hr).1]
  rfl

/-- A call answers what it means for the holdings, and afterwards the store still stands for them. -/
theorem act (hs : s.Holds h) (c : Call) :
    (s.act c).1 = (h.act c).1 ∧ (s.act c).2.Holds (h.act c).2 := by
  cases c with
  | putTenant tenant now => exact hs.putTenant tenant now
  | removeTenant tenant => exact hs.removeTenant tenant
  | write tenant b => exact hs.write tenant b
  | jobs tenant =>
    rw [Store.act, Holdings.act, Holdings.forTenant]
    by_cases hv : tenant.isValid = true
    · rw [if_pos hv, hs.jobs_eq hv]
      exact ⟨rfl, hs⟩
    · rw [if_neg hv, Store.tenantJobs, withTenant, if_neg hv]
      exact ⟨rfl, hs⟩
  | records =>
    rw [Store.act, Holdings.act, hs.records_eq]
    exact ⟨rfl, hs⟩
  | recover =>
    rw [Store.act, Holdings.act, hs.recover_eq]
    exact ⟨rfl, hs⟩

theorem answers (hs : s.Holds h) (calls : List Call) :
    Store.answers Store.act s calls = Store.answers Holdings.act h calls := by
  induction calls generalizing s h with
  | nil => rfl
  | cons c cs ih =>
    obtain ⟨ha, hs'⟩ := hs.act c
    rw [Store.answers, Store.answers, ha, ih hs']

/-- Jobs are listed in the order of the bytes of their names. -/
theorem byteOrder (hs : s.Holds h) {c : Call} {jobs : List Job} (ha : (s.act c).1 = .ok (.jobs jobs)) :
    jobs.Pairwise fun a b => utf8 a.id < utf8 b.id := by
  rw [(hs.act c).1] at ha
  cases c with
  | jobs tenant =>
    rw [Holdings.act, Holdings.forTenant] at ha
    split_ifs at ha with hv
    cases ha
    have hown := hs.own tenant hv
    rw [← hown.rowJobs_eq (hs.jobs tenant hv)]
    exact hown.pairwise.imp utf8_lt
  | putTenant tenant now =>
    rw [Holdings.act, Holdings.forTenant] at ha
    split_ifs at ha <;> cases ha
  | removeTenant tenant =>
    rw [Holdings.act, Holdings.forTenant] at ha
    split_ifs at ha
    cases ha
  | write tenant b =>
    rw [Holdings.act, Holdings.forTenant] at ha
    split_ifs at ha
    cases ha
  | records => cases ha
  | recover => cases ha

theorem answers_byteOrder (hs : s.Holds h) {calls : List Call} {jobs : List Job}
    (ha : .ok (.jobs jobs) ∈ Store.answers Store.act s calls) :
    jobs.Pairwise fun a b => utf8 a.id < utf8 b.id := by
  induction calls generalizing s h with
  | nil => cases ha
  | cons c cs ih =>
    rcases List.mem_cons.1 ha with ha | ha
    · exact hs.byteOrder ha.symm
    · exact ih (hs.act c).2 ha

end Holds

/-- Whatever calls are made of a new store, for whatever tenants and jobs, they are answered as if it held the
records of the tenants and, apart for each tenant, its jobs by name; and jobs are listed in the order of
the bytes of their names. -/
theorem answers_eq (calls : List Call) :
    answers act .empty calls = answers Holdings.act .empty calls ∧
      ∀ jobs, .ok (.jobs jobs) ∈ answers act .empty calls → jobs.Pairwise fun a b => utf8 a.id < utf8 b.id :=
  ⟨holds_empty.answers calls, fun _ ha => holds_empty.answers_byteOrder ha⟩

/-- Tenant `a` keeps its jobs, the empty name among them, while its neighbours in the order of keys come and
go. -/
theorem answers_eq_neighbours :
    let job (id : JobId) : Job := .compaction ⟨id, ⟨["x"], false⟩, 1, .fresh .epoch⟩
    let calls : List Call :=
      [.putTenant "a" .epoch, .write "a" ⟨[job "é", job "b/c", job ""], []⟩, .putTenant "a." .epoch,
        .write "a." ⟨[job "x"], []⟩, .putTenant "a0" .epoch, .write "a0" ⟨[job "y"], []⟩,
        .removeTenant "a.", .removeTenant "a0", .putTenant "a/b" .epoch, .jobs "a"]
    answers Holdings.act .empty calls =
        [.ok .done, .ok .done, .ok .done, .ok .done, .ok .done, .ok .done, .ok (.removed 1),
          .ok (.removed 1), .error (.invalidTenant "a/b"), .ok (.jobs [job "", job "b/c", job "é"])] ∧
      answers act .empty calls = answers Holdings.act .empty calls ∧
      [job "", job "b/c", job "é"].Pairwise fun a b => utf8 a.id < utf8 b.id := by
  intro job calls
  have hanswers : answers Holdings.act .empty calls =
      [.ok .done, .ok .done, .ok .done, .ok .done, .ok .done, .ok .done, .ok (.removed 1),
        .ok (.removed 1), .error (.invalidTenant "a/b"), .ok (.jobs [job "", job "b/c", job "é"])] := by
    decide +kernel
  obtain ⟨heq, horder⟩ := answers_eq calls
  refine ⟨hanswers, heq, horder _ ?_⟩
  rw [heq, hanswers]
  simp

end Store

end CompactionLeasing

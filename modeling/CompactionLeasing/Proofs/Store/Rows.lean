import CompactionLeasing.Proofs.JobTable
import CompactionLeasing.Proofs.Record
import CompactionLeasing.Proofs.Table
import CompactionLeasing.Store.Basic
import Mathlib.Data.List.Forall2
import Mathlib.Data.String.Basic

/-!
# The rows of a tenant

The jobs of a tenant stand under the keys with one prefix. `tableOf` is the tenant's part of the rows as a
table of jobs: `tenantJobs` lists it, `writeBatch` commits to it and leaves the other rows as they are.
-/

namespace CompactionLeasing

/-! ### Keys in order -/

section Order
variable {p k s : List Char}

theorem not_append_lt (p s : List Char) : ¬ p ++ s < p := by
  induction p with
  | nil => exact List.not_lt_nil _
  | cons c p ih =>
    rw [List.cons_append, List.cons_lt_cons_iff]
    rintro (h | ⟨-, h⟩)
    · exact lt_irrefl c h
    · exact ih h

/-- A row of characters that does not come before `p` and does not begin with it comes after all that do. -/
theorem append_lt_of_beyond (hlt : ¬ k < p) (hp : ¬ p <+: k) (s : List Char) : p ++ s < k := by
  induction p generalizing k with
  | nil => exact absurd (List.nil_prefix) hp
  | cons c p ih =>
    cases k with
    | nil => exact absurd (List.nil_lt_cons c p) hlt
    | cons d k =>
      rw [List.cons_lt_cons_iff, not_or] at hlt
      rw [List.cons_append, List.cons_lt_cons_iff]
      rcases lt_or_eq_of_le (not_lt.1 hlt.1) with h | rfl
      · exact .inl h
      · refine .inr ⟨rfl, ih (fun h => hlt.2 ⟨rfl, h⟩) fun h => hp ?_⟩
        exact (List.prefix_cons_inj c).2 h

end Order

namespace Store

theorem inRange_iff {start key : String} : inRange start key = true ↔ start.toList <+: key.toList :=
  List.isPrefixOf_iff_prefix

theorem not_lt_of_inRange {start key : String} (h : inRange start key = true) : ¬ key < start := by
  obtain ⟨s, hs⟩ := inRange_iff.1 h
  rw [String.lt_iff, ← hs]
  exact not_append_lt _ s

theorem not_inRange_of_lt {start k k' : String} (hk : ¬ k < start) (hr : inRange start k = false)
    (hlt : k < k') :
    inRange start k' = false := by
  refine Bool.eq_false_iff.2 fun h => ?_
  obtain ⟨s, hs⟩ := inRange_iff.1 h
  have hn : ¬ start.toList <+: k.toList := fun hp => by rw [inRange_iff.2 hp] at hr; cases hr
  rw [String.lt_iff] at hk hlt
  rw [← hs] at hlt
  exact lt_asymm hlt (append_lt_of_beyond hk hn s)

/-- The rows in range are an interval of the rows in order. -/
theorem takeWhile_dropWhile {start : String} {es : List (String × String)}
    (hs : es.Pairwise fun a b => a.1 < b.1) :
    ((es.dropWhile fun e => e.1 < start).takeWhile fun e => inRange start e.1) =
      es.filter fun e => inRange start e.1 := by
  induction es with
  | nil => rfl
  | cons e es ih =>
    rw [List.pairwise_cons] at hs
    by_cases hlt : e.1 < start
    · have hr : ¬ inRange start e.1 = true := fun h => not_lt_of_inRange h hlt
      rw [List.dropWhile_cons_of_pos (by simpa using hlt), List.filter_cons, if_neg hr, ih hs.2]
    · have hes : es.dropWhile (fun e => e.1 < start) = es := by
        cases es with
        | nil => rfl
        | cons e' es =>
          have : ¬ e'.1 < start := fun h => hlt (lt_trans (hs.1 e' (List.mem_cons_self ..)) h)
          exact List.dropWhile_cons_of_neg (by simpa using this)
      rw [List.dropWhile_cons_of_neg (by simpa using hlt)]
      by_cases hr : inRange start e.1 = true
      all_goals rw [List.takeWhile_cons, List.filter_cons]
      · rw [if_pos hr, if_pos hr, ← ih hs.2, hes]
      · rw [if_neg hr, if_neg hr, eq_comm, List.filter_eq_nil_iff]
        intro e' he'
        rw [not_inRange_of_lt hlt (by simpa using hr) (hs.1 e' he')]
        exact Bool.false_ne_true

theorem scan_eq_filter (rows : Std.ExtTreeMap String String) (start : String) :
    scan rows start = rows.toList.filter fun e => inRange start e.1 :=
  takeWhile_dropWhile (Table.pairwise_toList rows)

/-! ### Keys of jobs -/

theorem append_slash_inj {xs ys xs' ys' : List Char} (hx : '/' ∉ xs) (hx' : '/' ∉ xs')
    (h : xs ++ '/' :: ys = xs' ++ '/' :: ys') : xs = xs' ∧ ys = ys' := by
  induction xs generalizing xs' with
  | nil =>
    cases xs' with
    | nil => exact ⟨rfl, (List.cons.inj h).2⟩
    | cons c xs' => exact absurd ((List.cons.inj h).1 ▸ List.mem_cons_self ..) hx'
  | cons c xs ih =>
    cases xs' with
    | nil => exact absurd ((List.cons.inj h).1 ▸ List.mem_cons_self ..) hx
    | cons c' xs' =>
      obtain ⟨rfl, h'⟩ := List.cons.inj h
      obtain ⟨rfl, rfl⟩ := ih (List.not_mem_of_not_mem_cons hx) (List.not_mem_of_not_mem_cons hx') h'
      exact ⟨rfl, rfl⟩

theorem toList_jobKey (tenant : TenantId) (id : JobId) :
    (jobKey tenant id).toList = tenant.toList ++ '/' :: id.toList := by
  simp [jobKey, jobPrefix]

theorem slash_notMem {tenant : TenantId} (h : tenant.isValid = true) : '/' ∉ tenant.toList := by
  simp only [TenantId.isValid, Bool.and_eq_true] at h
  simpa using h.2

theorem jobKey_inj {tenant tenant' : TenantId} (ht : tenant.isValid = true) (ht' : tenant'.isValid = true)
    {id id' : JobId}
    (h : jobKey tenant id = jobKey tenant' id') : tenant = tenant' ∧ id = id' := by
  have hl := congrArg String.toList h
  rw [toList_jobKey, toList_jobKey] at hl
  obtain ⟨h₁, h₂⟩ := append_slash_inj (slash_notMem ht) (slash_notMem ht') hl
  exact ⟨String.toList_inj.1 h₁, String.toList_inj.1 h₂⟩

theorem jobKey_inj_id {tenant : TenantId} {id id' : JobId} (h : jobKey tenant id = jobKey tenant id') :
    id = id' := by
  have hl := congrArg String.toList h
  rw [toList_jobKey, toList_jobKey] at hl
  exact String.toList_inj.1 (List.cons.inj (List.append_cancel_left hl)).2

theorem inRange_jobPrefix {tenant : TenantId} {key : String} :
    inRange (jobPrefix tenant) key = true ↔ ∃ id, key = jobKey tenant id := by
  rw [inRange_iff]
  constructor
  · rintro ⟨s, hs⟩
    refine ⟨String.ofList s, String.toList_inj.1 ?_⟩
    rw [← hs, jobKey, String.toList_append, String.toList_ofList]
  · rintro ⟨id, rfl⟩
    rw [jobKey, String.toList_append]
    exact List.prefix_append ..

theorem mem_scan {rows : Std.ExtTreeMap String String} {tenant : TenantId} {key text : String} :
    (key, text) ∈ scan rows (jobPrefix tenant) ↔
    ∃ id, key = jobKey tenant id ∧ rows[jobKey tenant id]? = some text := by
  rw [scan_eq_filter, List.mem_filter, Std.ExtTreeMap.mem_toList_iff_getElem?_eq_some, inRange_jobPrefix]
  constructor
  · rintro ⟨hk, id, rfl⟩
    exact ⟨id, rfl, hk⟩
  · rintro ⟨id, rfl, hk⟩
    exact ⟨hk, id, rfl⟩

theorem nodup_keys_scan (rows : Std.ExtTreeMap String String) (start : String) :
    ((scan rows start).map Prod.fst).Nodup := by
  rw [scan_eq_filter]
  have hkeys : (rows.toList.map Prod.fst).Nodup := by
    rw [Std.ExtTreeMap.map_fst_toList_eq_keys]; exact Std.ExtTreeMap.nodup_keys
  exact hkeys.sublist (List.filter_sublist.map _)

/-! ### The table of a tenant -/

/-- The jobs of a tenant among the rows. -/
def tableOf (rows : Std.ExtTreeMap String String) (tenant : TenantId) : JobTable :=
  fun id => rows[jobKey tenant id]?.bind Job.ofText?

/-- Every row of the tenant denotes a job, and stands under the key of this job. -/
def OwnRows (rows : Std.ExtTreeMap String String) (tenant : TenantId) : Prop :=
  ∀ id text, rows[jobKey tenant id]? = some text → ∃ job, Job.ofText? text = some job ∧ job.id = id

variable {s s' : Store} {rows rows' : Std.ExtTreeMap String String} {tenant tenant' : TenantId} {job : Job}
  {b : Batch}

theorem OwnRows.id_eq (h : OwnRows rows tenant) {id : JobId} (hj : tableOf rows tenant id = some job) :
    job.id = id := by
  obtain ⟨text, ht, hj⟩ := Option.bind_eq_some_iff.1 hj
  obtain ⟨job', hj', hid⟩ := h id text ht
  rw [hj, Option.some.injEq] at hj'
  rw [hj', hid]

theorem mapM_decodeJob {es : List (String × String)} (h : ∀ e ∈ es, ∃ job, Job.ofText? e.2 = some job) :
    es.mapM (fun e => decodeJob e.2) = .ok (es.filterMap fun e => Job.ofText? e.2) := by
  induction es with
  | nil => rfl
  | cons e es ih =>
    rw [List.forall_mem_cons] at h
    obtain ⟨⟨job, hj⟩, hes⟩ := h
    rw [List.mapM_cons, ih hes, List.filterMap_cons, decodeJob, hj]
    rfl

/-- The jobs that the rows of a tenant denote, in the order of their keys. -/
def rowJobs (rows : Std.ExtTreeMap String String) (tenant : TenantId) : List Job :=
  (scan rows (jobPrefix tenant)).filterMap fun e => Job.ofText? e.2

theorem OwnRows.exists_job (h : OwnRows rows tenant) {e : String × String}
    (he : e ∈ scan rows (jobPrefix tenant)) : ∃ job, Job.ofText? e.2 = some job ∧ e.1 = jobKey tenant job.id := by
  obtain ⟨key, text⟩ := e
  obtain ⟨id, rfl, ht⟩ := mem_scan.1 he
  obtain ⟨job, hj, rfl⟩ := h id text ht
  exact ⟨job, hj, rfl⟩

/-- No row is dropped, so the keys of the jobs are those of the rows. -/
theorem OwnRows.map_jobKey (h : OwnRows rows tenant) :
    (rowJobs rows tenant).map (fun job => jobKey tenant job.id) =
      (scan rows (jobPrefix tenant)).map Prod.fst := by
  have hrow := fun e => h.exists_job (e := e)
  rw [rowJobs]
  generalize scan rows (jobPrefix tenant) = es at hrow
  induction es with
  | nil => rfl
  | cons e es ih =>
    obtain ⟨job, hj, hk⟩ := hrow e (List.mem_cons_self ..)
    rw [List.filterMap_cons, hj, List.map_cons, List.map_cons, hk, ih fun e he => hrow e (List.mem_cons_of_mem _ he)]

theorem OwnRows.mem_rowJobs (h : OwnRows rows tenant) :
    job ∈ rowJobs rows tenant ↔ tableOf rows tenant job.id = some job := by
  rw [rowJobs, List.mem_filterMap]
  constructor
  · rintro ⟨⟨key, text⟩, he, hj⟩
    obtain ⟨id, rfl, ht⟩ := mem_scan.1 he
    obtain ⟨job', hj', rfl⟩ := h id text ht
    rw [hj', Option.some.injEq] at hj
    subst hj
    rw [tableOf, ht]; exact hj'
  · intro ht
    obtain ⟨text, ht, hj⟩ := Option.bind_eq_some_iff.1 ht
    exact ⟨(jobKey tenant job.id, text), mem_scan.2 ⟨_, rfl, ht⟩, hj⟩

theorem OwnRows.tenantJobs (h : OwnRows s.jobs tenant) (hv : tenant.isValid = true) :
    s.tenantJobs tenant = .ok (rowJobs s.jobs tenant) := by
  rw [Store.tenantJobs, withTenant, if_pos hv]
  exact mapM_decodeJob fun e he => (h.exists_job he).imp fun _ => And.left

/-- The jobs that are listed for a tenant are those of its table, each once. -/
theorem tenantJobs_eq (hv : tenant.isValid = true) (h : OwnRows s.jobs tenant) :
    ∃ jobs, s.tenantJobs tenant = .ok jobs ∧ (jobs.map Job.id).Nodup ∧
      tableOf s.jobs tenant = .of jobs := by
  have hn : ((rowJobs s.jobs tenant).map Job.id).Nodup := by
    refine List.Nodup.of_map (jobKey tenant) ?_
    rw [List.map_map]
    exact h.map_jobKey ▸ nodup_keys_scan s.jobs (jobPrefix tenant)
  refine ⟨_, h.tenantJobs hv, hn, funext fun id => Option.ext fun job => ?_⟩
  rw [JobTable.of_eq_some hn, h.mem_rowJobs]
  constructor
  · intro ht
    obtain rfl := h.id_eq ht
    exact ⟨ht, rfl⟩
  · rintro ⟨ht, rfl⟩
    exact ht

theorem jobKey_lt {id id' : JobId} : jobKey tenant id < jobKey tenant id' ↔ id < id' := by
  rw [String.lt_iff, String.lt_iff, toList_jobKey, toList_jobKey]
  induction tenant.toList with
  | nil => simp
  | cons c cs ih =>
    rw [List.cons_append, List.cons_append, List.cons_lt_cons_iff, ih]
    simp

theorem OwnRows.pairwise (h : OwnRows rows tenant) : (rowJobs rows tenant).Pairwise fun a b => a.id < b.id := by
  have hkeys : ((scan rows (jobPrefix tenant)).map Prod.fst).Pairwise (· < ·) := by
    rw [scan_eq_filter, List.pairwise_map]
    exact (Table.pairwise_toList rows).sublist List.filter_sublist
  rw [← h.map_jobKey, List.pairwise_map] at hkeys
  exact hkeys.imp jobKey_lt.1

/-- The jobs of a tenant are listed by name, as they are in a table of the same jobs. -/
theorem OwnRows.rowJobs_eq (h : OwnRows rows tenant) {m : Std.ExtTreeMap JobId Job}
    (hm : ∀ id, tableOf rows tenant id = m[id]?) : rowJobs rows tenant = m.values := by
  have hlist : m.toList = (rowJobs rows tenant).map fun job => (job.id, job) := by
    refine Table.toList_eq (List.pairwise_map.2 h.pairwise) fun id job => ?_
    rw [List.mem_map, ← hm]
    constructor
    · rintro ⟨job', hj, he⟩
      cases he
      exact h.mem_rowJobs.1 hj
    · intro hj
      obtain rfl := h.id_eq hj
      exact ⟨job, h.mem_rowJobs.2 hj, rfl⟩
  rw [Table.values_eq, hlist, List.map_map]
  exact (List.map_id _).symm

/-! ### Writing -/

/-- `rows'` comes from `rows` by a change of the tenant's rows alone, after which its table is `f`. -/
structure Change (tenant : TenantId) (rows rows' : Std.ExtTreeMap String String) (f : JobTable) : Prop where
  own : OwnRows rows tenant → OwnRows rows' tenant
  table : tableOf rows' tenant = f
  others : ∀ key, (∀ id, key ≠ jobKey tenant id) → rows'[key]? = rows[key]?

namespace Change
variable {rows'' : Std.ExtTreeMap String String} {f g : JobTable}

theorem refl (tenant : TenantId) (rows : Std.ExtTreeMap String String) :
    Change tenant rows rows (tableOf rows tenant) :=
  ⟨id, rfl, fun _ _ => rfl⟩

theorem trans (h : Change tenant rows rows' f) (h' : Change tenant rows' rows'' g) :
    Change tenant rows rows'' g :=
  ⟨h'.own ∘ h.own, h'.table, fun key hk => (h'.others key hk).trans (h.others key hk)⟩

theorem erase (tenant : TenantId) (rows : Std.ExtTreeMap String String) (id : JobId) :
    Change tenant rows (rows.erase (jobKey tenant id)) ((tableOf rows tenant).drop id) := by
  refine ⟨fun h n text ht => ?_, ?_, fun key hk => ?_⟩
  · rw [Table.getElem?_erase] at ht
    split_ifs at ht
    exact h n text ht
  · funext n
    rw [tableOf, Table.getElem?_erase, JobTable.drop_apply]
    by_cases hn : n = id
    · rw [hn, if_pos rfl, if_pos rfl]; rfl
    · rw [if_neg fun h => hn (jobKey_inj_id h), if_neg hn]; rfl
  · rw [Table.getElem?_erase, if_neg (hk id)]

theorem insert {text : String} (ht : Job.ofText? text = some job) :
    Change tenant rows (rows.insert (jobKey tenant job.id) text) ((tableOf rows tenant).put job) := by
  refine ⟨fun h n text' hn => ?_, ?_, fun key hk => ?_⟩
  · rw [Table.getElem?_insert] at hn
    split_ifs at hn with hk
    · cases hn
      exact ⟨job, ht, (jobKey_inj_id hk).symm⟩
    · exact h n text' hn
  · funext n
    rw [tableOf, Table.getElem?_insert, JobTable.put_apply]
    by_cases hn : n = job.id
    · rw [hn, if_pos rfl, if_pos rfl]; exact ht
    · rw [if_neg fun h => hn (jobKey_inj_id h), if_neg hn]; rfl
  · rw [Table.getElem?_insert, if_neg (hk job.id)]

theorem eraseAll (jobs : List Job) (rows : Std.ExtTreeMap String String) :
    Change tenant rows (jobs.foldl (fun m job => m.erase (jobKey tenant job.id)) rows)
      ((tableOf rows tenant).dropAll jobs) := by
  induction jobs generalizing rows with
  | nil => exact refl ..
  | cons job jobs ih =>
    have h := erase tenant rows job.id
    have hrest := ih (rows.erase (jobKey tenant job.id))
    rw [h.table] at hrest
    exact h.trans hrest

theorem putAll {jobs : List Job} (h : jobs.foldlM (putJob tenant) rows = .ok rows') :
    Change tenant rows rows' ((tableOf rows tenant).putAll jobs) := by
  induction jobs generalizing rows with
  | nil => cases h; exact refl ..
  | cons job jobs ih =>
    rw [List.foldlM_cons, putJob] at h
    cases ht : job.toText? with
    | none => rw [ht] at h; cases h
    | some text =>
      rw [ht] at h
      have hput : Change tenant rows _ _ := insert (Job.ofText?_toText? ht)
      have hrest := ih h
      rw [hput.table] at hrest
      exact hput.trans hrest

end Change

/-- A batch that is written is committed to the tenant's table; nothing else changes. -/
theorem writeBatch_ok (h : s.writeBatch tenant b = .ok s') :
    s'.tenants = s.tenants ∧ Change tenant s.jobs s'.jobs ((tableOf s.jobs tenant).commit b) := by
  rw [writeBatch, withTenant] at h
  split_ifs at h with hv
  dsimp only at h
  have hd : Change tenant s.jobs _ _ := Change.eraseAll b.deletes s.jobs
  cases hr : b.writes.foldlM (putJob tenant)
    (b.deletes.foldl (fun m job => m.erase (jobKey tenant job.id)) s.jobs) with
  | error e => rw [hr] at h; cases h
  | ok rows =>
    rw [hr] at h
    cases h
    refine ⟨rfl, hd.trans ?_⟩
    rw [JobTable.commit, ← hd.table]
    exact Change.putAll hr

/-- Of a tenant that is removed no row is left. -/
theorem removeTenant_eq (hv : tenant.isValid = true) :
    ∃ rows, s.removeTenant tenant =
        .ok (.ofNat (scan s.jobs (jobPrefix tenant)).length, ⟨s.tenants.erase tenant, rows⟩) ∧
      (∀ id, rows[jobKey tenant id]? = none) ∧ Change tenant s.jobs rows fun _ => none := by
  refine ⟨_, by rw [removeTenant, withTenant, if_pos hv], ?_⟩
  have hrows : ∀ key, ((scan s.jobs (jobPrefix tenant)).foldl (fun m e => m.erase e.1) s.jobs)[key]? =
      if key ∈ (scan s.jobs (jobPrefix tenant)).map Prod.fst then none else s.jobs[key]? :=
    Table.getElem?_foldl_erase Prod.fst _ s.jobs
  have hnone : ∀ id, ((scan s.jobs (jobPrefix tenant)).foldl (fun m e => m.erase e.1) s.jobs)[jobKey tenant id]? =
      none := by
    intro id
    rw [hrows]
    split_ifs with hm
    · rfl
    · rw [Option.eq_none_iff_forall_ne_some]
      intro text ht
      exact hm (List.mem_map.2 ⟨_, mem_scan.2 ⟨id, rfl, ht⟩, rfl⟩)
  refine ⟨hnone, fun _ id text ht => ?_, funext fun id => ?_, fun key hk => ?_⟩
  · rw [hnone] at ht; cases ht
  · rw [tableOf, hnone]; rfl
  · rw [hrows, if_neg]
    intro hm
    obtain ⟨⟨key, text⟩, he, rfl⟩ := List.mem_map.1 hm
    obtain ⟨id, hid, -⟩ := mem_scan.1 he
    exact hk id hid

/-- A batch of one tenant leaves the rows of another as they are. -/
theorem writeBatch_other (ht : tenant.isValid = true) (ht' : tenant'.isValid = true)
    (hne : tenant' ≠ tenant) (h : s.writeBatch tenant b = .ok s') (id : JobId) :
    s'.jobs[jobKey tenant' id]? = s.jobs[jobKey tenant' id]? :=
  (writeBatch_ok h).2.others _ fun _ hk => hne (jobKey_inj ht' ht hk).1

end Store

end CompactionLeasing

import CompactionLeasing.Proofs.Store.Holdings
import CompactionLeasing.Storage

/-!
# Jobs of recorded tenants

`Recorded`: the store holds no jobs of a tenant without a record. The calls keep it, as long as jobs are
written for recorded tenants only. What is recovered are then all tenants that can have jobs. `Legible`: every
record can be read.
-/

namespace CompactionLeasing

namespace Store
variable {s s' : Store} {tenant t : TenantId} {b : Batch} {now : Instant} {count : UInt32}

/-- No jobs are held of a tenant that has no record. -/
def Recorded (s : Store) : Prop :=
  ∀ tenant : TenantId, tenant.isValid = true → tenant ∉ s.tenants → ∀ id, s.jobs[jobKey tenant id]? = none

/-- A record stands under the name of its tenant. -/
def Named (s : Store) : Prop :=
  ∀ (key : TenantId) text r, s.tenants[key]? = some text → TenantRecord.ofText? text = some r → r.tenant = key

theorem putTenant_ok (h : s.putTenant tenant now = .ok s') :
    tenant.isValid = true ∧ tenant ∈ s'.tenants ∧ (∀ t ∈ s.tenants, t ∈ s'.tenants) ∧ s'.jobs = s.jobs := by
  rw [putTenant, withTenant] at h
  split_ifs at h with hv hc
  · cases h
    exact ⟨hv, Std.ExtTreeMap.contains_iff_mem.1 hc, fun t ht => ht, rfl⟩
  · cases htext : TenantRecord.toText? ⟨tenant, now⟩ with
    | none => rw [htext] at h; cases h
    | some text =>
      rw [htext] at h
      cases h
      exact ⟨hv, by simp, fun t ht => by simp [ht], rfl⟩

theorem removeTenant_ok (h : s.removeTenant tenant = .ok (count, s')) :
    tenant.isValid = true ∧ s'.tenants = s.tenants.erase tenant ∧ (∀ id, s'.jobs[jobKey tenant id]? = none) ∧
      Change tenant s.jobs s'.jobs fun _ => none := by
  by_cases hv : tenant.isValid = true
  · obtain ⟨rows, hr, hnone, hc⟩ := removeTenant_eq (s := s) hv
    rw [hr] at h
    cases h
    exact ⟨hv, rfl, hnone, hc⟩
  · rw [removeTenant, withTenant, if_neg hv] at h
    cases h

/-- The removal of one tenant leaves the rows of another as they are. -/
theorem removeTenant_other (ht : t.isValid = true) (hne : t ≠ tenant)
    (h : s.removeTenant tenant = .ok (count, s')) (id : JobId) :
    s'.jobs[jobKey t id]? = s.jobs[jobKey t id]? := by
  obtain ⟨hv, -, -, hc⟩ := removeTenant_ok h
  exact hc.others _ fun _ hk => hne (jobKey_inj ht hv hk).1

theorem isValid_of_writeBatch (h : s.writeBatch tenant b = .ok s') : tenant.isValid = true := by
  rw [writeBatch, withTenant] at h
  split_ifs at h with hv
  exact hv

namespace Recorded

theorem putTenant (hs : s.Recorded) (h : s.putTenant tenant now = .ok s') : s'.Recorded := by
  obtain ⟨-, -, hmore, hjobs⟩ := putTenant_ok h
  intro t hv ht id
  rw [hjobs]
  exact hs t hv (fun hm => ht (hmore t hm)) id

theorem removeTenant (hs : s.Recorded) (h : s.removeTenant tenant = .ok (count, s')) : s'.Recorded := by
  obtain ⟨-, htenants, hnone, -⟩ := removeTenant_ok h
  intro t hv ht id
  by_cases hne : t = tenant
  · rw [hne]
    exact hnone id
  · rw [removeTenant_other hv hne h]
    refine hs t hv (fun hm => ht ?_) id
    rw [htenants]
    simp [hm, Ne.symm hne]

theorem writeBatch (hs : s.Recorded) (hr : tenant ∈ s.tenants) (h : s.writeBatch tenant b = .ok s') :
    s'.Recorded := by
  have hv := isValid_of_writeBatch h
  have htenants : s'.tenants = s.tenants := (writeBatch_ok h).1
  intro t ht hnot id
  rw [htenants] at hnot
  have hne : t ≠ tenant := fun he => hnot (he ▸ hr)
  rw [writeBatch_other hv ht hne h]
  exact hs t ht hnot id

end Recorded

/-! ### What is recovered -/

theorem Holds.named {h : Holdings} (hs : s.Holds h) : s.Named := by
  intro key text r ht hr
  rw [hs.texts, Option.bind_eq_some_iff] at ht
  obtain ⟨r', hr', ht⟩ := ht
  rw [TenantRecord.ofText?_toText? ht, Option.some.injEq] at hr
  rw [← hr]
  exact (hs.recorded key r' hr').2.1

theorem ofText?_of_decodeTenant {text : String} {r : TenantRecord} (h : decodeTenant text = .ok r) :
    TenantRecord.ofText? text = some r := by
  rw [decodeTenant] at h
  split at h
  · cases h
  · rename_i hr
    rw [hr, Except.ok.inj h]

theorem recoverTenant_ok {r : TenantRecord} {x : TenantId × RecoveredJobs} (h : s.recoverTenant r = .ok x) :
    x.1.isValid = true ∧ x.1 = r.tenant := by
  rw [recoverTenant] at h
  cases hj : s.tenantJobs r.tenant with
  | error err => rw [hj] at h; cases h
  | ok jobs =>
    rw [hj] at h
    cases h
    refine ⟨?_, rfl⟩
    rw [tenantJobs, withTenant] at hj
    split_ifs at hj with hv
    exact hv

/-- The tenants that are recovered are those with a record, each once. Their names are valid. -/
theorem recoverAll_ok {rs : List (TenantId × RecoveredJobs)} (hn : s.Named) (h : s.recoverAll = .ok rs) :
    rs.map Prod.fst = s.tenants.keys ∧ ∀ tenant : TenantId, tenant ∈ s.tenants → tenant.isValid = true := by
  rw [recoverAll] at h
  cases hr : s.tenantRecords with
  | error err => rw [hr] at h; cases h
  | ok records =>
    rw [hr] at h
    have hrecovered := mapM_eq_ok.1 h
    have hdecoded := mapM_eq_ok.1 hr
    rw [Table.values_eq, List.forall₂_map_left_iff] at hdecoded
    have hentry : ∀ e ∈ s.tenants.toList, s.tenants[e.1]? = some e.2 := fun e he =>
      Std.ExtTreeMap.mem_toList_iff_getElem?_eq_some.1 he
    have hkeys : s.tenants.toList.map Prod.fst = records.map TenantRecord.tenant := by
      rw [← List.forall₂_eq_eq_eq, List.forall₂_map_left_iff, List.forall₂_map_right_iff]
      refine ((List.forall₂_and_left _ _).2 ⟨hentry, hdecoded⟩).imp fun e r he => ?_
      exact (hn e.1 e.2 r he.1 (ofText?_of_decodeTenant he.2)).symm
    obtain ⟨hvalid, hsame⟩ := (List.forall₂_and_left rs records).1 <| List.Forall₂.flip <|
      hrecovered.imp fun r x hx => show x.1.isValid = true ∧ x.1 = r.tenant from recoverTenant_ok hx
    have hnames : rs.map Prod.fst = records.map TenantRecord.tenant := by
      rw [← List.forall₂_eq_eq_eq, List.forall₂_map_left_iff, List.forall₂_map_right_iff]
      exact hsame
    rw [hnames, ← hkeys, Std.ExtTreeMap.map_fst_toList_eq_keys]
    refine ⟨rfl, fun tenant ht => ?_⟩
    rw [← Std.ExtTreeMap.mem_keys, ← Std.ExtTreeMap.map_fst_toList_eq_keys, hkeys, ← hnames] at ht
    obtain ⟨x, hx, rfl⟩ := List.mem_map.1 ht
    exact hvalid x hx

/-! ### What can be read -/

/-- Every record can be read, and stands under the name of its tenant. -/
def Legible (s : Store) : Prop :=
  ∀ (key : TenantId) text, s.tenants[key]? = some text → ∃ r, TenantRecord.ofText? text = some r ∧ r.tenant = key

theorem exists_of_mapM {ε α β : Type} {f : α → Except ε β} {xs : List α} {ys : List β} (h : xs.mapM f = .ok ys) :
    ∀ x ∈ xs, ∃ y, f x = .ok y := by
  have hall := mapM_eq_ok.1 h
  clear h
  induction hall with
  | nil => simp
  | cons hx _ ih => exact List.forall_mem_cons.2 ⟨⟨_, hx⟩, ih⟩

theorem legible_of_recoverAll {rs : List (TenantId × RecoveredJobs)} (hn : s.Named) (h : s.recoverAll = .ok rs) :
    s.Legible := by
  intro key text ht
  unfold recoverAll at h
  cases hr : s.tenantRecords with
  | error err => rw [hr] at h; cases h
  | ok records =>
    obtain ⟨r, hd⟩ := exists_of_mapM hr text (Table.mem_values.2 ⟨key, ht⟩)
    have hr := ofText?_of_decodeTenant hd
    exact ⟨r, hr, hn key text r ht hr⟩

theorem Legible.named (h : s.Legible) : s.Named := by
  intro key text r ht hr
  obtain ⟨r', hr', hkey⟩ := h key text ht
  rw [hr, Option.some.injEq] at hr'
  rw [hr', hkey]

/-- The tenants of the records are the keys under which they stand. -/
theorem Legible.tenantRecords (h : s.Legible) :
    ∃ records, s.tenantRecords = .ok records ∧ records.map TenantRecord.tenant = s.tenants.keys := by
  have hread : ∀ es : List (TenantId × String), (∀ e ∈ es, s.tenants[e.1]? = some e.2) →
      ∃ records, (es.map Prod.snd).mapM decodeTenant = .ok records ∧
        records.map TenantRecord.tenant = es.map Prod.fst := by
    intro es
    induction es with
    | nil => exact fun _ => ⟨[], rfl, rfl⟩
    | cons e es ih =>
      intro hes
      obtain ⟨r, hr, hkey⟩ := h e.1 e.2 (hes e (List.mem_cons_self ..))
      obtain ⟨records, hrecords, hkeys⟩ := ih fun e' he => hes e' (List.mem_cons_of_mem _ he)
      have hd : decodeTenant e.2 = .ok r := by rw [decodeTenant, hr]
      refine ⟨r :: records, ?_, by rw [List.map_cons, List.map_cons, hkey, hkeys]⟩
      rw [List.map_cons, List.mapM_cons, hd, hrecords]; rfl
  unfold Store.tenantRecords
  rw [Table.values_eq, ← Std.ExtTreeMap.map_fst_toList_eq_keys]
  exact hread _ fun e he => Std.ExtTreeMap.mem_toList_iff_getElem?_eq_some.1 he

theorem Legible.insert (h : s.Legible) {tenant : TenantId} {now : Instant} {text : String}
    (ht : TenantRecord.toText? ⟨tenant, now⟩ = some text) (hs : s'.tenants = s.tenants.insert tenant text) :
    s'.Legible := by
  intro key text' hk
  rw [hs, Table.getElem?_insert] at hk
  split_ifs at hk with he
  · cases hk
    exact ⟨_, TenantRecord.ofText?_toText? ht, he.symm⟩
  · exact h key text' hk

theorem Legible.erase (h : s.Legible) {tenant : TenantId} (hs : s'.tenants = s.tenants.erase tenant) :
    s'.Legible := by
  intro key text hk
  rw [hs, Table.getElem?_erase] at hk
  split_ifs at hk
  exact h key text hk

end Store

namespace Storage
variable {s s' : Storage} {tenant : TenantId} {now : Instant} {b : Batch}

theorem createTenant_ok (h : s.createTenant tenant now = .ok s') :
    s.store.putTenant tenant now = .ok s'.store := by
  rw [createTenant] at h
  split_ifs at h
  cases hp : s.store.putTenant tenant now with
  | error err => rw [hp] at h; cases h
  | ok store => rw [hp] at h; cases h; rfl

theorem deleteTenant_ok (h : s.deleteTenant tenant = .ok s') :
    ∃ count, s.store.removeTenant tenant = .ok (count, s'.store) := by
  rw [deleteTenant] at h
  split_ifs at h
  cases hr : s.store.removeTenant tenant with
  | error err => rw [hr] at h; cases h
  | ok r => rw [hr] at h; cases h; exact ⟨r.1, rfl⟩

theorem writeBatch_ok (h : s.writeBatch tenant b = .ok s') :
    s.store.writeBatch tenant b = .ok s'.store := by
  rw [writeBatch] at h
  split_ifs at h
  cases hw : s.store.writeBatch tenant b with
  | error err => rw [hw] at h; cases h
  | ok store => rw [hw] at h; cases h; rfl

theorem recoverAll_ok {rs : List (TenantId × RecoveredJobs)} (h : s.recoverAll = .ok rs) :
    s.store.recoverAll = .ok rs := by
  rw [recoverAll] at h
  split_ifs at h
  exact h

end Storage

end CompactionLeasing

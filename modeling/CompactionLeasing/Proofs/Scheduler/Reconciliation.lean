import CompactionLeasing.Proofs.Scheduler.Standing
import CompactionLeasing.Proofs.Scheduler.Survey

/-!
# What a pass of discovery does

`mem_known_reconcile`: a pass ends with the tenants that it knew and those that it took up, less those that it gave
up. `reconcileNoted` is the pass with a note of each call that it makes of the storage, and of its outcome: one for
each tenant that is new, one for each that is gone.
-/

namespace CompactionLeasing

namespace Storage
variable {s s' : Storage} {tenant t : TenantId} {now : Instant}

/-- The storage of a tenant can be prepared at present. -/
def Creates (s : Storage) (tenant : TenantId) (now : Instant) : Prop :=
  ∃ s', s.createTenant tenant now = .ok s'

/-- The storage of a tenant can be deleted at present. -/
def Deletes (s : Storage) (tenant : TenantId) : Prop := ∃ s', s.deleteTenant tenant = .ok s'

theorem creates_iff : s.Creates tenant now ↔ tenant ∉ s.outages.creation ∧ tenant.isValid = true ∧
    (tenant ∈ s.store.tenants ∨ (TenantRecord.toText? ⟨tenant, now⟩).isSome = true) := by
  unfold Creates createTenant Store.putTenant Store.withTenant
  by_cases ho : tenant ∈ s.outages.creation
  · simp [ho]
  by_cases hv : tenant.isValid = true
  · by_cases hm : tenant ∈ s.store.tenants
    · simp [ho, hv, hm, Except.map]
    · cases TenantRecord.toText? ⟨tenant, now⟩ <;> simp [ho, hv, hm, Except.map]
  · simp [ho, hv, Except.map]

theorem deletes_iff : s.Deletes tenant ↔ tenant ∉ s.outages.deletion ∧ tenant.isValid = true := by
  unfold Deletes deleteTenant Store.removeTenant Store.withTenant
  by_cases ho : tenant ∈ s.outages.deletion
  · simp [ho]
  by_cases hv : tenant.isValid = true
  · simp [ho, hv, Except.map]
  · simp [ho, hv, Except.map]

/-- A tenant that has no record yet gets one, and nothing else changes but the table of records. -/
theorem createTenant_cases (h : s.createTenant tenant now = .ok s') : s'.outages = s.outages ∧
    (tenant ∈ s.store.tenants ∧ s'.store.tenants = s.store.tenants ∨
      ∃ text, TenantRecord.toText? ⟨tenant, now⟩ = some text ∧
        s'.store.tenants = s.store.tenants.insert tenant text) := by
  unfold createTenant Store.putTenant Store.withTenant at h
  split_ifs at h with ho hv hm
  · cases h
    exact ⟨rfl, .inl ⟨Std.ExtTreeMap.contains_iff_mem.1 hm, rfl⟩⟩
  · cases ht : TenantRecord.toText? ⟨tenant, now⟩ with
    | none => rw [ht] at h; cases h
    | some text =>
      rw [ht] at h
      cases h
      exact ⟨rfl, .inr ⟨text, rfl, rfl⟩⟩
  · cases h

theorem mem_tenants_createTenant (h : s.createTenant tenant now = .ok s') (t : TenantId) :
    t ∈ s'.store.tenants ↔ t = tenant ∨ t ∈ s.store.tenants := by
  obtain ⟨-, ⟨hm, htenants⟩ | ⟨text, -, htenants⟩⟩ := createTenant_cases h
  · rw [htenants]
    refine ⟨.inr, ?_⟩
    rintro (rfl | ht)
    · exact hm
    · exact ht
  · rw [htenants, Std.ExtTreeMap.mem_insert, Std.compare_eq_iff_eq, eq_comm]

theorem deleteTenant_eq (h : s.deleteTenant tenant = .ok s') :
    s'.outages = s.outages ∧ s'.store.tenants = s.store.tenants.erase tenant := by
  unfold deleteTenant at h
  split_ifs at h
  cases hr : s.store.removeTenant tenant with
  | error err => rw [hr] at h; cases h
  | ok r =>
    rw [hr] at h
    cases h
    exact ⟨rfl, (Store.removeTenant_ok hr).2.1⟩

theorem isOk_createTenant : (s.createTenant tenant now).isOk = true ↔ s.Creates tenant now := by
  unfold Creates
  cases s.createTenant tenant now <;> simp [Except.isOk, Except.toBool]

theorem isOk_deleteTenant : (s.deleteTenant tenant).isOk = true ↔ s.Deletes tenant := by
  unfold Deletes
  cases s.deleteTenant tenant <;> simp [Except.isOk, Except.toBool]

theorem creates_congr (ho : s'.outages = s.outages) (ht : t ∈ s'.store.tenants ↔ t ∈ s.store.tenants) :
    s'.Creates t now ↔ s.Creates t now := by
  rw [creates_iff, creates_iff, ho, ht]

theorem deletes_congr (ho : s'.outages = s.outages) : s'.Deletes t ↔ s.Deletes t := by
  rw [deletes_iff, deletes_iff, ho]

end Storage

/-- A call of the storage, and whether it succeeded. -/
inductive StorageCall where
  | create (tenant : TenantId) (done : Bool)
  | delete (tenant : TenantId) (done : Bool)
deriving DecidableEq

def StorageCall.tenant : StorageCall → TenantId
  | create tenant _ | delete tenant _ => tenant

namespace Scheduler
variable {s s' : Scheduler} {now : Instant} {tenant t : TenantId} {h : Handle} {listed : List TenantId}

/-! ### Taking up and giving up -/

theorem takeUp_cases (s : Scheduler) (now : Instant) (tenant : TenantId) :
    (s.takeUp now tenant = s ∧ (tenant ∈ s.known ∨ ¬ s.storage.Creates tenant now)) ∨
      tenant ∉ s.known ∧ ∃ storage, s.storage.createTenant tenant now = .ok storage ∧
        s.takeUp now tenant = { s with storage := storage }.enlist tenant := by
  rw [takeUp_eq]
  split_ifs with hk
  · exact .inl ⟨rfl, .inl (Std.ExtTreeSet.contains_iff_mem.1 hk)⟩
  cases hc : s.storage.createTenant tenant now with
  | error err =>
    refine .inl ⟨rfl, .inr ?_⟩
    rintro ⟨storage, hs⟩
    rw [hc] at hs; cases hs
  | ok storage => exact .inr ⟨by simpa using hk, storage, rfl, rfl⟩

theorem mem_known_enlist (s : Scheduler) (tenant t : TenantId) :
    t ∈ (s.enlist tenant).known ↔ t = tenant ∨ t ∈ s.known := by
  show t ∈ s.known.insert tenant ↔ _
  rw [Std.ExtTreeSet.mem_insert, Std.compare_eq_iff_eq, eq_comm]

/-- The scheduler once a tenant is off the roster and its tracker is retired. -/
def withdraw (s : Scheduler) (tenant : TenantId) : Scheduler :=
  match s.roster.trackers[tenant]? with
  | some h => (s.unregister tenant).2.retire h
  | none => (s.unregister tenant).2

theorem withdraw_frame (s : Scheduler) (tenant : TenantId) : (s.withdraw tenant).storage = s.storage ∧
    (s.withdraw tenant).known = s.known ∧ (s.withdraw tenant).metrics = s.metrics := by
  unfold withdraw
  split <;> exact ⟨rfl, rfl, rfl⟩

/-- The scheduler once the tracker of a tenant is back. -/
def restore (s : Scheduler) (tenant : TenantId) : Scheduler :=
  match s.roster.trackers[tenant]? with
  | some h => ((s.withdraw tenant).reinstate h).register tenant h
  | none => s.withdraw tenant

theorem giveUpWith_eq {m : Type → Type} [Monad m] (ask : StorageAccess m) (s : Scheduler) (tenant : TenantId) :
    s.giveUpWith ask tenant = ask.delete s.storage tenant >>= fun r =>
      match r with
      | .error _ => pure (s.restore tenant)
      | .ok storage => pure ((s.withdraw tenant).forget tenant storage) := by
  unfold giveUpWith restore withdraw unregister
  cases s.roster.trackers[tenant]? <;> rfl

theorem giveUp_cases (s : Scheduler) (tenant : TenantId) :
    (¬ s.storage.Deletes tenant ∧ s.giveUp tenant = s.restore tenant) ∨
      ∃ storage, s.storage.deleteTenant tenant = .ok storage ∧
        s.giveUp tenant = (s.withdraw tenant).forget tenant storage := by
  have hg : s.giveUp tenant = match s.storage.deleteTenant tenant with
      | .error _ => s.restore tenant
      | .ok storage => (s.withdraw tenant).forget tenant storage := by
    rw [giveUp, giveUpWith_eq]
    rfl
  rw [hg]
  cases hd : s.storage.deleteTenant tenant with
  | error err =>
    refine .inl ⟨?_, rfl⟩
    rintro ⟨storage, hs⟩
    rw [hd] at hs; cases hs
  | ok storage => exact .inr ⟨storage, rfl, rfl⟩

theorem restore_frame (s : Scheduler) (tenant : TenantId) :
    (s.restore tenant).storage = s.storage ∧ (s.restore tenant).known = s.known ∧
      (s.restore tenant).metrics = s.metrics := by
  unfold restore
  split
  · exact s.withdraw_frame tenant
  · exact s.withdraw_frame tenant

/-! ### The known tenants -/

theorem mem_known_takeUp (s : Scheduler) (now : Instant) (tenant t : TenantId) :
    t ∈ (s.takeUp now tenant).known ↔ t ∈ s.known ∨ t = tenant ∧ s.storage.Creates tenant now := by
  rcases s.takeUp_cases now tenant with ⟨he, hk | hc⟩ | ⟨-, storage, hs, he⟩
  · rw [he]
    refine ⟨.inl, ?_⟩
    rintro (ht | ⟨rfl, -⟩)
    · exact ht
    · exact hk
  · rw [he]
    exact ⟨.inl, fun ht => ht.resolve_right fun h => hc h.2⟩
  · have hc : s.storage.Creates tenant now := ⟨storage, hs⟩
    rw [he, mem_known_enlist]
    tauto

theorem storage_takeUp (s : Scheduler) (now : Instant) (tenant : TenantId) :
    (s.takeUp now tenant).storage.outages = s.storage.outages ∧
      ∀ t, t ≠ tenant → (t ∈ (s.takeUp now tenant).storage.store.tenants ↔ t ∈ s.storage.store.tenants) := by
  rcases s.takeUp_cases now tenant with ⟨he, -⟩ | ⟨-, storage, hs, he⟩
  · rw [he]
    exact ⟨rfl, fun t _ => Iff.rfl⟩
  · rw [he]
    refine ⟨(Storage.createTenant_cases hs).1, fun t ht => ?_⟩
    exact (Storage.mem_tenants_createTenant hs t).trans (or_iff_right ht)

/-- Tenants that are taken up one after the other. -/
theorem mem_known_foldl_takeUp {ts : List TenantId} (hn : ts.Nodup) (s : Scheduler) (now : Instant) (t : TenantId) :
    t ∈ (ts.foldl (takeUp · now) s).known ↔ t ∈ s.known ∨ t ∈ ts ∧ s.storage.Creates t now := by
  induction ts generalizing s with
  | nil => simp
  | cons u ts ih =>
    obtain ⟨hu, hn⟩ := List.nodup_cons.1 hn
    obtain ⟨ho, hm⟩ := s.storage_takeUp now u
    rw [List.foldl_cons, ih hn, mem_known_takeUp, List.mem_cons]
    by_cases ht : t = u
    · subst ht
      tauto
    · rw [Storage.creates_congr ho (hm t ht)]
      tauto

theorem outages_foldl_takeUp (ts : List TenantId) (s : Scheduler) (now : Instant) :
    (ts.foldl (takeUp · now) s).storage.outages = s.storage.outages := by
  induction ts generalizing s with
  | nil => rfl
  | cons u ts ih => exact (ih _).trans (s.storage_takeUp now u).1

theorem mem_known_giveUp (s : Scheduler) (tenant t : TenantId) :
    t ∈ (s.giveUp tenant).known ↔ t ∈ s.known ∧ ¬ (t = tenant ∧ s.storage.Deletes tenant) := by
  rcases s.giveUp_cases tenant with ⟨hd, he⟩ | ⟨storage, hs, he⟩
  · rw [he, (s.restore_frame tenant).2.1]
    tauto
  · have hd : s.storage.Deletes tenant := ⟨storage, hs⟩
    have herase : t ∈ ((s.withdraw tenant).forget tenant storage).known ↔ tenant ≠ t ∧ t ∈ s.known := by
      show t ∈ (s.withdraw tenant).known.erase tenant ↔ _
      rw [(s.withdraw_frame tenant).2.1, Std.ExtTreeSet.mem_erase, ne_eq, Std.compare_eq_iff_eq]
    rw [he, herase, ne_comm]
    tauto

theorem outages_giveUp (s : Scheduler) (tenant : TenantId) :
    (s.giveUp tenant).storage.outages = s.storage.outages := by
  rcases s.giveUp_cases tenant with ⟨-, he⟩ | ⟨storage, hs, he⟩
  · rw [he, (s.restore_frame tenant).1]
  · rw [he]
    exact (Storage.deleteTenant_eq hs).1

theorem mem_known_foldl_giveUp (ts : List TenantId) (s : Scheduler) (t : TenantId) :
    t ∈ (ts.foldl giveUp s).known ↔ t ∈ s.known ∧ ¬ (t ∈ ts ∧ s.storage.Deletes t) := by
  induction ts generalizing s with
  | nil => simp
  | cons u ts ih =>
    rw [List.foldl_cons, ih, mem_known_giveUp, Storage.deletes_congr (s.outages_giveUp u), List.mem_cons]
    by_cases ht : t = u
    · subst ht
      tauto
    · tauto

theorem mem_admitted (s : Scheduler) (listed : List TenantId) (t : TenantId) :
    t ∈ s.admitted listed ↔ t ∈ listed ∧ s.admission.admits t = true := by
  simp [admitted]

theorem nodup_toList (ts : Std.ExtTreeSet TenantId) : ts.toList.Nodup :=
  Std.ExtTreeSet.distinct_toList.imp fun hne => mt Std.compare_eq_iff_eq.2 hne

/-- The tenants that a pass gives up. -/
def gone (s : Scheduler) (now : Instant) (listed : List TenantId) : List TenantId :=
  ((s.admitted listed).toList.foldl (takeUp · now) s).known.toList.filter fun t => !(s.admitted listed).contains t

theorem nodup_gone (s : Scheduler) (now : Instant) (listed : List TenantId) : (s.gone now listed).Nodup :=
  (nodup_toList _).filter _

theorem mem_gone (s : Scheduler) (now : Instant) (listed : List TenantId) (t : TenantId) :
    t ∈ s.gone now listed ↔ t ∈ s.known ∧ t ∉ s.admitted listed := by
  unfold gone
  rw [List.mem_filter, Std.ExtTreeSet.mem_toList, mem_known_foldl_takeUp (nodup_toList _), Std.ExtTreeSet.mem_toList]
  simp only [Bool.not_eq_true', ← Bool.not_eq_true, Std.ExtTreeSet.contains_iff_mem]
  tauto

theorem reconcile_eq (s : Scheduler) (now : Instant) (listed : List TenantId) : s.reconcile now listed =
    (s.gone now listed).foldl giveUp ((s.admitted listed).toList.foldl (takeUp · now) s) :=
  reconcile_eq_foldl ..

/-- The known tenants after a pass. -/
theorem mem_known_reconcile (s : Scheduler) (now : Instant) (listed : List TenantId) (t : TenantId) :
    t ∈ (s.reconcile now listed).known ↔
      (t ∈ s.known ∨ t ∈ s.admitted listed ∧ s.storage.Creates t now) ∧
        ¬ (t ∈ s.known ∧ t ∉ s.admitted listed ∧ s.storage.Deletes t) := by
  rw [reconcile_eq, mem_known_foldl_giveUp, Storage.deletes_congr (outages_foldl_takeUp ..), mem_gone,
    mem_known_foldl_takeUp (nodup_toList _), Std.ExtTreeSet.mem_toList]
  tauto

/-! ### The calls of the storage -/

/-- Asks the storage, and notes each call with whether it succeeded. -/
def noting : StorageAccess (StateM (List StorageCall)) where
  create storage tenant now := modifyGet fun calls =>
    let r := storage.createTenant tenant now
    (r, calls ++ [.create tenant r.isOk])
  delete storage tenant := modifyGet fun calls =>
    let r := storage.deleteTenant tenant
    (r, calls ++ [.delete tenant r.isOk])

/-- A pass, with all that it asks of the storage. -/
def reconcileNoted (s : Scheduler) (now : Instant) (listed : List TenantId) : Scheduler × List StorageCall :=
  ((s.reconcileWith noting now listed).run []).run

/-- The call for a tenant that is new. -/
def creation (s : Scheduler) (now : Instant) (tenant : TenantId) : StorageCall :=
  .create tenant (s.storage.createTenant tenant now).isOk

/-- The call for a tenant that is gone. -/
def deletion (s : Scheduler) (tenant : TenantId) : StorageCall :=
  .delete tenant (s.storage.deleteTenant tenant).isOk

theorem takeUpWith_noting (s : Scheduler) (calls : List StorageCall) (now : Instant) (tenant : TenantId) :
    ((s.takeUpWith noting now tenant).run calls).run =
      (s.takeUp now tenant, calls ++ if tenant ∈ s.known then [] else [s.creation now tenant]) := by
  rw [takeUp_eq]
  unfold takeUpWith creation
  by_cases hk : tenant ∈ s.known
  · simp [hk]
  · cases hc : s.storage.createTenant tenant now <;> simp [hk, noting, hc]

theorem giveUpWith_noting (s : Scheduler) (calls : List StorageCall) (tenant : TenantId) :
    ((s.giveUpWith noting tenant).run calls).run = (s.giveUp tenant, calls ++ [s.deletion tenant]) := by
  rw [giveUpWith_eq]
  unfold deletion
  rcases s.giveUp_cases tenant with ⟨hd, he⟩ | ⟨storage, hs, he⟩
  · cases hc : s.storage.deleteTenant tenant with
    | error err => simp [noting, hc, he]
    | ok storage => exact absurd ⟨storage, hc⟩ hd
  · simp [noting, hs, he]

theorem creation_congr (h : s'.storage.Creates t now ↔ s.storage.Creates t now) :
    s'.creation now t = s.creation now t := by
  unfold creation
  congr 1
  rw [Bool.eq_iff_iff, Storage.isOk_createTenant, Storage.isOk_createTenant, h]

theorem deletion_congr (h : s'.storage.outages = s.storage.outages) : s'.deletion = s.deletion := by
  funext t
  unfold deletion
  congr 1
  rw [Bool.eq_iff_iff, Storage.isOk_deleteTenant, Storage.isOk_deleteTenant, Storage.deletes_congr h]

/-- One call for each tenant that is not known. -/
theorem foldlM_takeUpWith_noting {ts : List TenantId} (hn : ts.Nodup) (s : Scheduler) (calls : List StorageCall)
    (now : Instant) : ((ts.foldlM (takeUpWith noting · now) s).run calls).run =
      (ts.foldl (takeUp · now) s, calls ++ (ts.filter fun t => t ∉ s.known).map (s.creation now)) := by
  induction ts generalizing s calls with
  | nil => simp
  | cons u ts ih =>
    obtain ⟨hu, hn⟩ := List.nodup_cons.1 hn
    obtain ⟨ho, hm⟩ := s.storage_takeUp now u
    -- Those that are yet to come are not concerned by this one.
    have hsame : (ts.filter fun t => t ∉ (s.takeUp now u).known).map ((s.takeUp now u).creation now) =
        (ts.filter fun t => t ∉ s.known).map (s.creation now) := by
      have hne : ∀ t ∈ ts, t ≠ u := fun t ht he => hu (he ▸ ht)
      have hfilter : (ts.filter fun t => t ∉ (s.takeUp now u).known) = ts.filter fun t => t ∉ s.known :=
        List.filter_congr fun t ht => by simp [mem_known_takeUp, hne t ht]
      rw [hfilter]
      refine List.map_congr_left fun t ht => creation_congr (Storage.creates_congr ho (hm t ?_))
      exact hne t (List.mem_of_mem_filter ht)
    rw [List.foldlM_cons, StateT.run_bind, Id.run_bind, takeUpWith_noting, ih hn, hsame, List.foldl_cons,
      List.filter_cons]
    by_cases hk : u ∈ s.known
    · simp [hk]
    · simp [hk]

theorem foldlM_giveUpWith_noting (ts : List TenantId) (s : Scheduler) (calls : List StorageCall) :
    ((ts.foldlM (giveUpWith noting) s).run calls).run = (ts.foldl giveUp s, calls ++ ts.map s.deletion) := by
  induction ts generalizing s calls with
  | nil => simp
  | cons u ts ih =>
    rw [List.foldlM_cons, StateT.run_bind, Id.run_bind, giveUpWith_noting, ih, deletion_congr (s.outages_giveUp u),
      List.foldl_cons, List.map_cons, List.append_assoc]
    rfl

/-- The pass with notes is the pass. -/
theorem reconcileNoted_eq (s : Scheduler) (now : Instant) (listed : List TenantId) :
    s.reconcileNoted now listed = (s.reconcile now listed,
      ((s.admitted listed).toList.filter fun t => t ∉ s.known).map (s.creation now) ++
        (s.gone now listed).map s.deletion) := by
  have hsame := deletion_congr (outages_foldl_takeUp (s.admitted listed).toList s now)
  rw [reconcile_eq]
  unfold reconcileNoted reconcileWith gone
  rw [StateT.run_bind, Id.run_bind, foldlM_takeUpWith_noting (nodup_toList _), foldlM_giveUpWith_noting, hsame]
  rfl

theorem mem_calls_create (s : Scheduler) (now : Instant) (listed : List TenantId) (t : TenantId) (done : Bool) :
    .create t done ∈ (s.reconcileNoted now listed).2 ↔
      (t ∈ s.admitted listed ∧ t ∉ s.known) ∧ (done = true ↔ s.storage.Creates t now) := by
  have hdone : s.creation now t = .create t done ↔ (done = true ↔ s.storage.Creates t now) := by
    unfold creation
    rw [StorageCall.create.injEq, Bool.eq_iff_iff, Storage.isOk_createTenant]
    tauto
  rw [reconcileNoted_eq, ← hdone]
  simp only [List.mem_append, List.mem_map, List.mem_filter, Std.ExtTreeSet.mem_toList, decide_eq_true_eq]
  constructor
  · rintro (⟨u, hu, he⟩ | ⟨u, -, he⟩)
    · obtain rfl : u = t := (StorageCall.create.inj he).1
      exact ⟨hu, he⟩
    · cases he
  · rintro ⟨ht, he⟩
    exact .inl ⟨t, ht, he⟩

theorem mem_calls_delete (s : Scheduler) (now : Instant) (listed : List TenantId) (t : TenantId) (done : Bool) :
    .delete t done ∈ (s.reconcileNoted now listed).2 ↔
      (t ∈ s.known ∧ t ∉ s.admitted listed) ∧ (done = true ↔ s.storage.Deletes t) := by
  have hdone : s.deletion t = .delete t done ↔ (done = true ↔ s.storage.Deletes t) := by
    unfold deletion
    rw [StorageCall.delete.injEq, Bool.eq_iff_iff, Storage.isOk_deleteTenant]
    tauto
  rw [reconcileNoted_eq, ← hdone]
  simp only [List.mem_append, List.mem_map, mem_gone]
  constructor
  · rintro (⟨u, -, he⟩ | ⟨u, hu, he⟩)
    · cases he
    · obtain rfl : u = t := (StorageCall.delete.inj he).1
      exact ⟨hu, he⟩
  · rintro ⟨ht, he⟩
    exact .inr ⟨t, ht, he⟩

theorem exists_mem_calls_create (s : Scheduler) (now : Instant) (listed : List TenantId) (t : TenantId) :
    (∃ done, .create t done ∈ (s.reconcileNoted now listed).2) ↔ t ∈ s.admitted listed ∧ t ∉ s.known := by
  constructor
  · rintro ⟨done, hc⟩
    exact ((s.mem_calls_create now listed t done).1 hc).1
  · exact fun ht => ⟨_, (s.mem_calls_create now listed t _).2 ⟨ht, Storage.isOk_createTenant⟩⟩

theorem exists_mem_calls_delete (s : Scheduler) (now : Instant) (listed : List TenantId) (t : TenantId) :
    (∃ done, .delete t done ∈ (s.reconcileNoted now listed).2) ↔ t ∈ s.known ∧ t ∉ s.admitted listed := by
  constructor
  · rintro ⟨done, hc⟩
    exact ((s.mem_calls_delete now listed t done).1 hc).1
  · exact fun ht => ⟨_, (s.mem_calls_delete now listed t _).2 ⟨ht, Storage.isOk_deleteTenant⟩⟩

/-- No tenant is the concern of two calls. -/
theorem nodup_calls (s : Scheduler) (now : Instant) (listed : List TenantId) :
    ((s.reconcileNoted now listed).2.map StorageCall.tenant).Nodup := by
  have hcreated : StorageCall.tenant ∘ s.creation now = id := rfl
  have hdeleted : StorageCall.tenant ∘ s.deletion = id := rfl
  rw [reconcileNoted_eq, List.map_append, List.map_map, List.map_map, hcreated, hdeleted, List.map_id, List.map_id]
  refine List.Nodup.append ((nodup_toList _).filter _) (s.nodup_gone now listed) fun t hc hd => ?_
  exact ((s.mem_gone now listed t).1 hd).2 (Std.ExtTreeSet.mem_toList.1 (List.mem_of_mem_filter hc))

end Scheduler

end CompactionLeasing

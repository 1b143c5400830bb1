import CompactionLeasing.Proofs.Scheduler.Keeping
import CompactionLeasing.Proofs.Scheduler.Reconciliation

/-!
# The registries of tenants

Discovery knows the tenants, the roster has their trackers, the storage their records and the registry of tallies
their tallies. `InStep`: all four have the same tenants, and every tracker on the roster is its tenant's own. Passes,
calls and restarts keep them in step, and a pass leaves the trackers of the tenants that it keeps as they are
(`discovery_in_step`).
-/

namespace CompactionLeasing

namespace Metrics

theorem getElem?_numberOf (m : Metrics) (tenant t : TenantId) : (m.numberOf tenant).2.byTenant[t]? =
    if t = tenant then some (m.numberOf tenant).1 else m.byTenant[t]? := by
  unfold numberOf
  cases hn : m.byTenant[tenant]? with
  | some n =>
    show m.byTenant[t]? = if t = tenant then some n else m.byTenant[t]?
    split_ifs with ht
    · rw [ht, hn]
    · rfl
  | none => exact Table.getElem?_insert ..

end Metrics

namespace Scheduler
variable {s s' s'' : Scheduler} {now : Instant} {tenant t : TenantId} {h : Handle} {m : Member} {storage : Storage}

/-! ### Trackers on the roster -/

/-- The tracker is the tenant's own, is not retired, and counts in the tally that the registry has for the tenant. -/
def Serving (s : Scheduler) (tenant : TenantId) (m : Member) : Prop :=
  m.tenant = tenant ∧ m.tracker.retired = false ∧ s.metrics.byTenant[tenant]? = some m.tally

/-- Every tracker on the roster serves its tenant. -/
def Staffed (s : Scheduler) : Prop :=
  ∀ (t : TenantId) h, s.roster.trackers[t]? = some h → ∃ m, s.members[h]? = some m ∧ s.Serving t m

/-- A new tracker for a tenant. -/
theorem Staffed.recruit (hs : s.Staffed) (hm : m.tenant = tenant) (hr : m.tracker.retired = false)
    (hroster : ∀ t : TenantId, s'.roster.trackers[t]? =
      if t = tenant then some s.members.size else s.roster.trackers[t]?)
    (hmembers : ∀ n : Handle, s'.members[n]? = if n = s.members.size then some m else s.members[n]?)
    (htally : ∀ t : TenantId, s'.metrics.byTenant[t]? = if t = tenant then some m.tally else s.metrics.byTenant[t]?) :
    s'.Staffed := by
  intro t h ht
  unfold Serving
  rw [htally, hmembers]
  rw [hroster] at ht
  by_cases he : t = tenant
  · rw [if_pos he, Option.some.injEq] at ht
    subst he ht
    exact ⟨m, if_pos rfl, hm, hr, if_pos rfl⟩
  · rw [if_neg he] at ht
    obtain ⟨m', hm', hserving⟩ := hs t h ht
    have hold : h ≠ s.members.size := by
      rintro rfl
      rw [Array.getElem?_eq_none (Nat.le_refl _)] at hm'
      cases hm'
    rw [if_neg he, if_neg hold]
    exact ⟨m', hm', hserving⟩

/-- All registries agree on what tenants there are. -/
structure InStep (s : Scheduler) : Prop where
  legible : s.storage.store.Legible
  recorded : ∀ t : TenantId, t ∈ s.storage.store.tenants ↔ t ∈ s.known
  registered : ∀ t : TenantId, t ∈ s.roster.trackers ↔ t ∈ s.known
  tallied : ∀ t : TenantId, t ∈ s.metrics.byTenant ↔ t ∈ s.known
  staffed : s.Staffed

/-- The tenants that are known before and after have the same trackers, in the same state. -/
def Stays (s s' : Scheduler) : Prop := ∀ t ∈ s.known, t ∈ s'.known → ∀ h m,
  s.roster.trackers[t]? = some h → s.members[h]? = some m →
    s'.roster.trackers[t]? = some h ∧ s'.members[h]? = some m

theorem Stays.refl (s : Scheduler) : Stays s s := fun _ _ _ _ _ hh hm => ⟨hh, hm⟩

theorem Stays.trans (h : Stays s s') (h' : Stays s' s'') (hk : ∀ t ∈ s.known, t ∈ s''.known → t ∈ s'.known) :
    Stays s s'' := by
  intro t ht ht'' n m hn hm
  have ht' := hk t ht ht''
  obtain ⟨hn', hm'⟩ := h t ht ht' n m hn hm
  exact h' t ht' ht'' n m hn' hm'

/-! ### Taking up -/

theorem mem_byTenant_numberOf (metrics : Metrics) (tenant t : TenantId) :
    t ∈ (metrics.numberOf tenant).2.byTenant ↔ t = tenant ∨ t ∈ metrics.byTenant := by
  rw [Std.ExtTreeMap.mem_iff_isSome_getElem?, metrics.getElem?_numberOf, Std.ExtTreeMap.mem_iff_isSome_getElem?]
  split_ifs with he <;> simp [he]

theorem stays_enlist (hk : tenant ∉ s.known) : Stays s ({ s with storage := storage }.enlist tenant) := by
  intro t ht _ n m hn hm
  have hne : t ≠ tenant := fun he => hk (he ▸ ht)
  have hlt : n ≠ s.members.size := by
    rintro rfl
    rw [Array.getElem?_eq_none (Nat.le_refl _)] at hm
    cases hm
  refine ⟨?_, ?_⟩
  · exact (Table.getElem?_insert ..).trans ((if_neg hne).trans hn)
  · exact Array.getElem?_push.trans ((if_neg hlt).trans hm)

/-! ### Giving up -/

/-- The members once a tracker is off the roster. -/
theorem members_withdraw (hh : s.roster.trackers[tenant]? = some h) (n : Handle) :
    (s.withdraw tenant).members[n]? =
      if h = n then s.members[n]?.map fun m => { m with tracker := m.tracker.retire } else s.members[n]? := by
  unfold withdraw
  rw [hh]
  exact getElem?_modifyMember ..

theorem roster_withdraw (s : Scheduler) (tenant t : TenantId) :
    (s.withdraw tenant).roster.trackers[t]? = if t = tenant then none else s.roster.trackers[t]? := by
  unfold withdraw
  split <;> exact Table.getElem?_erase ..

theorem roster_restore (s : Scheduler) (tenant t : TenantId) :
    (s.restore tenant).roster.trackers[t]? = s.roster.trackers[t]? := by
  unfold restore
  split
  · rename_i h hh
    have hinsert : (((s.withdraw tenant).reinstate h).register tenant h).roster.trackers[t]? =
        if t = tenant then some h else (s.withdraw tenant).roster.trackers[t]? := Table.getElem?_insert ..
    rw [hinsert, roster_withdraw]
    split_ifs with he
    · rw [he, hh]
    · rfl
  · rename_i hh
    rw [roster_withdraw]
    split_ifs with he
    · rw [he, hh]
    · rfl

/-- A tracker that was not retired is as it was once it is back. -/
theorem members_restore (hh : s.roster.trackers[tenant]? = some h) (hm : s.members[h]? = some m)
    (hr : m.tracker.retired = false) (n : Handle) : (s.restore tenant).members[n]? = s.members[n]? := by
  have hmodify : (((s.withdraw tenant).reinstate h).register tenant h).members[n]? =
      if h = n then (s.withdraw tenant).members[n]?.map fun m => { m with tracker := m.tracker.reinstate }
      else (s.withdraw tenant).members[n]? := getElem?_modifyMember ..
  unfold restore
  rw [hh]
  show (((s.withdraw tenant).reinstate h).register tenant h).members[n]? = _
  rw [hmodify, members_withdraw hh]
  split_ifs with he
  · subst he
    obtain ⟨tenant', maxLeases, tracker, tally, signal, outlet⟩ := m
    obtain ⟨queues, slots, complete, planLeased, planTime, retired⟩ := tracker
    subst hr
    rw [hm]; rfl
  · rfl

namespace InStep

theorem exists_member (hs : s.InStep) (ht : t ∈ s.known) :
    ∃ h m, s.roster.trackers[t]? = some h ∧ s.members[h]? = some m ∧ s.Serving t m := by
  obtain ⟨h, hh⟩ := Option.isSome_iff_exists.1 (Std.ExtTreeMap.mem_iff_isSome_getElem?.1 ((hs.registered t).2 ht))
  obtain ⟨m, hm, hserving⟩ := hs.staffed t h hh
  exact ⟨h, m, hh, hm, hserving⟩

/-- A change that concerns none of the registries. -/
theorem congr (hs : s.InStep) (hknown : s'.known = s.known)
    (htenants : s'.storage.store.tenants = s.storage.store.tenants)
    (hmetrics : s'.metrics.byTenant = s.metrics.byTenant)
    (hroster : ∀ t : TenantId, s'.roster.trackers[t]? = s.roster.trackers[t]?)
    (hmembers : ∀ (n : Handle) (m : Member), s.members[n]? = some m → ∃ m' : Member, s'.members[n]? = some m' ∧
      m'.tenant = m.tenant ∧ m'.tracker.retired = m.tracker.retired ∧ m'.tally = m.tally) : s'.InStep := by
  refine ⟨fun key text hk => ?_, fun t => ?_, fun t => ?_, fun t => ?_, fun t h ht => ?_⟩
  · rw [htenants] at hk
    exact hs.legible key text hk
  · rw [htenants, hknown]
    exact hs.recorded t
  · rw [Std.ExtTreeMap.mem_iff_isSome_getElem?, hroster, ← Std.ExtTreeMap.mem_iff_isSome_getElem?, hknown]
    exact hs.registered t
  · rw [hmetrics, hknown]
    exact hs.tallied t
  · rw [hroster] at ht
    obtain ⟨m, hm, htenant, hretired, htally⟩ := hs.staffed t h ht
    obtain ⟨m', hm', htenant', hretired', htally'⟩ := hmembers h m hm
    refine ⟨m', hm', htenant'.trans htenant, hretired'.trans hretired, ?_⟩
    rw [hmetrics, htally, htally']

/-! ### Passes -/

/-- A tenant that is new gets a record, a tracker and a tally. -/
theorem enlist (hs : s.InStep) (hc : s.storage.createTenant tenant now = .ok storage) :
    ({ s with storage := storage }.enlist tenant).InStep := by
  have hroster : ∀ t : TenantId, ({ s with storage := storage }.enlist tenant).roster.trackers[t]? =
      if t = tenant then some s.members.size else s.roster.trackers[t]? := fun t => Table.getElem?_insert ..
  refine ⟨?_, fun t => ?_, fun t => ?_, fun t => ?_, ?_⟩
  · show storage.store.Legible
    obtain ⟨-, ⟨-, htenants⟩ | ⟨text, htext, htenants⟩⟩ := Storage.createTenant_cases hc
    · intro key text ht
      rw [htenants] at ht
      exact hs.legible key text ht
    · exact hs.legible.insert htext htenants
  · rw [mem_known_enlist]
    exact (Storage.mem_tenants_createTenant hc t).trans (or_congr_right (hs.recorded t))
  · rw [mem_known_enlist, ← hs.registered, Std.ExtTreeMap.mem_iff_isSome_getElem?, hroster,
      Std.ExtTreeMap.mem_iff_isSome_getElem?]
    split_ifs with he <;> simp [he]
  · rw [mem_known_enlist]
    exact (mem_byTenant_numberOf ..).trans (or_congr_right (hs.tallied t))
  · refine hs.staffed.recruit (m := ⟨tenant, s.maxLeases, .empty, (s.metrics.numberOf tenant).1, s.roster.signal,
      .storage⟩) rfl rfl hroster (fun n => ?_) fun t => ?_
    · exact Array.getElem?_push
    · exact s.metrics.getElem?_numberOf tenant t

theorem takeUp (hs : s.InStep) (now : Instant) (tenant : TenantId) :
    (s.takeUp now tenant).InStep ∧ Stays s (s.takeUp now tenant) := by
  rcases s.takeUp_cases now tenant with ⟨he, -⟩ | ⟨hk, storage, hc, he⟩
  · rw [he]
    exact ⟨hs, Stays.refl s⟩
  · rw [he]
    exact ⟨hs.enlist hc, stays_enlist hk⟩

theorem foldl_takeUp (hs : s.InStep) (now : Instant) (ts : List TenantId) :
    (ts.foldl (Scheduler.takeUp · now) s).InStep ∧ Stays s (ts.foldl (Scheduler.takeUp · now) s) := by
  induction ts generalizing s with
  | nil => exact ⟨hs, Stays.refl s⟩
  | cons u ts ih =>
    obtain ⟨hs', hstays⟩ := hs.takeUp now u
    obtain ⟨hs'', hstays'⟩ := ih hs'
    exact ⟨hs'', hstays.trans hstays' fun t ht _ => (s.mem_known_takeUp now u t).2 (.inl ht)⟩

/-- A tracker that is put back is where it was, as it was. -/
theorem restore (hs : s.InStep) (ht : tenant ∈ s.known) :
    (s.restore tenant).InStep ∧ Stays s (s.restore tenant) := by
  obtain ⟨h, m, hh, hm, -, hretired, -⟩ := hs.exists_member ht
  obtain ⟨hstorage, hknown, hmetrics⟩ := s.restore_frame tenant
  have hroster := s.roster_restore tenant
  have hmembers := members_restore hh hm hretired
  refine ⟨hs.congr hknown (by rw [hstorage]) (by rw [hmetrics]) hroster fun n m' hm' => ?_,
    fun t _ _ n m' hn hm' => ?_⟩
  · exact ⟨m', (hmembers n).trans hm', rfl, rfl, rfl⟩
  · exact ⟨(hroster t).trans hn, (hmembers n).trans hm'⟩

/-- The trackers of other tenants stay when a tenant is off the roster. -/
theorem withdraw_other (hs : s.InStep) (ht : tenant ∈ s.known) (hne : t ≠ tenant)
    (hn : s.roster.trackers[t]? = some h) (hm : s.members[h]? = some m) :
    (s.withdraw tenant).roster.trackers[t]? = some h ∧ (s.withdraw tenant).members[h]? = some m := by
  obtain ⟨h', m', hh', hm', htenant', -⟩ := hs.exists_member ht
  obtain ⟨m'', hm'', htenant, -⟩ := hs.staffed t h hn
  rw [roster_withdraw, if_neg hne, members_withdraw hh', if_neg]
  · exact ⟨hn, hm⟩
  · rintro rfl
    rw [hm', Option.some.injEq] at hm''
    rw [← htenant, ← hm'', htenant'] at hne
    exact hne rfl

/-- A tenant that is given up loses its record, its tracker and its tally. -/
theorem forget (hs : s.InStep) (ht : tenant ∈ s.known) (hd : s.storage.deleteTenant tenant = .ok storage) :
    ((s.withdraw tenant).forget tenant storage).InStep ∧ Stays s ((s.withdraw tenant).forget tenant storage) := by
  obtain ⟨-, hknown, hmetrics⟩ := s.withdraw_frame tenant
  have htenants := (Storage.deleteTenant_eq hd).2
  have hmem : ∀ t, t ∈ ((s.withdraw tenant).forget tenant storage).known ↔ tenant ≠ t ∧ t ∈ s.known := by
    intro t
    show t ∈ (s.withdraw tenant).known.erase tenant ↔ _
    rw [hknown, Std.ExtTreeSet.mem_erase, ne_eq, Std.compare_eq_iff_eq]
  refine ⟨⟨hs.legible.erase htenants, fun t => ?_, fun t => ?_, fun t => ?_, fun t h hn => ?_⟩,
    fun t _ hk h m hn hm => ?_⟩
  · show t ∈ storage.store.tenants ↔ _
    rw [hmem, htenants, Std.ExtTreeMap.mem_erase, ne_eq, Std.compare_eq_iff_eq, hs.recorded]
  · show t ∈ (s.withdraw tenant).roster.trackers ↔ _
    rw [hmem, Std.ExtTreeMap.mem_iff_isSome_getElem?, roster_withdraw, ← hs.registered,
      Std.ExtTreeMap.mem_iff_isSome_getElem?]
    split_ifs with he
    · simp [he]
    · simp [Ne.symm he]
  · show t ∈ (s.withdraw tenant).metrics.byTenant.erase tenant ↔ _
    rw [hmem, hmetrics, Std.ExtTreeMap.mem_erase, ne_eq, Std.compare_eq_iff_eq, hs.tallied]
  · have hn' : (s.withdraw tenant).roster.trackers[t]? = some h := hn
    rw [roster_withdraw] at hn'
    split_ifs at hn' with he
    obtain ⟨m, hm, htenant, hretired, htally⟩ := hs.staffed t h hn'
    refine ⟨m, (hs.withdraw_other ht he hn' hm).2, htenant, hretired, ?_⟩
    show ((s.withdraw tenant).metrics.byTenant.erase tenant)[t]? = _
    rw [hmetrics, Table.getElem?_erase, if_neg he, htally]
  · exact hs.withdraw_other ht (Ne.symm ((hmem t).1 hk).1) hn hm

theorem giveUp (hs : s.InStep) (ht : tenant ∈ s.known) :
    (s.giveUp tenant).InStep ∧ Stays s (s.giveUp tenant) := by
  rcases s.giveUp_cases tenant with ⟨-, he⟩ | ⟨storage, hd, he⟩
  · rw [he]
    exact hs.restore ht
  · rw [he]
    exact hs.forget ht hd

theorem foldl_giveUp {ts : List TenantId} (hs : s.InStep) (hn : ts.Nodup) (hk : ∀ t ∈ ts, t ∈ s.known) :
    (ts.foldl Scheduler.giveUp s).InStep ∧ Stays s (ts.foldl Scheduler.giveUp s) := by
  induction ts generalizing s with
  | nil => exact ⟨hs, Stays.refl s⟩
  | cons u ts ih =>
    obtain ⟨hu, hn⟩ := List.nodup_cons.1 hn
    obtain ⟨hku, hk⟩ := List.forall_mem_cons.1 hk
    obtain ⟨hs', hstays⟩ := hs.giveUp hku
    obtain ⟨hs'', hstays'⟩ := ih hs' hn fun t ht => by
      rw [mem_known_giveUp]
      refine ⟨hk t ht, ?_⟩
      rintro ⟨rfl, -⟩
      exact hu ht
    exact ⟨hs'', hstays.trans hstays' fun t _ ht => ((mem_known_foldl_giveUp ts _ t).1 ht).1⟩

/-- A pass keeps the registries in step, and the trackers of the tenants that it keeps. -/
theorem reconcile (hs : s.InStep) (now : Instant) (listed : List TenantId) :
    (s.reconcile now listed).InStep ∧ Stays s (s.reconcile now listed) := by
  obtain ⟨hs', hstays⟩ := hs.foldl_takeUp now (s.admitted listed).toList
  obtain ⟨hs'', hstays'⟩ := hs'.foldl_giveUp (s.nodup_gone now listed) fun t ht => by
    rw [mem_known_foldl_takeUp (nodup_toList _)]
    exact .inl ((s.mem_gone now listed t).1 ht).1
  rw [reconcile_eq]
  exact ⟨hs'', hstays.trans hstays' fun t _ ht => ((mem_known_foldl_giveUp ..).1 ht).1⟩

/-! ### Calls -/

theorem call (hs : s.InStep) (h : Handle) (now : Instant) (r : Request) : (s.call h now r).2.InStep := by
  have htenants : (s.call h now r).2.storage.store.tenants = s.storage.store.tenants := by
    rcases s.storage_call h now r with he | ⟨_, _, _, hw⟩
    · rw [he]
    · exact (Store.writeBatch_ok hw).1
  have hmetrics : (s.call h now r).2.metrics.byTenant = s.metrics.byTenant := by
    cases hm : s.members[h]? with
    | none => simp only [Scheduler.call, hm]
    | some m =>
      simp only [Scheduler.call, hm]
      split <;> rfl
  refine hs.congr (known_call ..) htenants hmetrics (fun t => by rw [roster_call]) fun n m hm => ?_
  rw [members_call, hm]
  split_ifs
  · exact ⟨_, rfl, rfl, m.tracker.retired_serve .., rfl⟩
  · exact ⟨m, rfl, rfl, rfl, rfl⟩

end InStep

/-! ### Restarts -/

/-- The tracker of a recovered tenant, and its tally. -/
theorem recoverTenant_registries (s : Scheduler) (r : TenantId × RecoveredJobs) :
    (∀ n : Handle, (s.recoverTenant .storage r).members[n]? = if n = s.members.size then
        some ⟨r.1, s.maxLeases, Tracker.empty.recover r.2, (s.metrics.numberOf r.1).1, s.roster.signal, .storage⟩
      else s.members[n]?) ∧
    (s.recoverTenant .storage r).metrics.byTenant = (s.metrics.numberOf r.1).2.byTenant := by
  have hnew : (s.enroll r.1 .storage s.roster.signal).2.members[s.members.size]? =
      some ⟨r.1, s.maxLeases, .empty, (s.metrics.numberOf r.1).1, s.roster.signal, .storage⟩ :=
    Array.getElem?_push.trans (if_pos rfl)
  have hrecover : s.recoverTenant .storage r =
      ((s.enroll r.1 .storage s.roster.signal).2.rebuild s.members.size r.2).register r.1 s.members.size := rfl
  rw [hrecover]
  unfold rebuild register
  rw [hnew]
  refine ⟨fun n => ?_, rfl⟩
  show ((s.members.push _).modify s.members.size _)[n]? = _
  rw [Array.getElem?_modify, Array.getElem?_push]
  by_cases hn : n = s.members.size
  · rw [if_pos hn.symm, if_pos hn, if_pos hn]; rfl
  · rw [if_neg (Ne.symm hn), if_neg hn, if_neg hn]

/-- The registries once the trackers of recovered tenants have been made. -/
theorem Staffed.recoverAll (hs : s.Staffed) (rs : List (TenantId × RecoveredJobs)) :
    (rs.foldl (recoverTenant .storage) s).Staffed ∧
      ∀ t : TenantId, t ∈ (rs.foldl (recoverTenant .storage) s).metrics.byTenant ↔
        t ∈ rs.map Prod.fst ∨ t ∈ s.metrics.byTenant := by
  induction rs generalizing s with
  | nil => simpa using hs
  | cons r rs ih =>
    obtain ⟨-, hroster, -, -⟩ := recoverTenant_eq s r
    obtain ⟨hmembers, hmetrics⟩ := s.recoverTenant_registries r
    have hs' : (s.recoverTenant .storage r).Staffed := by
      refine hs.recruit rfl (Tracker.retired_recover ..) hroster hmembers fun t => ?_
      rw [hmetrics]
      exact s.metrics.getElem?_numberOf r.1 t
    obtain ⟨hstaffed, hmem⟩ := ih hs'
    refine ⟨hstaffed, fun t => ?_⟩
    rw [List.foldl_cons, hmem, hmetrics, mem_byTenant_numberOf, List.map_cons, List.mem_cons]
    tauto

/-- Trackers are made for a scheduler that has none. There may be tallies of recorded tenants already. -/
theorem InStep.recover {tenants : Std.ExtTreeSet TenantId} (hroster : s.roster.trackers = ∅) (hknown : s.known = ∅)
    (htallies : ∀ t : TenantId, t ∈ s.metrics.byTenant → t ∈ s.storage.store.tenants)
    (hn : s.storage.store.Named) (h : s.recoverTrackers = .ok (tenants, s')) : (s'.keep tenants).InStep := by
  unfold recoverTrackers at h
  cases hrs : s.storage.recoverAll with
  | error err => rw [hrs] at h; cases h
  | ok rs =>
    rw [hrs] at h
    cases h
    have hread := Storage.recoverAll_ok hrs
    have hmem : ∀ t : TenantId, t ∈ rs.map Prod.fst ↔ t ∈ s.storage.store.tenants := by
      intro t
      rw [(Store.recoverAll_ok hn hread).1, Std.ExtTreeMap.mem_keys]
    have hempty : s.Staffed := by
      intro t h ht
      simp [hroster] at ht
    obtain ⟨hstorage, hsame, hon⟩ := Survey.recoverAll_eq s rs
    obtain ⟨hstaffed, htallied⟩ := hempty.recoverAll rs
    have hkeep : ∀ t : TenantId, t ∈ ((rs.foldl (recoverTenant .storage) s).keep (.ofList (rs.map Prod.fst))).known ↔
        t ∈ s.storage.store.tenants := by
      intro t
      rw [Survey.mem_keep, hsame, hknown, ← hmem]
      simp
    refine ⟨?_, fun t => ?_, fun t => ?_, fun t => ?_, hstaffed⟩
    · show (rs.foldl (recoverTenant .storage) s).storage.store.Legible
      rw [hstorage]
      exact Store.legible_of_recoverAll hn hread
    · rw [hkeep]
      show t ∈ (rs.foldl (recoverTenant .storage) s).storage.store.tenants ↔ _
      rw [hstorage]
    · rw [hkeep, ← hmem, Std.ExtTreeMap.mem_iff_isSome_getElem?, Option.isSome_iff_exists]
      refine (hon t).trans ?_
      simp [hroster]
    · rw [hkeep]
      refine (htallied t).trans ?_
      rw [hmem]
      exact or_iff_left_of_imp (htallies t)

/-- A system that was once recovered, with any passes, calls, outages and restarts since then. -/
inductive Running : Scheduler → Prop
  | start {storage : Storage} {admission : Admission} {maxLeases : UInt64} {tenants : Std.ExtTreeSet TenantId}
      {s : Scheduler} (hn : storage.store.Named)
      (h : (Scheduler.start storage admission maxLeases).recoverTrackers = .ok (tenants, s)) :
      Running (s.keep tenants)
  | discover {s : Scheduler} (hs : Running s) (now : Instant) (listing : Except String (List TenantId)) :
      Running (s.discover now listing).2
  | call {s : Scheduler} (hs : Running s) (h : Handle) (now : Instant) (r : Request) : Running (s.call h now r).2
  | fail {s : Scheduler} (hs : Running s) (outages : Outages) :
      Running { s with storage := { s.storage with outages := outages } }
  /-- With the tallies of before or with none, and perhaps another allow-list and limit. -/
  | restart {s s' : Scheduler} {tenants : Std.ExtTreeSet TenantId} (hs : Running s) (metrics : Metrics)
      (admission : Admission) (maxLeases : UInt64) (hm : metrics = s.metrics ∨ metrics = s.metrics.clear)
      (h : { s.reset with metrics, admission, maxLeases }.recoverTrackers = .ok (tenants, s')) :
      Running (s'.keep tenants)

namespace Running

/-- The restart that keeps all but the tallies is one. -/
theorem of_restart {names : List TenantId} (hs : Running s) (h : s.restart false = (.ok names, s')) :
    Running s' := by
  unfold Scheduler.restart at h
  cases hr : s.reset.recoverTrackers with
  | error err => simp [hr] at h
  | ok r =>
    obtain ⟨tenants, s''⟩ := r
    simp only [hr, Prod.mk.injEq] at h
    obtain ⟨-, rfl⟩ := h
    exact hs.restart s.metrics.clear s.admission s.maxLeases (.inr rfl) hr

theorem inStep (hs : Running s) : s.InStep := by
  induction hs with
  | start hn h => exact InStep.recover rfl rfl (fun t ht => absurd ht Std.ExtTreeMap.not_mem_empty) hn h
  | discover _ now listing ih =>
    cases listing with
    | error cause => exact ih
    | ok listed => exact (ih.reconcile now listed).1
  | call _ h now r ih => exact ih.call h now r
  | fail _ outages ih => exact ih.congr rfl rfl rfl (fun _ => rfl) fun n m hm => ⟨m, hm, rfl, rfl, rfl⟩
  | @restart s s' tenants _ metrics _ _ hm h ih =>
    refine InStep.recover ?_ ?_ (fun t ht => ?_) ?_ h
    · rfl
    · rfl
    · rcases hm with rfl | rfl
      · exact (ih.recorded t).2 ((ih.tallied t).1 ht)
      · exact absurd ht Std.ExtTreeMap.not_mem_empty
    · exact ih.legible.named

end Running

/-! ### What is listed -/

theorem toList_eq_of_mem_iff {ts : Std.ExtTreeSet TenantId} {us : List TenantId} (hs : us.Pairwise (· < ·))
    (h : ∀ t, t ∈ us ↔ t ∈ ts) : us = ts.toList := by
  have : Std.Irrefl fun a b : TenantId => a < b := ⟨fun a => lt_irrefl a⟩
  refine List.Pairwise.eq_of_mem_iff hs (Std.ExtTreeSet.ordered_toList.imp fun h => compare_lt_iff_lt.1 h) fun t => ?_
  rw [h, Std.ExtTreeSet.mem_toList]

theorem keys_eq_toList {β : Type} {m : Std.ExtTreeMap TenantId β} {ts : Std.ExtTreeSet TenantId}
    (h : ∀ t, t ∈ m ↔ t ∈ ts) : m.keys = ts.toList := by
  refine toList_eq_of_mem_iff (Std.ExtTreeMap.ordered_keys.imp fun h => compare_lt_iff_lt.1 h) fun t => ?_
  rw [Std.ExtTreeMap.mem_keys, h]

/-- The roster, the storage and the registry of tallies list the known tenants. -/
structure Agrees (s : Scheduler) : Prop where
  roster : s.registered.map Prod.fst = s.known.toList
  records : ∃ records, s.storage.store.tenantRecords = .ok records ∧
    records.map TenantRecord.tenant = s.known.toList
  tallies : s.metrics.snapshot.map TenantTally.tenant = s.known.toList

theorem InStep.agrees (hs : s.InStep) : s.Agrees := by
  refine ⟨?_, ?_, ?_⟩
  · unfold Scheduler.registered
    rw [Std.ExtTreeMap.map_fst_toList_eq_keys, keys_eq_toList hs.registered]
  · obtain ⟨records, hrecords, hkeys⟩ := hs.legible.tenantRecords
    exact ⟨records, hrecords, hkeys.trans (keys_eq_toList hs.recorded)⟩
  · unfold Metrics.snapshot
    rw [List.map_map]
    show s.metrics.byTenant.toList.map Prod.fst = _
    rw [Std.ExtTreeMap.map_fst_toList_eq_keys, keys_eq_toList hs.tallied]

/-- What a pass does to the known tenants and asks of the storage. The registries agree before and after it, and
a tenant that is kept has the same tracker in the same state. A pass that cannot list the bucket does nothing. -/
theorem discovery_in_step (s : Scheduler) (now : Instant) (listed : List TenantId) :
    (s.reconcileNoted now listed).1 = (s.discover now (.ok listed)).2 ∧
    (∀ t, (∃ done, .create t done ∈ (s.reconcileNoted now listed).2) ↔
      (t ∈ listed ∧ s.admission.admits t = true) ∧ t ∉ s.known) ∧
    (∀ t, (∃ done, .delete t done ∈ (s.reconcileNoted now listed).2) ↔
      t ∈ s.known ∧ ¬ (t ∈ listed ∧ s.admission.admits t = true)) ∧
    ((s.reconcileNoted now listed).2.map StorageCall.tenant).Nodup ∧
    (∀ t, t ∈ (s.discover now (.ok listed)).2.known ↔
      (t ∈ s.known ∨ .create t true ∈ (s.reconcileNoted now listed).2) ∧
        .delete t true ∉ (s.reconcileNoted now listed).2) ∧
    (∀ cause, (s.discover now (.error cause)).2 = s) ∧
    (Running s → s.Agrees ∧ (s.discover now (.ok listed)).2.Agrees ∧
      ∀ t ∈ s.known, t ∈ (s.discover now (.ok listed)).2.known → ∃ h m, m.tenant = t ∧
        s.roster.trackers[t]? = some h ∧ s.members[h]? = some m ∧
        (s.discover now (.ok listed)).2.roster.trackers[t]? = some h ∧
        (s.discover now (.ok listed)).2.members[h]? = some m) := by
  refine ⟨by rw [reconcileNoted_eq]; rfl, fun t => ?_, fun t => ?_, s.nodup_calls now listed, fun t => ?_,
    fun _ => rfl, fun hs => ?_⟩
  · rw [exists_mem_calls_create, mem_admitted]
  · rw [exists_mem_calls_delete, mem_admitted]
  · show t ∈ (s.reconcile now listed).known ↔ _
    rw [mem_known_reconcile, mem_calls_create, mem_calls_delete]
    simp only [true_iff]
    tauto
  · obtain ⟨hs', hstays⟩ := hs.inStep.reconcile now listed
    refine ⟨hs.inStep.agrees, hs'.agrees, fun t ht ht' => ?_⟩
    obtain ⟨h, m, hh, hm, hserving⟩ := hs.inStep.exists_member ht
    obtain ⟨hh', hm'⟩ := hstays t ht ht' h m hh hm
    exact ⟨h, m, hserving.1, hh, hm, hh', hm'⟩

/-- One tenant has a pending job and cannot be deleted at present, one is gone, one is new and listed twice, one
cannot have storage. -/
theorem discovery_in_step_rollback :
    let s := ((start ⟨.empty, .none⟩ .all 0).discover .epoch (.ok ["beta", "acme"])).2
    let s := (s.call 0 .epoch (.maintain ⟨.ofSeconds 60, .ofSeconds 60, .ofSeconds 60⟩ true)).2
    let s := { s with storage := { s.storage with outages := ⟨[], ["acme"], [], false⟩ } }
    let listed := ["cedar", "a/b", "cedar"]
    Running s ∧ s.known.toList = ["acme", "beta"] ∧
      (s.reconcileNoted .epoch listed).2 =
        [.create "a/b" false, .create "cedar" true, .delete "acme" false, .delete "beta" true] ∧
      (s.discover .epoch (.ok listed)).2.known.toList = ["acme", "cedar"] ∧
      (s.discover .epoch (.ok listed)).2.registered = [("acme", 0), ("cedar", 2)] ∧
      ((s.discover .epoch (.ok listed)).2.members[0]?.map fun m => m.tracker.view.pending) = some [planId] ∧
      (s.discover .epoch (.ok listed)).2.Agrees := by
  intro s₁ s₂ s listed
  have hrecover : (start ⟨.empty, .none⟩ .all 0).recoverTrackers = .ok (∅, start ⟨.empty, .none⟩ .all 0) := rfl
  have hempty : Running (start ⟨.empty, .none⟩ .all 0) := Running.start Store.holds_empty.named hrecover
  have hfilled : Running s₂ := (hempty.discover _ _).call _ _ _
  have hs : Running s := hfilled.fail _
  have hpass := discovery_in_step s .epoch listed
  exact ⟨hs, by decide +kernel, by decide +kernel, by decide +kernel, by decide +kernel, by decide +kernel,
    (hpass.2.2.2.2.2.2 hs).2.1⟩

end Scheduler

end CompactionLeasing

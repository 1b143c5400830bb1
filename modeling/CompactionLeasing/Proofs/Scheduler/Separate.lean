import CompactionLeasing.Proofs.Scheduler.Fairness

/-!
# Trackers that do not meet

What a tracker makes of a request depends only on itself, on the outages and on the rows of its tenant
(`Member.answer_congr`), and changes nothing but its own rows, its own tally and its signal. So calls of trackers of
different tenants commute: `Scheduler.call_comm`.
-/

namespace CompactionLeasing

/-! ### Rows one by one -/

namespace Store
variable {s s' : Store} {tenant : TenantId} {key : String}

theorem putJobs_congr (tenant : TenantId) (jobs : List Job) {rows rows' : Std.ExtTreeMap String String}
    (h : rows[key]? = rows'[key]?) :
    (jobs.foldlM (putJob tenant) rows).map (·[key]?) = (jobs.foldlM (putJob tenant) rows').map (·[key]?) := by
  induction jobs generalizing rows rows' with
  | nil => exact congrArg Except.ok h
  | cons job jobs ih =>
    rw [List.foldlM_cons, List.foldlM_cons, putJob, putJob]
    cases job.toText? with
    | none => rfl
    | some text => exact ih (by rw [Table.getElem?_insert, Table.getElem?_insert, h])

/-- Whether a batch is written does not depend on the rows, and a row that it leads to only on the one that stood in
its place. -/
theorem writeBatch_congr (h : s.jobs[key]? = s'.jobs[key]?) (tenant : TenantId) (b : Batch) :
    (s.writeBatch tenant b).map (·.jobs[key]?) = (s'.writeBatch tenant b).map (·.jobs[key]?) := by
  have hkept : (b.deletes.foldl (fun m job => m.erase (jobKey tenant job.id)) s.jobs)[key]? =
      (b.deletes.foldl (fun m job => m.erase (jobKey tenant job.id)) s'.jobs)[key]? := by
    rw [Table.getElem?_foldl_erase, Table.getElem?_foldl_erase, h]
  have hputs := putJobs_congr tenant b.writes hkept
  rw [writeBatch, writeBatch, withTenant, withTenant]
  split_ifs
  · dsimp only
    generalize b.writes.foldlM (putJob tenant)
      (b.deletes.foldl (fun m job => m.erase (jobKey tenant job.id)) s.jobs) = rows at hputs ⊢
    generalize b.writes.foldlM (putJob tenant)
      (b.deletes.foldl (fun m job => m.erase (jobKey tenant job.id)) s'.jobs) = rows' at hputs ⊢
    cases rows <;> cases rows' <;> exact hputs
  · rfl

end Store

/-! ### Answers -/

namespace Storage
variable {x y : Storage}

/-- The storages do not differ for a tracker of the tenant. -/
structure Alike (tenant : TenantId) (x y : Storage) : Prop where
  outages : x.outages = y.outages
  rows : ∀ id, x.store.jobs[jobKey tenant id]? = y.store.jobs[jobKey tenant id]?

/-- The storages differ in rows of the tenant at most. -/
structure Differs (tenant : TenantId) (x y : Storage) : Prop where
  outages : x.outages = y.outages
  tenants : x.store.tenants = y.store.tenants
  rows : ∀ key, (∀ id, key ≠ jobKey tenant id) → x.store.jobs[key]? = y.store.jobs[key]?

theorem ext_rows (ho : x.outages = y.outages) (ht : x.store.tenants = y.store.tenants)
    (hr : ∀ key : String, x.store.jobs[key]? = y.store.jobs[key]?) : x = y := by
  obtain ⟨⟨tenants, jobs⟩, outages⟩ := x
  obtain ⟨⟨tenants', jobs'⟩, outages'⟩ := y
  cases ho
  cases ht
  cases Std.ExtTreeMap.ext_getElem? hr
  rfl

end Storage

namespace Member
variable {m m' : Member} {x y : Storage} {now : Instant} {r : Request} {b : Batch}

/-- The trackers are of different tenants, and share no tally. -/
structure Apart (m m' : Member) : Prop where
  valid : m.tenant.isValid = true
  valid' : m'.tenant.isValid = true
  tenant : m.tenant ≠ m'.tenant
  tally : m.tally ≠ m'.tally

theorem Apart.symm (h : m.Apart m') : m'.Apart m := ⟨h.valid', h.valid, h.tenant.symm, h.tally.symm⟩

theorem Apart.jobKey_ne (h : m.Apart m') (id id' : JobId) : jobKey m.tenant id ≠ jobKey m'.tenant id' := fun heq =>
  h.tenant (Store.jobKey_inj h.valid h.valid' heq).1

/-- What becomes of a request to the tracker. -/
abbrev answer (m : Member) (x : Storage) (now : Instant) (r : Request) : Settlement StoreError Storage Reply :=
  m.tracker.serve now r x (Scheduler.writeFor m x)

theorem writeFor_differs {x' : Storage} (h : Scheduler.writeFor m x b = .ok x') : Storage.Differs m.tenant x' x := by
  have houtages := Scheduler.outages_writeFor h
  unfold Scheduler.writeFor at h
  split at h
  · obtain ⟨htenants, hchange⟩ := Store.writeBatch_ok (Storage.writeBatch_ok h)
    exact ⟨houtages, htenants, hchange.others⟩
  · cases h
    exact ⟨rfl, rfl, fun _ _ => rfl⟩

/-- The tracker changes no rows but those of its tenant. -/
theorem answer_differs (m : Member) (x : Storage) (now : Instant) (r : Request) :
    Storage.Differs m.tenant (m.answer x now r).store x := by
  rcases m.tracker.store_serve now r x (Scheduler.writeFor m x) with hs | ⟨-, b, hw⟩
  · rw [answer, hs]
    exact ⟨rfl, rfl, fun _ _ => rfl⟩
  · exact writeFor_differs hw

theorem writeFor_congr (h : Storage.Alike m.tenant x y) (b : Batch) (id : JobId) :
    (Scheduler.writeFor m x b).map (·.store.jobs[jobKey m.tenant id]?) =
      (Scheduler.writeFor m y b).map (·.store.jobs[jobKey m.tenant id]?) := by
  have hstore := Store.writeBatch_congr (h.rows id) m.tenant b
  unfold Scheduler.writeFor
  cases m.outlet with
  | nowhere => exact congrArg Except.ok (h.rows id)
  | storage =>
    simp only [Storage.writeBatch, h.outages]
    split_ifs
    · rfl
    · cases hx : x.store.writeBatch m.tenant b <;> cases hy : y.store.writeBatch m.tenant b <;>
        rw [hx, hy] at hstore <;> exact hstore

/-- Of the storage only the outages and the rows of its tenant matter to the tracker. -/
theorem answer_congr (h : Storage.Alike m.tenant x y) (now : Instant) (r : Request) :
    (m.answer x now r).verdict = (m.answer y now r).verdict ∧ (m.answer x now r).tracker = (m.answer y now r).tracker ∧
      (m.answer x now r).events = (m.answer y now r).events ∧
      (m.answer x now r).refilled = (m.answer y now r).refilled ∧
      Storage.Alike m.tenant (m.answer x now r).store (m.answer y now r).store := by
  simp only [answer, Tracker.serve]
  cases m.tracker.propose now r with
  | settled a => exact ⟨rfl, rfl, rfl, rfl, h⟩
  | overflow => exact ⟨rfl, rfl, rfl, rfl, h⟩
  | persist b e =>
    have hw := writeFor_congr h b
    simp only [Proposal.settle]
    cases hx : Scheduler.writeFor m x b <;> cases hy : Scheduler.writeFor m y b <;>
      simp only [hx, hy, Except.map, Except.error.injEq, Except.ok.injEq, reduceCtorEq, forall_const] at hw
    · exact ⟨congrArg Verdict.failed hw, rfl, rfl, rfl, h⟩
    · refine ⟨rfl, rfl, rfl, rfl, ?_, hw⟩
      rw [(writeFor_differs hx).outages, (writeFor_differs hy).outages, h.outages]

/-- What a tracker does is not seen by one that it is apart from. -/
theorem Apart.alike (h : m.Apart m') (x : Storage) (now : Instant) (r : Request) :
    Storage.Alike m'.tenant (m.answer x now r).store x :=
  ⟨(m.answer_differs x now r).outages, fun id =>
    (m.answer_differs x now r).rows _ fun id' => h.symm.jobKey_ne id id'⟩

theorem Apart.store_comm (h : m.Apart m') (x : Storage) (now now' : Instant) (r r' : Request) :
    (m'.answer (m.answer x now r).store now' r').store = (m.answer (m'.answer x now' r').store now r).store := by
  have hfirst := m.answer_differs x now r
  have hfirst' := m'.answer_differs x now' r'
  have hthen' := m'.answer_differs (m.answer x now r).store now' r'
  have hthen := m.answer_differs (m'.answer x now' r').store now r
  have hown := (answer_congr (h.symm.alike x now' r') now r).2.2.2.2
  have hown' := (answer_congr (h.alike x now r) now' r').2.2.2.2
  refine Storage.ext_rows ?_ ?_ fun key => ?_
  · rw [hthen'.outages, hfirst.outages, hthen.outages, hfirst'.outages]
  · rw [hthen'.tenants, hfirst.tenants, hthen.tenants, hfirst'.tenants]
  -- A row is of one tenant, of the other one, or of none of them.
  · by_cases hk : ∃ id, key = jobKey m.tenant id
    · obtain ⟨id, rfl⟩ := hk
      rw [hthen'.rows _ fun id' => h.jobKey_ne id id', hown.rows]
    · rw [not_exists] at hk
      by_cases hk' : ∃ id, key = jobKey m'.tenant id
      · obtain ⟨id, rfl⟩ := hk'
        rw [hown'.rows, hthen.rows _ hk]
      · rw [not_exists] at hk'
        rw [hthen'.rows _ hk', hfirst.rows _ hk, hthen.rows _ hk, hfirst'.rows _ hk']

end Member

/-! ### Calls -/

namespace Scheduler
variable {s : Scheduler} {m m' : Member} {h h' n : Handle} {now now' : Instant} {r r' : Request}

theorem call_eq (hm : s.members[h]? = some m) (now : Instant) (r : Request) : s.call h now r =
    (some (m.answer s.storage now r).verdict,
      { s with
        members := s.members.modify h fun m' => { m' with tracker := (m.answer s.storage now r).tracker }
        metrics := s.metrics.record m.tally (m.answer s.storage now r).events
        storage := (m.answer s.storage now r).store
        signals :=
          if (m.answer s.storage now r).refilled then s.signals.modify m.signal (· + 1) else s.signals }) := by
  simp only [call, hm]
  split_ifs <;> rfl

theorem modify_comm {α : Type} (xs : Array α) {i j : Nat} {f g : α → α} (hne : i ≠ j ∨ ∀ a, f (g a) = g (f a)) :
    (xs.modify i f).modify j g = (xs.modify j g).modify i f := by
  refine Array.ext_getElem? fun n => ?_
  rw [Array.getElem?_modify, Array.getElem?_modify, Array.getElem?_modify, Array.getElem?_modify]
  split_ifs with hj hi
  · obtain hne | hfg := hne
    · exact absurd (hi.trans hj.symm) hne
    · rw [Option.map_map, Option.map_map]
      exact congrArg (Option.map · _) (funext fun a => (hfg a).symm)
  · rfl
  · rfl
  · rfl

/-- A call of another tracker is answered as before, and leaves the tracker as it is. -/
theorem call_apart (hm : s.members[h]? = some m) (hm' : s.members[h']? = some m') (ha : m.Apart m')
    (now : Instant) (r : Request) : (s.call h now r).2.members[h']? = some m' := by
  have hne : h ≠ h' := by
    rintro rfl
    rw [hm] at hm'
    cases hm'
    exact ha.tenant rfl
  rw [members_call, if_neg hne, hm']

theorem verdict_call_apart (hm : s.members[h]? = some m) (hm' : s.members[h']? = some m') (ha : m.Apart m')
    (now now' : Instant) (r r' : Request) :
    ((s.call h now r).2.call h' now' r').1 = (s.call h' now' r').1 := by
  rw [call_eq (call_apart hm hm' ha now r), call_eq hm', call_eq hm]
  exact congrArg some (Member.answer_congr (ha.alike s.storage now r) now' r').1

/-- Calls of trackers that are apart can be made in either order. -/
theorem call_comm (hm : s.members[h]? = some m) (hm' : s.members[h']? = some m') (ha : m.Apart m')
    (now now' : Instant) (r r' : Request) :
    ((s.call h now r).2.call h' now' r').2 = ((s.call h' now' r').2.call h now r).2 := by
  obtain ⟨-, htracker', hevents', hrefilled', -⟩ := Member.answer_congr (ha.alike s.storage now r) now' r'
  obtain ⟨-, htracker, hevents, hrefilled, -⟩ := Member.answer_congr (ha.symm.alike s.storage now' r') now r
  have hne : h ≠ h' := by
    rintro rfl
    rw [hm] at hm'
    cases hm'
    exact ha.tenant rfl
  rw [call_eq (call_apart hm hm' ha now r), call_eq (call_apart hm' hm ha.symm now' r'), call_eq hm, call_eq hm']
  simp only [Scheduler.mk.injEq, Metrics.record, htracker, htracker', hevents, hevents', hrefilled, hrefilled',
    ha.store_comm, and_true]
  refine ⟨modify_comm _ (.inl hne), ?_, congrArg (Metrics.mk · _) (modify_comm _ (.inl ha.tally))⟩
  split_ifs
  · exact modify_comm _ (.inr fun _ => rfl)
  · rfl
  · rfl
  · rfl

end Scheduler

end CompactionLeasing

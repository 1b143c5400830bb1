import CompactionLeasing.Proofs.Scheduler.Standing
import CompactionLeasing.Proofs.Scheduler.Survey

/-!
# Trackers that are kept

What holds at every moment of every pass of discovery, whoever calls which tracker meanwhile: `Inv`. A tracker
that is not retired is on the roster or in the hands of discovery, its tenant is known and has a record. So
jobs are written for tenants with a record only.
-/

namespace CompactionLeasing

namespace Scheduler

variable {s s' : Scheduler} {tenant : TenantId}

namespace Survey

def store (x : Survey) : Store := x.scheduler.storage.store

/-- The tracker is on the roster for the tenant, or discovery has it in its hands. -/
def Keeps (x : Survey) (tenant : TenantId) (h : Handle) : Prop :=
  x.scheduler.roster.trackers[tenant]? = some h ∨ x.progress.hand? = some (tenant, h)

theorem Keeps.on_roster {x : Survey} {h : Handle} (hk : x.Keeps tenant h) (hp : x.progress.hand? = none) :
    x.scheduler.roster.trackers[tenant]? = some h := by
  rcases hk with hk | hk
  · exact hk
  · rw [hp] at hk; cases hk

/-- The tenants that the pass gives up. -/
def leaving (x : Survey) : List TenantId := x.progress.leaving ++ x.errands.leaving

/-- What holds while discovery is busy with a tenant. In particular a tenant that is given up has a tracker,
which is retired before the storage is deleted. -/
def Fits (s : Scheduler) : Progress → Prop
  | .free | .unregistered _ _ | .reinstated _ _ => True
  | .prepared tenant => tenant.isValid = true ∧ tenant ∈ s.storage.store.tenants ∧ tenant ∉ s.known
  | .deleting _ none => False
  | .deleting tenant (some h) | .undeleted tenant h => s.standing? h = some (tenant, true)

structure Inv (x : Survey) : Prop where
  recorded : x.store.Recorded
  known : ∀ tenant : TenantId, tenant ∈ x.scheduler.known →
    tenant.isValid = true ∧ tenant ∈ x.store.tenants ∧ ∃ h, x.Keeps tenant h
  keeps : ∀ (tenant : TenantId) h, x.Keeps tenant h →
    tenant ∈ x.scheduler.known ∧ ∃ b, x.scheduler.standing? h = some (tenant, b)
  /-- Whoever is not retired is kept. -/
  live : ∀ (tenant : TenantId) h, x.scheduler.standing? h = some (tenant, false) → x.Keeps tenant h
  nodup : x.leaving.Nodup
  leaving : ∀ tenant ∈ x.leaving, tenant ∈ x.scheduler.known
  off : ∀ tenant ∈ x.progress.leaving, x.scheduler.roster.trackers[tenant]? = none
  fits : Fits x.scheduler x.progress

namespace Inv
variable {x : Survey} {h h' : Handle} {now : Instant} {errands : Errands} {todo : List TenantId}
  {seen : Std.ExtTreeSet TenantId} {storage : Storage}

/-- A tenant has one tracker at a time. -/
theorem keeps_unique (hx : x.Inv) (hk : x.Keeps tenant h) (hk' : x.Keeps tenant h') : h = h' := by
  rcases hk with hk | hk <;> rcases hk' with hk' | hk'
  · rw [hk, Option.some.injEq] at hk'; exact hk'
  · rw [hx.off tenant (Progress.mem_leaving hk')] at hk; cases hk
  · rw [hx.off tenant (Progress.mem_leaving hk)] at hk'; cases hk'
  · rw [hk] at hk'; cases hk'; rfl

/-! ### Steps of others -/

/-- Nobody but discovery changes the roster, the known tenants, their records, or who is retired. -/
theorem frame (hx : x.Inv) (hknown : s'.known = x.scheduler.known)
    (hroster : s'.roster = x.scheduler.roster) (hstanding : ∀ n, s'.standing? n = x.scheduler.standing? n)
    (htenants : s'.storage.store.tenants = x.store.tenants) (hrec : s'.storage.store.Recorded) :
    Inv { x with scheduler := s' } := by
  have hkeeps : ∀ t n, Keeps { x with scheduler := s' } t n ↔ x.Keeps t n := by
    intro t n
    rw [Keeps, Keeps, hroster]
  refine ⟨hrec, fun t ht => ?_, fun t n hk => ?_, fun t n hs => ?_, hx.nodup, fun t ht => ?_, fun t ht => ?_, ?_⟩
  · rw [hknown] at ht
    obtain ⟨hv, hm, n, hk⟩ := hx.known t ht
    exact ⟨hv, htenants ▸ hm, n, (hkeeps t n).2 hk⟩
  · obtain ⟨hm, hs⟩ := hx.keeps t n ((hkeeps t n).1 hk)
    rw [hknown, hstanding]
    exact ⟨hm, hs⟩
  · rw [hstanding] at hs
    exact (hkeeps t n).2 (hx.live t n hs)
  · rw [hknown]
    exact hx.leaving t ht
  · rw [hroster]
    exact hx.off t ht
  · have hf := hx.fits
    change Fits s' x.progress
    generalize x.progress = p at hf
    cases p with
    | free | unregistered | reinstated => trivial
    | prepared t => exact ⟨hf.1, htenants ▸ hf.2.1, hknown ▸ hf.2.2⟩
    | undeleted t n => exact (hstanding n).trans hf
    | deleting t o =>
      cases o with
      | none => exact hf
      | some n => exact (hstanding n).trans hf

theorem call (hx : x.Inv) (h : Handle) (now : Instant) (r : Request) :
    Inv { x with scheduler := (x.scheduler.call h now r).2 } := by
  have hstore : (x.scheduler.call h now r).2.storage.store.tenants = x.store.tenants ∧
      (x.scheduler.call h now r).2.storage.store.Recorded := by
    rcases storage_call x.scheduler h now r with hs | ⟨t, b, hs, hw⟩
    · rw [hs]
      exact ⟨rfl, hx.recorded⟩
    · -- A tracker that writes is not retired, so it is kept, and its tenant has a record.
      have hk := (hx.keeps t h (hx.live t h hs)).1
      exact ⟨(Store.writeBatch_ok hw).1, hx.recorded.writeBatch (hx.known t hk).2.1 hw⟩
  exact hx.frame (known_call ..) (roster_call ..) (fun n => standing?_call ..) hstore.1 hstore.2

/-! ### Steps of discovery -/

theorem turn (hx : x.Inv) (hl : errands.leaving.Sublist x.errands.leaving ∨
    x.progress = .free ∧ errands.leaving.Sublist x.scheduler.known.toList) :
    Inv { x with errands := errands } := by
  rcases hl with hl | ⟨hp, hl⟩
  · have hsub : (x.progress.leaving ++ errands.leaving).Sublist x.leaving := hl.append_left _
    exact { hx with nodup := hx.nodup.sublist hsub, leaving := fun t ht => hx.leaving t (hsub.subset ht) }
  · have hsub : (x.progress.leaving ++ errands.leaving).Sublist x.scheduler.known.toList := by
      rw [hp]; exact hl
    have hnodup : x.scheduler.known.toList.Nodup :=
      Std.ExtTreeSet.distinct_toList.imp fun hne => mt Std.compare_eq_iff_eq.2 hne
    exact { hx with
      nodup := hnodup.sublist hsub
      leaving := fun t ht => Std.ExtTreeSet.mem_toList.1 (hsub.subset ht) }

theorem prepare (hx : Inv ⟨s, .free, .taking seen (tenant :: todo)⟩) (hk : tenant ∉ s.known)
    {storage : Storage} (hc : s.storage.createTenant tenant now = .ok storage) :
    Inv ⟨{ s with storage := storage }, .prepared tenant, .taking seen todo⟩ := by
  have hput := Storage.createTenant_ok hc
  obtain ⟨hv, hm, hmore, -⟩ := Store.putTenant_ok hput
  refine { hx with recorded := hx.recorded.putTenant hput, known := fun t ht => ?_, fits := ⟨hv, hm, hk⟩ }
  obtain ⟨hv, hm, hkept⟩ := hx.known t ht
  exact ⟨hv, hmore t hm, hkept⟩

theorem enlist (hx : Inv ⟨s, .prepared tenant, errands⟩) : Inv ⟨s.enlist tenant, .free, errands⟩ := by
  obtain ⟨hv, hm, hnew⟩ := hx.fits
  have hroster : ∀ t : TenantId, (s.enlist tenant).roster.trackers[t]? =
      if t = tenant then some s.members.size else s.roster.trackers[t]? := fun t => Table.getElem?_insert ..
  have hstanding : ∀ n, (s.enlist tenant).standing? n =
      if n = s.members.size then some (tenant, false) else s.standing? n := fun n => standing?_enroll ..
  have hknown : ∀ t, t ∈ (s.enlist tenant).known ↔ tenant = t ∨ t ∈ s.known := by
    intro t
    simp [Scheduler.enlist, Scheduler.register, enroll]
  have hsize : s.standing? s.members.size = none := by simp [standing?]
  have hkept : ∀ t n, Keeps ⟨s, .prepared tenant, errands⟩ t n → Keeps ⟨s.enlist tenant, .free, errands⟩ t n := by
    intro t n hk
    have hne : t ≠ tenant := fun he => hnew (he ▸ (hx.keeps t n hk).1)
    refine .inl ?_
    rw [hroster, if_neg hne]
    exact hk.on_roster rfl
  have hself : Keeps ⟨s.enlist tenant, .free, errands⟩ tenant s.members.size := by
    refine .inl ?_
    rw [hroster, if_pos rfl]
  refine ⟨hx.recorded, fun t ht => ?_, fun t n hk => ?_, fun t n hs => ?_, hx.nodup, fun t ht => ?_,
    fun t ht => absurd ht List.not_mem_nil, trivial⟩
  · rcases (hknown t).1 ht with rfl | ht
    · exact ⟨hv, hm, _, hself⟩
    · obtain ⟨hv, hm, n, hk⟩ := hx.known t ht
      exact ⟨hv, hm, n, hkept t n hk⟩
  · have hon := hk.on_roster rfl
    rw [hroster] at hon
    rw [hknown, hstanding]
    split_ifs at hon with ht
    · cases hon
      exact ⟨.inl ht.symm, false, by rw [if_pos rfl, ht]⟩
    · obtain ⟨hm, b, hs⟩ := hx.keeps t n (.inl hon)
      refine ⟨.inr hm, b, ?_⟩
      rw [if_neg, hs]
      rintro rfl
      rw [hsize] at hs; cases hs
  · rw [hstanding] at hs
    split_ifs at hs with hn
    · cases hs
      exact hn ▸ hself
    · exact hkept t n (hx.live t n hs)
  · exact (hknown t).2 (.inr (hx.leaving t ht))

theorem on_roster (hx : Inv ⟨s, .free, .giving (tenant :: todo)⟩) : ∃ h, s.roster.trackers[tenant]? = some h := by
  obtain ⟨-, -, h, hk⟩ := hx.known tenant (hx.leaving tenant (List.mem_cons_self ..))
  exact ⟨h, hk.on_roster rfl⟩

/-- The tracker of the next tenant goes from the roster into the hands of discovery. -/
theorem unregister (hx : Inv ⟨s, .free, .giving (tenant :: todo)⟩) (hh : s.roster.trackers[tenant]? = some h) :
    Inv ⟨(s.unregister tenant).2, .unregistered tenant h, .giving todo⟩ := by
  have hroster : ∀ t : TenantId, (s.unregister tenant).2.roster.trackers[t]? =
      if t = tenant then none else s.roster.trackers[t]? := fun t => Table.getElem?_erase ..
  have hkeeps : ∀ t n, Keeps ⟨(s.unregister tenant).2, .unregistered tenant h, .giving todo⟩ t n ↔
      Keeps ⟨s, .free, .giving (tenant :: todo)⟩ t n := by
    intro t n
    rw [Keeps, hroster]
    by_cases ht : t = tenant
    · subst ht
      simp [Keeps, Progress.hand?, hh]
    · simp [Keeps, Progress.hand?, ht, Ne.symm ht]
  refine ⟨hx.recorded, fun t ht => ?_, fun t n hk => ?_, fun t n hs => ?_, hx.nodup, hx.leaving, fun t ht => ?_,
    trivial⟩
  · obtain ⟨hv, hm, n, hk⟩ := hx.known t ht
    exact ⟨hv, hm, n, (hkeeps t n).2 hk⟩
  · exact hx.keeps t n ((hkeeps t n).1 hk)
  · exact (hkeeps t n).2 (hx.live t n hs)
  · obtain rfl : t = tenant := List.mem_singleton.1 ht
    rw [hroster, if_pos rfl]

theorem retire (hx : Inv ⟨s, .unregistered tenant h, errands⟩) :
    Inv ⟨s.retire h, .deleting tenant (some h), errands⟩ := by
  obtain ⟨-, b, hb⟩ := hx.keeps tenant h (.inr rfl)
  refine ⟨hx.recorded, hx.known, fun t n hk => ?_, fun t n hs => ?_, hx.nodup, hx.leaving, hx.off, ?_⟩
  · obtain ⟨hm, b, hs⟩ := hx.keeps t n hk
    refine ⟨hm, ?_⟩
    rw [standing?_retire, hs]
    split_ifs
    · exact ⟨true, rfl⟩
    · exact ⟨b, rfl⟩
  · rw [standing?_retire] at hs
    split_ifs at hs
    · obtain ⟨e, -, he⟩ := Option.map_eq_some_iff.1 hs
      cases he
    · exact hx.live t n hs
  · change (s.retire h).standing? h = some (tenant, true)
    rw [standing?_retire, if_pos rfl, hb]; rfl

theorem delete (hx : Inv ⟨s, .deleting tenant (some h), errands⟩)
    (hd : s.storage.deleteTenant tenant = .ok storage) : Inv ⟨s.forget tenant storage, .free, errands⟩ := by
  obtain ⟨count, hr⟩ := Storage.deleteTenant_ok hd
  obtain ⟨hv, htenants, -⟩ := Store.removeTenant_ok hr
  have hretired : s.standing? h = some (tenant, true) := hx.fits
  have hoff : s.roster.trackers[tenant]? = none := hx.off tenant (List.mem_singleton_self _)
  have hnodup : (tenant :: (⟨s, .free, errands⟩ : Survey).leaving).Nodup := hx.nodup
  have hknown : ∀ t : TenantId, t ∈ s.known.erase tenant ↔ tenant ≠ t ∧ t ∈ s.known := by
    intro t
    simp
  refine ⟨hx.recorded.removeTenant hr, fun t ht => ?_, fun t n hk => ?_, fun t n hs => ?_,
    (List.nodup_cons.1 hnodup).2, fun t ht => ?_, fun t ht => absurd ht List.not_mem_nil, trivial⟩
  · obtain ⟨hne, ht⟩ := (hknown t).1 ht
    obtain ⟨hv, hm, n, hk⟩ := hx.known t ht
    refine ⟨hv, ?_, n, ?_⟩
    · change t ∈ storage.store.tenants
      rw [htenants, Std.ExtTreeMap.mem_erase]
      exact ⟨mt Std.compare_eq_iff_eq.1 hne, hm⟩
    · rcases hk with hk | hk
      · exact .inl hk
      · cases hk
        exact absurd rfl hne
  · have hon : s.roster.trackers[t]? = some n := hk.on_roster rfl
    obtain ⟨hm, hs⟩ := hx.keeps t n (.inl hon)
    refine ⟨(hknown t).2 ⟨?_, hm⟩, hs⟩
    rintro rfl
    rw [hoff] at hon; cases hon
  · -- The tracker in the hands of discovery is retired by now, so it need not be kept any more.
    replace hs : s.standing? n = some (t, false) := hs
    rcases hx.live t n hs with hk | hk
    · exact .inl hk
    · cases hk
      rw [hretired] at hs; cases hs
  · refine (hknown t).2 ⟨?_, hx.leaving t (List.mem_cons_of_mem _ ht)⟩
    rintro rfl
    exact (List.nodup_cons.1 hnodup).1 ht

theorem reinstate (hx : Inv ⟨s, .undeleted tenant h, errands⟩) :
    Inv ⟨s.reinstate h, .reinstated tenant h, errands⟩ := by
  have hretired : s.standing? h = some (tenant, true) := hx.fits
  refine ⟨hx.recorded, hx.known, fun t n hk => ?_, fun t n hs => ?_, hx.nodup, hx.leaving, hx.off, trivial⟩
  · obtain ⟨hm, b, hs⟩ := hx.keeps t n hk
    refine ⟨hm, ?_⟩
    rw [standing?_reinstate, hs]
    split_ifs
    · exact ⟨false, rfl⟩
    · exact ⟨b, rfl⟩
  · rw [standing?_reinstate] at hs
    split_ifs at hs with hn
    · rw [← hn, hretired] at hs
      cases hs
      exact .inr (hn ▸ rfl)
    · exact hx.live t n hs

theorem register (hx : Inv ⟨s, .reinstated tenant h, errands⟩) :
    Inv ⟨s.register tenant h, .free, errands⟩ := by
  have hoff : s.roster.trackers[tenant]? = none := hx.off tenant (List.mem_singleton_self _)
  have hnodup : (tenant :: (⟨s, .free, errands⟩ : Survey).leaving).Nodup := hx.nodup
  have hkeeps : ∀ t n, Keeps ⟨s.register tenant h, .free, errands⟩ t n ↔
      Keeps ⟨s, .reinstated tenant h, errands⟩ t n := by
    intro t n
    have hroster : (s.register tenant h).roster.trackers[t]? =
        if t = tenant then some h else s.roster.trackers[t]? := Table.getElem?_insert ..
    rw [Keeps, hroster]
    by_cases ht : t = tenant
    · subst ht
      simp [Keeps, Progress.hand?, hoff]
    · simp [Keeps, Progress.hand?, ht, Ne.symm ht]
  refine ⟨hx.recorded, fun t ht => ?_, fun t n hk => ?_, fun t n hs => ?_, (List.nodup_cons.1 hnodup).2,
    fun t ht => hx.leaving t (List.mem_cons_of_mem _ ht), fun t ht => absurd ht List.not_mem_nil, trivial⟩
  · obtain ⟨hv, hm, n, hk⟩ := hx.known t ht
    exact ⟨hv, hm, n, (hkeeps t n).2 hk⟩
  · exact hx.keeps t n ((hkeeps t n).1 hk)
  · exact (hkeeps t n).2 (hx.live t n hs)

theorem step (hx : x.Inv) (st : Step) : (x.step st).Inv := by
  have ht := x.turn_step st
  generalize x.step st = y at ht ⊢
  cases ht with
  | turn _ _ errands hl => exact hx.turn hl
  | call _ h now r => exact hx.call h now r
  | fail _ outages => exact hx.frame rfl rfl (fun _ => rfl) rfl hx.recorded
  | prepare hk hc => exact hx.prepare hk hc
  | enlist => exact hx.enlist
  | unregister _ _ hh => exact hx.unregister hh
  | miss _ _ hh =>
    -- Who is given up is known, and no tenant that is known is missing on the roster between two tenants.
    obtain ⟨h, hon⟩ := hx.on_roster
    rw [hh] at hon; cases hon
  | retire => exact hx.retire
  | delete o _ _ hd =>
    cases o with
    | none => exact hx.fits.elim
    | some h => exact hx.delete hd
  | retain => exact { hx with }
  | pass => exact hx.fits.elim
  | reinstate => exact hx.reinstate
  | register => exact hx.register

theorem run (hx : x.Inv) (steps : List Step) : (x.run steps).Inv :=
  List.foldlRecOn _ _ hx fun _ ih st _ => ih.step st

end Inv

/-! ### The beginning -/

/-- Discovery begins with the tenants that were recovered. -/
def start (s : Scheduler) (tenants : Std.ExtTreeSet TenantId) : Survey := ⟨s.keep tenants, .free, .giving []⟩

/-- The trackers are the registered ones, each under its tenant. -/
structure Enlisted (s : Scheduler) : Prop where
  standing : ∀ (tenant : TenantId) h, s.roster.trackers[tenant]? = some h → ∃ b, s.standing? h = some (tenant, b)
  live : ∀ (tenant : TenantId) h, s.standing? h = some (tenant, false) → s.roster.trackers[tenant]? = some h

namespace Enlisted

theorem recoverTenant (hs : Enlisted s) {r : TenantId × RecoveredJobs}
    (hnew : s.roster.trackers[r.1]? = none) : Enlisted (s.recoverTenant .storage r) := by
  obtain ⟨hstanding, hroster, -⟩ := recoverTenant_eq s r
  refine ⟨fun t n hn => ?_, fun t n hn => ?_⟩
  · rw [hroster] at hn
    split_ifs at hn with ht
    · cases hn
      exact ⟨false, by rw [hstanding, if_pos rfl, ht]⟩
    · obtain ⟨b, hb⟩ := hs.standing t n hn
      refine ⟨b, ?_⟩
      rw [hstanding, if_neg, hb]
      rintro rfl
      simp [standing?] at hb
  · rw [hstanding] at hn
    split_ifs at hn with hsize
    · cases hn
      rw [hroster, if_pos rfl, hsize]
    · have hr := hs.live t n hn
      rw [hroster, if_neg, hr]
      rintro rfl
      rw [hnew] at hr; cases hr

theorem recoverAll {rs : List (TenantId × RecoveredJobs)} (hs : Enlisted s) (hn : (rs.map Prod.fst).Nodup)
    (hnew : ∀ t ∈ rs.map Prod.fst, s.roster.trackers[t]? = none) :
    Enlisted (rs.foldl (Scheduler.recoverTenant .storage) s) := by
  induction rs generalizing s with
  | nil => exact hs
  | cons r rs ih =>
    rw [List.map_cons, List.nodup_cons] at hn
    rw [List.map_cons, List.forall_mem_cons] at hnew
    refine ih (hs.recoverTenant hnew.1) hn.2 fun t ht => ?_
    rw [(recoverTenant_eq s r).2.1, if_neg, hnew.2 t ht]
    rintro rfl
    exact hn.1 ht

end Enlisted

/-- Who is registered, and what stays as it is, once the trackers of recovered tenants have been made. -/
theorem recoverAll_eq (s : Scheduler) (rs : List (TenantId × RecoveredJobs)) :
    (rs.foldl (recoverTenant .storage) s).storage = s.storage ∧
      (rs.foldl (recoverTenant .storage) s).known = s.known ∧
      ∀ t : TenantId, (∃ h, (rs.foldl (recoverTenant .storage) s).roster.trackers[t]? = some h) ↔
        t ∈ rs.map Prod.fst ∨ ∃ h, s.roster.trackers[t]? = some h := by
  induction rs generalizing s with
  | nil => simp
  | cons r rs ih =>
    obtain ⟨-, hroster, hstorage, hknown⟩ := recoverTenant_eq s r
    obtain ⟨ihstorage, ihknown, ihon⟩ := ih (s.recoverTenant .storage r)
    refine ⟨ihstorage.trans hstorage, ihknown.trans hknown, fun t => ?_⟩
    rw [List.foldl_cons, ihon, List.map_cons, List.mem_cons, hroster]
    by_cases ht : t = r.1
    · simp [ht]
    · simp [ht]

theorem mem_keep (s : Scheduler) (tenants : Std.ExtTreeSet TenantId) (t : TenantId) :
    t ∈ (s.keep tenants).known ↔ t ∈ tenants ∨ t ∈ s.known := by
  have hfold : ∀ (ts : List TenantId) (known : Std.ExtTreeSet TenantId),
      t ∈ ts.foldl (·.insert ·) known ↔ t ∈ ts ∨ t ∈ known := by
    intro ts
    induction ts with
    | nil => simp
    | cons u ts ih =>
      intro known
      rw [List.foldl_cons, ih, Std.ExtTreeSet.mem_insert, Std.compare_eq_iff_eq, List.mem_cons]
      tauto
  rw [keep, hfold, Std.ExtTreeSet.mem_toList]

/-- A system that has recovered is in order, if its store was. -/
theorem Inv.start {storage : Storage} {admission : Admission} {maxLeases : UInt64}
    {tenants : Std.ExtTreeSet TenantId} (hn : storage.store.Named) (hr : storage.store.Recorded)
    (h : (Scheduler.start storage admission maxLeases).recoverTrackers = .ok (tenants, s)) :
    (Survey.start s tenants).Inv := by
  have hstorage : (Scheduler.start storage admission maxLeases).storage = storage := rfl
  rw [recoverTrackers, hstorage] at h
  cases hrs : storage.recoverAll with
  | error err => rw [hrs] at h; cases h
  | ok rs =>
    rw [hrs] at h
    cases h
    obtain ⟨hkeys, hvalid⟩ := Store.recoverAll_ok hn (Storage.recoverAll_ok hrs)
    have hempty : ∀ t : TenantId, (Scheduler.start storage admission maxLeases).roster.trackers[t]? = none := by
      simp [Scheduler.start]
    have hnone : ∀ n, (Scheduler.start storage admission maxLeases).standing? n = none := by
      simp [Scheduler.start, standing?]
    have hstart : Enlisted (Scheduler.start storage admission maxLeases) :=
      ⟨by simp [hempty], by simp [hnone]⟩
    have hall := hstart.recoverAll (hkeys ▸ Std.ExtTreeMap.nodup_keys) fun t _ => hempty t
    obtain ⟨hsame, hknown, hon⟩ := recoverAll_eq (Scheduler.start storage admission maxLeases) rs
    generalize rs.foldl (Scheduler.recoverTenant .storage) (Scheduler.start storage admission maxLeases) = s'
      at hall hsame hknown hon
    -- The recovered tenants are the recorded ones, the known ones and the registered ones.
    have hmem : ∀ t : TenantId, t ∈ rs.map Prod.fst ↔ t ∈ storage.store.tenants := by
      intro t
      rw [hkeys, Std.ExtTreeMap.mem_keys]
    have hkeep : ∀ t : TenantId, t ∈ (s'.keep (.ofList (rs.map Prod.fst))).known ↔ t ∈ storage.store.tenants := by
      intro t
      rw [mem_keep, hknown, ← hmem]
      simp [Scheduler.start]
    have hregistered : ∀ t : TenantId, (∃ n, s'.roster.trackers[t]? = some n) ↔ t ∈ storage.store.tenants := by
      intro t
      rw [hon, ← hmem, hempty]
      simp
    have hstore : (Survey.start s' (.ofList (rs.map Prod.fst))).store = storage.store :=
      congrArg Storage.store hsame
    refine ⟨hstore ▸ hr, fun t ht => ?_, fun t n hk => ?_, fun t n hs => .inl (hall.live t n hs), List.nodup_nil,
      fun t ht => absurd ht List.not_mem_nil, fun t ht => absurd ht List.not_mem_nil, trivial⟩
    · have hm := (hkeep t).1 ht
      obtain ⟨n, hn⟩ := (hregistered t).2 hm
      exact ⟨hvalid t hm, hstore ▸ hm, n, .inl hn⟩
    · have hon : s'.roster.trackers[t]? = some n := hk.on_roster rfl
      exact ⟨(hkeep t).2 ((hregistered t).1 ⟨n, hon⟩), hall.standing t n hon⟩

end Survey

end Scheduler

end CompactionLeasing

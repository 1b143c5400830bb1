import CompactionLeasing.Proofs.Scheduler.Keeping

/-!
# Removal of tenants

Those who hold the handle of a tracker may call it at any time, also while its tenant is given up and long
after. `deletion_fenced`: as the tracker is retired before the storage is deleted, no such call brings jobs of
a deleted tenant back.
-/

namespace CompactionLeasing

/-- The tracker refuses whatever it is asked, does not try to make anything durable, and stays as it is. -/
def Tracker.Refuses (t : Tracker) : Prop :=
  ∀ {ε σ : Type} (now : Instant) (r : Request) (store : σ) (write : Batch → Except ε σ),
    t.serve now r store write = ⟨.done r.refusal, t, store, [], false⟩

theorem Tracker.retire_of_retired {t : Tracker} (hr : t.retired = true) : t.retire = t := by
  rw [retire, ← hr]

namespace Scheduler

namespace Survey
variable {x y : Survey} {p : Survey → Step → Prop} {st : Step} {tenant : TenantId} {h n : Handle} {m : Member}
  {now : Instant} {id : JobId}

def row (x : Survey) (tenant : TenantId) (id : JobId) : Option String := x.store.jobs[jobKey tenant id]?

/-- The step deletes the storage of the tenant. -/
def Deletes (x : Survey) (tenant : TenantId) (st : Step) : Prop :=
  ∃ now h storage, st = .proceed now ∧ x.progress = .deleting tenant h ∧
    x.scheduler.storage.deleteTenant tenant = .ok storage

/-- The step reinstates the tracker. -/
def Reinstates (x : Survey) (h : Handle) (st : Step) : Prop :=
  ∃ now tenant, st = .proceed now ∧ x.progress = .undeleted tenant h

/-- The tracker of the tenant has been retired, and the storage of the tenant has not been deleted. -/
def Withdrawn (x : Survey) (tenant : TenantId) (h : Handle) : Prop :=
  x.progress = .deleting tenant (some h) ∨ x.progress = .undeleted tenant h

/-! ### What one step changes -/

theorem members_step (hm : x.scheduler.members[h]? = some m) (hr : m.tracker.retired = true)
    (hn : ¬ x.Reinstates h st) : (x.step st).scheduler.members[h]? = some m := by
  have ht := x.turn_step st
  generalize x.step st = y at ht ⊢
  cases ht with
  | call _ n now r => exact members_call_of_retired hm hr n now r
  | enlist s =>
    have hlt : h < s.members.size := (Array.getElem?_eq_some_iff.1 hm).1
    refine (Array.getElem?_push ..).trans ?_
    rw [if_neg hlt.ne]
    exact hm
  | retire s =>
    -- It may be this tracker that is retired, for the second time.
    refine (getElem?_modifyMember ..).trans ?_
    rw [hm, Option.map_some, Tracker.retire_of_retired hr]
    split_ifs <;> rfl
  | reinstate s t n =>
    have hne : n ≠ h := by
      rintro rfl
      exact hn ⟨_, t, rfl, rfl⟩
    refine (getElem?_modifyMember ..).trans ?_
    rw [if_neg hne]
    exact hm
  | turn | fail | prepare | unregister | miss | delete | retain | pass | register => exact hm

theorem size_step (x : Survey) (st : Step) :
    x.scheduler.members.size ≤ (x.step st).scheduler.members.size := by
  have ht := x.turn_step st
  generalize x.step st = y at ht ⊢
  cases ht with
  | call => exact (size_call ..).ge
  | enlist => exact (Nat.le_succ _).trans (Array.size_push _).ge
  | retire | reinstate => exact Array.size_modify.ge
  | turn | fail | prepare | unregister | miss | delete | retain | pass | register => exact Nat.le_refl _

/-- A tracker that is kept after a step was kept before, or is new. -/
theorem keeps_step (hk : (x.step st).Keeps tenant h) : x.Keeps tenant h ∨ h = x.scheduler.members.size := by
  have herase : ∀ {s : Scheduler} {t : TenantId}, (s.unregister t).2.roster.trackers[tenant]? = some h →
      s.roster.trackers[tenant]? = some h := by
    intro s t hon
    replace hon : (s.roster.trackers.erase t)[tenant]? = some h := hon
    rw [Table.getElem?_erase] at hon
    split_ifs at hon
    exact hon
  have ht := x.turn_step st
  generalize x.step st = y at ht hk
  cases ht with
  | call =>
    rw [Keeps, roster_call] at hk
    exact .inl hk
  | enlist s t =>
    have hon : (s.roster.trackers.insert t s.members.size)[tenant]? = some h := hk.on_roster rfl
    rw [Table.getElem?_insert] at hon
    split_ifs at hon
    · exact .inr (Option.some.inj hon).symm
    · exact .inl (.inl hon)
  | unregister _ _ hh =>
    rcases hk with hk | hk
    · exact .inl (.inl (herase hk))
    · cases hk
      exact .inl (.inl hh)
  | miss => exact .inl (.inl (herase (hk.on_roster rfl)))
  | register s t n =>
    have hon : (s.roster.trackers.insert t n)[tenant]? = some h := hk.on_roster rfl
    rw [Table.getElem?_insert] at hon
    split_ifs at hon with ht
    · cases hon
      exact .inl (.inr (ht ▸ rfl))
    · exact .inl (.inl hon)
  | delete | pass => exact .inl (.inl (hk.on_roster rfl))
  | turn | fail | prepare | retire | retain | reinstate => exact .inl hk

/-- Jobs of a tenant change by its deletion, or by a call of a tracker that was made for it and is not
retired. -/
theorem row_step (hv : tenant.isValid = true) (hne : (x.step st).row tenant id ≠ x.row tenant id) :
    x.Deletes tenant st ∨ ∃ h now r, st = .call h now r ∧ x.scheduler.standing? h = some (tenant, false) := by
  have ht := x.turn_step st
  generalize x.step st = y at ht hne
  cases ht with
  | call _ n now r =>
    rcases storage_call x.scheduler n now r with hs | ⟨t, b, hs, hw⟩
    · refine absurd ?_ hne
      rw [row, store, hs]; rfl
    · by_cases ht : tenant = t
      · rw [ht]
        exact .inr ⟨n, now, r, rfl, hs⟩
      · exact absurd (Store.writeBatch_other (Store.isValid_of_writeBatch hw) hv ht hw id) hne
  | prepare hk hc =>
    obtain ⟨-, -, -, hjobs⟩ := Store.putTenant_ok (Storage.createTenant_ok hc)
    exact absurd (congrArg (·[jobKey tenant id]?) hjobs) hne
  | @delete s t storage o _ now hd =>
    by_cases ht : tenant = t
    · subst ht
      exact .inl ⟨now, o, storage, rfl, rfl, hd⟩
    · obtain ⟨count, hr⟩ := Storage.deleteTenant_ok hd
      exact absurd (Store.removeTenant_other hv ht hr id) hne
  | turn | fail | enlist | unregister | miss | retire | retain | pass | reinstate | register =>
    exact absurd rfl hne

theorem Withdrawn.step (hw : x.Withdrawn tenant h) (hd : ¬ x.Deletes tenant st) (hr : ¬ x.Reinstates h st) :
    (x.step st).Withdrawn tenant h := by
  have ht := x.turn_step st
  generalize x.step st = y at ht ⊢
  cases ht with
  | turn | call | fail => exact hw
  | retain =>
    rcases hw with hw | hw
    · cases hw
      exact .inr rfl
    · cases hw
  | delete _ _ _ hs =>
    rcases hw with hw | hw
    · cases hw
      exact absurd ⟨_, _, _, rfl, rfl, hs⟩ hd
    · cases hw
  | reinstate =>
    rcases hw with hw | hw
    · cases hw
    · cases hw
      exact absurd ⟨_, _, rfl, rfl⟩ hr
  | prepare | enlist | unregister | miss | retire | pass | register =>
    rcases hw with hw | hw <;> cases hw

/-! ### Runs -/

theorem Inv.reaches (hx : x.Inv) (hy : x.Reaches p y) : y.Inv := by
  induction hy with
  | refl => exact hx
  | step _ st _ ih => exact ih.step st

theorem members_reaches (hm : x.scheduler.members[h]? = some m) (hr : m.tracker.retired = true)
    (hy : x.Reaches (fun y st => ¬ y.Reinstates h st) y) : y.scheduler.members[h]? = some m := by
  induction hy with
  | refl => exact hm
  | step _ st hn ih => exact members_step ih hr hn

/-- Of a tenant without a record no tracker is kept, so all that are kept later are made later. -/
theorem Inv.made_later (hx : x.Inv) (hnew : tenant ∉ x.store.tenants) (hy : x.Reaches p y) :
    x.scheduler.members.size ≤ y.scheduler.members.size ∧
      ∀ n, y.Keeps tenant n → x.scheduler.members.size ≤ n := by
  induction hy with
  | refl =>
    refine ⟨Nat.le_refl _, fun n hk => absurd ?_ hnew⟩
    exact (hx.known tenant (hx.keeps tenant n hk).1).2.1
  | @step y _ st _ ih =>
    refine ⟨ih.1.trans (size_step y st), fun n hk => ?_⟩
    rcases keeps_step hk with hk | rfl
    · exact ih.2 n hk
    · exact ih.1

theorem Withdrawn.keeps (hw : x.Withdrawn tenant h) : x.Keeps tenant h := by
  refine .inr ?_
  rcases hw with hp | hp
  · rw [hp]; rfl
  · rw [hp]; rfl

theorem Inv.standing?_of_withdrawn (hx : x.Inv) (hw : x.Withdrawn tenant h) :
    x.scheduler.standing? h = some (tenant, true) := by
  have hf := hx.fits
  rcases hw with hp | hp
  · rw [hp] at hf; exact hf
  · rw [hp] at hf; exact hf

theorem Inv.row_of_withdrawn (hx : x.Inv) (hw : x.Withdrawn tenant h) (hd : ¬ x.Deletes tenant st) (id : JobId) :
    (x.step st).row tenant id = x.row tenant id := by
  have hv : tenant.isValid = true := (hx.known tenant (hx.keeps tenant h hw.keeps).1).1
  by_contra hne
  rcases row_step hv hne with hdel | ⟨n, now, r, -, hs⟩
  · exact hd hdel
  · -- Whoever wrote would be kept for the tenant, so it would be the withdrawn tracker, which is retired.
    obtain rfl : h = n := hx.keeps_unique hw.keeps (hx.live tenant n hs)
    rw [hx.standing?_of_withdrawn hw] at hs
    cases hs

theorem Inv.withdrawn_reaches (hx : x.Inv) (hw : x.Withdrawn tenant h)
    (hy : x.Reaches (fun y st => ¬ y.Deletes tenant st ∧ ¬ y.Reinstates h st) y) :
    y.Withdrawn tenant h ∧ ∀ id, y.row tenant id = x.row tenant id := by
  induction hy with
  | refl => exact ⟨hw, fun id => rfl⟩
  | step hreach st hn ih =>
    refine ⟨ih.1.step hn.1 hn.2, fun id => ?_⟩
    rw [(hx.reaches hreach).row_of_withdrawn ih.1 hn.1, ih.2]

theorem progress_reaches (hy : x.Reaches (fun _ st => ∀ now, st ≠ .proceed now) y) :
    y.progress = x.progress := by
  induction hy with
  | refl => rfl
  | @step y _ st hn ih =>
    have ht := y.turn_step st
    generalize y.step st = z at ht ⊢
    cases ht with
    | turn | call | fail => exact ih
    | _ => exact absurd rfl (hn _)

/-! ### What the order of the steps is good for -/

/-- Jobs are out of reach for trackers of tenants that have been deleted. -/
structure Fenced (x : Survey) : Prop where
  recorded : x.store.Recorded
  /-- With its jobs a tenant loses its record, and its tracker has been retired before. -/
  deleted : ∀ tenant st, x.Deletes tenant st → tenant ∉ (x.step st).store.tenants ∧
    ∃ h, x.progress = .deleting tenant (some h) ∧ x.scheduler.standing? h = some (tenant, true)
  /-- A retired tracker writes nothing and stays as it is until it is reinstated. -/
  retired : ∀ h m, x.scheduler.members[h]? = some m → m.tracker.retired = true → m.tracker.Refuses ∧
    ∀ y, x.Reaches (fun y st => ¬ y.Reinstates h st) y → y.scheduler.members[h]? = some m
  /-- From when a tenant has no record its jobs are written by trackers that are made later, each while it is
  the one that is kept for the tenant. -/
  fresh : ∀ tenant : TenantId, tenant.isValid = true → tenant ∉ x.store.tenants →
    ∀ y, x.Reaches (fun _ _ => True) y → ∀ st id, (y.step st).row tenant id ≠ y.row tenant id →
      y.Deletes tenant st ∨ ∃ h now r, st = .call h now r ∧ x.scheduler.members.size ≤ h ∧
        y.scheduler.standing? h = some (tenant, false) ∧ y.Keeps tenant h
  /-- Unless the tenant is deleted, its tracker and its jobs stay as they are until the tracker is reinstated. -/
  kept : ∀ tenant h, x.Withdrawn tenant h →
    ∀ y, x.Reaches (fun y st => ¬ y.Deletes tenant st ∧ ¬ y.Reinstates h st) y →
      y.Withdrawn tenant h ∧ y.scheduler.members[h]? = x.scheduler.members[h]? ∧
        ∀ id, y.row tenant id = x.row tenant id
  /-- If the tenant could not be deleted, it still has its record; the tracker is reinstated with its jobs and
  then registered again. -/
  restored : ∀ tenant h, x.progress = .undeleted tenant h → ∃ m, x.scheduler.members[h]? = some m ∧
    m.tenant = tenant ∧ ∀ now,
      (x.step (.proceed now)).scheduler.members[h]? = some { m with tracker := m.tracker.reinstate } ∧
      (∀ id, (x.step (.proceed now)).row tenant id = x.row tenant id) ∧
      ∀ y, (x.step (.proceed now)).Reaches (fun _ st => ∀ now, st ≠ .proceed now) y → ∀ now,
        (y.step (.proceed now)).scheduler.roster.trackers[tenant]? = some h ∧
          tenant ∈ (y.step (.proceed now)).store.tenants

theorem Inv.deletes (hx : x.Inv) (hd : x.Deletes tenant st) : tenant ∉ (x.step st).store.tenants ∧
    ∃ h, x.progress = .deleting tenant (some h) ∧ x.scheduler.standing? h = some (tenant, true) := by
  obtain ⟨now, o, storage, rfl, hp, hdel⟩ := hd
  obtain ⟨count, hr⟩ := Storage.deleteTenant_ok hdel
  obtain ⟨-, htenants, -⟩ := Store.removeTenant_ok hr
  constructor
  · have hstep : (x.step (.proceed now)).store = storage.store := by
      simp only [Survey.step, proceed, hp, hdel, store, Scheduler.forget]
    rw [hstep, htenants]
    simp
  · cases o with
    | none =>
      have hf := hx.fits
      rw [hp] at hf
      exact hf.elim
    | some h => exact ⟨h, hp, hx.standing?_of_withdrawn (.inl hp)⟩

theorem Inv.restores (hx : x.Inv) (hp : x.progress = .undeleted tenant h) (hm : x.scheduler.members[h]? = some m)
    (now : Instant) :
    (x.step (.proceed now)).scheduler.members[h]? = some { m with tracker := m.tracker.reinstate } ∧
      (∀ id, (x.step (.proceed now)).row tenant id = x.row tenant id) ∧
      ∀ y, (x.step (.proceed now)).Reaches (fun _ st => ∀ now, st ≠ .proceed now) y → ∀ now,
        (y.step (.proceed now)).scheduler.roster.trackers[tenant]? = some h ∧
          tenant ∈ (y.step (.proceed now)).store.tenants := by
  have hstep : x.step (.proceed now) =
      { x with scheduler := x.scheduler.reinstate h, progress := .reinstated tenant h } := by
    simp only [Survey.step, proceed, hp]
  refine ⟨?_, fun id => ?_, fun y hy now' => ?_⟩
  · rw [hstep]
    refine (getElem?_modifyMember ..).trans ?_
    rw [if_pos rfl, hm]; rfl
  · rw [hstep]; rfl
  · have hinv : y.Inv := (hx.step _).reaches hy
    rw [hstep] at hy
    have hprogress : y.progress = .reinstated tenant h := progress_reaches hy
    have hlast : y.step (.proceed now') =
        { y with scheduler := y.scheduler.register tenant h, progress := .free } := by
      simp only [Survey.step, proceed, hprogress]
    rw [hlast]
    have hkeeps : y.Keeps tenant h := .inr (by rw [hprogress]; rfl)
    refine ⟨(Table.getElem?_insert ..).trans (if_pos rfl), ?_⟩
    exact (hinv.known tenant (hinv.keeps tenant h hkeeps).1).2.1

theorem Inv.isFenced (hx : x.Inv) : x.Fenced := by
  refine ⟨hx.recorded, fun t st hd => hx.deletes hd, fun n m hm hr => ?_, fun t hv hnew y hy st id hne => ?_,
    fun t n hw y hy => ?_, fun t n hp => ?_⟩
  · exact ⟨fun now r store write => Tracker.serve_of_retired hr now r store write,
      fun y hy => members_reaches hm hr hy⟩
  · have hyinv := hx.reaches hy
    rcases row_step hv hne with hd | ⟨n, now, r, hst, hs⟩
    · exact .inl hd
    · have hk := hyinv.live t n hs
      exact .inr ⟨n, now, r, hst, (hx.made_later hnew hy).2 n hk, hs, hk⟩
  · obtain ⟨hw', hrow⟩ := hx.withdrawn_reaches hw hy
    obtain ⟨m, hm, hs⟩ := Option.map_eq_some_iff.1 (hx.standing?_of_withdrawn hw)
    have hr : m.tracker.retired = true := congrArg Prod.snd hs
    refine ⟨hw', ?_, hrow⟩
    rw [hm]
    exact members_reaches hm hr (hy.imp fun _ _ hn => hn.2)
  · obtain ⟨m, hm, hs⟩ := Option.map_eq_some_iff.1 (hx.standing?_of_withdrawn (.inr hp))
    exact ⟨m, hm, congrArg Prod.fst hs, hx.restores hp hm⟩

/-- A system recovers from a store that holds no jobs of tenants without a record, and discovery goes on from
there: whatever the bucket lists, whichever calls of the storage fail, and whoever calls which tracker
between its steps, jobs are out of reach for trackers of tenants that have been deleted. -/
theorem deletion_fenced {storage : Storage} {admission : Admission} {maxLeases : UInt64}
    {tenants : Std.ExtTreeSet TenantId} {s : Scheduler} (hn : storage.store.Named)
    (hr : storage.store.Recorded)
    (h : (Scheduler.start storage admission maxLeases).recoverTrackers = .ok (tenants, s)) (steps : List Step) :
    ((start s tenants).run steps).Fenced := by
  have hinv : ((start s tenants).run steps).Inv := (Inv.start hn hr h).run steps
  exact hinv.isFenced

/-- The deletion of a tenant fails at first, and its tracker goes on. Then it succeeds, and the tenant is found
again: the job is written by the new tracker, while the old one refuses. -/
theorem deletion_fenced_stale :
    let store : Store := (Store.empty.act (.putTenant "a" .epoch)).2
    let plan : Request := .maintain ⟨.ofSeconds 60, .ofSeconds 60, .ofSeconds 60⟩ true
    let proceed : Step := .proceed .epoch
    let steps : List Step :=
      [.discover [], proceed, proceed, proceed, .fail ⟨[], ["a"], [], false⟩, .call 0 .epoch plan, proceed, proceed,
        proceed, .fail .none, .call 0 .epoch plan, .discover [], proceed, proceed, proceed, proceed,
        .discover ["a"], proceed, proceed, .call 0 .epoch plan, .call 1 .epoch plan, .call 0 .epoch .lease]
    let view (x : Survey) :=
      (x.scheduler.registered, x.scheduler.members.toList.map fun m => (m.tracker.retired, m.tracker.view.pending),
        x.store.jobs.keys)
    store.Named ∧ store.Recorded ∧
      ∃ tenants s, (Scheduler.start ⟨store, .none⟩ .all 0).recoverTrackers = .ok (tenants, s) ∧
        view ((start s tenants).run steps) = ([("a", 1)], [(true, [planId]), (false, [planId])], ["a/__plan__"]) ∧
        ((start s tenants).run steps).Fenced := by
  intro store plan proceed steps view
  have hnamed : store.Named := (Store.holds_empty.act _).2.named
  have hrecorded : store.Recorded := by
    have hjobs : store.jobs = ∅ := by decide +kernel
    intro t _ _ id
    rw [hjobs]
    simp
  have hview : (Scheduler.start ⟨store, .none⟩ .all 0).recoverTrackers.toOption.map
      (fun r => view ((start r.2 r.1).run steps)) =
        some ([("a", 1)], [(true, [planId]), (false, [planId])], ["a/__plan__"]) := by
    decide +kernel
  cases hr : (Scheduler.start ⟨store, .none⟩ .all 0).recoverTrackers with
  | error err => rw [hr] at hview; cases hview
  | ok r =>
    rw [hr] at hview
    exact ⟨hnamed, hrecorded, r.1, r.2, rfl, Option.some.inj hview, deletion_fenced hnamed hrecorded hr steps⟩

end Survey

end Scheduler

end CompactionLeasing

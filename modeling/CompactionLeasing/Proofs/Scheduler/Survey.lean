import CompactionLeasing.Scheduler.Discovery

/-!
# Discovery among other threads

A pass of discovery, cut into the steps between which other threads have their turn. A tenant is given up in
five of them: its tracker is unregistered, then retired; its storage is deleted, and if that fails the
tracker is reinstated and registered again. `Turn` lists what a step can do; later proofs go through its cases.
`reaches_reconcile`: if nobody else has a turn, the steps of a pass do what `reconcile` does.
-/

namespace CompactionLeasing

namespace Scheduler

/-- How far discovery has come with the tenant that it is busy with. -/
inductive Progress where
  | free
  /-- The storage of a new tenant has been prepared. -/
  | prepared (tenant : TenantId)
  | unregistered (tenant : TenantId) (h : Handle)
  /-- The storage is to be deleted. The tracker, if there was one, has been retired. -/
  | deleting (tenant : TenantId) (h : Option Handle)
  | undeleted (tenant : TenantId) (h : Handle)
  | reinstated (tenant : TenantId) (h : Handle)
deriving DecidableEq

namespace Progress

/-- The tracker that discovery has taken off the roster and may put back. -/
def hand? : Progress → Option (TenantId × Handle)
  | free | prepared _ => none
  | unregistered tenant h | undeleted tenant h | reinstated tenant h => some (tenant, h)
  | deleting tenant h => h.map fun h => (tenant, h)

/-- The tenant that discovery is about to give up. -/
def leaving : Progress → List TenantId
  | free | prepared _ => []
  | unregistered tenant _ | deleting tenant _ | undeleted tenant _ | reinstated tenant _ => [tenant]

theorem mem_leaving {p : Progress} {tenant : TenantId} {h : Handle} (hp : p.hand? = some (tenant, h)) :
    tenant ∈ p.leaving := by
  cases p with
  | free | prepared => cases hp
  | unregistered | undeleted | reinstated => cases hp; exact List.mem_singleton_self _
  | deleting t o =>
    cases o with
    | none => cases hp
    | some n => cases hp; exact List.mem_singleton_self _

end Progress

/-- The tenants to which a pass has yet to turn. -/
inductive Errands where
  /-- First it takes up those that it has seen. -/
  | taking (seen : Std.ExtTreeSet TenantId) (todo : List TenantId)
  /-- Then it gives up those that are known and were not seen. -/
  | giving (todo : List TenantId)

def Errands.leaving : Errands → List TenantId
  | .taking _ _ => []
  | .giving todo => todo

/-- The scheduler, and where discovery is in a pass. Between passes there is nothing to do. -/
structure Survey where
  scheduler : Scheduler
  progress : Progress
  errands : Errands

namespace Survey

/-- Turns to the next tenant. -/
def next (x : Survey) (now : Instant) : Survey :=
  match x.errands with
  | .taking seen [] =>
    { x with errands := .giving (x.scheduler.known.toList.filter fun t => !seen.contains t) }
  | .taking seen (tenant :: todo) =>
    if x.scheduler.known.contains tenant then { x with errands := .taking seen todo }
    else
      match x.scheduler.storage.createTenant tenant now with
      | .error _ => { x with errands := .taking seen todo }
      | .ok storage => ⟨{ x.scheduler with storage := storage }, .prepared tenant, .taking seen todo⟩
  | .giving [] => x
  | .giving (tenant :: todo) =>
    match x.scheduler.unregister tenant with
    | (some h, s) => ⟨s, .unregistered tenant h, .giving todo⟩
    | (none, s) => ⟨s, .deleting tenant none, .giving todo⟩

def proceed (x : Survey) (now : Instant) : Survey :=
  match x.progress with
  | .free => x.next now
  | .prepared tenant => { x with scheduler := x.scheduler.enlist tenant, progress := .free }
  | .unregistered tenant h =>
    { x with scheduler := x.scheduler.retire h, progress := .deleting tenant (some h) }
  | .deleting tenant h =>
    match x.scheduler.storage.deleteTenant tenant with
    | .error _ =>
      match h with
      | none => { x with progress := .free }
      | some h => { x with progress := .undeleted tenant h }
    | .ok storage => { x with scheduler := x.scheduler.forget tenant storage, progress := .free }
  | .undeleted tenant h =>
    { x with scheduler := x.scheduler.reinstate h, progress := .reinstated tenant h }
  | .reinstated tenant h => { x with scheduler := x.scheduler.register tenant h, progress := .free }

inductive Step where
  /-- A pass begins, unless one is under way. -/
  | discover (listed : List TenantId)
  | proceed (now : Instant)
  /-- Someone who holds its handle puts a request to a tracker. -/
  | call (h : Handle) (now : Instant) (r : Request)
  /-- Other calls of the storage fail than before. -/
  | fail (outages : Outages)

def step (x : Survey) : Step → Survey
  | .discover listed =>
    match x.progress, x.errands with
    | .free, .giving [] =>
      { x with errands := .taking (x.scheduler.admitted listed) (x.scheduler.admitted listed).toList }
    | _, _ => x
  | .proceed now => x.proceed now
  | .call h now r => { x with scheduler := (x.scheduler.call h now r).2 }
  | .fail outages =>
    { x with
      scheduler := { x.scheduler with storage := { x.scheduler.storage with outages := outages } } }

def run (x : Survey) (steps : List Step) : Survey := steps.foldl step x

/-- What a step leads to, and when: the cases of `step`. -/
inductive Turn : Survey → Step → Survey → Prop
  /-- Discovery turns to other tenants, or to none. -/
  | turn (x : Survey) (st : Step) (errands : Errands)
      (hl : errands.leaving.Sublist x.errands.leaving ∨
        x.progress = .free ∧ errands.leaving.Sublist x.scheduler.known.toList) :
      Turn x st { x with errands := errands }
  | call (x : Survey) (h : Handle) (now : Instant) (r : Request) :
      Turn x (.call h now r) { x with scheduler := (x.scheduler.call h now r).2 }
  | fail (x : Survey) (outages : Outages) :
      Turn x (.fail outages) { x with
        scheduler := { x.scheduler with storage := { x.scheduler.storage with outages := outages } } }
  | prepare {s : Scheduler} {tenant : TenantId} {now : Instant} {storage : Storage}
      {seen : Std.ExtTreeSet TenantId} {todo : List TenantId} (hk : tenant ∉ s.known)
      (hc : s.storage.createTenant tenant now = .ok storage) :
      Turn ⟨s, .free, .taking seen (tenant :: todo)⟩ (.proceed now)
        ⟨{ s with storage := storage }, .prepared tenant, .taking seen todo⟩
  | enlist (s : Scheduler) (tenant : TenantId) (errands : Errands) (now : Instant) :
      Turn ⟨s, .prepared tenant, errands⟩ (.proceed now) ⟨s.enlist tenant, .free, errands⟩
  | unregister {s : Scheduler} {tenant : TenantId} {h : Handle} (todo : List TenantId) (now : Instant)
      (hh : s.roster.trackers[tenant]? = some h) :
      Turn ⟨s, .free, .giving (tenant :: todo)⟩ (.proceed now)
        ⟨(s.unregister tenant).2, .unregistered tenant h, .giving todo⟩
  | miss {s : Scheduler} {tenant : TenantId} (todo : List TenantId) (now : Instant)
      (hh : s.roster.trackers[tenant]? = none) :
      Turn ⟨s, .free, .giving (tenant :: todo)⟩ (.proceed now)
        ⟨(s.unregister tenant).2, .deleting tenant none, .giving todo⟩
  | retire (s : Scheduler) (tenant : TenantId) (h : Handle) (errands : Errands) (now : Instant) :
      Turn ⟨s, .unregistered tenant h, errands⟩ (.proceed now) ⟨s.retire h, .deleting tenant (some h), errands⟩
  | delete {s : Scheduler} {tenant : TenantId} {storage : Storage} (h : Option Handle) (errands : Errands)
      (now : Instant) (hd : s.storage.deleteTenant tenant = .ok storage) :
      Turn ⟨s, .deleting tenant h, errands⟩ (.proceed now) ⟨s.forget tenant storage, .free, errands⟩
  | retain {s : Scheduler} {tenant : TenantId} {err : StoreError} (h : Handle) (errands : Errands)
      (now : Instant) (hd : s.storage.deleteTenant tenant = .error err) :
      Turn ⟨s, .deleting tenant (some h), errands⟩ (.proceed now) ⟨s, .undeleted tenant h, errands⟩
  | pass {s : Scheduler} {tenant : TenantId} {err : StoreError} (errands : Errands) (now : Instant)
      (hd : s.storage.deleteTenant tenant = .error err) :
      Turn ⟨s, .deleting tenant none, errands⟩ (.proceed now) ⟨s, .free, errands⟩
  | reinstate (s : Scheduler) (tenant : TenantId) (h : Handle) (errands : Errands) (now : Instant) :
      Turn ⟨s, .undeleted tenant h, errands⟩ (.proceed now) ⟨s.reinstate h, .reinstated tenant h, errands⟩
  | register (s : Scheduler) (tenant : TenantId) (h : Handle) (errands : Errands) (now : Instant) :
      Turn ⟨s, .reinstated tenant h, errands⟩ (.proceed now) ⟨s.register tenant h, .free, errands⟩

theorem turn_step (x : Survey) (st : Step) : Turn x st (x.step st) := by
  obtain ⟨s, progress, errands⟩ := x
  cases st with
  | discover listed =>
    rw [step]
    split
    · exact .turn _ _ _ (.inl (List.nil_sublist _))
    · exact .turn _ _ errands (.inl (List.Sublist.refl _))
  | call h now r => exact .call ..
  | fail outages => exact .fail ..
  | proceed now =>
    cases progress with
    | free =>
      rcases errands with ⟨seen, _ | ⟨tenant, todo⟩⟩ | ⟨_ | ⟨tenant, todo⟩⟩
      · exact .turn _ _ _ (.inr ⟨rfl, List.filter_sublist⟩)
      · by_cases hk : tenant ∈ s.known
        · simp only [step, proceed, next, if_pos (Std.ExtTreeSet.contains_iff_mem.2 hk)]
          exact .turn _ _ (.taking seen todo) (.inl (List.nil_sublist _))
        · simp only [step, proceed, next, if_neg (mt Std.ExtTreeSet.contains_iff_mem.1 hk)]
          split
          · exact .turn _ _ (.taking seen todo) (.inl (List.nil_sublist _))
          · rename_i hc
            exact .prepare hk hc
      · exact .turn _ _ (.giving []) (.inl (List.nil_sublist _))
      · cases hh : s.roster.trackers[tenant]? with
        | none =>
          simp only [step, proceed, next, Scheduler.unregister, hh]
          exact .miss todo now hh
        | some h =>
          simp only [step, proceed, next, Scheduler.unregister, hh]
          exact .unregister todo now hh
    | prepared tenant => exact .enlist ..
    | unregistered tenant h => exact .retire ..
    | deleting tenant o =>
      cases hd : s.storage.deleteTenant tenant with
      | ok storage =>
        simp only [step, proceed, hd]
        exact .delete o errands now hd
      | error err =>
        cases o with
        | none =>
          simp only [step, proceed, hd]
          exact .pass errands now hd
        | some h =>
          simp only [step, proceed, hd]
          exact .retain h errands now hd
    | undeleted tenant h => exact .reinstate ..
    | reinstated tenant h => exact .register ..

/-- Some steps lead from `x` to the other survey, each of which `p` allows where it is taken. -/
inductive Reaches (p : Survey → Step → Prop) (x : Survey) : Survey → Prop
  | refl : Reaches p x x
  | step {y : Survey} (h : Reaches p x y) (st : Step) (hp : p y st) : Reaches p x (y.step st)

namespace Reaches
variable {p : Survey → Step → Prop} {x y z : Survey}

theorem trans (h : Reaches p x y) (h' : Reaches p y z) : Reaches p x z := by
  induction h' with
  | refl => exact h
  | step _ st hp ih => exact ih.step st hp

theorem imp {q : Survey → Step → Prop} (h : Reaches p x y) (hpq : ∀ y st, p y st → q y st) : Reaches q x y := by
  induction h with
  | refl => exact .refl
  | step _ st hp ih => exact ih.step st (hpq _ st hp)

theorem once {st : Step} (hp : p x st) (h : x.step st = y) : Reaches p x y := by
  subst h
  exact refl.step st hp

end Reaches

/-! ### A pass without interruption -/

/-- Discovery takes one step after the other, and nobody else has a turn. -/
def Alone (now : Instant) (_ : Survey) (st : Step) : Prop := st = .proceed now

variable (s : Scheduler) (now : Instant)

theorem reaches_takeUp (seen : Std.ExtTreeSet TenantId) (tenant : TenantId) (todo : List TenantId) :
    Reaches (Alone now) ⟨s, .free, .taking seen (tenant :: todo)⟩
      ⟨s.takeUp now tenant, .free, .taking seen todo⟩ := by
  rw [takeUp_eq]
  split
  · rename_i hk
    refine .once rfl ?_
    simp only [step, proceed, next, if_pos hk]
  · rename_i hk
    split
    · rename_i hc
      refine .once rfl ?_
      simp only [step, proceed, next, if_neg hk, hc]
    · rename_i storage hc
      have hprepare : Reaches (Alone now) ⟨s, .free, .taking seen (tenant :: todo)⟩
          ⟨{ s with storage := storage }, .prepared tenant, .taking seen todo⟩ := by
        refine .once rfl ?_
        simp only [step, proceed, next, if_neg hk, hc]
      exact hprepare.trans (.once rfl rfl)

theorem reaches_giveUp (tenant : TenantId) (todo : List TenantId) :
    Reaches (Alone now) ⟨s, .free, .giving (tenant :: todo)⟩ ⟨s.giveUp tenant, .free, .giving todo⟩ := by
  cases hh : s.roster.trackers[tenant]? with
  | none =>
    have hoff : Reaches (Alone now) ⟨s, .free, .giving (tenant :: todo)⟩
        ⟨(s.unregister tenant).2, .deleting tenant none, .giving todo⟩ := by
      refine .once rfl ?_
      simp only [step, proceed, next, unregister, hh]
    refine hoff.trans (.once rfl ?_)
    simp only [step, proceed, giveUp_eq, forget, unregister, hh]
    cases s.storage.deleteTenant tenant with
    | error err => rfl
    | ok storage => rfl
  | some h =>
    have hretired : Reaches (Alone now) ⟨s, .free, .giving (tenant :: todo)⟩
        ⟨(s.unregister tenant).2.retire h, .deleting tenant (some h), .giving todo⟩ := by
      have hoff : Reaches (Alone now) ⟨s, .free, .giving (tenant :: todo)⟩
          ⟨(s.unregister tenant).2, .unregistered tenant h, .giving todo⟩ := by
        refine .once rfl ?_
        simp only [step, proceed, next, unregister, hh]
      exact hoff.trans (.once rfl rfl)
    cases hd : s.storage.deleteTenant tenant with
    | ok storage =>
      refine hretired.trans (.once rfl ?_)
      simp only [step, proceed, giveUp_eq, forget, unregister, retire, modifyMember, hh, hd]
    | error err =>
      have hfailed : Reaches (Alone now) ⟨(s.unregister tenant).2.retire h, .deleting tenant (some h), .giving todo⟩
          ⟨(s.unregister tenant).2.retire h, .undeleted tenant h, .giving todo⟩ := by
        refine .once rfl ?_
        simp only [step, proceed, unregister, retire, modifyMember, hd]
      refine (hretired.trans hfailed).trans ((Reaches.once rfl rfl).trans (.once rfl ?_))
      simp only [step, proceed, giveUp_eq, unregister, retire, modifyMember, hh, hd]

theorem reaches_reconcile (listed : List TenantId) :
    Reaches (Alone now) ((⟨s, .free, .giving []⟩ : Survey).step (.discover listed))
      ⟨s.reconcile now listed, .free, .giving []⟩ := by
  -- The set of seen tenants is fixed while they are taken up, so the listing can be left out of the induction.
  have htake : ∀ (todo : List TenantId) (s : Scheduler) (seen : Std.ExtTreeSet TenantId),
      Reaches (Alone now) ⟨s, .free, .taking seen todo⟩
        ⟨todo.foldl (takeUp · now) s, .free, .taking seen []⟩ := by
    intro todo
    induction todo with
    | nil => exact fun s seen => .refl
    | cons tenant todo ih => exact fun s seen => (reaches_takeUp s now seen tenant todo).trans (ih _ seen)
  have hgive : ∀ (todo : List TenantId) (s : Scheduler),
      Reaches (Alone now) ⟨s, .free, .giving todo⟩ ⟨todo.foldl giveUp s, .free, .giving []⟩ := by
    intro todo
    induction todo with
    | nil => exact fun s => .refl
    | cons tenant todo ih => exact fun s => (reaches_giveUp s now tenant todo).trans (ih _)
  rw [reconcile_eq_foldl]
  exact (htake _ s _).trans ((Reaches.once rfl rfl).trans (hgive _ _))

end Survey

end Scheduler

end CompactionLeasing

import CompactionLeasing.Proofs.Table
import CompactionLeasing.Proofs.Tracker.Refills
import CompactionLeasing.Scheduler.Discovery
import CompactionLeasing.Scheduler.Rotation

/-!
# Moves of the scheduler

What is done to the scheduler at a time, while other threads do something else before and after: a `Move`.
Discovery, maintenance of all trackers and the search for a lease are runs of moves (`Leads`), so what
holds for all runs of moves holds however these passes interleave.

`Attached.move_hasWork`: of all moves only the registration of a tracker that has pending work can make
work visible without giving the signal.
-/

namespace CompactionLeasing

namespace Scheduler

inductive Move where
  /-- Someone who holds its handle puts a request to a tracker. -/
  | call (h : Handle) (now : Instant) (r : Request)
  /-- The end of a maintenance pass in which some tracker had work that had none. -/
  | signal
  | enroll (tenant : TenantId) (outlet : Outlet)
  /-- A tracker that is not registered gets its jobs. -/
  | rebuild (h : Handle) (jobs : RecoveredJobs)
  | register (tenant : TenantId) (h : Handle)
  | unregister (tenant : TenantId)
  | retire (h : Handle)
  | reinstate (h : Handle)
  /-- What trackers and the roster do not read becomes something else: storage is prepared or deleted, a
  tenant is known or no longer, tallies change, the rotation goes on. -/
  | elsewhere (storage : Storage) (metrics : Metrics) (known : Std.ExtTreeSet TenantId) (cursor : UInt64)

def move (s : Scheduler) : Move → Scheduler
  | .call h now r => (s.call h now r).2
  | .signal => s.give s.roster.signal
  | .enroll tenant outlet => (s.enroll tenant outlet s.roster.signal).2
  | .rebuild h jobs => if s.registered.any fun e => e.2 == h then s else s.rebuild h jobs
  | .register tenant h => s.register tenant h
  | .unregister tenant => (s.unregister tenant).2
  | .retire h => s.retire h
  | .reinstate h => s.reinstate h
  | .elsewhere storage metrics known cursor =>
    { s with
      storage := storage
      metrics := metrics
      known := known
      roster := { s.roster with cursor := cursor } }

/-- All trackers give the signal that workers wait for. -/
structure Attached (s : Scheduler) : Prop where
  signal : s.roster.signal < s.signals.size
  members : ∀ (h : Handle) (m : Member), s.members[h]? = some m → m.signal = s.roster.signal

/-- Whether the tracker has pending work, be it registered or not. -/
def pendingAt (s : Scheduler) (h : Handle) : Bool := (s.members[h]?).any fun m => m.tracker.hasPending

variable {s s' : Scheduler} {h : Handle} {tenant : TenantId}

theorem hasWork_iff : s.hasWork = true ↔
    ∃ (tenant : TenantId) (h : Handle), s.roster.trackers[tenant]? = some h ∧ s.pendingAt h = true := by
  simp only [hasWork, registered, List.any_eq_true, Prod.exists,
    Std.ExtTreeMap.mem_toList_iff_getElem?_eq_some, pendingAt]

/-- There is no more work to be seen where no more trackers are registered and none has more. -/
theorem hasWork_mono (hw : s'.hasWork = true)
    (ht : ∀ (tenant : TenantId) h,
      s'.roster.trackers[tenant]? = some h → s.roster.trackers[tenant]? = some h)
    (hp : ∀ (tenant : TenantId) h,
      s.roster.trackers[tenant]? = some h → s'.pendingAt h = true → s.pendingAt h = true) :
    s.hasWork = true := by
  obtain ⟨tenant, h, hr, hpend⟩ := hasWork_iff.1 hw
  exact hasWork_iff.2 ⟨tenant, h, ht _ _ hr, hp tenant h (ht _ _ hr) hpend⟩

/-! ### Signals -/

theorem wakes_give (hs : s.roster.signal < s.signals.size) :
    (s.give s.roster.signal).wakes = s.wakes + 1 := by
  rw [wakes, give, Array.getElem?_modify, if_pos rfl, wakes, Array.getElem?_eq_getElem hs]; rfl

theorem wakes_give_le (s : Scheduler) (signal : Signal) : s.wakes ≤ (s.give signal).wakes := by
  rw [wakes, wakes, give, Array.getElem?_modify]
  split
  · cases s.signals[s.roster.signal]? with
    | none => exact Nat.le_refl _
    | some n => exact Nat.le_succ n
  · exact Nat.le_refl _

/-! ### Members -/

theorem getElem?_modifyMember (s : Scheduler) (h n : Handle) (f : Member → Member) :
    (s.modifyMember h f).members[n]? = if h = n then s.members[n]?.map f else s.members[n]? :=
      Array.getElem?_modify

theorem pendingAt_modifyMember (s : Scheduler) (h n : Handle) {f : Member → Member}
    (hf : ∀ m, (f m).tracker.hasPending = m.tracker.hasPending) :
    (s.modifyMember h f).pendingAt n = s.pendingAt n := by
  rw [pendingAt, getElem?_modifyMember, pendingAt]
  split
  · cases s.members[n]? with
    | none => rfl
    | some m => exact hf m
  · rfl

theorem pendingAt_retire (s : Scheduler) (h n : Handle) : (s.retire h).pendingAt n = s.pendingAt n :=
  pendingAt_modifyMember s h n fun _ => rfl

theorem pendingAt_reinstate (s : Scheduler) (h n : Handle) : (s.reinstate h).pendingAt n = s.pendingAt n :=
  pendingAt_modifyMember s h n fun _ => rfl

/-- A request that fills the pending jobs of a tracker gives the signal of this tracker. -/
theorem pendingAt_call {n : Handle} (now : Instant) (r : Request)
    (hp : (s.call h now r).2.pendingAt n = true) :
    s.pendingAt n = true ∨
      ∃ m : Member, s.members[h]? = some m ∧ (s.call h now r).2.signals = (s.give m.signal).signals := by
  cases hm : s.members[h]? with
  | none => simp only [call, hm] at hp; exact .inl hp
  | some m =>
    simp only [call, hm] at hp ⊢
    have ht := m.tracker.serve_refilled now r s.storage (writeFor m s.storage)
    generalize m.tracker.serve now r s.storage (writeFor m s.storage) = e at hp ht ⊢
    cases hr : e.refilled with
    | true => exact .inr ⟨m, rfl, rfl⟩
    | false =>
      refine .inl ?_
      rw [hr] at hp ht
      simp only [Bool.false_eq_true, if_false, pendingAt, Array.getElem?_modify] at hp ⊢
      by_cases hn : h = n
      · subst hn
        simp only [if_true, hm, Option.map_some, Option.any_some] at hp ⊢
        exact (ht hp).resolve_right nofun
      · rwa [if_neg hn] at hp

theorem roster_call (s : Scheduler) (h : Handle) (now : Instant) (r : Request) :
    (s.call h now r).2.roster = s.roster := by
  cases hm : s.members[h]? with
  | none => simp only [call, hm]
  | some m => simp only [call, hm]; split <;> rfl

/-! ### Moves -/

theorem wakes_move_le (s : Scheduler) (m : Move) : s.wakes ≤ (s.move m).wakes := by
  cases m with
  | call h now r =>
    rw [move, call]
    split
    · exact Nat.le_refl _
    · dsimp only
      split
      · exact wakes_give_le ..
      · exact Nat.le_refl _
  | signal => exact wakes_give_le ..
  | rebuild h jobs =>
    rw [move]
    split
    · exact Nat.le_refl _
    · rw [rebuild]
      split <;> exact Nat.le_refl _
  | _ => exact Nat.le_refl _

namespace Attached

theorem start (storage : Storage) (admission : Admission) (maxLeases : UInt64) :
    (Scheduler.start storage admission maxLeases).Attached :=
  ⟨Nat.zero_lt_one, fun h m hm => by simp [Scheduler.start] at hm⟩

theorem modify (hs : s.Attached) {f : Member → Member} (hf : ∀ m, (f m).signal = m.signal)
    (hm : s'.members = s.members.modify h f) (hsize : s'.signals.size = s.signals.size)
    (hr : s'.roster.signal = s.roster.signal) : s'.Attached := by
  refine ⟨by rw [hr, hsize]; exact hs.signal, fun n m hn => ?_⟩
  rw [hm, Array.getElem?_modify] at hn
  rw [hr]
  split at hn
  · obtain ⟨m', hm', rfl⟩ := Option.map_eq_some_iff.1 hn
    rw [hf]; exact hs.members n m' hm'
  · exact hs.members n m hn

theorem move (hs : s.Attached) (m : Move) : (s.move m).Attached := by
  cases m with
  | call h now r =>
    rw [Scheduler.move]
    cases hm : s.members[h]? with
    | none => simpa only [call, hm] using hs
    | some m =>
      simp only [call, hm]
      generalize m.tracker.serve now r s.storage (writeFor m s.storage) = e
      refine hs.modify (h := h) (f := fun m => { m with tracker := e.tracker }) (fun _ => rfl) ?_ ?_ ?_
      · cases e.refilled <;> rfl
      · cases e.refilled with
        | false => rfl
        | true => exact Array.size_modify
      · cases e.refilled <;> rfl
  | signal => exact ⟨by rw [Scheduler.move, give]; simpa using hs.signal, hs.members⟩
  | enroll tenant outlet =>
    refine ⟨hs.signal, fun n m hn => ?_⟩
    simp only [Scheduler.move, enroll, Array.getElem?_push] at hn
    split at hn
    · cases hn; rfl
    · exact hs.members n m hn
  | rebuild h jobs =>
    rw [Scheduler.move]
    split
    · exact hs
    · cases hm : s.members[h]? with
      | none => simpa only [rebuild, hm] using hs
      | some m =>
        simp only [rebuild, hm]
        exact hs.modify (f := fun n => { n with tracker := m.tracker.recover jobs })
          (fun _ => rfl) rfl rfl rfl
  | retire h =>
    exact hs.modify (f := fun m => { m with tracker := m.tracker.retire }) (fun _ => rfl) rfl rfl rfl
  | reinstate h =>
    exact hs.modify (f := fun m => { m with tracker := m.tracker.reinstate }) (fun _ => rfl) rfl rfl rfl
  | register => exact ⟨hs.signal, hs.members⟩
  | unregister => exact ⟨hs.signal, hs.members⟩
  | elsewhere => exact ⟨hs.signal, hs.members⟩

/-- Only the registration of a tracker that has pending work makes work visible without a signal. -/
theorem move_hasWork (hs : s.Attached) (m : Move)
    (hm : ∀ tenant h, m = .register tenant h → s.pendingAt h = false)
    (hw : (s.move m).hasWork = true) : s.hasWork = true ∨ s.wakes < (s.move m).wakes := by
  cases m with
  | call h now r =>
    obtain ⟨tenant, n, hr, hp⟩ := hasWork_iff.1 hw
    rw [Scheduler.move, roster_call] at hr
    rcases pendingAt_call now r hp with hp | ⟨m, hm, hsig⟩
    · exact .inl (hasWork_iff.2 ⟨tenant, n, hr, hp⟩)
    · have hwakes : ((s.call h now r).2).wakes = (s.give m.signal).wakes := by
        rw [wakes, wakes, roster_call, hsig]; rfl
      rw [Scheduler.move, hwakes, hs.members h m hm, wakes_give hs.signal]
      exact .inr (Nat.lt_succ_self _)
  | signal => exact .inl hw
  | enroll tenant outlet =>
    refine .inl (hasWork_mono hw (fun _ _ hr => hr) fun _ n _ hp => ?_)
    simp only [Scheduler.move, enroll, pendingAt, Array.getElem?_push] at hp
    split at hp
    · cases hp
    · exact hp
  | rebuild h jobs =>
    rw [Scheduler.move] at hw
    split at hw
    · exact .inl hw
    · rename_i hreg
      -- Only a tracker that is off the roster is rebuilt, so no registered one gets work here.
      have hne : ∀ (tenant : TenantId) (n : Handle), s.roster.trackers[tenant]? = some n → h ≠ n := by
        rintro tenant _ hr rfl
        refine hreg (List.any_eq_true.2 ⟨(tenant, h), ?_, beq_self_eq_true h⟩)
        exact Std.ExtTreeMap.mem_toList_iff_getElem?_eq_some.2 hr
      rw [rebuild] at hw
      split at hw
      · exact .inl hw
      · refine .inl (hasWork_mono hw (fun _ _ hr => hr) fun tenant n hr hp => ?_)
        rw [pendingAt, Array.getElem?_modify, if_neg (hne tenant n hr)] at hp
        exact hp
  | register tenant h =>
    obtain ⟨tenant', n, hr, hp⟩ := hasWork_iff.1 hw
    rw [Scheduler.move, register, Table.getElem?_insert] at hr
    split at hr
    · cases hr
      exact absurd ((hm tenant h rfl).symm.trans hp) nofun
    · exact .inl (hasWork_iff.2 ⟨tenant', n, hr, hp⟩)
  | unregister tenant =>
    refine .inl (hasWork_mono hw (fun tenant' n hr => ?_) fun _ _ _ hp => hp)
    simp only [Scheduler.move, unregister, Table.getElem?_erase] at hr
    split at hr
    · cases hr
    · exact hr
  | retire h =>
    exact .inl (hasWork_mono hw (fun _ _ hr => hr) fun _ n _ hp => (pendingAt_retire s h n).symm.trans hp)
  | reinstate h =>
    exact .inl (hasWork_mono hw (fun _ _ hr => hr) fun _ n _ hp =>
      (pendingAt_reinstate s h n).symm.trans hp)
  | elsewhere => exact .inl hw

end Attached

/-! ### What holds of all trackers -/

/-- What holds of every tracker there ever was. -/
def Every (p : Tracker → Prop) (s : Scheduler) : Prop := ∀ (h : Handle) (m : Member), s.members[h]? = some m → p m.tracker

namespace Every
variable {p : Tracker → Prop}

theorem start (storage : Storage) (admission : Admission) (maxLeases : UInt64) :
    (Scheduler.start storage admission maxLeases).Every p :=
  fun h m hm => by simp [Scheduler.start] at hm

theorem modify (hs : s.Every p) {f : Member → Member} (hf : ∀ m, s.members[h]? = some m → p (f m).tracker)
    (hm : s'.members = s.members.modify h f) : s'.Every p := by
  intro n m hn
  rw [hm, Array.getElem?_modify] at hn
  split_ifs at hn with heq
  · obtain ⟨m', hm', rfl⟩ := Option.map_eq_some_iff.1 hn
    exact hf m' (heq ▸ hm')
  · exact hs n m hn

theorem call (hs : s.Every p) (h : Handle) {now : Instant} {r : Request}
    (hserve : ∀ (t : Tracker) (store : Storage) (write : Batch → Except StoreError Storage), p t →
      p (t.serve now r store write).tracker) : (s.call h now r).2.Every p := by
  cases hm : s.members[h]? with
  | none =>
    simp only [Scheduler.call, hm]
    exact hs
  | some m =>
    simp only [Scheduler.call, hm]
    have ht := hserve m.tracker s.storage (writeFor m s.storage) (hs h m hm)
    generalize m.tracker.serve now r s.storage (writeFor m s.storage) = e at ht ⊢
    refine hs.modify (h := h) (f := fun m => { m with tracker := e.tracker }) (fun _ _ => ht) ?_
    split <;> rfl

/-- It is enough that it holds of a tracker without jobs, and of what a request, recovery or retirement makes of a
tracker. -/
theorem move (hs : s.Every p) (m : Move) (hempty : p .empty)
    (hserve : ∀ h now r, m = .call h now r → ∀ (t : Tracker) (store : Storage)
      (write : Batch → Except StoreError Storage), p t → p (t.serve now r store write).tracker)
    (hrecover : ∀ h jobs, m = .rebuild h jobs → ∀ t : Tracker, p (t.recover jobs))
    (hretire : ∀ t : Tracker, p t → p t.retire ∧ p t.reinstate) : (s.move m).Every p := by
  cases m with
  | call h now r => exact hs.call h (hserve h now r rfl)
  | rebuild h jobs =>
    rw [Scheduler.move]
    split
    · exact hs
    · cases hh : s.members[h]? with
      | none =>
        simp only [Scheduler.rebuild, hh]
        exact hs
      | some m =>
        simp only [Scheduler.rebuild, hh]
        exact hs.modify (h := h) (f := fun n => { n with tracker := m.tracker.recover jobs })
          (fun _ _ => hrecover h jobs rfl _) rfl
  | enroll tenant outlet =>
    intro n m hn
    simp only [Scheduler.move, enroll, Array.getElem?_push] at hn
    split at hn
    · cases hn
      exact hempty
    · exact hs n m hn
  | retire h =>
    exact hs.modify (h := h) (f := fun m => { m with tracker := m.tracker.retire })
      (fun m hm => (hretire _ (hs h m hm)).1) rfl
  | reinstate h =>
    exact hs.modify (h := h) (f := fun m => { m with tracker := m.tracker.reinstate })
      (fun m hm => (hretire _ (hs h m hm)).2) rfl
  | signal | register | unregister | elsewhere => exact hs

end Every

/-! ### Runs of moves -/

/-- Some moves, one after the other, lead from one state to the other. -/
def Leads (s s' : Scheduler) : Prop := ∃ ms : List Move, ms.foldl move s = s'

namespace Leads
variable {s'' : Scheduler}

theorem refl (s : Scheduler) : Leads s s := ⟨[], rfl⟩

theorem move (s : Scheduler) (m : Move) : Leads s (s.move m) := ⟨[m], rfl⟩

theorem trans (h : Leads s s') (h' : Leads s' s'') : Leads s s'' := by
  obtain ⟨ms, rfl⟩ := h
  obtain ⟨ms', rfl⟩ := h'
  exact ⟨ms ++ ms', List.foldl_append⟩

theorem foldl {α : Type} {f : Scheduler → α → Scheduler} (h : ∀ s x, Leads s (f s x)) (s : Scheduler)
    (xs : List α) :
    Leads s (xs.foldl f s) :=
  List.foldlRecOn _ _ (refl s) fun s' ih x _ => ih.trans (h s' x)

theorem call (s : Scheduler) (h : Handle) (now : Instant) (r : Request) :
    Leads s (s.call h now r).2 := move s (.call h now r)

theorem takeUp (now : Instant) (s : Scheduler) (tenant : TenantId) : Leads s (s.takeUp now tenant) := by
  rw [takeUp_eq]
  split
  · exact refl s
  · split
    · exact refl s
    · rename_i storage _
      let s₁ := s.move (.elsewhere storage s.metrics s.known s.roster.cursor)
      let s₂ := s₁.move (.enroll tenant .storage)
      let s₃ := s₂.move (.register tenant s₁.members.size)
      exact (move s _).trans <| (move s₁ (.enroll tenant .storage)).trans <|
        (move s₂ (.register tenant s₁.members.size)).trans <|
          move s₃ (.elsewhere s₃.storage s₃.metrics (s₃.known.insert tenant) s₃.roster.cursor)

/-- A deletion that fails is a run of five moves: the tracker is off the roster and retired in between. -/
theorem giveUp (s : Scheduler) (tenant : TenantId) : Leads s (s.giveUp tenant) := by
  have hoff : Leads s (s.unregister tenant).2 := move s (.unregister tenant)
  rw [giveUp_eq]
  cases hh : s.roster.trackers[tenant]? with
  | none =>
    simp only [unregister, hh]
    split
    · exact hoff
    · exact hoff.trans (move _ (.elsewhere _ _ _ _))
  | some h =>
    have hretired := hoff.trans (move _ (.retire h))
    simp only [unregister, hh]
    split
    · exact hretired.trans ((move _ (.reinstate h)).trans (move _ (.register tenant h)))
    · exact hretired.trans (move _ (.elsewhere _ _ _ _))

theorem reconcile (s : Scheduler) (now : Instant) (listed : List TenantId) :
    Leads s (s.reconcile now listed) := by
  rw [reconcile_eq_foldl]
  exact (foldl (takeUp now) s _).trans (foldl giveUp _ _)

theorem discover (s : Scheduler) (now : Instant) (listing : Except String (List TenantId)) :
    Leads s (s.discover now listing).2 := by
  cases listing with
  | error cause => exact refl s
  | ok listed => exact reconcile s now listed

theorem maintainFrom (s : Scheduler) (policy : MaintenancePolicy) (force : Bool) (now : Instant)
    (sum : MaintenanceSummary) (es : List (TenantId × Handle)) :
    Leads s (s.maintainFrom policy force now sum es).2 := by
  induction es generalizing s sum with
  | nil => exact refl s
  | cons e es ih =>
    have hc := call s e.2 now (.maintain policy force)
    rw [Scheduler.maintainFrom]
    generalize s.call e.2 now (.maintain policy force) = r at hc ⊢
    split <;> first | exact hc.trans (ih ..) | exact hc

theorem maintainAll (s : Scheduler) (policy : MaintenancePolicy) (force : Bool) (now : Instant) :
    Leads s (s.maintainAll policy force now).2 := by
  have hm := maintainFrom s policy force now ⟨s.registered.length, 0, 0⟩ s.registered
  rw [Scheduler.maintainAll]
  generalize s.maintainFrom policy force now ⟨s.registered.length, 0, 0⟩ s.registered = r at hm ⊢
  split
  · split
    · exact hm.trans (move _ .signal)
    · exact hm
  · exact hm

theorem leaseFrom (s : Scheduler) (now : Instant) (es : List (TenantId × Handle)) :
    Leads s (s.leaseFrom now es).2 := by
  induction es generalizing s with
  | nil => exact refl s
  | cons e es ih =>
    have hc := call s e.2 now .lease
    rw [Scheduler.leaseFrom]
    generalize s.call e.2 now .lease = r at hc ⊢
    split <;> first | exact hc.trans (ih ..) | exact hc

theorem leaseAny (s : Scheduler) (now : Instant) : Leads s (s.leaseAny now).2 := by
  rw [Scheduler.leaseAny]
  split
  · exact refl s
  · exact (move s (.elsewhere s.storage s.metrics s.known (s.roster.cursor + 1))).trans (leaseFrom ..)

end Leads

end Scheduler

end CompactionLeasing

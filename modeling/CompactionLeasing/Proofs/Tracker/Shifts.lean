import CompactionLeasing.Proofs.Tracker.Insertion
import CompactionLeasing.Proofs.Tracker.Outcome

/-!
# What requests do to the queues

`Shift`: the jobs that a request writes leave their places, and those that are not complete enter the queues of
their statuses, in the order of the batch. `Lined.shift` says so of every batch that is proposed. It asks only that the
queues are in order, and nothing of the names of their jobs.
-/

namespace CompactionLeasing

/-- How many jobs leave pending if the request is carried out. -/
def Request.takes : Request → Nat
  | .lease => 1
  | _ => 0

namespace Tracker
variable {t t' : Tracker} {now : Instant} {job old : Job} {r : Request} {b : Batch} {gone : List Slot}
  {new : List (Slot × Job)}

/-! ### What a request does -/

structure Shift (t : Tracker) (r : Request) (b : Batch) (t' : Tracker) (gone : List Slot)
    (new : List (Slot × Job)) : Prop where
  rearranged : Rearranged t.queues t'.queues gone new
  entering : new.map Prod.snd = b.writes.filter fun job => job.state.status ≠ .complete
  leaving : ∀ k, ∀ e ∈ t.queues.toList k, e.1 ∈ gone → e.2.id ∈ b.writes.map Job.id
  /-- Who leaves pending, leaves it at the front. -/
  pending : ((t.queues.toList .pending).filter fun e => e.1 ∉ gone) = (t.queues.toList .pending).drop r.takes

/-- A slot holds one job. -/
theorem job_unique (hs : t.queues.Sound) {k k' : Queue} {i : Slot} {job job' : Job}
    (h : (i, job) ∈ t.queues.toList k) (h' : (i, job') ∈ t.queues.toList k') : job = job' := by
  have hi := (hs.mem_toList.1 h).1
  rwa [(hs.mem_toList.1 h').1, Option.some.injEq, eq_comm] at hi

/-- A request that is about active jobs. -/
theorem Shift.of_active (hs : t.queues.Sound) (hr : r.takes = 0) (h : Rearranged t.queues t'.queues gone new)
    (hnew : new.map Prod.snd = b.writes.filter fun job => job.state.status ≠ .complete)
    (hgone : ∀ i ∈ gone, ∃ job, (i, job) ∈ t.queues.toList .active ∧ job.id ∈ b.writes.map Job.id) :
    Shift t r b t' gone new := by
  refine ⟨h, hnew, fun k e he hi => ?_, ?_⟩
  · obtain ⟨job, hm, hid⟩ := hgone e.1 hi
    have hj := (hs.mem_toList.1 hm).1
    rw [(hs.mem_toList.1 (show (e.1, e.2) ∈ t.queues.toList k from he)).1, Option.some.injEq] at hj
    rwa [hj]
  · rw [hr, List.drop_zero, List.filter_eq_self]
    intro e he
    simp only [decide_eq_true_eq]
    intro hi
    obtain ⟨job, hm, -⟩ := hgone e.1 hi
    cases hs.linked.queue_eq (List.mem_map_of_mem he) (List.mem_map.2 ⟨_, hm, rfl⟩)

theorem status_of_lease? (h : old.lease? now = some job) : job.id = old.id ∧ job.state.status = .leased := by
  obtain ⟨-, rfl⟩ := Job.lease?_eq_some.1 h
  exact ⟨Job.id_withState .., by rw [Job.state_withState]⟩

/-- What maintenance writes is pending. -/
theorem status_maintenance (t : Tracker) (policy : MaintenancePolicy) (now : Instant) (wanted : Bool) :
    ∀ job ∈ (t.ranOut policy now).map (fun x => x.2.release now) ++ (if wanted then [Job.plan (.fresh now)] else []),
      job.state.status = Queue.pending.status := by
  intro job hj
  rcases List.mem_append.1 hj with hj | hj
  · obtain ⟨x, -, rfl⟩ := List.mem_map.1 hj
    exact x.2.status_release now
  · cases wanted with
    | false => cases hj
    | true => rw [List.mem_singleton.1 hj]; rfl

/-- The new jobs of a plan are pending. -/
theorem status_offered (t : Tracker) (now : Instant) (planned : List PlannedJob) :
    ∀ job ∈ t.offered now planned, job.state.status = Queue.pending.status := by
  intro job hj
  obtain ⟨c, hc, rfl⟩ := List.mem_map.1 hj
  show c.state.status = _
  rw [(Tracker.mem_offers hc).2.2.2.2]
  rfl

theorem filter_incomplete {jobs : List Job} (h : ∀ job ∈ jobs, ∃ k : Queue, job.state.status = k.status) :
    (jobs.filter fun job => job.state.status ≠ .complete) = jobs := by
  rw [List.filter_eq_self]
  intro job hj
  obtain ⟨k, hk⟩ := h job hj
  rw [hk]
  cases k <;> rfl

/-- How a tracker fares that is asked for a lease. -/
inductive Asked {ε σ : Type} (t : Tracker) (now : Instant) (store : σ) (write : Batch → Except ε σ) :
    Settlement ε σ Reply → Prop
  | refused (h : t.retired = true ∨ t.pending = []) : Asked t now store write ⟨.done (.job none), t, store, [], false⟩
  | spent {old : Job} {rest : List Job} (hr : t.retired = false) (hp : t.pending = old :: rest)
      (hl : old.lease? now = none) : Asked t now store write ⟨.overflow, t, store, [], false⟩
  | failed {old job : Job} {rest : List Job} {err : ε} (hr : t.retired = false) (hp : t.pending = old :: rest)
      (hl : old.lease? now = some job) (hw : write ⟨[job], []⟩ = .error err) :
      Asked t now store write ⟨.failed err, t, store, [.persistFailed], false⟩
  | granted {old job : Job} {t' : Tracker} {store' : σ} (events : List TallyEvent) (hr : t.retired = false)
      (hr' : t'.retired = false) (hp : t.pending = old :: t'.pending) (hl : old.lease? now = some job)
      (hw : write ⟨[job], []⟩ = .ok store') (ha : job ∈ t'.active) :
      Asked t now store write ⟨.done (.job (some job)), t', store', events, false⟩

end Tracker

namespace Lined
variable {t : Tracker} {now : Instant} {slot : Slot} {job old : Job} {r : Request} {b : Batch} {k : Queue}

theorem status_renew (h : Lined t.queues) (hm : (slot, old) ∈ t.queues.toList .active) (now : Instant) :
    (old.renew now).state.status = Queue.active.status := by
  rw [Job.state_renew]
  exact h.status .active _ hm

/-- Active jobs stay where they are while another one is written. -/
theorem mem_active_replace {es : List (Slot × Job)} (h : Lined t.queues) (hm : (slot, old) ∈ t.queues.toList .active)
    (hk : job.state.status = k.status) (hes : ∀ e ∈ es, e ∈ t.queues.toList .active) (hne : slot ∉ es.map Prod.fst) :
    ∀ e ∈ es, e ∈ (t.replace slot k job).queues.toList .active := by
  intro e he
  have hslot : e.1 ≠ slot := fun hs => hne (List.mem_map.2 ⟨e, he, hs⟩)
  refine ((h.replace hm hk).lists .active).mem.2 (.inr (List.mem_filter.2 ⟨hes e he, ?_⟩))
  simpa using hslot

theorem releaseAll {es : List (Slot × Job)} (h : Lined t.queues)
    (hm : ∀ e ∈ es, e ∈ t.queues.toList .active) (hn : (es.map Prod.fst).Nodup) :
    Rearranged t.queues (t.releaseAll now es).queues (es.map Prod.fst)
      (es.map fun e => (e.1, e.2.release now)) := by
  induction es generalizing t with
  | nil => exact .refl h.sound
  | cons e es ih =>
    obtain ⟨slot, old⟩ := e
    obtain ⟨hme, hm⟩ := List.forall_mem_cons.1 hm
    obtain ⟨hne, hn⟩ := List.nodup_cons.1 hn
    have hk := old.status_release now
    have hfirst := h.replace hme hk
    have hrest := ih (hfirst.lined h) (h.mem_active_replace hme hk hm hne) hn
    exact hfirst.trans hrest fun e he => by rwa [List.mem_singleton.1 he]

/-- An active job is written, and enters the queue of its new status. -/
theorem shift_replace (h : Lined t.queues) (hr : r.takes = 0) (hm : (slot, old) ∈ t.queues.toList .active)
    (hid : job.id = old.id) (hk : job.state.status = k.status) (hb : b.writes = [job]) :
    Tracker.Shift t r b (t.replace slot k job) [slot] [(slot, job)] := by
  refine .of_active h.sound hr (h.replace hm hk) ?_ fun i hi => ⟨old, by rwa [List.mem_singleton.1 hi], ?_⟩
  · rw [hb]
    exact (Tracker.filter_incomplete (List.forall_mem_singleton.2 ⟨k, hk⟩)).symm
  · rw [hb, ← hid]
    exact List.mem_singleton_self _

/-- The leases that have run out leave active. They enter pending, and then a plan job that is wanted. -/
theorem maintained (h : Lined t.queues) (policy : MaintenancePolicy) (now : Instant) (wanted : Bool) :
    ∃ new, (new.map Prod.snd = (t.ranOut policy now).map (fun x => x.2.release now) ++
        if wanted then [Job.plan (.fresh now)] else []) ∧
      Rearranged t.queues (t.maintained policy now wanted).queues ((t.ranOut policy now).map Prod.fst) new := by
  have hreleased : Rearranged t.queues (t.releaseAll now (t.ranOut policy now)).queues _ _ :=
    h.releaseAll (fun _ => Tracker.mem_of_ranOut) (Tracker.nodup_ranOut h.sound policy now)
  cases wanted with
  | false =>
    refine ⟨_, ?_, hreleased⟩
    rw [if_neg Bool.false_ne_true, List.append_nil, List.map_map]
    rfl
  | true =>
    have hk : (Job.plan (.fresh now)).state.status = Queue.pending.status := rfl
    obtain ⟨slot, hplace⟩ := (hreleased.lined h).place (t := { t.releaseAll now (t.ranOut policy now) with
      planTime := none }) hk
    refine ⟨_, ?_, List.append_nil ((t.ranOut policy now).map Prod.fst) ▸
      hreleased.trans hplace fun _ _ => List.not_mem_nil⟩
    rw [if_pos rfl, List.map_append, List.map_map]
    rfl

/-- The plan job leaves active, and the jobs of the plan enter pending. -/
theorem planned (h : Lined t.queues) (hm : (slot, old) ∈ t.queues.toList .active) (now : Instant)
    (planned : List PlannedJob) : ∃ new, new.map Prod.snd = t.offered now planned ∧
      Rearranged t.queues (t.planned now slot planned).queues [slot] new := by
  have hforget := h.forget hm
  obtain ⟨new, hnew, hplaced⟩ := (hforget.lined h).placeAll (t := { t.forget slot with planTime := some now })
    (t.status_offered now planned)
  exact ⟨new, hnew, List.append_nil [slot] ▸ hforget.trans hplaced fun _ he => absurd he List.not_mem_nil⟩

theorem shift {e : Effect Reply} (h : Lined t.queues) (hp : t.propose now r = .persist b e) :
    ∃ gone new, Tracker.Shift t r b e.tracker gone new := by
  cases Tracker.commits_of_propose hp with
  | maintain policy force wanted hw =>
    obtain ⟨new, hnew, hmaintained⟩ := h.maintained policy now wanted
    refine ⟨_, new, .of_active h.sound rfl hmaintained ?_ fun i hi => ?_⟩
    · rw [hnew, Tracker.filter_incomplete fun job hj => ⟨.pending, t.status_maintenance policy now wanted job hj⟩]
    · obtain ⟨x, hx, rfl⟩ := List.mem_map.1 hi
      refine ⟨x.2, Tracker.mem_of_ranOut hx, ?_⟩
      rw [List.map_append, List.mem_append]
      exact .inl (List.mem_map.2 ⟨x.2.release now, List.mem_map_of_mem hx, Job.id_release ..⟩)
  | lease slot old job hf hj =>
    -- The job at the front of pending leaves, and enters active.
    rw [Tracker.firstPending?_eq h.sound] at hf
    obtain ⟨es, hes⟩ := List.head?_eq_some_iff.1 hf
    have hm : (slot, old) ∈ t.queues.toList .pending := by rw [hes]; exact List.mem_cons_self ..
    obtain ⟨hid, hk⟩ := Tracker.status_of_lease? hj
    have hnew := Tracker.filter_incomplete (List.forall_mem_singleton.2 ⟨.active, hk⟩)
    refine ⟨_, _, h.replace (k := .active) hm hk, hnew.symm, fun k e he hi => ?_, ?_⟩
    · rw [← List.mem_singleton.1 hi] at hm
      rw [Tracker.job_unique h.sound he hm, ← hid]
      exact List.mem_singleton_self _
    · rw [h.filter_head hes, hes]
      rfl
  | renew id epoch slot old hl =>
    have hm := Tracker.mem_of_leased? h.sound hl
    exact ⟨_, _, h.shift_replace rfl hm (Job.id_renew ..) (h.status_renew hm now) rfl⟩
  | cancel id epoch slot old hl =>
    have hm := Tracker.mem_of_leased? h.sound hl
    exact ⟨_, _, h.shift_replace rfl hm (Job.id_release ..) (old.status_release now) rfl⟩
  | finish id epoch slot old hid hl =>
    have hm := Tracker.mem_of_leased? h.sound hl
    exact ⟨_, _, .of_active h.sound rfl (h.forget hm) (by simp [JobState.complete])
      fun i hi => ⟨old, by rwa [List.mem_singleton.1 hi], by simp⟩⟩
  | plan _ answer epoch slot old planned hr hl =>
    have hm := Tracker.mem_of_leased? h.sound hl
    obtain ⟨new, hnew, hplanned⟩ := h.planned hm now planned
    have htakes : r.takes = 0 := by rcases hr with ⟨rfl, -⟩ | ⟨rfl, -⟩ <;> rfl
    refine ⟨_, new, .of_active h.sound htakes hplanned ?_ fun i hi => ?_⟩
    · rw [hnew, List.filter_cons_of_neg (by simp [JobState.complete])]
      exact (Tracker.filter_incomplete fun job hj => ⟨.pending, t.status_offered now planned job hj⟩).symm
    · rw [List.mem_singleton] at hi
      exact ⟨old, hi ▸ hm, by simp⟩

/-- The job that is leased leaves the front of pending for active. -/
theorem leases {es : List (Slot × Job)} (h : Lined t.queues) (hes : t.queues.toList .pending = (slot, old) :: es)
    (hl : old.lease? now = some job) :
    (t.replace slot .active job).pending = es.map Prod.snd ∧ job ∈ (t.replace slot .active job).active := by
  obtain ⟨-, hk⟩ := Tracker.status_of_lease? hl
  have hm : (slot, old) ∈ t.queues.toList .pending := by rw [hes]; exact List.mem_cons_self
  have hr := h.replace (k := .active) hm hk
  constructor
  · have hpending := hr.lists .pending
    rw [List.filter_cons_of_neg (by rw [hk]; decide), List.filter_nil, h.filter_head hes] at hpending
    exact congrArg (List.map Prod.snd) hpending
  · refine List.mem_map.2 ⟨(slot, job), (hr.lists .active).mem.2 (.inl ?_), rfl⟩
    exact List.mem_filter.2 ⟨List.mem_cons_self, decide_eq_true hk⟩

theorem asked {ε σ : Type} (h : Lined t.queues) (now : Instant) (store : σ) (write : Batch → Except ε σ) :
    t.Asked now store write (t.serve now .lease store write) := by
  unfold Tracker.serve Tracker.propose Tracker.lease
  rw [Tracker.firstPending?_eq h.sound]
  by_cases hr : t.retired = true
  · rw [if_pos hr]
    exact .refused (.inl hr)
  rw [if_neg hr]
  rw [Bool.not_eq_true] at hr
  cases hes : t.queues.toList .pending with
  | nil => exact .refused (.inr (congrArg (List.map Prod.snd) hes))
  | cons e es =>
    have hp : t.pending = e.2 :: es.map Prod.snd := congrArg (List.map Prod.snd) hes
    simp only [List.head?_cons]
    cases hl : e.2.lease? now with
    | none => exact .spent hr hp hl
    | some job =>
      simp only [Proposal.map, Proposal.settle]
      cases hw : write ⟨[job], []⟩ with
      | error err => exact .failed hr hp hl hw
      | ok store' =>
        obtain ⟨hpending, hactive⟩ := h.leases hes hl
        exact .granted _ hr hr (hpending.symm ▸ hp) hl hw hactive

/-- The queues stay in order. -/
theorem serve {ε σ : Type} (h : Lined t.queues) (now : Instant) (r : Request) (store : σ) (write : Batch → Except ε σ) :
    Lined (t.serve now r store write).tracker.queues := by
  unfold Tracker.serve
  cases hp : t.propose now r with
  | settled a => exact h
  | overflow => exact h
  | persist b e =>
    obtain ⟨gone, new, hshift⟩ := h.shift hp
    unfold Proposal.settle
    simp only
    cases write b with
    | error err => exact h
    | ok store' => exact hshift.rearranged.lined h

end Lined

end CompactionLeasing

import Mathlib.Algebra.GroupWithZero.Nat
import CompactionLeasing.Proofs.Tracker.Commits
import CompactionLeasing.Proofs.Tracker.Shifts

/-!
# What a request adds to the queues and takes from them

`Exchange`: the jobs that are in the queues afterwards, with those that left, are as many of each kind as those that
were there before, with those that entered. `Commits.booked` compares this with what the request reports: how many
leases were granted, ran out, were given back and ended in a completion, and how many plan jobs were created and
completed.
-/

namespace CompactionLeasing

/-! ### Jobs that leave and enter -/

/-- Some jobs leave the queues and others enter them. -/
def Exchange (q q' : Queues Job) (out into : Queue → List Job) : Prop :=
  ∀ k (p : Job → Bool), (q'.items k).countP p + (out k).countP p = (q.items k).countP p + (into k).countP p

/-- Jobs of one queue, and none of the other. -/
def only (k : Queue) (jobs : List Job) : Queue → List Job := fun k' => if k' = k then jobs else []

namespace Exchange
variable {q q' q'' : Queues Job} {out into out' into' : Queue → List Job}

theorem refl (q : Queues Job) : Exchange q q (fun _ => []) fun _ => [] := fun _ _ => rfl

theorem trans (h : Exchange q q' out into) (h' : Exchange q' q'' out' into') :
    Exchange q q'' (fun k => out k ++ out' k) fun k => into k ++ into' k := by
  intro k p
  have hfirst := h k p
  have hsecond := h' k p
  simp only [List.countP_append]
  omega

theorem length (h : Exchange q q' out into) (k : Queue) :
    (q'.items k).length + (out k).length = (q.items k).length + (into k).length := by
  simpa only [List.countP_true] using h k fun _ => true

theorem of_eq (h : Exchange q q' out into) (ho : ∀ k, out k = out' k) (hi : ∀ k, into k = into' k) :
    Exchange q q' out' into' := by
  rwa [← funext ho, ← funext hi]

end Exchange

theorem Enters.countP {k : Queue} {e : Slot × Job} {es es' : List (Slot × Job)} (h : Enters k e es es')
    (p : Slot × Job → Bool) : es'.countP p = es.countP p + [e].countP p := by
  obtain ⟨xs, ys, rfl, rfl, -⟩ := h
  simp only [List.countP_append, List.countP_cons, List.countP_nil]
  omega

theorem EnterAll.countP {k : Queue} {new es es' : List (Slot × Job)} (h : EnterAll k new es es')
    (p : Slot × Job → Bool) : es'.countP p = es.countP p + new.countP p := by
  induction new generalizing es with
  | nil => rw [show es' = es from h]; rfl
  | cons e new ih =>
    obtain ⟨es₁, he, h⟩ := h
    simp only [ih h, he.countP, List.countP_cons, List.countP_nil]
    omega

/-- The entries of some slots leave, and the others enter, each the queue of its status. -/
theorem Rearranged.exchange {q q' : Queues Job} {gone : List Slot} {new : List (Slot × Job)}
    (h : Rearranged q q' gone new) :
    Exchange q q' (fun k => ((q.toList k).filter fun e => e.1 ∈ gone).map Prod.snd)
      fun k => (new.filter fun e => e.2.state.status = k.status).map Prod.snd := by
  intro k p
  have hlists := (h.lists k).countP (p ∘ Prod.snd)
  have hsplit := List.countP_eq_countP_filter_add (q.toList k) (p ∘ Prod.snd) fun e => decide (e.1 ∈ gone)
  simp only [← decide_not] at hsplit
  show ((q'.toList k).map Prod.snd).countP p + _ = ((q.toList k).map Prod.snd).countP p + _
  simp only [List.countP_map]
  omega

namespace Lined
variable {t : Tracker} {now : Instant} {k k₀ : Queue} {slot : Slot} {job old : Job}

theorem entering (hk : job.state.status = k.status) (slot : Slot) (k' : Queue) :
    ([(slot, job)].filter fun e => e.2.state.status = k'.status).map Prod.snd = only k [job] k' := by
  rw [filter_status (e := (slot, job)) hk, only]
  split_ifs <;> rfl

theorem leaving (h : Lined t.queues) (hm : (slot, old) ∈ t.queues.toList k₀) (k : Queue) :
    ((t.queues.toList k).filter fun e => e.1 ∈ [slot]).map Prod.snd = only k₀ [old] k := by
  have hslot : ∀ e : Slot × Job, decide (e.1 ∈ [slot]) = decide (e.1 = slot) := fun e => by simp
  simp only [hslot, only]
  split_ifs with hkk
  · subst hkk
    obtain ⟨xs, ys, hs⟩ := List.append_of_mem hm
    have hn := h.sound.nodup k
    rw [hs, List.map_append, List.map_cons, List.nodup_middle, List.nodup_cons, ← List.map_append] at hn
    have hnone : ∀ zs : List (Slot × Job), (∀ e ∈ zs, e ∈ xs ++ ys) → zs.filter (fun e => e.1 = slot) = [] := by
      intro zs hz
      rw [List.filter_eq_nil_iff]
      intro e he hslot
      exact hn.1 (List.mem_map.2 ⟨e, hz e he, of_decide_eq_true hslot⟩)
    rw [hs, List.filter_append, List.filter_cons_of_pos (by simp), hnone xs fun e he => List.mem_append_left _ he,
      hnone ys fun e he => List.mem_append_right _ he]
    rfl
  · rw [List.map_eq_nil_iff, List.filter_eq_nil_iff]
    intro e he hslot
    refine hkk (h.sound.linked.queue_eq (List.mem_map_of_mem he) (List.mem_map.2 ⟨_, hm, ?_⟩))
    exact (of_decide_eq_true hslot).symm

theorem place_exchange (h : Lined t.queues) (hk : job.state.status = k.status) :
    Lined (t.place k job).queues ∧ Exchange t.queues (t.place k job).queues (fun _ => []) (only k [job]) := by
  obtain ⟨slot, hr⟩ := h.place hk
  exact ⟨hr.lined h, hr.exchange.of_eq (fun _ => by simp) (entering hk slot)⟩

theorem placeAll_exchange {jobs : List Job} (h : Lined t.queues) (hk : ∀ job ∈ jobs, job.state.status = k.status) :
    Lined (t.placeAll k jobs).queues ∧
      Exchange t.queues (t.placeAll k jobs).queues (fun _ => []) (only k jobs) := by
  induction jobs generalizing t with
  | nil => exact ⟨h, (Exchange.refl _).of_eq (fun _ => rfl) fun _ => by simp [only]⟩
  | cons job jobs ih =>
    obtain ⟨hkj, hk⟩ := List.forall_mem_cons.1 hk
    obtain ⟨hlined, hfirst⟩ := h.place_exchange hkj
    obtain ⟨hlined, hrest⟩ := ih hlined hk
    refine ⟨hlined, (hfirst.trans hrest).of_eq (fun _ => rfl) fun k' => ?_⟩
    unfold only
    split_ifs <;> rfl

theorem replace_exchange (h : Lined t.queues) (hm : (slot, old) ∈ t.queues.toList k₀)
    (hk : job.state.status = k.status) : Lined (t.replace slot k job).queues ∧
      Exchange t.queues (t.replace slot k job).queues (only k₀ [old]) (only k [job]) := by
  have hr := h.replace hm hk
  exact ⟨hr.lined h, hr.exchange.of_eq (h.leaving hm) (entering hk slot)⟩

theorem forget_exchange (h : Lined t.queues) (hm : (slot, old) ∈ t.queues.toList k₀) :
    Lined (t.forget slot).queues ∧ Exchange t.queues (t.forget slot).queues (only k₀ [old]) fun _ => [] := by
  have hr := h.forget hm
  exact ⟨hr.lined h, hr.exchange.of_eq (h.leaving hm) fun _ => by simp⟩

theorem releaseAll_exchange {es : List (Slot × Job)} (h : Lined t.queues) (now : Instant)
    (hm : ∀ e ∈ es, e ∈ t.queues.toList .active) (hn : (es.map Prod.fst).Nodup) :
    Lined (t.releaseAll now es).queues ∧ Exchange t.queues (t.releaseAll now es).queues
      (only .active (es.map Prod.snd)) (only .pending (es.map fun e => e.2.release now)) := by
  induction es generalizing t with
  | nil => exact ⟨h, (Exchange.refl _).of_eq (fun _ => by simp [only]) fun _ => by simp [only]⟩
  | cons e es ih =>
    obtain ⟨slot, old⟩ := e
    obtain ⟨hme, hm⟩ := List.forall_mem_cons.1 hm
    obtain ⟨hne, hn⟩ := List.nodup_cons.1 hn
    have hk := old.status_release now
    obtain ⟨hlined, hfirst⟩ := h.replace_exchange hme hk
    obtain ⟨hlined, hrest⟩ := ih hlined (h.mem_active_replace hme hk hm hne) hn
    refine ⟨hlined, (hfirst.trans hrest).of_eq (fun k' => ?_) fun k' => ?_⟩ <;> cases k' <;> rfl

/-- The leases that have run out leave active, and a plan job that is wanted enters pending with them. -/
theorem maintained_exchange (h : Lined t.queues) (policy : MaintenancePolicy) (now : Instant) (wanted : Bool) :
    Lined (t.maintained policy now wanted).queues ∧
      Exchange t.queues (t.maintained policy now wanted).queues (only .active ((t.ranOut policy now).map Prod.snd))
        (only .pending ((t.ranOut policy now).map (fun e => e.2.release now) ++
          if wanted then [Job.plan (.fresh now)] else [])) := by
  obtain ⟨hlined, hx⟩ := h.releaseAll_exchange now (fun _ => Tracker.mem_of_ranOut)
    (Tracker.nodup_ranOut h.sound policy now)
  cases wanted with
  | false => exact ⟨hlined, hx.of_eq (fun _ => rfl) fun k => by simp⟩
  | true =>
    have hk : (Job.plan (.fresh now)).state.status = Queue.pending.status := rfl
    obtain ⟨hlined, hplan⟩ := place_exchange
      (t := { t.releaseAll now (t.ranOut policy now) with planTime := none }) hlined hk
    refine ⟨hlined, (hx.trans hplan).of_eq (fun k => List.append_nil _) fun k => ?_⟩
    cases k <;> rfl

/-- The plan job leaves active, and the jobs of the plan enter pending. -/
theorem planned_exchange (h : Lined t.queues) (hm : (slot, old) ∈ t.queues.toList .active) (now : Instant)
    (planned : List PlannedJob) : Lined (t.planned now slot planned).queues ∧
      Exchange t.queues (t.planned now slot planned).queues (only .active [old])
        (only .pending (t.offered now planned)) := by
  obtain ⟨hlined, hforget⟩ := h.forget_exchange hm
  obtain ⟨hlined, hplaced⟩ := placeAll_exchange (t := { t.forget slot with planTime := some now }) hlined
    (t.status_offered now planned)
  exact ⟨hlined, (hforget.trans hplaced).of_eq (fun k => List.append_nil _) fun k => rfl⟩

end Lined

/-! ### What is counted -/

namespace TallyEvent

def granted : TallyEvent → Nat
  | leaseGranted => 1
  | _ => 0

def expired : TallyEvent → Nat
  | leasesExpired n => n
  | _ => 0

def completed : TallyEvent → Nat
  | jobCompleted => 1
  | _ => 0

def created : TallyEvent → Nat
  | planCreated => 1
  | _ => 0

def failed : TallyEvent → Nat
  | persistFailed => 1
  | _ => 0

end TallyEvent

/-- How many leases are given back if the request is carried out. -/
def Request.cancels : Request → Nat
  | .cancel .. => 1
  | _ => 0

/-- How many plan jobs a batch completes. -/
def Batch.plansDone (b : Batch) : Nat := b.writes.countP fun job => job.isPlan && job.state.status = .complete

namespace Tracker
variable {t : Tracker} {now : Instant} {r : Request} {b : Batch} {e : Effect Reply}

/-- How many plan jobs are incomplete. -/
def plans (t : Tracker) : Nat := t.pending.countP Job.isPlan + t.active.countP Job.isPlan

/-- All stays as it is, but for the order of the queues and the times in them. -/
structure Stays (t t' : Tracker) : Prop where
  length : ∀ k, (t'.queues.items k).length = (t.queues.items k).length
  plans : ∀ k, (t'.queues.items k).countP Job.isPlan = (t.queues.items k).countP Job.isPlan
  complete : t'.complete = t.complete
  planTime : t'.planTime = t.planTime

/-- The books of a request that is carried out. What it reports last is how the tracker stands, unless it reports
nothing because only the order of active can have changed. -/
structure Booked (t : Tracker) (r : Request) (b : Batch) (e : Effect Reply) : Prop where
  lined : Lined e.tracker.queues
  active : e.tracker.active.length + (e.events.map TallyEvent.expired).sum + r.cancels +
    (e.events.map TallyEvent.completed).sum = t.active.length + (e.events.map TallyEvent.granted).sum
  plans : e.tracker.plans + b.plansDone = t.plans + (e.events.map TallyEvent.created).sum
  durable : (e.events.map TallyEvent.failed).sum = 0
  shown : (∃ evs, e.events = evs ++ e.tracker.gauges) ∨
    e.events = [] ∧ Stays t e.tracker

theorem plansDone_eq_zero (h : ∀ job ∈ b.writes, ∃ k : Queue, job.state.status = k.status) : b.plansDone = 0 := by
  unfold Batch.plansDone
  rw [List.countP_eq_zero]
  intro job hj
  obtain ⟨k, hk⟩ := h job hj
  cases k <;> simp [hk, Queue.status]

theorem Booked.of_exchange {out into : Queue → List Job} (hl : Lined e.tracker.queues)
    (hx : Exchange t.queues e.tracker.queues out into)
    (hactive : (into .active).length + (e.events.map TallyEvent.expired).sum + r.cancels +
      (e.events.map TallyEvent.completed).sum = (out .active).length + (e.events.map TallyEvent.granted).sum)
    (hplans : (into .pending).countP Job.isPlan + (into .active).countP Job.isPlan + b.plansDone =
      (out .pending).countP Job.isPlan + (out .active).countP Job.isPlan + (e.events.map TallyEvent.created).sum)
    (hdurable : (e.events.map TallyEvent.failed).sum = 0)
    (hshown : (∃ evs, e.events = evs ++ e.tracker.gauges) ∨
      e.events = [] ∧ Stays t e.tracker) : Booked t r b e := by
  have hlen := hx.length .active
  have hp := hx .pending Job.isPlan
  have ha := hx .active Job.isPlan
  refine ⟨hl, ?_, ?_, hdurable, hshown⟩
  · unfold Tracker.active
    omega
  · unfold Tracker.plans Tracker.pending Tracker.active
    omega

/-- What maintenance reports: how many leases ran out, and whether a plan job was created. -/
theorem sum_maintained (n : Nat) (f : TallyEvent → Nat) (hf : ∀ m, f (.leasesExpired m) = m * f (.leasesExpired 1))
    (hg : (t.gauges.map f).sum = 0) (wanted empty : Bool) (he : empty = (n == 0)) :
    (((if empty then [] else [TallyEvent.leasesExpired n]) ++ (if wanted then [TallyEvent.planCreated] else []) ++
      t.gauges).map f).sum = n * f (.leasesExpired 1) + if wanted then f .planCreated else 0 := by
  rw [List.map_append, List.map_append, List.sum_append, List.sum_append, hg]
  subst he
  cases n with
  | zero => cases wanted <;> simp
  | succ n => cases wanted <;> simp [hf (n + 1)]

theorem Commits.booked (h : t.Commits now r b e) (hl : Lined t.queues) : Booked t r b e := by
  cases h with
  | maintain policy force wanted hw =>
    obtain ⟨hlined, hx⟩ := hl.maintained_exchange policy now wanted
    have hsum := fun (f : TallyEvent → Nat) hf hg => (t.maintained policy now wanted).sum_maintained
      (t.ranOut policy now).length f hf hg wanted (t.ranOut policy now).isEmpty
      (by cases t.ranOut policy now <;> rfl)
    have hexpired := hsum TallyEvent.expired (fun m => (Nat.mul_one m).symm) rfl
    have hcompleted := hsum TallyEvent.completed (fun _ => rfl) rfl
    have hgranted := hsum TallyEvent.granted (fun _ => rfl) rfl
    have hcreated := hsum TallyEvent.created (fun _ => rfl) rfl
    have hfailed := hsum TallyEvent.failed (fun _ => rfl) rfl
    refine .of_exchange hlined hx ?_ ?_ ?_ (.inl ⟨_, rfl⟩)
    · simp only [hexpired, hcompleted, hgranted, only, reduceCtorEq, if_true, if_false]
      cases wanted <;> simp [TallyEvent.expired, TallyEvent.completed, TallyEvent.granted, Request.cancels]
    · have hreleased : ((t.ranOut policy now).map fun e => e.2.release now).countP Job.isPlan =
          ((t.ranOut policy now).map Prod.snd).countP Job.isPlan := by
        simp only [List.countP_map, Function.comp_def, Job.release, Job.isPlan_withState]
      rw [hcreated, plansDone_eq_zero fun job hj => ⟨.pending, t.status_maintenance policy now wanted job hj⟩]
      simp only [only, reduceCtorEq, if_true, if_false, List.countP_append, hreleased, List.countP_nil]
      cases wanted <;> simp [TallyEvent.created, Job.isPlan, List.countP_cons]
    · rw [hfailed]
      cases wanted <;> rfl
  | lease slot old job hf hj =>
    have hm := mem_of_firstPending? hl.sound hf
    obtain ⟨hid, hk⟩ := status_of_lease? hj
    obtain ⟨-, rfl⟩ := Job.lease?_eq_some.1 hj
    obtain ⟨hlined, hx⟩ := hl.replace_exchange (k := .active) hm hk
    refine .of_exchange hlined hx rfl ?_ rfl (.inl ⟨[.leaseGranted], rfl⟩)
    simp [only, Batch.plansDone, TallyEvent.created, gauges, List.countP_cons]
  | renew id epoch slot old hf =>
    have hm := mem_of_leased? hl.sound hf
    have hk := hl.status_renew hm now
    obtain ⟨hlined, hx⟩ := hl.replace_exchange hm hk
    have hplan : [old].countP Job.isPlan = [old.renew now].countP Job.isPlan := by
      simp [Job.renew, List.countP_cons]
    refine .of_exchange hlined hx rfl ?_ rfl (.inr ⟨rfl, fun k => ?_, fun k => ?_, rfl, rfl⟩)
    · rw [plansDone_eq_zero (List.forall_mem_singleton.2 ⟨_, hk⟩)]
      simp only [only, reduceCtorEq, if_true, if_false, hplan]
      rfl
    · have hlen := hx.length k
      cases k <;> exact Nat.add_right_cancel hlen
    · have hcount := hx k Job.isPlan
      cases k
      · exact hcount
      · exact Nat.add_right_cancel (hcount.trans (congrArg _ hplan.symm))
  | cancel id epoch slot old hf =>
    have hm := mem_of_leased? hl.sound hf
    have hk := old.status_release now
    obtain ⟨hlined, hx⟩ := hl.replace_exchange hm hk
    refine .of_exchange hlined hx rfl ?_ rfl (.inl ⟨[], rfl⟩)
    rw [plansDone_eq_zero (List.forall_mem_singleton.2 ⟨_, hk⟩)]
    simp [only, Job.release, TallyEvent.created, gauges, List.countP_cons]
  | finish id epoch slot old hid hf =>
    have hm := mem_of_leased? hl.sound hf
    obtain ⟨hlined, hx⟩ := hl.forget_exchange hm
    refine .of_exchange hlined hx rfl ?_ rfl (.inl ⟨[.jobCompleted], rfl⟩)
    simp [only, Batch.plansDone, Job.complete, JobState.complete, TallyEvent.created, gauges, List.countP_cons]
  | plan r answer epoch slot old planned hr hf =>
    have hm := mem_of_leased? hl.sound hf
    obtain ⟨hlined, hx⟩ := hl.planned_exchange hm now planned
    have hoffered : ∀ p : Job → Bool, (∀ c, p (.compaction c) = false) → (t.offered now planned).countP p = 0 := by
      intro p hp
      rw [List.countP_eq_zero]
      intro job hj
      obtain ⟨c, -, rfl⟩ := List.mem_map.1 hj
      simp [hp]
    refine .of_exchange hlined hx ?_ ?_ rfl (.inl ⟨[.jobCompleted], rfl⟩)
    · rcases hr with ⟨rfl, -⟩ | ⟨rfl, -⟩ <;> rfl
    · have hnone := hoffered Job.isPlan fun _ => rfl
      have hdone := hoffered (fun job => job.isPlan && job.state.status = .complete) fun _ => rfl
      simp [only, plannedEffect, Batch.plansDone, Job.complete, JobState.complete, TallyEvent.created, gauges,
        List.countP_cons, hnone, hdone]

end Tracker

end CompactionLeasing

import CompactionLeasing.Proofs.Tracker.PlanJob

/-!
# What tallies say of their trackers

A `Metered` is a tracker with a tally of its own, and with counts of what the tally leaves out. `Metered.tally_mirrors`:
in every run the gauges show the tracker as it stands, and the counters account for every active job and every plan
job that came and went. Only the gauge that tells whether the plan job is leased needs the recovered jobs to be named
with care.
-/

namespace CompactionLeasing

/-! ### Tallies -/

namespace Tally

theorem recordAll_append (y : Tally) (evs evs' : List TallyEvent) :
    y.recordAll (evs ++ evs') = (y.recordAll evs).recordAll evs' :=
  List.foldl_append

/-- A counter grows by what the events add to it. -/
theorem counter_recordAll {f : Tally → UInt64} {g : TallyEvent → Nat}
    (h : ∀ y ev, f (y.record ev) = f y + .ofNat (g ev)) (y : Tally) (evs : List TallyEvent) :
    f (y.recordAll evs) = f y + .ofNat (evs.map g).sum := by
  induction evs generalizing y with
  | nil => exact (UInt64.add_zero _).symm
  | cons ev evs ih =>
    rw [List.map_cons, List.sum_cons, UInt64.ofNat_add, ← UInt64.add_assoc, ← h]
    exact ih (y.record ev)

theorem granted_recordAll (y : Tally) (evs : List TallyEvent) :
    (y.recordAll evs).granted = y.granted + .ofNat (evs.map TallyEvent.granted).sum :=
  counter_recordAll (fun y ev => by cases ev <;> simp [record, TallyEvent.granted]) y evs

theorem expired_recordAll (y : Tally) (evs : List TallyEvent) :
    (y.recordAll evs).expired = y.expired + .ofNat (evs.map TallyEvent.expired).sum :=
  counter_recordAll (fun y ev => by cases ev <;> simp [record, TallyEvent.expired]) y evs

theorem completed_recordAll (y : Tally) (evs : List TallyEvent) :
    (y.recordAll evs).completed = y.completed + .ofNat (evs.map TallyEvent.completed).sum :=
  counter_recordAll (fun y ev => by cases ev <;> simp [record, TallyEvent.completed]) y evs

theorem plansCreated_recordAll (y : Tally) (evs : List TallyEvent) :
    (y.recordAll evs).plansCreated = y.plansCreated + .ofNat (evs.map TallyEvent.created).sum :=
  counter_recordAll (fun y ev => by cases ev <;> simp [record, TallyEvent.created]) y evs

theorem failures_recordAll (y : Tally) (evs : List TallyEvent) :
    (y.recordAll evs).failures = y.failures + .ofNat (evs.map TallyEvent.failed).sum :=
  counter_recordAll (fun y ev => by cases ev <;> simp [record, TallyEvent.failed]) y evs

/-- The gauges, but for the one of the plan job, show the tracker. -/
structure Shows (y : Tally) (t : Tracker) : Prop where
  pending : y.pending = .ofNat t.pending.length
  active : y.active = .ofNat t.active.length
  complete : y.complete = .ofNat t.complete.size
  lastPlan : y.lastPlan = unixSeconds t.planTime

theorem Shows.of_stays {y : Tally} {t t' : Tracker} (h : y.Shows t) (hs : Tracker.Stays t t') : y.Shows t' := by
  refine ⟨?_, ?_, ?_, ?_⟩
  · exact h.pending.trans (congrArg _ (hs.length .pending).symm)
  · exact h.active.trans (congrArg _ (hs.length .active).symm)
  · rw [hs.complete]
    exact h.complete
  · rw [hs.planTime]
    exact h.lastPlan

theorem shows_recordAll (y : Tally) (evs : List TallyEvent) {t : Tracker} (h : t.queues.Sound) :
    (y.recordAll (evs ++ t.gauges)).Shows t ∧ (y.recordAll (evs ++ t.gauges)).planLeased = t.planLeased := by
  have hlen : ∀ k, t.queues.len k = (t.queues.items k).length := fun k => by
    rw [h.len_eq, Queues.items, List.length_map]
  rw [recordAll_append]
  refine ⟨⟨?_, ?_, rfl, rfl⟩, rfl⟩
  · exact congrArg UInt64.ofNat (hlen .pending)
  · exact congrArg UInt64.ofNat (hlen .active)

end Tally

namespace Tracker

theorem PlanKept.planLeased_eq {t : Tracker} (h : t.PlanKept) : t.planLeased = t.active.any Job.isPlan := by
  rw [Bool.eq_iff_iff, h.leased, List.any_eq_true]
  constructor
  · rintro ⟨e, he, hp⟩
    exact ⟨e.2, List.mem_map_of_mem he, hp⟩
  · rintro ⟨job, hj, hp⟩
    obtain ⟨e, he, rfl⟩ := List.mem_map.1 hj
    exact ⟨e, he, hp⟩

theorem Stays.planLeased_eq {t t' : Tracker} (h : Stays t t') (hk : t.PlanKept) (hk' : t'.PlanKept) :
    t'.planLeased = t.planLeased := by
  have hplans : t'.active.countP Job.isPlan = t.active.countP Job.isPlan := h.plans .active
  rw [hk.planLeased_eq, hk'.planLeased_eq, Bool.eq_iff_iff, List.any_eq_true, List.any_eq_true, ← List.countP_pos_iff,
    ← List.countP_pos_iff, hplans]

end Tracker

/-! ### Runs -/

/-- A tracker with its tally, and with counts of the persister calls that failed, the leases that were given back and
the plan jobs that were completed. -/
structure Metered where
  tracker : Tracker
  tally : Tally
  failures : Nat
  cancelled : Nat
  plansDone : Nat

def Verdict.failures {ε α : Type} : Verdict ε α → Nat
  | .failed _ => 1
  | _ => 0

/-- How many leases a request gave back. -/
def Verdict.cancels {ε : Type} (v : Verdict ε Reply) (r : Request) : Nat :=
  match r, v with
  | .cancel .., .done (.flag true) => 1
  | _, _ => 0

namespace Metered
variable {ε : Type} {x : Metered} {recovered : Option RecoveredJobs} {now : Instant}

/-- A new tracker with a new tally, which some jobs may have been recovered to. -/
def start : Option RecoveredJobs → Metered
  | none => ⟨.empty, {}, 0, 0, 0⟩
  | some jobs => ⟨Tracker.empty.recover jobs, ({} : Tally).recordAll (Tracker.empty.recover jobs).gauges, 0, 0, 0⟩

def act (x : Metered) : Tracker.Action ε → Metered
  | .call now r write =>
    let s := x.tracker.serve now r () write
    { tracker := s.tracker
      tally := x.tally.recordAll s.events
      failures := x.failures + s.verdict.failures
      cancelled := x.cancelled + s.verdict.cancels r
      plansDone := x.plansDone + ((x.tracker.written? now r write).map Batch.plansDone).getD 0 }
  | .retire => { x with tracker := x.tracker.retire }
  | .reinstate => { x with tracker := x.tracker.reinstate }
  | .recover jobs =>
    { x with
      tracker := x.tracker.recover jobs
      tally := x.tally.recordAll (x.tracker.recover jobs).gauges }

theorem cancels_of_settled {r : Request} {a : Reply} (h : x.tracker.propose now r = .settled a) :
    (Verdict.done a : Verdict ε Reply).cancels r = 0 := by
  rw [Tracker.refusal_of_settled h]
  cases r <;> rfl

theorem cancels_of_commits {r : Request} {b : Batch} {e : Effect Reply} (h : x.tracker.Commits now r b e) :
    (Verdict.done e.answer : Verdict ε Reply).cancels r = r.cancels := by
  cases h with
  | plan r answer epoch slot old planned hr => rcases hr with ⟨rfl, -, rfl⟩ | ⟨rfl, rfl⟩ <;> rfl
  | _ => rfl

/-- A request changes nothing, or only counts as a failure, or is carried out. -/
theorem act_call (x : Metered) (now : Instant) (r : Request) (write : Batch → Except ε Unit) :
    x.act (.call now r write) = x ∨
    x.act (.call now r write) = { x with tally := x.tally.recordAll [.persistFailed], failures := x.failures + 1 } ∨
    ∃ b e, x.tracker.Commits now r b e ∧ x.act (.call now r write) =
      ⟨e.tracker, x.tally.recordAll e.events, x.failures, x.cancelled + r.cancels, x.plansDone + b.plansDone⟩ := by
  unfold act
  simp only [Tracker.written?, Tracker.serve]
  cases hp : x.tracker.propose now r with
  | settled a =>
    simp only [Proposal.settle, cancels_of_settled hp]
    exact .inl rfl
  | overflow =>
    simp only [Proposal.settle]
    refine .inl ?_
    cases r <;> rfl
  | persist b e =>
    have hc := Tracker.commits_of_propose hp
    simp only [Proposal.settle]
    cases write b with
    | error err =>
      refine .inr (.inl ?_)
      cases r <;> rfl
    | ok u =>
      simp only [cancels_of_commits hc]
      exact .inr (.inr ⟨b, e, hc, rfl⟩)

/-- What a tally says of its tracker, where there were `active` active jobs and `plans` plan jobs to begin with. -/
structure Mirrors (active plans : Nat) (x : Metered) : Prop where
  shows : x.tally.Shows x.tracker
  failures : x.tally.failures = .ofNat x.failures
  leases : .ofNat active + x.tally.granted =
    .ofNat x.tracker.active.length + x.tally.expired + .ofNat x.cancelled + x.tally.completed
  plans : .ofNat plans + x.tally.plansCreated = .ofNat x.tracker.plans + .ofNat x.plansDone

namespace Mirrors
variable {active plans : Nat}

theorem act (h : x.Mirrors active plans) (hl : Lined x.tracker.queues) {a : Tracker.Action ε}
    (ha : ∀ jobs, a ≠ .recover jobs) : (x.act a).Mirrors active plans ∧ Lined (x.act a).tracker.queues := by
  cases a with
  | retire =>
    exact ⟨⟨⟨h.shows.pending, h.shows.active, h.shows.complete, h.shows.lastPlan⟩, h.failures, h.leases, h.plans⟩, hl⟩
  | reinstate =>
    exact ⟨⟨⟨h.shows.pending, h.shows.active, h.shows.complete, h.shows.lastPlan⟩, h.failures, h.leases, h.plans⟩, hl⟩
  | recover jobs => exact absurd rfl (ha jobs)
  | call now r write =>
    rcases x.act_call now r write with hx | hx | ⟨b, e, hc, hx⟩ <;> rw [hx]
    · exact ⟨h, hl⟩
    · refine ⟨⟨⟨h.shows.pending, h.shows.active, h.shows.complete, h.shows.lastPlan⟩, ?_, h.leases, h.plans⟩, hl⟩
      show x.tally.failures + 1 = .ofNat (x.failures + 1)
      rw [h.failures, UInt64.ofNat_add]
      rfl
    · have hb := hc.booked hl
      have hactive := congrArg UInt64.ofNat hb.active
      have hplans := congrArg UInt64.ofNat hb.plans
      simp only [UInt64.ofNat_add] at hactive hplans
      have hleases := h.leases
      have htracked := h.plans
      refine ⟨⟨?_, ?_, ?_, ?_⟩, hb.lined⟩
      · rcases hb.shown with ⟨evs, he⟩ | ⟨he, hs⟩
        · rw [he]
          exact (x.tally.shows_recordAll evs hb.lined.sound).1
        · rw [he]
          exact h.shows.of_stays hs
      · show (x.tally.recordAll e.events).failures = .ofNat x.failures
        rw [Tally.failures_recordAll, hb.durable, h.failures]
        exact UInt64.add_zero _
      · simp only [Tally.granted_recordAll, Tally.expired_recordAll, Tally.completed_recordAll, UInt64.ofNat_add]
        grind
      · simp only [Tally.plansCreated_recordAll, UInt64.ofNat_add]
        grind

theorem foldl {actions : List (Tracker.Action ε)} (h : x.Mirrors active plans) (hl : Lined x.tracker.queues)
    (ha : ∀ jobs, .recover jobs ∉ actions) : (actions.foldl Metered.act x).Mirrors active plans :=
  (List.foldlRecOn (motive := fun x : Metered => x.Mirrors active plans ∧ Lined x.tracker.queues) _ _ ⟨h, hl⟩
    fun _ ih _ hm => ih.1.act ih.2 fun jobs hj => ha jobs (hj ▸ hm)).1

end Mirrors

/-- The tracker finds its plan job, and the tally tells whether it is leased. -/
structure TellsPlan (x : Metered) : Prop where
  kept : x.tracker.PlanKept
  tells : x.tally.planLeased = x.tracker.planLeased

namespace TellsPlan

theorem act (h : x.TellsPlan) {a : Tracker.Action ε} (ha : ∀ jobs, a ≠ .recover jobs) : (x.act a).TellsPlan := by
  cases a with
  | retire => exact ⟨h.kept.of_eq rfl rfl rfl, h.tells⟩
  | reinstate => exact ⟨h.kept.of_eq rfl rfl rfl, h.tells⟩
  | recover jobs => exact absurd rfl (ha jobs)
  | call now r write =>
    rcases x.act_call now r write with hx | hx | ⟨b, e, hc, hx⟩ <;> rw [hx]
    · exact h
    · exact ⟨h.kept, h.tells⟩
    · have hkept := hc.planKept h.kept
      refine ⟨hkept, ?_⟩
      rcases (hc.booked h.kept.lined).shown with ⟨evs, he⟩ | ⟨he, hs⟩
      · rw [he]
        exact (x.tally.shows_recordAll evs hkept.lined.sound).2
      · rw [he]
        exact h.tells.trans (hs.planLeased_eq h.kept hkept).symm

theorem foldl {actions : List (Tracker.Action ε)} (h : x.TellsPlan) (ha : ∀ jobs, .recover jobs ∉ actions) :
    (actions.foldl Metered.act x).TellsPlan :=
  List.foldlRecOn _ _ h fun _ ih _ hm => ih.act fun jobs hj => ha jobs (hj ▸ hm)

end TellsPlan

/-- To begin with the tally shows the tracker, and has counted nothing. -/
theorem start_eq (recovered : Option RecoveredJobs) : ∃ t : Tracker, Lined t.queues ∧
    ((∀ jobs ∈ recovered, jobs.Spares) → t.PlanKept) ∧
    start recovered = ⟨t, ({} : Tally).recordAll t.gauges, 0, 0, 0⟩ := by
  cases recovered with
  | none =>
    exact ⟨.empty, lined_empty, fun _ => .of_empty rfl rfl rfl, rfl⟩
  | some jobs =>
    exact ⟨Tracker.empty.recover jobs, (Tracker.empty.recover_lined jobs).1,
      fun h => Tracker.planKept_recover .empty (h jobs rfl), rfl⟩

/-- Metrics mirror the tracker in every run. They do so whatever was recovered to begin with, but for the gauge that
tells whether the plan job is leased: this one needs that no compaction job which was recovered incomplete has the
plan job's name. -/
theorem tally_mirrors (recovered : Option RecoveredJobs) (actions : List (Tracker.Action ε))
    (h : ∀ jobs, .recover jobs ∉ actions) :
    (actions.foldl act (start recovered)).Mirrors (start recovered).tracker.active.length
      (start recovered).tracker.plans ∧
    ((∀ jobs ∈ recovered, jobs.Spares) →
      (actions.foldl act (start recovered)).tally.planLeased =
        (actions.foldl act (start recovered)).tracker.active.any Job.isPlan ∧
      (actions.foldl act (start recovered)).tally.planLeased =
        (actions.foldl act (start recovered)).tracker.planLeased) := by
  obtain ⟨t, hl, hk, hstart⟩ := start_eq recovered
  have hshows := ({} : Tally).shows_recordAll [] hl.sound
  rw [hstart]
  constructor
  · refine Mirrors.foldl ⟨hshows.1, rfl, ?_, ?_⟩ hl h
    · show UInt64.ofNat _ + 0 = UInt64.ofNat _ + 0 + 0 + 0
      simp only [UInt64.add_zero]
    · show UInt64.ofNat _ + 0 = UInt64.ofNat _ + 0
      rfl
  · intro hspares
    have hrun := TellsPlan.foldl (x := ⟨t, ({} : Tally).recordAll t.gauges, 0, 0, 0⟩) ⟨hk hspares, hshows.2⟩ h
    exact ⟨hrun.tells.trans hrun.kept.planLeased_eq, hrun.tells⟩

/-- A job and the plan job were recovered; the job is leased, its lease is given back, and the plan job is leased. -/
theorem tally_mirrors_cancelled :
    let jobs : RecoveredJobs := ⟨[⟨"a", ⟨["x"], false⟩, 1, .fresh .epoch⟩], some (.fresh .epoch)⟩
    let write : Batch → Except Unit Unit := fun _ => .ok ()
    let actions : List (Tracker.Action Unit) :=
      [.call .epoch .lease write, .call .epoch (.cancel "a" 1) write, .call .epoch .lease write,
        .call .epoch .lease write]
    let x := actions.foldl act (start (some jobs))
    (∀ jobs, .recover jobs ∉ actions) ∧ jobs.Spares ∧ x.tracker.active.map Job.id = ["a", planId] ∧
      x.cancelled = 1 ∧ x.tally.granted = 3 ∧ x.Mirrors 0 1 ∧ x.tally.planLeased = x.tracker.active.any Job.isPlan := by
  intro jobs write actions x
  have ha : ∀ jobs, .recover jobs ∉ actions := by simp [actions]
  have hs : jobs.Spares := by
    intro c hc _
    obtain rfl := List.mem_singleton.1 hc
    decide
  have h := tally_mirrors (some jobs) actions ha
  rw [show (start (some jobs)).tracker.active.length = 0 by decide +kernel,
    show (start (some jobs)).tracker.plans = 1 by decide +kernel] at h
  refine ⟨ha, hs, by decide +kernel, by decide +kernel, by decide +kernel, h.1, (h.2 ?_).1⟩
  rintro _ ⟨⟩
  exact hs

theorem recover_leased {c : CompactionJob} {s : JobState} (hc : c.state.status = .leased) (hs : s.status = .leased)
    (h : ¬ c.state.since ≤ s.since) :
    Tracker.empty.recover ⟨[c], some s⟩ = Tracker.empty.placeAll .active [.plan s, .compaction c] := by
  have hsort : [Job.compaction c, .plan s].mergeSort (fun a b => a.state.since ≤ b.state.since) =
      [.plan s, .compaction c] := by
    simp [List.mergeSort, List.MergeSort.Internal.splitInTwo, Job.state, h]
  simp [Tracker.recover, RecoveredJobs.withStatus, RecoveredJobs.planWithStatus, hc, hs, hsort]
  rfl

/-- Where a leased job with the plan job's name was recovered, the gauge may miss that the plan job is leased. The
other job is completed in its place, and so one more plan job is created and leased. When the lease of the first one
runs out, that of the second one is taken for it. -/
theorem mistaken_plan :
    let at' (s : UInt64) : Instant := (Instant.epoch.add? (.ofSeconds s)).getD .epoch
    let maintain (leaseSpan : UInt64) : Request :=
      .maintain ⟨.ofSeconds leaseSpan, .ofSeconds 3600, .ofSeconds 900⟩ (100 < leaseSpan)
    let jobs : RecoveredJobs :=
      ⟨[⟨planId, ⟨[], false⟩, 0, ⟨.leased, at' 10, 5, .epoch⟩⟩], some ⟨.leased, .epoch, 9, .epoch⟩⟩
    let write : Batch → Except Unit Unit := fun _ => .ok ()
    let actions : List (Tracker.Action Unit) :=
      [.completePlan 5 [], maintain 100000, .lease, maintain 50, .renew planId 1].map (.call (at' 100) · write)
    let x := actions.foldl act (start (some jobs))
    x.tally.planLeased = false ∧ x.tracker.planLeased = true ∧ x.tracker.active.any Job.isPlan = true := by
  intro at' maintain jobs write actions x
  have hx : x = actions.foldl act (start (some jobs)) := rfl
  rw [start, recover_leased rfl rfl (by decide +kernel)] at hx
  rw [hx]
  decide +kernel

end Metered

end CompactionLeasing

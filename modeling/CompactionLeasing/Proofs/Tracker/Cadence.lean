import CompactionLeasing.Proofs.Tracker.DueTimes
import CompactionLeasing.Proofs.Tracker.Histories

/-!
# The cadence of plans

In a run whose clock never goes back, all of whose maintenance plans by one interval and one delay, a plan job is
created no earlier than the delay after the interval boundary that follows the latest completion, no two are created
between the same two boundaries, and one is created as soon as an interval and a delay have passed (`cadence`).
-/

namespace CompactionLeasing

namespace Instant
variable {t : Instant} {n : Int}

theorem exists_ofNanos? (h : -(0x8000000000000000 * 1000000000) ≤ n) (h' : n < 0x8000000000000000 * 1000000000) :
    ∃ t, ofNanos? n = some t ∧ t.nanos = n := by
  unfold ofNanos?
  rw [dif_pos ⟨h, h'⟩]
  exact ⟨_, rfl, rfl⟩

end Instant

namespace Tracker
variable {policy : MaintenancePolicy} {interval delay : Span} {t t' : Tracker} {now c due clock : Instant}
  {r : Request} {b : Batch} {e : Effect Reply} {job : Job}

/-! ### The next plan -/

/-- The delay after the first boundary that is later than `c`. -/
def boundary (interval delay : Span) (c : Instant) : Int :=
  (c.nanos / interval.nanos + 1) * interval.nanos + delay.nanos

theorem boundary_mono (hi : 0 < interval.nanos) {c' : Instant} (h : c ≤ c') :
    boundary interval delay c ≤ boundary interval delay c' := by
  have hi' : (0 : Int) < interval.nanos := by omega
  have hdiv : c.nanos / interval.nanos ≤ c'.nanos / interval.nanos := Int.ediv_le_ediv hi' h
  have hmul := Int.mul_le_mul_of_nonneg_right (Int.add_le_add_right hdiv 1) (Int.le_of_lt hi')
  unfold boundary
  omega

theorem lt_boundary (hi : 0 < interval.nanos) (c : Instant) : c.nanos < boundary interval delay c := by
  have hi' : (0 : Int) < interval.nanos := by omega
  have hlt := Int.lt_ediv_add_one_mul_self c.nanos hi'
  unfold boundary
  omega

/-- What is not earlier than the boundary lies in a later window. -/
theorem window_lt (hi : 0 < interval.nanos) (h : boundary interval delay c ≤ now.nanos) :
    c.nanos / interval.nanos < now.nanos / interval.nanos := by
  have hi' : (0 : Int) < interval.nanos := by omega
  refine Int.lt_of_lt_of_le (Int.lt_succ _) (Int.le_ediv_of_mul_le hi' ?_)
  unfold boundary at h
  omega

/-- The sum of a time and an interval is rounded down to the boundary that follows the time. -/
theorem nanos_floorTo_of_add? {t : Instant} (hi : 0 < interval.nanos) (hc : 0 ≤ c.nanos)
    (ht : c.add? interval = some t) : (t.floorTo interval).nanos = (c.nanos / interval.nanos + 1) * interval.nanos := by
  have htn := Instant.nanos_of_add? ht
  rw [Instant.nanos_floorTo, if_pos ⟨by omega, by omega⟩]
  have hdef := Int.emod_def t.nanos interval.nanos
  have hdiv : t.nanos / interval.nanos = c.nanos / interval.nanos + 1 := by
    rw [htn, Int.add_ediv_of_dvd_right (Int.dvd_refl _), Int.ediv_self (by omega)]
  rw [hdiv, Int.mul_comm] at hdef
  omega

theorem nanos_nextPlan? (hi : 0 < policy.planInterval.nanos) (hc : 0 ≤ c.nanos)
    (h : nextPlan? policy c = some due) : due.nanos = boundary policy.planInterval policy.planDelay c := by
  obtain ⟨t, ht, hdue⟩ := nextPlan?_eq_some.1 h
  rw [Instant.nanos_of_add? hdue, nanos_floorTo_of_add? hi hc ht, boundary]

/-- An interval and a delay after the last completion, the next plan is due. -/
theorem planDue?_of_le (hi : 0 < policy.planInterval.nanos) (hc : 0 ≤ c.nanos) (ht : t.planTime = some c)
    (h : c.nanos + policy.planInterval.nanos + policy.planDelay.nanos ≤ now.nanos) :
    t.planDue? policy now = some true := by
  have hlow := c.le_nanos
  have hhigh := now.nanos_lt
  obtain ⟨next, hnext, hn⟩ := Instant.exists_ofNanos? (n := c.nanos + policy.planInterval.nanos) (by omega) (by omega)
  have hadd : c.add? policy.planInterval = some next := hnext
  have hmod := Int.emod_nonneg next.nanos (b := policy.planInterval.nanos) (by omega)
  have hfloor := next.nanos_floorTo policy.planInterval
  rw [if_pos ⟨by omega, by omega⟩] at hfloor
  have hlow' := (next.floorTo policy.planInterval).le_nanos
  obtain ⟨due, hdue, hd⟩ := Instant.exists_ofNanos? (n := (next.floorTo policy.planInterval).nanos + policy.planDelay.nanos)
    (by omega) (by omega)
  have hle : due ≤ now := by
    rw [Instant.le_iff]
    omega
  rw [planDue?_of_nextPlan? ht (nextPlan?_eq_some.2 ⟨next, hadd, hdue⟩), decide_eq_true hle]

/-- A plan that is wanted unforced after the last one was completed is not wanted before its boundary. -/
theorem boundary_le_of_wants (hi : 0 < policy.planInterval.nanos) (hc : 0 ≤ c.nanos) (ht : t.planTime = some c)
    (hw : t.wantsPlan? policy false now = some true) :
    boundary policy.planInterval policy.planDelay c ≤ now.nanos := by
  unfold wantsPlan? at hw
  split_ifs at hw with hs hf
  · cases hw
  · cases hf
  unfold planDue? at hw
  rw [ht] at hw
  obtain ⟨due, hdue, hle⟩ := Option.map_eq_some_iff.1 hw
  rw [← nanos_nextPlan? hi hc hdue]
  exact of_decide_eq_true hle

/-! ### The plan job and its events -/

/-- A plan job is created or completed. -/
def Marks (ev : Event) : Prop := ev = .offered ∨ ∃ n, ev = .completed n

/-- What a call means for the plan job, and for the time of the last plan. -/
inductive PlanTurn (t t' : Tracker) (now : Instant) (r : Request) : List Event → Prop
  | kept (evs : List Event) (he : ∀ ev ∈ evs, ¬ Marks ev)
      (hj : (t'.job? planId).isSome = (t.job? planId).isSome) (hc : t'.planTime = t.planTime) :
      PlanTurn t t' now r evs
  | created (policy : MaintenancePolicy) (force : Bool) (hr : r = .maintain policy force)
      (hw : t.wantsPlan? policy force now = some true) (ho : (t.job? planId).isSome = false)
      (hj : (t'.job? planId).isSome = true) (hc : t'.planTime = none) : PlanTurn t t' now r [.offered]
  | completed (n : Nat) (hj : (t'.job? planId).isSome = false) (hc : t'.planTime = some now) :
      PlanTurn t t' now r [.completed n]

theorem PlanTurn.silent (hj : (t'.job? planId).isSome = (t.job? planId).isSome) (hc : t'.planTime = t.planTime) :
    PlanTurn t t' now r [] :=
  .kept [] (fun _ he => absurd he List.not_mem_nil) hj hc

/-- Only maintenance that wants a plan writes a plan job that was not tracked. -/
theorem Serves.wants_of_write (h : t.Consistent) (hs : Serves t now r b e) (hm : job ∈ b.writes)
    (hid : job.id = planId) (hnone : t.job? planId = none) :
    ∃ policy force, r = .maintain policy force ∧ t.wantsPlan? policy force now = some true := by
  have untracked : ∀ {k slot old}, (slot, old) ∈ t.queues.toList k → job.id = old.id → False := by
    intro k slot old ho hj
    have hold := h.job?_of_mem ho
    rw [← hj, hid, hnone] at hold
    cases hold
  have unplanned : ∀ {ps}, job ∉ t.offered now ps := by
    intro ps ho
    exact h.planId_notMem_offered ps (List.mem_map.2 ⟨job, ho, hid⟩)
  cases hs with
  | maintain policy force wanted refilled events hw =>
    rcases List.mem_append.1 hm with hm | hm
    · obtain ⟨x, hx, rfl⟩ := List.mem_map.1 hm
      exact (untracked (mem_of_ranOut hx) (Job.id_release ..)).elim
    · cases wanted with
      | false => simp at hm
      | true => exact ⟨policy, force, rfl, hw⟩
  | lease slot old job' hf hj =>
    obtain rfl := List.mem_singleton.1 hm
    refine (untracked (List.mem_of_mem_head? hf) ?_).elim
    rw [(Job.lease?_eq_some.1 hj).2, Job.id_withState]
  | renew slot old ho =>
    obtain rfl := List.mem_singleton.1 hm
    exact (untracked ho (Job.id_renew ..)).elim
  | cancel slot old ho =>
    obtain rfl := List.mem_singleton.1 hm
    exact (untracked ho (Job.id_release ..)).elim
  | finish slot old ho =>
    obtain rfl := List.mem_singleton.1 hm
    exact (untracked ho (Job.id_complete ..)).elim
  | finishPlan slot old ho =>
    rcases List.mem_cons.1 hm with rfl | hm
    · exact (untracked ho rfl).elim
    · exact (unplanned hm).elim
  | completePlan slot old ps ho =>
    rcases List.mem_cons.1 hm with rfl | hm
    · exact (untracked ho rfl).elim
    · exact (unplanned hm).elim

/-- A request that writes the plan job. -/
theorem Serves.planTurn_of_write (h : t.Consistent) (hs : Serves t now r b e) (hm : job ∈ b.writes)
    (hid : job.id = planId) : PlanTurn t e.tracker now r [t.event r job] := by
  have hn := hs.nodup h
  rw [List.map_append] at hn
  have hput : t.job?.commit b planId = some job := by
    rw [JobTable.commit, ← hid, JobTable.putAll_of_mem hn.of_append_left hm]
  have hturn := hs.turn_of_write h hm
  rw [hid] at hturn
  have hcreated : t.job? planId = none → (e.tracker.job? planId).isSome = true → e.tracker.planTime = none →
      PlanTurn t e.tracker now r [.offered] := by
    intro hnone hj hc
    obtain ⟨policy, force, hr, hw⟩ := hs.wants_of_write h hm hid hnone
    exact .created policy force hr hw (by rw [hnone]; rfl) hj hc
  generalize t.event r job = ev at hturn ⊢
  generalize hold : t.job? planId = old at hturn
  -- The turn of the job and the outcome for the tracker have to agree.
  cases hs.outcome h with
  | kept hd ht =>
    have hafter : e.tracker.job? planId = some job := (ht.job? _).trans hput
    have hkept : (t.job? planId).isSome = true → ¬ Marks ev → PlanTurn t e.tracker now r [ev] := by
      intro hj hev
      refine .kept [ev] ?_ ?_ ht.planTime
      · rintro ev' hev'
        rwa [List.mem_singleton.1 hev']
      · rw [hafter, hj]; rfl
    cases hturn with
    | offered job hf =>
      refine hcreated hold (by rw [hafter]; rfl) ?_
      by_contra hc
      obtain ⟨c, hc⟩ := Option.ne_none_iff_exists'.1 hc
      rw [ht.consistent.job?_plan_of_planTime hc] at hafter
      cases hafter
    | granted old job ha hl => exact hkept (by rw [hold]; rfl) (by rintro (h | ⟨n, h⟩) <;> cases h)
    | renewed old hl => exact hkept (by rw [hold]; rfl) (by rintro (h | ⟨n, h⟩) <;> cases h)
    | released old hl => exact hkept (by rw [hold]; rfl) (by rintro (h | ⟨n, h⟩) <;> cases h)
    | completed old hl =>
      have hplan := (ht.consistent.isNamed hafter).1 hid
      refine absurd ?_ (ht.consistent.plan_incomplete hafter hplan)
      rw [Job.state_complete]; rfl
  | created hd hnone hnew ht =>
    rw [hnone] at hold
    subst hold
    cases hturn with
    | offered job hf =>
      refine hcreated hnone ?_ ht.planTime
      rw [ht.job?, hnew]; rfl
  | completed s hs' hl hdone ht =>
    rw [hput, Option.some.injEq] at hdone
    rw [hs'] at hold
    subst hold
    have hdone' : job.state.status = .complete := by rw [hdone]; rfl
    have hafter : (e.tracker.job? planId).isSome = false := by rw [ht.job?, JobTable.drop_self]; rfl
    cases hturn with
    | granted _ _ ha => rw [show (Job.plan s).state.status = .leased from hl] at ha; cases ha
    | renewed => rw [show ((Job.plan s).renew now).state.status = s.status from rfl, hl] at hdone'; cases hdone'
    | released => cases hdone'
    | completed => exact .completed _ hafter ht.planTime

theorem Serves.planTurn (h : t.Consistent) (hs : Serves t now r b e) :
    PlanTurn t e.tracker now r (t.events r b planId) := by
  by_cases hw : planId ∈ b.writes.map Job.id
  · obtain ⟨job, hj, hid⟩ := List.mem_map.1 hw
    rw [← hid, hs.events_of_write h hj]
    exact hs.planTurn_of_write h hj hid
  · have hd : planId ∉ b.deletes.map Job.id := by
      intro hd
      obtain ⟨job, hj, hid⟩ := List.mem_map.1 hd
      obtain ⟨c, rfl, hne, -⟩ := hs.complete_of_delete h hj
      exact hne hid
    have hcommit : t.job?.commit b planId = t.job? planId := by
      rw [JobTable.commit, JobTable.putAll_of_notMem hw, JobTable.dropAll_apply, if_neg hd]
    rw [events, filter_id_of_notMem hw, filter_id_of_notMem hd]
    cases hs.outcome h with
    | kept _ ht => exact .silent (by rw [ht.job?, hcommit]) ht.planTime
    | created _ hold hnew => rw [hcommit, hold] at hnew; cases hnew
    | completed s hold hl hdone =>
      rw [hcommit, hold, Option.some.injEq, Job.plan.injEq] at hdone
      have hstatus : s.status = .complete := congrArg JobState.status hdone
      rw [hl] at hstatus; cases hstatus

/-! ### Runs by a clock -/

namespace Chronicle
variable {x : Chronicle} {log : List (Instant × Event)}

/-- What a call has noted of the plan job, with the time of the call. -/
def dated (x y : Chronicle) (now : Instant) : List (Instant × Event) :=
  ((y.ledger.events planId).drop (x.ledger.events planId).length).map fun ev => (now, ev)

/-- A run of a new tracker by a clock that is not before the epoch and never goes back, with the dated events of the
plan job. Maintenance plans by one interval and one delay, and is never forced. -/
inductive Timed (interval delay : Span) : Chronicle → Instant → List (Instant × Event) → Prop
  | new : Timed interval delay ⟨.empty, .empty⟩ .epoch []
  | call {x : Chronicle} {clock : Instant} {log : List (Instant × Event)} (h : Timed interval delay x clock log) (now : Instant) (hc : clock ≤ now) (r : Request)
      (hr : ∀ policy force, r = .maintain policy force →
        policy.planInterval = interval ∧ policy.planDelay = delay ∧ force = false)
      (fault : Option StoreError) :
      Timed interval delay (x.after now r fault) now (log ++ x.dated (x.after now r fault) now)
  | retire {x : Chronicle} {clock : Instant} {log : List (Instant × Event)} (h : Timed interval delay x clock log) :
      Timed interval delay ⟨x.tracker.retire, x.ledger⟩ clock log
  | reinstate {x : Chronicle} {clock : Instant} {log : List (Instant × Event)} (h : Timed interval delay x clock log) :
      Timed interval delay ⟨x.tracker.reinstate, x.ledger⟩ clock log
  | restart {x : Chronicle} {clock : Instant} {log : List (Instant × Event)} (h : Timed interval delay x clock log) (t : Tracker) (jobs : List Job)
      (hn : (jobs.map Job.id).Nodup) (hj : JobTable.of jobs = x.ledger.jobs) :
      Timed interval delay ⟨t.recover (.ofJobs jobs), x.ledger⟩ clock log

/-- A plan job is created after the boundary that follows a completion, and in a later window than the ones
before. -/
def Spaced (interval delay : Span) (e e' : Instant × Event) : Prop :=
  e'.2 = .offered → ((∃ n, e.2 = .completed n) → boundary interval delay e.1 ≤ e'.1.nanos) ∧
    (e.2 = .offered → e.1.nanos / interval.nanos < e'.1.nanos / interval.nanos)

/-- The dated events as far as the tracker shows them. -/
structure Paced (interval delay : Span) (t : Tracker) (clock : Instant) (log : List (Instant × Event)) : Prop where
  dated : ∀ e ∈ log, 0 ≤ e.1.nanos ∧ e.1 ≤ clock
  now : 0 ≤ clock.nanos
  unmarked : t.planTime = none → (t.job? planId).isSome = false → ∀ e ∈ log, ¬ Marks e.2
  latest : ∀ c, t.planTime = some c → (∃ n, (c, .completed n) ∈ log) ∧ ∀ e ∈ log, Marks e.2 → e.1 ≤ c
  spaced : log.Pairwise (Spaced interval delay)

theorem Timed.reachable (h : Timed interval delay x clock log) : x.Reachable := by
  induction h with
  | new => exact .new
  | call _ now _ r _ fault ih => exact ih.call now r fault
  | retire _ ih => exact ih.retire
  | reinstate _ ih => exact ih.reinstate
  | restart _ t jobs hn hj ih => exact ih.restart t jobs hn hj

theorem Inv.planTurn (h : x.Inv) (now : Instant) (r : Request) (fault : Option StoreError) :
    ∃ evs, (x.after now r fault).ledger.events planId = x.ledger.events planId ++ evs ∧
      PlanTurn x.tracker (x.after now r fault).tracker now r evs := by
  rcases h.call_cases now r fault with ⟨he, -⟩ | ⟨b, e, hs, -, he⟩
  · rw [he]
    exact ⟨[], (List.append_nil _).symm, .silent rfl rfl⟩
  · rw [he]
    exact ⟨_, rfl, hs.planTurn h.consistent⟩

theorem dated_eq {y : Chronicle} {evs : List Event}
    (h : y.ledger.events planId = x.ledger.events planId ++ evs) (now : Instant) :
    x.dated y now = evs.map fun ev => (now, ev) := by
  rw [dated, h, List.drop_left]

theorem Timed.events (h : Timed interval delay x clock log) : log.map Prod.snd = x.ledger.events planId := by
  induction h with
  | new => rfl
  | call h now _ r _ fault ih =>
    obtain ⟨evs, hevs, -⟩ := h.reachable.inv.planTurn now r fault
    rw [dated_eq hevs, hevs, List.map_append, ih, List.map_map]
    simp
  | retire _ ih | reinstate _ ih | restart _ _ _ _ _ ih => exact ih

namespace Paced

/-- Events that do not mark the plan job, by which it and the time of the last plan stay as they are. -/
theorem quiet {log' : List (Instant × Event)} (h : Paced interval delay t clock log)
    (hdated : ∀ e ∈ log ++ log', 0 ≤ e.1.nanos ∧ e.1 ≤ now) (hnow : 0 ≤ now.nanos) (hnew : ∀ e ∈ log', ¬ Marks e.2)
    (hj : (t'.job? planId).isSome = (t.job? planId).isSome) (ht : t'.planTime = t.planTime) :
    Paced interval delay t' now (log ++ log') := by
  refine ⟨hdated, hnow, fun hc hp e he => ?_, fun c hc => ?_, ?_⟩
  · rcases List.mem_append.1 he with he | he
    · exact h.unmarked (ht ▸ hc) (hj ▸ hp) e he
    · exact hnew e he
  · obtain ⟨⟨n, hn⟩, hle⟩ := h.latest c (ht ▸ hc)
    refine ⟨⟨n, List.mem_append_left _ hn⟩, fun e he hm => ?_⟩
    rcases List.mem_append.1 he with he | he
    · exact hle e he hm
    · exact absurd hm (hnew e he)
  · have hall : ∀ e, ∀ e' ∈ log', Spaced interval delay e e' := fun e e' he' ho => absurd (.inl ho) (hnew e' he')
    refine List.pairwise_append.2 ⟨h.spaced, ?_, fun e _ => hall e⟩
    exact List.pairwise_of_forall_mem_list fun e _ => hall e

/-- A turn of the plan job at a time that is not before the clock. -/
theorem turn (hi : 0 < interval.nanos) (h : Paced interval delay t clock log) (hc : clock ≤ now)
    (hr : ∀ policy force, r = .maintain policy force →
      policy.planInterval = interval ∧ policy.planDelay = delay ∧ force = false)
    (evs : List Event) (ht : PlanTurn t t' now r evs) :
    Paced interval delay t' now (log ++ evs.map fun ev => (now, ev)) := by
  have hnow : 0 ≤ now.nanos := by
    have := h.now
    rw [Instant.le_iff] at hc
    omega
  have hold : ∀ e ∈ log, 0 ≤ e.1.nanos ∧ e.1 ≤ now := by
    intro e he
    obtain ⟨h₀, h₁⟩ := h.dated e he
    exact ⟨h₀, Int.le_trans h₁ hc⟩
  have hdated : ∀ e ∈ log ++ evs.map fun ev => (now, ev), 0 ≤ e.1.nanos ∧ e.1 ≤ now := by
    intro e he
    rcases List.mem_append.1 he with he | he
    · exact hold e he
    · obtain ⟨ev, -, rfl⟩ := List.mem_map.1 he
      exact ⟨hnow, Int.le_refl _⟩
  cases ht with
  | kept _ hev hj ht =>
    refine h.quiet hdated hnow (fun e he => ?_) hj ht
    obtain ⟨ev, hm, rfl⟩ := List.mem_map.1 he
    exact hev ev hm
  | created policy force hr' hw hnone hj ht =>
    obtain ⟨rfl, rfl, rfl⟩ := hr policy force hr'
    refine ⟨hdated, hnow, fun _ hp => ?_, fun c hc => ?_, ?_⟩
    · rw [hj] at hp; cases hp
    · rw [ht] at hc; cases hc
    refine List.pairwise_append.2 ⟨h.spaced, List.pairwise_singleton .., fun e he e' he' => ?_⟩
    obtain rfl := List.mem_singleton.1 he'
    intro _
    -- Whatever marks the plan job so far is not later than the last completion.
    have hspaced : Marks e.2 → boundary policy.planInterval policy.planDelay e.1 ≤ now.nanos := by
      intro hm
      cases hc : t.planTime with
      | none => exact absurd hm (h.unmarked hc hnone e he)
      | some c =>
        obtain ⟨⟨n, hn⟩, hle⟩ := h.latest c hc
        exact Int.le_trans (boundary_mono hi (hle e he hm)) (boundary_le_of_wants hi (h.dated _ hn).1 hc hw)
    exact ⟨fun hcomp => hspaced (.inr hcomp), fun hoff => window_lt hi (hspaced (.inl hoff))⟩
  | completed n hj ht =>
    refine ⟨hdated, hnow, fun hc => ?_, fun c hc => ?_, ?_⟩
    · rw [ht] at hc; cases hc
    · rw [ht, Option.some.injEq] at hc
      subst hc
      exact ⟨⟨n, by simp⟩, fun e he _ => (hdated e he).2⟩
    · refine List.pairwise_append.2 ⟨h.spaced, List.pairwise_singleton .., fun e he e' he' ho => ?_⟩
      rw [List.mem_singleton.1 he'] at ho
      cases ho

end Paced

theorem Timed.paced (hi : 0 < interval.nanos) (h : Timed interval delay x clock log) :
    Paced interval delay x.tracker clock log := by
  induction h with
  | new =>
    refine ⟨?_, Int.le_refl 0, ?_, ?_, .nil⟩
    · intro e he; cases he
    · intro _ _ e he; cases he
    · intro c hc; cases hc
  | call h now hc r hr fault ih =>
    obtain ⟨evs, hevs, hturn⟩ := h.reachable.inv.planTurn now r fault
    rw [dated_eq hevs]
    exact ih.turn hi hc hr evs hturn
  | retire _ ih => exact ⟨ih.dated, ih.now, ih.unmarked, ih.latest, ih.spaced⟩
  | reinstate _ ih => exact ⟨ih.dated, ih.now, ih.unmarked, ih.latest, ih.spaced⟩
  | restart h t jobs hn hj ih =>
    have hinv := h.reachable.inv
    have hm := hinv.mirrors
    rw [← hj] at hm
    have ht := hm.tracks_recover hinv.consistent hn t
    exact ⟨ih.dated, ih.now, fun hc hp => ih.unmarked (ht.planTime ▸ hc) (ht.job? _ ▸ hp),
      fun c hc => ih.latest c (ht.planTime ▸ hc), ih.spaced⟩

/-- Maintenance that wants a plan, and is made durable, creates one. -/
theorem Inv.creates (h : x.Inv) {policy : MaintenancePolicy} {force : Bool} (hr : x.tracker.retired = false)
    (hw : x.tracker.wantsPlan? policy force now = some true) :
    (x.after now (.maintain policy force) none).ledger.events planId = x.ledger.events planId ++ [.offered] ∧
      (x.after now (.maintain policy force) none).tracker.job? planId = some (.plan (.fresh now)) := by
  have hnone := h.consistent.job?_plan_of_wants hw
  obtain ⟨b, e, hp⟩ : ∃ b e, x.tracker.propose now (.maintain policy force) = .persist b e := by
    rw [propose, maintain_eq, hr, hw]
    simp only [Bool.not_true, Bool.and_false, Bool.false_eq_true, if_false]
    exact ⟨_, _, rfl⟩
  have hafter : x.after now (.maintain policy force) none =
      ⟨e.tracker, x.ledger.note x.tracker (.maintain policy force) b⟩ := by
    rw [Chronicle.after, Chronicle.call, Tracker.serve, hp]; rfl
  obtain ⟨-, hs⟩ := h.consistent.serves hp
  have hm : .plan (.fresh now) ∈ b.writes := by
    cases hs with
    | maintain _ _ wanted _ _ hw' =>
      rw [hw, Option.some.injEq] at hw'
      subst hw'
      simp
  have hev : x.tracker.events (.maintain policy force) b planId = [.offered] :=
    (hs.events_of_write h.consistent hm).trans (congrArg ([·]) (if_pos hnone))
  have hn := hs.nodup h.consistent
  rw [List.map_append] at hn
  have hput : x.tracker.job?.commit b planId = some (.plan (.fresh now)) :=
    JobTable.putAll_of_mem hn.of_append_left hm
  rw [hafter]
  refine ⟨congrArg (x.ledger.events planId ++ ·) hev, ?_⟩
  cases hs.outcome h.consistent with
  | kept _ ht => exact (ht.job? _).trans hput
  | created _ _ _ ht => exact (ht.job? _).trans hput
  | completed _ hold => rw [hnone] at hold; cases hold

/-- In every run by a clock that never goes back, with whatever leases, completions, failing writes and restarts: a
plan job that is created after a completion is created later, not before the delay after the next boundary; no two
are created in one window; and maintenance an interval and a delay after the latest completion creates one. -/
theorem cadence (hi : 0 < interval.nanos) (h : Timed interval delay x clock log) :
    log.map Prod.snd = x.ledger.events planId ∧
    log.Pairwise (fun e e' : Instant × Event => (∃ n, e.2 = .completed n) → e'.2 = .offered →
      (e.1.nanos / interval.nanos + 1) * interval.nanos + delay.nanos ≤ e'.1.nanos ∧ e.1 < e'.1) ∧
    log.Pairwise (fun e e' : Instant × Event => e.2 = .offered → e'.2 = .offered →
      e.1.nanos / interval.nanos ≠ e'.1.nanos / interval.nanos) ∧
    ∀ c now policy, (∃ n, (c, .completed n) ∈ log) → (∀ e ∈ log, (∃ n, e.2 = .completed n) → e.1 ≤ c) →
      clock ≤ now → c.nanos + interval.nanos + delay.nanos ≤ now.nanos →
      policy.planInterval = interval → policy.planDelay = delay →
      x.tracker.retired = false → x.tracker.job? planId = none →
      (x.after now (.maintain policy false) none).ledger.events planId = x.ledger.events planId ++ [.offered] ∧
        (x.after now (.maintain policy false) none).tracker.job? planId = some (.plan (.fresh now)) := by
  have hp := h.paced hi
  have hinv := h.reachable.inv
  refine ⟨h.events, hp.spaced.imp fun hs hc ho => ?_, hp.spaced.imp fun hs ho ho' => ?_, ?_⟩
  · have hb := (hs ho).1 hc
    exact ⟨hb, Int.lt_of_lt_of_le (lt_boundary hi _) hb⟩
  · have hlt := (hs ho').2 ho
    omega
  rintro c now policy ⟨n, hn⟩ hlatest - hle rfl rfl hr hnone
  refine hinv.creates hr ?_
  cases ht : x.tracker.planTime with
  | none => exact absurd (.inr ⟨n, rfl⟩) (hp.unmarked ht (by rw [hnone]; rfl) _ hn)
  | some c' =>
    obtain ⟨⟨n', hn'⟩, hle'⟩ := hp.latest c' ht
    have hcc : c' = c := by
      have h₁ := hlatest _ hn' ⟨n', rfl⟩
      have h₂ := hle' _ hn (.inr ⟨n, rfl⟩)
      exact Instant.ext_nanos (Int.le_antisymm h₁ h₂)
    subst hcc
    have hslots : x.tracker.slots.contains planId = false := by
      rw [Std.ExtTreeMap.contains_eq_isSome_getElem?, hinv.consistent.job?_plan_eq_none.1 hnone]; rfl
    unfold wantsPlan?
    rw [hslots]
    exact planDue?_of_le hi (hp.dated _ hn).1 ht hle

/-- Plans are spaced by a minute, with a delay of ten seconds. The plan job is created after five seconds and its
plan completed after thirty; maintenance is next due after seventy seconds, and creates a plan job after a hundred. -/
theorem cadence_minutely :
    let minute : Span := .ofSeconds 60
    let wait : Span := .ofSeconds 10
    let policy : MaintenancePolicy := ⟨minute, minute, wait⟩
    let at' (s : UInt64) : Instant := (Instant.epoch.add? (.ofSeconds s)).getD .epoch
    let leased : Chronicle := (Chronicle.mk .empty .empty)
      |>.after (at' 5) (.maintain policy false) none
      |>.after (at' 6) .lease none
    let planned := leased.after (at' 30) (.completePlan 1 []) none
    let log := [(at' 5, .offered), (at' 6, .granted 1), (at' 30, .completed 1)]
    0 < minute.nanos ∧ Timed minute wait planned (at' 30) log ∧
      (planned.after (at' 100) (.maintain policy false) none).ledger.events planId =
        [.offered, .granted 1, .completed 1, .offered] := by
  intro minute wait policy at' leased planned log
  have hi : 0 < minute.nanos := by decide
  have hplans : ∀ p force, Request.maintain policy false = .maintain p force →
      p.planInterval = minute ∧ p.planDelay = wait ∧ force = false := by
    rintro p force ⟨⟩
    exact ⟨rfl, rfl, rfl⟩
  have hrun : Timed minute wait planned (at' 30) log := by
    convert ((Timed.new.call (at' 5) (by decide) _ hplans none).call (at' 6) (by decide) .lease nofun none).call
      (at' 30) (by decide) (.completePlan 1 []) nofun none using 1
    decide +kernel
  have hevents : planned.ledger.events planId = [.offered, .granted 1, .completed 1] := by decide +kernel
  have hnext := (cadence hi hrun).2.2.2 (at' 30) (at' 100) policy ⟨1, by simp [log]⟩ ?_ (by decide) (by decide) rfl rfl
    (by decide +kernel) (by decide +kernel)
  · refine ⟨hi, hrun, ?_⟩
    rw [hnext.1, hevents]; rfl
  · rintro e he ⟨n, hn⟩
    rcases List.mem_cons.1 he with rfl | he
    · cases hn
    rcases List.mem_cons.1 he with rfl | he
    · cases hn
    obtain rfl := List.mem_singleton.1 he
    exact Int.le_refl _

end Chronicle

end Tracker

end CompactionLeasing

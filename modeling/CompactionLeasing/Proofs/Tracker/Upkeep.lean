import CompactionLeasing.Proofs.Tracker.Atomicity
import CompactionLeasing.Proofs.Tracker.Commits
import CompactionLeasing.Proofs.Tracker.DueTimes
import CompactionLeasing.Proofs.Tracker.Lineup

/-!
# What maintenance does

A `Clocked` tracker comes with the time at which each lease was last granted or renewed. Active jobs stand by these times
in every state of every run, so maintenance finds all leases that have run out although it stops at the first one that
has not. `upkeep_run`: what it writes, answers and leaves, by these times and by what can be seen of the tracker.
-/

namespace CompactionLeasing

/-- The job whose lease has been granted or renewed, if the request was answered so. -/
def Request.leased? : Request → Reply → Option JobId
  | .lease, .job job => job.map Job.id
  | .renew id _, .flag true => some id
  | _, _ => none

def Verdict.answer? {ε α : Type} : Verdict ε α → Option α
  | .done a => some a
  | _ => none

namespace Tracker
variable {ε : Type} {t : Tracker} {now : Instant} {r : Request} {b : Batch} {e : Effect Reply} {job : Job}
  {policy : MaintenancePolicy} {force wanted : Bool}

/-! ### Grants and renewals -/

theorem leased?_refusal (r : Request) : r.leased? r.refusal = none := by cases r <;> rfl

/-- A job that is leased after a request has been written only if the request granted or renewed its lease. -/
theorem Serves.leased_of_write (hs : Serves t now r b e) (hm : job ∈ b.writes)
    (hl : job.state.status = .leased) : r.leased? e.answer = some job.id ∧ job.state.since = now := by
  have planned : ∀ {old ps}, job ∉ (Job.plan old).complete now :: t.offered now ps := by
    intro old ps hm
    rcases List.mem_cons.1 hm with rfl | hm
    · cases hl
    · rw [t.status_offered now ps job hm] at hl
      cases hl
  cases hs with
  | maintain policy force wanted refilled events hw =>
    have hk := t.status_maintenance policy now wanted job hm
    rw [hl] at hk
    cases hk
  | lease slot old job' hf hj =>
    obtain rfl := List.mem_singleton.1 hm
    obtain ⟨-, rfl⟩ := Job.lease?_eq_some.1 hj
    exact ⟨rfl, by rw [Job.state_withState]⟩
  | renew slot old ho =>
    obtain rfl := List.mem_singleton.1 hm
    refine ⟨?_, by rw [Job.state_renew]; rfl⟩
    rw [Job.id_renew]
    rfl
  | cancel slot old ho =>
    obtain rfl := List.mem_singleton.1 hm
    rw [old.status_release now] at hl
    cases hl
  | finish slot old ho =>
    obtain rfl := List.mem_singleton.1 hm
    rw [Job.state_complete] at hl
    cases hl
  | finishPlan slot old ho => exact absurd hm planned
  | completePlan slot old ps ho => exact absurd hm planned

theorem Serves.mem_of_leased? {id : JobId} (hs : Serves t now r b e) (hl : r.leased? e.answer = some id) :
    id ∈ b.writes.map Job.id := by
  cases hs with
  | lease slot old job hf hj =>
    obtain rfl := Option.some.inj hl
    exact List.mem_singleton_self _
  | renew slot old ho =>
    obtain rfl := Option.some.inj hl
    exact List.mem_singleton.2 (Job.id_renew ..).symm
  | _ => cases hl

/-! ### Clocked trackers -/

/-- A tracker, and when the lease of each job was last granted or renewed. For jobs that were recovered since it is the
time that they came with. -/
structure Clocked where
  tracker : Tracker
  touched : JobId → Option Instant

namespace Clocked
variable {x : Clocked}

def act (x : Clocked) : Action ε → Clocked
  | .call now r write =>
    let s := x.tracker.serve now r () write
    ⟨s.tracker, match s.verdict.answer?.bind r.leased? with
      | some id => Function.update x.touched id (some now)
      | none => x.touched⟩
  | .retire => { x with tracker := x.tracker.retire }
  | .reinstate => { x with tracker := x.tracker.reinstate }
  | .recover jobs => ⟨x.tracker.recover jobs, fun id => (JobTable.of jobs.tracked id).map fun job => job.state.since⟩

def run (actions : List (Action ε)) : Clocked := actions.foldl act ⟨empty, fun _ => none⟩

structure Inv (x : Clocked) : Prop where
  consistent : x.tracker.Consistent
  lined : Lined x.tracker.queues
  touched : ∀ job ∈ x.tracker.active, x.touched job.id = some job.state.since

/-- A batch that is made durable. -/
theorem Inv.commit (h : x.Inv) (hs : Serves x.tracker now r b e) (hj : job ∈ e.tracker.active) :
    (r.leased? e.answer = some job.id ∧ job.state.since = now) ∨
      job.id ∉ b.writes.map Job.id ∧ x.touched job.id = some job.state.since := by
  have h' := (hs.outcome h.consistent).consistent
  obtain ⟨hafter, hleased⟩ := h'.mem_items (k := .active).1 hj
  rcases hs.job?_after h.consistent job.id with hc | ⟨hc, -⟩
  · rw [hc] at hafter
    rcases JobTable.putAll_eq_some hafter with ⟨hw, -⟩ | ⟨hw, hd⟩
    · exact .inl (hs.leased_of_write hw hleased)
    · refine .inr ⟨hw, h.touched job (h.consistent.mem_items.2 ⟨?_, hleased⟩)⟩
      rw [JobTable.dropAll_apply] at hd
      split_ifs at hd
      exact hd
  · rw [hc] at hafter
    cases hafter

theorem Inv.act (h : x.Inv) (a : Action ε) (ha : ∀ jobs, a = .recover jobs → jobs.Apart) : (x.act a).Inv := by
  cases a with
  | retire => exact ⟨(h.consistent.tracks.withRetired true).consistent, h.lined, h.touched⟩
  | reinstate => exact ⟨(h.consistent.tracks.withRetired false).consistent, h.lined, h.touched⟩
  | recover jobs =>
    have ht := x.tracker.tracks_recover (ha jobs rfl)
    refine ⟨ht.consistent, (x.tracker.recover_lined jobs).1, fun job hj => ?_⟩
    show (JobTable.of jobs.tracked job.id).map _ = _
    rw [← ht.job?, (ht.consistent.mem_items (k := .active).1 hj).1]
    rfl
  | call now r write =>
    refine ⟨h.consistent.serve .., h.lined.serve .., ?_⟩
    have hs := h.consistent.settled now r () write
    simp only [Clocked.act]
    generalize x.tracker.serve now r () write = s at hs ⊢
    cases hs with
    | refused => simpa [Verdict.answer?, leased?_refusal] using h.touched
    | overflow => exact h.touched
    | failed => exact h.touched
    | committed b e store' _ hs _ =>
      intro job hj
      simp only [Verdict.answer?, Option.bind_some]
      rcases h.commit hs hj with ⟨hl, hsince⟩ | ⟨hw, ht⟩
      · rw [hl, hsince]
        exact Function.update_self ..
      · cases hl : r.leased? e.answer with
        | none => exact ht
        | some id =>
          refine (Function.update_of_ne (fun hid => hw ?_) ..).trans ht
          exact hid ▸ hs.mem_of_leased? hl

theorem Inv.foldl {actions : List (Action ε)} (h : x.Inv) (ha : ∀ jobs, .recover jobs ∈ actions → jobs.Apart) :
    (actions.foldl Clocked.act x).Inv :=
  List.foldlRecOn _ _ h fun _ ih a hm => ih.act a fun jobs hj => ha jobs (hj ▸ hm)

end Clocked

/-! ### Leases that have run out -/

theorem leaseRanOut_iff {since : Instant} :
    leaseRanOut policy now since = true ↔ since.nanos + policy.leaseSpan.nanos < now.nanos := by
  unfold leaseRanOut Instant.since?
  split
  · rename_i hnone
    split_ifs at hnone with hle
    exact iff_of_false Bool.false_ne_true (by omega)
  · rename_i age hage
    split_ifs at hage with hle
    cases hage
    rw [decide_eq_true_iff, Span.lt_iff]
    show policy.leaseSpan.nanos < (now.nanos - since.nanos).toNat ↔ _
    omega

/-- Active jobs stand by the times of their leases, so no lease that has run out stands behind one that has not. -/
theorem ranOut_eq_filter (h : Lined t.queues) (policy : MaintenancePolicy) (now : Instant) : t.ranOut policy now =
    (t.queues.toList .active).filter fun e => leaseRanOut policy now e.2.state.since := by
  refine Sorting.takeWhile_eq_filter (h.ordered .active) fun a b hab hb => ?_
  have hle : a.2.state.since.nanos ≤ b.2.state.since.nanos := hab
  rw [leaseRanOut_iff] at hb ⊢
  omega

theorem map_ranOut (h : Lined t.queues) (policy : MaintenancePolicy) (now : Instant) :
    (t.ranOut policy now).map Prod.snd = t.active.filter fun job => leaseRanOut policy now job.state.since := by
  rw [ranOut_eq_filter h, active, Queues.items, List.filter_map]
  rfl

theorem active_maintained (h : Lined t.queues) (policy : MaintenancePolicy) (now : Instant) (wanted : Bool) :
    (t.maintained policy now wanted).active = t.active.filter fun job => !leaseRanOut policy now job.state.since := by
  obtain ⟨new, hnew, hr⟩ := h.maintained policy now wanted
  refine hr.items_of_status (fun e he hs => ?_) fun (slot, job) he => ?_
  · have hk := t.status_maintenance policy now wanted e.2 (hnew ▸ List.mem_map_of_mem he)
    rw [hs] at hk
    cases hk
  · rw [Bool.not_eq_true', ← Bool.not_eq_true, not_iff_not, ranOut_eq_filter h]
    constructor
    · exact fun hout => List.mem_map_of_mem (List.mem_filter.2 ⟨he, hout⟩)
    · intro hm
      obtain ⟨⟨slot, old⟩, hx, rfl⟩ := List.mem_map.1 hm
      obtain ⟨hx, hout⟩ := List.mem_filter.1 hx
      rwa [job_unique h.sound he hx]

/-- No lease has run out after maintenance. -/
theorem ranOut_maintained (h : Lined t.queues) (policy : MaintenancePolicy) (now : Instant) (wanted : Bool) :
    (t.maintained policy now wanted).ranOut policy now = [] := by
  obtain ⟨new, -, hr⟩ := h.maintained policy now wanted
  rw [← List.map_eq_nil_iff (f := Prod.snd), map_ranOut (hr.lined h), active_maintained h, List.filter_filter,
    List.filter_eq_nil_iff]
  intro job _
  rw [Bool.and_not_self]
  nofun

theorem pending_maintained (h : Lined t.queues) (policy : MaintenancePolicy) (now : Instant) (wanted : Bool) :
    SameLevels (t.maintained policy now wanted).pending
      (t.pending ++ ((t.ranOut policy now).map (fun e => e.2.release now) ++
        if wanted then [Job.plan (.fresh now)] else [])) := by
  obtain ⟨new, hnew, hr⟩ := h.maintained policy now wanted
  refine hr.sameLevels h.sound (fun i hi => ?_) hnew (t.status_maintenance policy now wanted)
  obtain ⟨x, hx, rfl⟩ := List.mem_map.1 hi
  exact List.mem_map_of_mem (mem_of_ranOut hx)

/-! ### Plan jobs that are wanted -/

/-- When the next plan is due: the delay after the boundary that is not later than an interval after the last plan. Times
before the epoch are not rounded. -/
def dueNanos (policy : MaintenancePolicy) (completed : Instant) : Int :=
  let next := completed.nanos + policy.planInterval.nanos
  (if 0 ≤ next ∧ policy.planInterval.nanos ≠ 0 then next - next % policy.planInterval.nanos else next) +
    policy.planDelay.nanos

def PlanDue (t : Tracker) (policy : MaintenancePolicy) (now : Instant) : Prop :=
  ∀ completed, t.planTime = some completed → dueNanos policy completed ≤ now.nanos

theorem nanos_of_nextPlan? {completed due : Instant} (h : nextPlan? policy completed = some due) :
    due.nanos = dueNanos policy completed := by
  obtain ⟨next, hnext, hdue⟩ := nextPlan?_eq_some.1 h
  rw [Instant.nanos_of_add? hdue, Instant.nanos_floorTo, Instant.nanos_of_add? hnext]
  rfl

theorem Consistent.exists_wants (h : t.Consistent) (hn : ¬ t.Overflows now (.maintain policy force)) :
    ∃ wanted, t.wantsPlan? policy force now = some wanted ∧
      (wanted = true ↔ ¬ t.HasPlan ∧ (force = true ∨ t.PlanDue policy now)) := by
  have hplan : t.HasPlan ↔ t.slots.contains planId = true := by
    rw [h.hasPlan_iff, ← Option.ne_none_iff_isSome, ne_eq, h.job?_plan_eq_none, ← ne_eq, Option.ne_none_iff_isSome,
      Std.ExtTreeMap.isSome_getElem?_eq_contains]
  unfold wantsPlan?
  split_ifs with hs hf
  · exact ⟨false, rfl, iff_of_false Bool.false_ne_true fun hw => hw.1 (hplan.2 hs)⟩
  · exact ⟨true, rfl, iff_of_true rfl ⟨mt hplan.1 hs, .inl hf⟩⟩
  · unfold planDue?
    split
    · rename_i hnone
      refine ⟨true, rfl, iff_of_true rfl ⟨mt hplan.1 hs, .inr fun completed hc => ?_⟩⟩
      rw [hnone] at hc
      cases hc
    · rename_i completed hc
      obtain rfl : force = false := by simpa using hf
      obtain ⟨due, hdue⟩ := Option.ne_none_iff_exists'.1 fun hnext => hn (.time policy completed hc hnext)
      refine ⟨decide (due ≤ now), by rw [hdue]; rfl, ?_⟩
      rw [decide_eq_true_iff, Instant.le_iff, nanos_of_nextPlan? hdue]
      constructor
      · refine fun hle => ⟨mt hplan.1 hs, .inr fun c hc' => ?_⟩
        rw [hc] at hc'
        cases hc'
        exact hle
      · rintro ⟨-, hf | hdue⟩
        · cases hf
        · exact hdue completed hc

theorem slots_releaseAll (t : Tracker) (now : Instant) (es : List (Slot × Job)) :
    (t.releaseAll now es).slots = t.slots := by
  induction es generalizing t with
  | nil => rfl
  | cons e es ih => exact ih (t.replace e.1 .pending (e.2.release now))

theorem complete_releaseAll (t : Tracker) (now : Instant) (es : List (Slot × Job)) :
    (t.releaseAll now es).complete = t.complete := by
  induction es generalizing t with
  | nil => rfl
  | cons e es ih => exact ih (t.replace e.1 .pending (e.2.release now))

/-- After maintenance no plan job is wanted. -/
theorem wantsPlan?_maintained (hw : t.wantsPlan? policy force now = some wanted) :
    (t.maintained policy now wanted).wantsPlan? policy force now = some false := by
  cases wanted with
  | true =>
    have hs : (t.maintained policy now true).slots.contains planId = true := Std.ExtTreeMap.contains_insert_self
    unfold wantsPlan?
    rw [if_pos hs]
  | false =>
    have hslots : (t.maintained policy now false).slots = t.slots := slots_releaseAll ..
    have htime : (t.maintained policy now false).planTime = t.planTime := planTime_releaseAll ..
    unfold wantsPlan? planDue? at hw ⊢
    rwa [hslots, htime]

/-! ### Maintenance carried out -/

theorem ask_maintain (hr : t.retired = false) (hw : t.wantsPlan? policy force now = some wanted) :
    let s := t.ask now (.maintain policy force) fun _ => (none : Option ε)
    let written := (t.ranOut policy now).map (fun e => e.2.release now) ++ if wanted then [.plan (.fresh now)] else []
    s.tracker = t.maintained policy now wanted ∧
      s.verdict = .done (.flag (!t.hasPending && (t.maintained policy now wanted).hasPending)) ∧
      s.noted = if written = [] then [] else [⟨written, []⟩] := by
  intro s written
  have hs : s = ((t.maintain policy force now).map .flag).settle t [] (Batch.note (fun _ => none) []) := rfl
  rw [maintain_eq, hr, hw] at hs
  simp only [Bool.false_eq_true, if_false] at hs
  have hwritten : written = [] ↔ t.ranOut policy now = [] ∧ wanted = false := by
    cases wanted <;> simp [written]
  by_cases hnone : ((t.ranOut policy now).isEmpty && !wanted) = true
  · rw [if_pos hnone] at hs
    rw [Bool.and_eq_true, List.isEmpty_iff, Bool.not_eq_true'] at hnone
    obtain ⟨hout, rfl⟩ := hnone
    have hsame : t.maintained policy now false = t := by
      unfold maintained
      rw [hout]
      rfl
    rw [hs, hsame, Bool.not_and_self, if_pos (hwritten.2 ⟨hout, rfl⟩)]
    exact ⟨rfl, rfl, rfl⟩
  · rw [if_neg hnone] at hs
    have hne : written ≠ [] := by
      intro hnil
      obtain ⟨hout, rfl⟩ := hwritten.1 hnil
      exact hnone (by rw [hout]; rfl)
    rw [hs, if_neg hne]
    exact ⟨rfl, rfl, rfl⟩

/-- Maintenance that finds nothing to do. -/
theorem ask_maintain_settled (hout : t.ranOut policy now = []) (hw : t.wantsPlan? policy force now = some false) :
    t.ask now (.maintain policy force) (fun _ => (none : Option ε)) = ⟨.done (.flag false), t, [], [], false⟩ := by
  have hp : t.maintain policy force now = .settled false := by
    rw [maintain_eq, hw, hout]
    split <;> rfl
  unfold ask Tracker.serve propose
  simp only [hp]
  rfl

namespace Clocked
variable {x : Clocked}

/-- The active jobs whose leases were granted or renewed longer than the span of a lease ago. -/
def expired (x : Clocked) (policy : MaintenancePolicy) (now : Instant) : List Job :=
  x.tracker.active.filter fun job =>
    (x.touched job.id).any fun since => since.nanos + policy.leaseSpan.nanos < now.nanos

/-- The jobs that maintenance writes: those whose leases have run out, available again, and then a plan job. -/
def written (x : Clocked) (policy : MaintenancePolicy) (now : Instant) (wanted : Bool) : List Job :=
  (x.expired policy now).map (fun job => job.release now) ++ if wanted then [.plan (.fresh now)] else []

/-- All that follows from maintenance: what it writes and answers, and the tracker. -/
structure Upkeep (x : Clocked) (policy : MaintenancePolicy) (force : Bool) (now : Instant) (wanted : Bool)
    (s : Settlement (List Batch × ε) (List Batch) Reply) : Prop where
  wanted_iff : wanted = true ↔ ¬ x.tracker.HasPlan ∧ (force = true ∨ x.tracker.PlanDue policy now)
  noted : s.noted = if x.written policy now wanted = [] then [] else [⟨x.written policy now wanted, []⟩]
  verdict : s.verdict = .done (.flag (decide (x.tracker.pending = [] ∧ s.tracker.pending ≠ [])))
  active : s.tracker.active = x.tracker.active.filter fun job => job ∉ x.expired policy now
  pending : SameLevels s.tracker.pending (x.tracker.pending ++ x.written policy now wanted) ∧
    s.tracker.pending.Pairwise fun a b => a.Ahead .pending b
  complete : s.tracker.complete = x.tracker.complete
  planTime : s.tracker.planTime = if wanted then none else x.tracker.planTime
  /-- The same request at the same time does nothing more. -/
  again : s.tracker.ask now (.maintain policy force) (fun _ => (none : Option ε)) =
    ⟨.done (.flag false), s.tracker, [], [], false⟩

theorem Inv.leaseRanOut_iff (h : x.Inv) (hj : job ∈ x.tracker.active) :
    leaseRanOut policy now job.state.since = true ↔ job ∈ x.expired policy now := by
  unfold expired
  rw [Tracker.leaseRanOut_iff, List.mem_filter, and_iff_right hj, h.touched job hj, Option.any_some, decide_eq_true_iff]

theorem Inv.map_ranOut (h : x.Inv) (policy : MaintenancePolicy) (now : Instant) :
    (x.tracker.ranOut policy now).map Prod.snd = x.expired policy now := by
  rw [Tracker.map_ranOut h.lined]
  refine List.filter_congr fun job hj => ?_
  rw [h.touched job hj, Option.any_some, Bool.eq_iff_iff, Tracker.leaseRanOut_iff, decide_eq_true_iff]

theorem Inv.upkeep (h : x.Inv) (hr : x.tracker.retired = false)
    (hn : ¬ x.tracker.Overflows now (.maintain policy force)) : ∃ wanted, x.Upkeep policy force now wanted
      (x.tracker.ask now (.maintain policy force) fun _ => (none : Option ε)) := by
  obtain ⟨wanted, hw, hiff⟩ := h.consistent.exists_wants hn
  obtain ⟨htracker, hverdict, hnoted⟩ := ask_maintain (ε := ε) hr hw
  obtain ⟨new, -, hrearranged⟩ := h.lined.maintained policy now wanted
  have hlined : Lined (x.tracker.maintained policy now wanted).queues := hrearranged.lined h.lined
  have hwritten : (x.tracker.ranOut policy now).map (fun e => e.2.release now) ++
      (if wanted then [.plan (.fresh now)] else []) = x.written policy now wanted := by
    unfold written
    rw [← h.map_ranOut, List.map_map]
    rfl
  have hactive : (x.tracker.maintained policy now wanted).active =
      x.tracker.active.filter fun job => job ∉ x.expired policy now := by
    rw [active_maintained h.lined]
    refine List.filter_congr fun job hj => ?_
    rw [Bool.eq_iff_iff, Bool.not_eq_true', ← Bool.not_eq_true, h.leaseRanOut_iff hj, decide_eq_true_iff]
  refine ⟨wanted, hiff, hwritten ▸ hnoted, ?_, ?_, ?_, ?_, ?_, ?_⟩
  · rw [hverdict, htracker]
    refine congrArg (Verdict.done ∘ Reply.flag) ?_
    rw [Bool.eq_iff_iff, Bool.and_eq_true, Bool.not_eq_true', ← Bool.not_eq_true, hasPending_iff h.lined.sound,
      hasPending_iff hlined.sound, not_not, decide_eq_true_iff]
  · rw [htracker, hactive]
  · rw [htracker, ← hwritten]
    exact ⟨pending_maintained h.lined policy now wanted, List.pairwise_map.2 (hlined.ordered .pending)⟩
  · rw [htracker]
    cases wanted <;> exact complete_releaseAll ..
  · rw [htracker]
    cases wanted with
    | true => rfl
    | false => exact planTime_releaseAll ..
  · rw [htracker]
    exact ask_maintain_settled (ranOut_maintained h.lined policy now wanted) (wantsPlan?_maintained hw)

/-- In every state of every run of a tracker that is not retired, unless the time of the next plan leaves its range. -/
theorem upkeep_run (actions : List (Action ε)) (ha : ∀ jobs, .recover jobs ∈ actions → jobs.Apart)
    (policy : MaintenancePolicy) (force : Bool) (now : Instant) :
    let x := run actions
    x.tracker.retired = false → ¬ x.tracker.Overflows now (.maintain policy force) →
      ∃ wanted, x.Upkeep policy force now wanted
        (x.tracker.ask now (.maintain policy force) fun _ => (none : Option ε)) := by
  intro x hr hn
  have hstart : Inv ⟨empty, fun _ => none⟩ := by
    refine ⟨consistent_empty, lined_empty, fun job hj => ?_⟩
    simp [active, empty, Queues.items] at hj
  exact (hstart.foldl ha).upkeep hr hn

/-- Of two leases one is renewed, just so late that it has not run out when the other one has. -/
theorem upkeep_run_renewed :
    let jobs : RecoveredJobs :=
      ⟨[⟨"a", ⟨[], false⟩, 1, ⟨.leased, .epoch, 1, .epoch⟩⟩, ⟨"b", ⟨[], false⟩, 2, .fresh .epoch⟩],
        some ⟨.complete, .epoch, 1, .epoch⟩⟩
    let renewed : Instant := ⟨100, by decide, by decide⟩
    let now : Instant := ⟨200, by decide, by decide⟩
    let policy : MaintenancePolicy := ⟨⟨100, by decide⟩, ⟨50, by decide⟩, ⟨0, by decide⟩⟩
    let actions : List (Action Unit) :=
      [.recover jobs, .call .epoch .lease fun _ => .ok (), .call renewed (.renew "b" 1) fun _ => .ok ()]
    let x := run actions
    let s := x.tracker.ask now (.maintain policy false) fun _ => (none : Option Unit)
    jobs.Apart ∧ x.tracker.retired = false ∧ ¬ x.tracker.Overflows now (.maintain policy false) ∧
      (∃ wanted, x.Upkeep policy false now wanted s) ∧ (x.expired policy now).map Job.id = ["a"] ∧
      s.tracker.view = ⟨["a", planId], ["b"], [], false, none⟩ ∧ s.verdict = .done (.flag true) := by
  intro jobs renewed now policy actions x s
  have ha : jobs.Apart := ⟨by decide, by decide⟩
  have hall : ∀ js, .recover js ∈ actions → js.Apart := by
    intro js hj
    obtain rfl : js = jobs := by simpa [actions] using hj
    exact ha
  have hr : x.tracker.retired = false := by decide +kernel
  have ht : x.tracker.planTime = some .epoch := by decide +kernel
  have hn : ¬ x.tracker.Overflows now (.maintain policy false) := by
    rintro (⟨_, completed, hc, hnext⟩ | _)
    rw [ht] at hc
    cases hc
    exact absurd hnext (by decide)
  exact ⟨ha, hr, hn, upkeep_run actions hall policy false now hr hn, by decide +kernel, by decide +kernel,
    by decide +kernel⟩

end Clocked

end Tracker

end CompactionLeasing

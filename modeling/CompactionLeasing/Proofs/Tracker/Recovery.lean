import CompactionLeasing.Proofs.Tracker.Tracks
import CompactionLeasing.Tracker.Recovery

/-!
# A rebuilt tracker

Jobs with distinct names are rebuilt to a consistent tracker of just these jobs. Of a complete plan job
only its time is kept.
-/

namespace CompactionLeasing

namespace RecoveredJobs

/-- The names of the compaction jobs are distinct, and none is the name of the plan job. -/
structure Apart (r : RecoveredJobs) : Prop where
  nodup : (r.compaction.map (·.id)).Nodup
  named : ∀ c ∈ r.compaction, c.id ≠ planId

/-- The jobs that a tracker rebuilt from `r` tracks. -/
def tracked (r : RecoveredJobs) : List Job :=
  r.compaction.map .compaction ++ (r.planWithStatus .available ++ r.planWithStatus .leased)

/-- When the plan job was completed, if it is complete. -/
def planTime (r : RecoveredJobs) : Option Instant :=
  (r.planWithStatus .complete).head?.map fun job => job.state.since

variable {r : RecoveredJobs} {job : Job} {status : JobStatus} {c : CompactionJob}

theorem mem_planWithStatus :
    job ∈ r.planWithStatus status ↔ ∃ s, r.plan = some s ∧ s.status = status ∧ job = .plan s := by
  rw [planWithStatus]
  cases r.plan with
  | none => simp
  | some s => by_cases hs : s.status = status <;> simp [hs]

theorem mem_withStatus : c ∈ r.withStatus status ↔ c ∈ r.compaction ∧ c.state.status = status := by
  simp [withStatus]

theorem withStatus_perm (r : RecoveredJobs) :
    (r.withStatus .complete ++ (r.withStatus .available ++ r.withStatus .leased)).Perm r.compaction := by
  simp only [withStatus]
  induction r.compaction with
  | nil => exact .nil
  | cons c cs ih =>
    cases hs : c.state.status with
    | complete => simpa [List.filter_cons, hs] using ih
    | available => simpa [List.filter_cons, hs] using List.perm_middle.trans (ih.cons c)
    | leased =>
      simp only [List.filter_cons, hs, decide_true, if_true]
      rw [← List.append_assoc] at ih ⊢
      exact List.perm_middle.trans (ih.cons c)

theorem Apart.nodup_tracked (h : r.Apart) : (r.tracked.map Job.id).Nodup := by
  have hplan : ((r.planWithStatus .available ++ r.planWithStatus .leased).map Job.id).Nodup := by
    simp only [planWithStatus]
    cases r.plan with
    | none => exact .nil
    | some s => cases hs : s.status <;> simp [hs]
  rw [tracked, List.map_append, List.map_map]
  refine List.Nodup.append h.nodup hplan fun id hc hp => ?_
  obtain ⟨c, hm, rfl⟩ := List.mem_map.1 hc
  obtain ⟨job, hm', hid⟩ := List.mem_map.1 hp
  have hj : job.id = planId := by
    rcases List.mem_append.1 hm' with hm' | hm'
    all_goals
      obtain ⟨s, -, -, rfl⟩ := mem_planWithStatus.1 hm'
      rfl
  exact h.named c hm (hid.symm.trans hj)

theorem planTime_eq_some {s : JobState} (hp : r.plan = some s) (hs : s.status = .complete) :
    r.planTime = some s.since := by
  simp [planTime, planWithStatus, hp, hs, Job.state]

theorem Apart.of_tracked_plan (h : r.Apart) {s : JobState} (hp : r.plan = some s)
    (hs : s.status ≠ .complete) :
    JobTable.of r.tracked planId = some (.plan s) := by
  refine (JobTable.of_eq_some h.nodup_tracked).2 ⟨List.mem_append_right _ (List.mem_append.2 ?_), rfl⟩
  rw [mem_planWithStatus, mem_planWithStatus]
  cases hst : s.status with
  | available => exact .inl ⟨s, hp, hst, rfl⟩
  | leased => exact .inr ⟨s, hp, hst, rfl⟩
  | complete => exact absurd hst hs

/-! ### Jobs taken apart -/

section OfJobs
variable {jobs : List Job} {s : JobState}

theorem mem_compaction_ofJobs : c ∈ (ofJobs jobs).compaction ↔ .compaction c ∈ jobs := by
  rw [ofJobs, List.mem_filterMap]
  constructor
  · rintro ⟨job, hj, hc⟩
    cases job with
    | plan s => cases hc
    | compaction c' => cases hc; exact hj
  · exact fun hj => ⟨_, hj, rfl⟩

theorem plan_ofJobs (hn : (jobs.map Job.id).Nodup) : (ofJobs jobs).plan = some s ↔ .plan s ∈ jobs := by
  have hmem : ∀ s, s ∈ jobs.filterMap Job.plan? ↔ .plan s ∈ jobs := by
    intro s
    rw [List.mem_filterMap]
    constructor
    · rintro ⟨job, hj, hs⟩
      cases job with
      | plan s' => cases hs; exact hj
      | compaction c => cases hs
    · exact fun hj => ⟨_, hj, rfl⟩
  constructor
  · exact fun hs => (hmem s).1 (List.mem_of_getLast? hs)
  · intro hj
    obtain ⟨s', hs'⟩ : ∃ s', (jobs.filterMap Job.plan?).getLast? = some s' :=
      Option.isSome_iff_exists.1 (List.getLast?_isSome.2 (List.ne_nil_of_mem ((hmem s).2 hj)))
    -- The names are distinct, so there is no other plan job.
    have he := List.inj_on_of_nodup_map hn hj ((hmem s').1 (List.mem_of_getLast? hs')) rfl
    cases he
    exact hs'

theorem apart_ofJobs (hn : (jobs.map Job.id).Nodup) (hnamed : ∀ job ∈ jobs, job.IsNamed) :
    (ofJobs jobs).Apart := by
  refine ⟨?_, fun c hc hid => ?_⟩
  · have hs : ((ofJobs jobs).compaction.map (·.id)).Sublist (jobs.map Job.id) := by
      rw [ofJobs]
      induction jobs with
      | nil => exact .slnil
      | cons job jobs ih =>
        rw [List.map_cons, List.nodup_cons] at hn
        rw [List.forall_mem_cons] at hnamed
        cases job with
        | plan s => exact (ih hn.2 hnamed.2).cons _
        | compaction c => exact (ih hn.2 hnamed.2).cons_cons _
    exact hn.sublist hs
  · cases (hnamed _ (mem_compaction_ofJobs.1 hc)).1 hid

theorem mem_tracked_ofJobs (hn : (jobs.map Job.id).Nodup) :
    job ∈ (ofJobs jobs).tracked ↔ job ∈ jobs ∧ (job.isPlan = true → job.state.status ≠ .complete) := by
  simp only [tracked, List.mem_append, List.mem_map, mem_compaction_ofJobs, mem_planWithStatus,
    plan_ofJobs hn]
  cases job with
  | compaction c => simp [Job.isPlan]
  | plan s => cases hs : s.status <;> simp [Job.isPlan, Job.state, hs]

/-- Of the jobs all are tracked but a complete plan job. -/
theorem of_tracked_ofJobs (hn : (jobs.map Job.id).Nodup) (hnamed : ∀ job ∈ jobs, job.IsNamed) {id : JobId} :
    JobTable.of (ofJobs jobs).tracked id = some job ↔
      JobTable.of jobs id = some job ∧ (job.isPlan = true → job.state.status ≠ .complete) := by
  rw [JobTable.of_eq_some (apart_ofJobs hn hnamed).nodup_tracked, JobTable.of_eq_some hn,
    mem_tracked_ofJobs hn]
  exact and_right_comm

theorem planTime_ofJobs (hn : (jobs.map Job.id).Nodup) {now : Instant} :
    (ofJobs jobs).planTime = some now ↔ ∃ s, .plan s ∈ jobs ∧ s.status = .complete ∧ s.since = now := by
  constructor
  · intro h
    obtain ⟨job, hj, hc⟩ := Option.map_eq_some_iff.1 h
    obtain ⟨s, hp, hs, rfl⟩ := mem_planWithStatus.1 (List.mem_of_mem_head? hj)
    exact ⟨s, (plan_ofJobs hn).1 hp, hs, hc⟩
  · rintro ⟨s, hj, hs, rfl⟩
    exact planTime_eq_some ((plan_ofJobs hn).2 hj) hs

end OfJobs

end RecoveredJobs

namespace Tracker

theorem tracks_empty : empty.Tracks (.of []) none :=
  ⟨consistent_empty, fun id => by simp [job?, empty]; rfl, rfl⟩

namespace Tracks
variable {t : Tracker} {f : JobTable} {c : Option Instant} {xs jobs : List Job}

theorem withRetired (h : t.Tracks f c) (b : Bool) : ({ t with retired := b } : Tracker).Tracks f c :=
  ⟨⟨h.consistent.sound, h.consistent.slots, h.consistent.status, h.consistent.named, h.consistent.complete,
    h.consistent.planLeased, h.consistent.planTime⟩, h.job?, h.planTime⟩

theorem insertAllComplete {cs : List CompactionJob} (h : t.Tracks f c) (hn : (cs.map (·.id)).Nodup)
    (hnew : ∀ x ∈ cs, f x.id = none) (hc : ∀ x ∈ cs, x.state.status = .complete)
    (hid : ∀ x ∈ cs, x.id ≠ planId) :
    ({ t with complete := cs.foldl (fun m x => m.insert x.id x) t.complete } : Tracker).Tracks
      (f.putAll (cs.map .compaction)) c := by
  induction cs generalizing t f with
  | nil => exact h
  | cons x cs ih =>
    simp only [List.forall_mem_cons] at hnew hc hid
    rw [List.map_cons, List.nodup_cons] at hn
    refine ih (h.insertComplete hnew.1 hc.1 hid.1) hn.2 (fun y hy => ?_) hc.2 hid.2
    rw [JobTable.put_of_ne fun he => hn.1 (List.mem_map.2 ⟨y, hy, he⟩)]
    exact hnew.2 y hy

theorem placeMore {k : Queue} (h : t.Tracks (.of xs) c) (hn : ((xs ++ jobs).map Job.id).Nodup)
    (hj : ∀ job ∈ jobs, job.state.status = k.status ∧ job.IsNamed ∧ (job.isPlan = true → c = none)) :
    (t.placeAll k jobs).Tracks (.of (xs ++ jobs)) c := by
  rw [JobTable.of, JobTable.putAll_append]
  rw [List.map_append, List.nodup_append] at hn
  refine h.placeAll hn.2.1 (fun job hm => ?_) (fun job hm => (hj job hm).1) (fun job hm => (hj job hm).2.1)
    fun job hm => (hj job hm).2.2
  exact JobTable.putAll_of_notMem fun hx => hn.2.2 _ hx _ (List.mem_map_of_mem hm) rfl

end Tracks

section Recover
variable {r : RecoveredJobs} {k : Queue} {job : Job}

theorem fits_compaction (hr : r.Apart) {c : CompactionJob} (hc : c ∈ r.compaction)
    (hs : c.state.status = k.status) :
    (Job.compaction c).state.status = k.status ∧ (Job.compaction c).IsNamed ∧
      ((Job.compaction c).isPlan = true → r.planTime = none) :=
  ⟨hs, Job.isNamed_compaction (hr.named c hc), nofun⟩

theorem fits_plan (hm : job ∈ r.planWithStatus k.status) :
    job.state.status = k.status ∧ job.IsNamed ∧ (job.isPlan = true → r.planTime = none) := by
  obtain ⟨s, hp, hs, rfl⟩ := RecoveredJobs.mem_planWithStatus.1 hm
  refine ⟨hs, Job.isNamed_plan s, fun _ => ?_⟩
  have : s.status ≠ .complete := by rw [hs]; cases k <;> nofun
  simp [RecoveredJobs.planTime, RecoveredJobs.planWithStatus, hp, this]

/-- The available compaction jobs in the order in which they are placed. -/
def availableOf (r : RecoveredJobs) : List Job :=
  ((r.withStatus .available).mergeSort fun a b => a.order ≤ b.order).map .compaction

def leasedOf (r : RecoveredJobs) : List Job :=
  ((r.withStatus .leased).map Job.compaction ++ r.planWithStatus .leased).mergeSort fun a b =>
    a.state.since ≤ b.state.since

/-- Jobs that are given in order are placed in the sequence in which they are given. -/
theorem recover_of_pairwise (t : Tracker) (ha : (r.withStatus .available).Pairwise fun a b => a.order ≤ b.order)
    (hl : ((r.withStatus .leased).map Job.compaction ++ r.planWithStatus .leased).Pairwise fun a b =>
      a.state.since ≤ b.state.since) :
    t.recover r =
      (({ empty with
        complete := (r.withStatus .complete).foldl (fun m job => m.insert job.id job) ∅
        planTime := r.planTime
        retired := t.retired } : Tracker).placeAll .pending ((r.withStatus .available).map .compaction)
        |>.placeAll .pending (r.planWithStatus .available)
        |>.placeAll .active ((r.withStatus .leased).map .compaction ++ r.planWithStatus .leased)) := by
  rw [recover, List.mergeSort_of_pairwise (ha.imp decide_eq_true), List.mergeSort_of_pairwise (hl.imp decide_eq_true)]
  rfl

theorem fits_available (hr : r.Apart) (hm : job ∈ availableOf r) :
    job.state.status = Queue.pending.status ∧ job.IsNamed ∧ (job.isPlan = true → r.planTime = none) := by
  obtain ⟨c, hc, rfl⟩ := List.mem_map.1 hm
  obtain ⟨hc, hs⟩ := RecoveredJobs.mem_withStatus.1 (List.mem_mergeSort.1 hc)
  exact fits_compaction hr hc hs

theorem fits_leased (hr : r.Apart) (hm : job ∈ leasedOf r) :
    job.state.status = Queue.active.status ∧ job.IsNamed ∧ (job.isPlan = true → r.planTime = none) := by
  rcases List.mem_append.1 (List.mem_mergeSort.1 hm) with hm | hm
  · obtain ⟨c, hc, rfl⟩ := List.mem_map.1 hm
    obtain ⟨hc, hs⟩ := RecoveredJobs.mem_withStatus.1 hc
    exact fits_compaction (k := .active) hr hc hs
  · exact fits_plan (k := .active) hm

theorem placed_perm (r : RecoveredJobs) :
    ((((r.withStatus .complete).map Job.compaction ++ availableOf r) ++ r.planWithStatus .available) ++
      leasedOf r).Perm
      r.tracked := by
  have ha : (availableOf r).Perm ((r.withStatus .available).map .compaction) :=
      (List.mergeSort_perm ..).map _
  have hl : (leasedOf r).Perm ((r.withStatus .leased).map Job.compaction ++ r.planWithStatus .leased) :=
      List.mergeSort_perm ..
  have hc := r.withStatus_perm.map Job.compaction
  simp only [List.map_append] at hc
  refine (((ha.append_left _).append_right _).append hl).trans (.trans ?_ (hc.append_right _))
  simp only [List.append_assoc]
  refine List.Perm.append_left _ (List.Perm.append_left _ ?_)
  rw [← List.append_assoc, ← List.append_assoc]
  exact List.perm_append_comm.append_right _

/-- A tracker that is rebuilt tracks the jobs it is given. -/
theorem tracks_recover (t : Tracker) (hr : r.Apart) : (t.recover r).Tracks (.of r.tracked) r.planTime := by
  have hn := ((placed_perm r).map Job.id).nodup_iff.2 hr.nodup_tracked
  rw [← JobTable.of_perm (placed_perm r) hn]
  have hn₃ := hn.sublist ((List.sublist_append_left _ _).map _)
  have hn₂ := hn₃.sublist ((List.sublist_append_left _ _).map _)
  -- The jobs are put in four parts: complete ones, available compaction jobs, an available plan job, and
  -- leased jobs. In this order they are those of `r` up to a permutation.
  have hcomplete : ({ empty with
      complete := (r.withStatus .complete).foldl (fun m job => m.insert job.id job) ∅ } : Tracker).Tracks
      (.of ((r.withStatus .complete).map .compaction)) none := by
    refine tracks_empty.insertAllComplete (hr.nodup.sublist (List.filter_sublist.map _)) (fun _ _ => rfl)
      (fun x hx => ?_) fun x hx => ?_
    · exact (RecoveredJobs.mem_withStatus.1 hx).2
    · exact hr.named x (RecoveredJobs.mem_withStatus.1 hx).1
  have hplan : JobTable.of ((r.withStatus .complete).map .compaction) planId = none := by
    refine JobTable.putAll_of_notMem fun hm => ?_
    rw [List.map_map] at hm
    obtain ⟨x, hx, hid⟩ := List.mem_map.1 hm
    exact hr.named x (RecoveredJobs.mem_withStatus.1 hx).1 hid
  have hstart := (hcomplete.withPlanTime fun _ : r.planTime.isSome => hplan).withRetired t.retired
  have havailable := hstart.placeMore (k := .pending) hn₂ fun job hm => fits_available hr hm
  have hpending := havailable.placeMore (k := .pending) hn₃ fun job hm => fits_plan (k := .pending) hm
  exact hpending.placeMore (k := .active) hn fun job hm => fits_leased hr hm

end Recover

end Tracker

end CompactionLeasing

import CompactionLeasing.Proofs.Tracker.WellFormed

/-!
# A tracker and its durable jobs

`Mirrors f t`: the table `f` has just the jobs of the tracker `t` and, if no plan job is tracked since the
last one was completed, this complete plan job. What a request makes durable keeps the two together, and
a tracker that is rebuilt from the table has the same jobs.
-/

namespace CompactionLeasing

namespace Tracker

structure Mirrors (f : JobTable) (t : Tracker) : Prop where
  jobs : ∀ id, id ≠ planId ∨ t.planTime = none → f id = t.job? id
  plan : ∀ c, t.planTime = some c → ∃ s, f planId = some (.plan s) ∧ s.status = .complete ∧ s.since = c

variable {t t' : Tracker} {f : JobTable} {b : Batch} {now : Instant} {job : Job} {jobs : List Job}

theorem Consistent.job?_plan_of_planTime {c : Instant} (h : t.Consistent) (hc : t.planTime = some c) :
    t.job? planId = none :=
  h.job?_plan_eq_none.2 (h.planTime (by rw [hc]; rfl))

/-- A batch that is made durable keeps the table and the tracker together. -/
theorem Outcome.mirrors (h : t.Consistent) (ho : t.Outcome now b t') (hm : Mirrors f t) :
    Mirrors (f.commit b) t' := by
  have hcommit : ∀ id, id ≠ planId ∨ t.planTime = none → f.commit b id = t.job?.commit b id :=
    fun id hid => JobTable.commit_congr fun _ _ => hm.jobs id hid
  cases ho with
  | kept hd ht =>
    refine ⟨fun id hid => ?_, fun c hc => ?_⟩
    · rw [ht.planTime] at hid
      rw [hcommit id hid, ht.job?]
    · -- No plan job is tracked afterwards, so the batch has none, and the durable one stays.
      have hnone := ht.consistent.job?_plan_of_planTime hc
      have hw : planId ∉ b.writes.map Job.id := by
        intro hw
        have := JobTable.putAll_isSome (f := t.job?.dropAll b.deletes) (.inl hw)
        rw [← JobTable.commit, ← ht.job?, hnone] at this
        cases this
      rw [JobTable.commit, JobTable.putAll_of_notMem hw, hd]
      exact hm.plan c (ht.planTime ▸ hc)
  | created hd hold hnew ht =>
    refine ⟨fun id _ => ?_, fun c hc => by rw [ht.planTime] at hc; cases hc⟩
    rw [ht.job?]
    by_cases hid : id = planId
    · have hw : planId ∈ b.writes.map Job.id := by
        by_contra hw
        rw [JobTable.commit, JobTable.putAll_of_notMem hw, hd] at hnew
        have hnone : some (Job.plan (.fresh now)) = none := hnew.symm.trans hold
        cases hnone
      exact JobTable.putAll_congr fun hn => absurd (hid ▸ hw) hn
    · exact hcommit id (.inl hid)
  | completed s hold hl hdone ht =>
    have htime : t.planTime = none := by
      cases hc : t.planTime with
      | none => rfl
      | some c => rw [h.job?_plan_of_planTime hc] at hold; cases hold
    refine ⟨fun id hid => ?_, fun c hc => ?_⟩
    · rw [ht.planTime] at hid
      have hne := hid.resolve_right (Option.some_ne_none now)
      rw [ht.job?, JobTable.drop_of_ne hne, hcommit id (.inl hne)]
    · rw [ht.planTime, Option.some.injEq] at hc
      subst hc
      exact ⟨s.complete now, (hcommit planId (.inr htime)).trans hdone, rfl, rfl⟩

/-! ### The jobs as lists -/

def allJobs (t : Tracker) : List Job := t.pending ++ t.active ++ t.complete.values.map .compaction

/-- `jobs` has the jobs of the tracker and, if it has the time of the last plan, one plan job that was
completed then. -/
def IsListedBy (t : Tracker) (jobs : List Job) : Prop :=
  ∃ done : Option JobState,
    jobs.Perm (t.allJobs ++ (done.map Job.plan).toList) ∧ done.map (·.since) = t.planTime ∧
    ∀ s ∈ done, s.status = .complete

/-- The trackers differ only in the order of their jobs, and in whether they are retired. -/
structure Same (t t' : Tracker) : Prop where
  pending : t'.pending.Perm t.pending
  active : t'.active.Perm t.active
  complete : t'.complete = t.complete
  planLeased : t'.planLeased = t.planLeased
  planTime : t'.planTime = t.planTime

namespace Consistent
variable {id : JobId} {c : CompactionJob}

theorem mem_items (h : t.Consistent) {k : Queue} :
    job ∈ t.queues.items k ↔ t.job? job.id = some job ∧ job.state.status = k.status := by
  constructor
  · intro hm
    obtain ⟨⟨slot, job⟩, he, rfl⟩ := List.mem_map.1 hm
    exact ⟨h.job?_of_mem he, h.status k _ he⟩
  · rintro ⟨hj, hk⟩
    obtain ⟨slot, he⟩ := h.mem_of_status hj hk
    exact List.mem_map.2 ⟨_, he, rfl⟩

theorem getElem?_complete (h : t.Consistent) :
    t.complete[id]? = some c ↔ t.job? id = some (.compaction c) ∧ c.state.status = .complete := by
  constructor
  · intro hc
    obtain ⟨hid, hs, -⟩ := h.complete id c hc
    exact ⟨h.job?_eq_some.2 ⟨hid, .inr ⟨c, rfl, hc⟩⟩, hs⟩
  · rintro ⟨hj, hs⟩
    obtain ⟨-, ⟨k, slot, he⟩ | ⟨c', hc', hm⟩⟩ := h.job?_eq_some.1 hj
    · have hk := h.status k _ he
      rw [show (Job.compaction c).state.status = .complete from hs] at hk
      cases k <;> cases hk
    · cases hc'; exact hm

theorem mem_allJobs (h : t.Consistent) : job ∈ t.allJobs ↔ t.job? job.id = some job := by
  rw [allJobs, List.mem_append, mem_incomplete, h.job?_eq_some, List.mem_map]
  simp only [Table.mem_values, true_and]
  refine or_congr_right ⟨?_, ?_⟩
  · rintro ⟨c, ⟨id, hc⟩, rfl⟩
    obtain ⟨rfl, -⟩ := h.complete id c hc
    exact ⟨c, rfl, hc⟩
  · rintro ⟨c, rfl, hc⟩
    exact ⟨c, ⟨_, hc⟩, rfl⟩

theorem nodup_allJobs (h : t.Consistent) : (t.allJobs.map Job.id).Nodup := by
  have hc : t.complete.values.map (fun c => (Job.compaction c).id) = t.complete.keys := h.ids_complete
  rw [allJobs, List.map_append, List.map_map]
  exact hc ▸ h.wellFormed.distinct

theorem of_allJobs (h : t.Consistent) : JobTable.of t.allJobs = t.job? := by
  funext id
  refine Option.ext fun job => ?_
  rw [JobTable.of_eq_some h.nodup_allJobs, h.mem_allJobs]
  constructor
  · rintro ⟨hj, rfl⟩
    exact hj
  · intro hj
    have hid := h.id_of_job? hj
    exact ⟨hid ▸ hj, hid⟩

theorem plan_incomplete (h : t.Consistent) (hj : t.job? id = some job) (hp : job.isPlan = true) :
    job.state.status ≠ .complete := by
  obtain ⟨-, ⟨k, slot, he⟩ | ⟨c, rfl, -⟩⟩ := h.job?_eq_some.1 hj
  · rw [h.status k _ he]; cases k <;> nofun
  · cases hp

end Consistent

/-- Trackers of the same jobs are the same up to the order of their queues. -/
theorem Tracks.same (h : t.Consistent) (h' : t'.Tracks t.job? t.planTime) : Same t t' := by
  have hitems : ∀ k job, job ∈ t'.queues.items k ↔ job ∈ t.queues.items k := by
    intro k job
    rw [h.mem_items, h'.consistent.mem_items, h'.job?]
  have hnodup : ∀ {t : Tracker}, t.Consistent → ∀ k, (t.queues.items k).Nodup := by
    intro t h k
    have hn := List.nodup_append.1 h.nodup_ids.of_map
    cases k with
    | pending => exact hn.1
    | active => exact hn.2.1
  have hperm : ∀ k, (t'.queues.items k).Perm (t.queues.items k) := fun k =>
    (List.perm_ext_iff_of_nodup (hnodup h'.consistent k) (hnodup h k)).2 (hitems k)
  refine ⟨hperm .pending, hperm .active, ?_, ?_, h'.planTime⟩
  · refine Std.ExtTreeMap.ext_getElem? fun id => Option.ext fun c => ?_
    rw [h.getElem?_complete, h'.consistent.getElem?_complete, h'.job?]
  · rw [Bool.eq_iff_iff, h.wellFormed.planLeased, h'.consistent.wellFormed.planLeased]
    exact exists_congr fun job => and_congr_left' (hitems .active job)

/-! ### The durable jobs as a list -/

namespace Mirrors
variable {jobs : List Job}

theorem isListedBy (h : t.Consistent) (hn : (jobs.map Job.id).Nodup) (hm : Mirrors (.of jobs) t) :
    t.IsListedBy jobs := by
  cases hc : t.planTime with
  | none =>
    refine ⟨none, ?_, hc.symm, by simp⟩
    rw [Option.map_none, Option.toList_none, List.append_nil]
    refine JobTable.perm_of_of_eq hn h.nodup_allJobs (funext fun id => ?_)
    rw [hm.jobs id (.inr hc), h.of_allJobs]
  | some c =>
    obtain ⟨s, hs, hdone, rfl⟩ := hm.plan c hc
    have hids : ((t.allJobs ++ [Job.plan s]).map Job.id).Nodup := by
      rw [List.map_append]
      refine h.nodup_allJobs.append (List.nodup_singleton _) fun id hid hp => ?_
      obtain ⟨job, hj, rfl⟩ := List.mem_map.1 hid
      rw [h.mem_allJobs, List.mem_singleton.1 hp] at hj
      exact absurd ((h.job?_plan_of_planTime hc).symm.trans hj) nofun
    refine ⟨some s, JobTable.perm_of_of_eq hn hids (funext fun id => ?_), hc.symm, fun _ hs' => ?_⟩
    · rw [Option.map_some, Option.toList_some, JobTable.of_concat, h.of_allJobs, JobTable.put_apply]
      split_ifs with hid
      · rw [hid]; exact hs
      · exact hm.jobs id (.inl hid)
    · cases hs'; exact hdone

theorem isNamed (h : t.Consistent) (hn : (jobs.map Job.id).Nodup) (hm : Mirrors (.of jobs) t) :
    ∀ job ∈ jobs, job.IsNamed := by
  intro job hj
  have hjob : JobTable.of jobs job.id = some job := (JobTable.of_eq_some hn).2 ⟨hj, rfl⟩
  by_cases hid : job.id ≠ planId ∨ t.planTime = none
  · exact h.isNamed ((hm.jobs _ hid).symm.trans hjob)
  · rw [not_or, not_not] at hid
    obtain ⟨c, hc⟩ := Option.ne_none_iff_exists'.1 hid.2
    obtain ⟨s, hs, -⟩ := hm.plan c hc
    rw [← hid.1, hjob] at hs
    cases hs
    exact Job.isNamed_plan s

/-- A tracker that is rebuilt from the durable jobs has the jobs of the tracker that made them durable. -/
theorem tracks_recover (h : t.Consistent) (hn : (jobs.map Job.id).Nodup) (hm : Mirrors (.of jobs) t)
    (t₀ : Tracker) :
    (t₀.recover (.ofJobs jobs)).Tracks t.job? t.planTime := by
  have hnamed := isNamed h hn hm
  have hr := t₀.tracks_recover (RecoveredJobs.apart_ofJobs hn hnamed)
  refine ⟨hr.consistent, fun id => ?_, ?_⟩
  · rw [hr.job?]
    refine Option.ext fun job => ?_
    rw [RecoveredJobs.of_tracked_ofJobs hn hnamed]
    by_cases hid : id ≠ planId ∨ t.planTime = none
    · rw [hm.jobs id hid]
      exact and_iff_left_of_imp fun hj => h.plan_incomplete hj
    · -- The plan job is complete, so neither tracker has it.
      rw [not_or, not_not] at hid
      obtain ⟨c, hc⟩ := Option.ne_none_iff_exists'.1 hid.2
      obtain ⟨s, hs, hdone, -⟩ := hm.plan c hc
      rw [hid.1, hs, h.job?_plan_of_planTime hc]
      refine iff_of_false ?_ nofun
      rintro ⟨⟨⟩, hp⟩
      exact hp rfl hdone
  · rw [hr.planTime]
    refine Option.ext fun c => ?_
    rw [RecoveredJobs.planTime_ofJobs hn]
    constructor
    · rintro ⟨s, hj, hdone, rfl⟩
      have hs : JobTable.of jobs planId = some (.plan s) := (JobTable.of_eq_some hn).2 ⟨hj, rfl⟩
      cases hc : t.planTime with
      | none => exact absurd hdone (h.plan_incomplete ((hm.jobs _ (.inr hc)).symm.trans hs) rfl)
      | some c =>
        obtain ⟨s', hs', -, rfl⟩ := hm.plan c hc
        rw [hs] at hs'
        cases hs'; rfl
    · intro hc
      obtain ⟨s, hs, hdone, hsince⟩ := hm.plan c hc
      exact ⟨s, ((JobTable.of_eq_some hn).1 hs).1, hdone, hsince⟩

theorem recover (hn : (jobs.map Job.id).Nodup) (hnamed : ∀ job ∈ jobs, job.IsNamed) (t₀ : Tracker) :
    Mirrors (.of jobs) (t₀.recover (.ofJobs jobs)) := by
  have hr := t₀.tracks_recover (RecoveredJobs.apart_ofJobs hn hnamed)
  refine ⟨fun id hid => Option.ext fun job => ?_, fun c hc => ?_⟩
  · rw [hr.job?, RecoveredJobs.of_tracked_ofJobs hn hnamed]
    refine (and_iff_left_of_imp fun hj hp hdone => ?_).symm
    obtain ⟨hm, rfl⟩ := (JobTable.of_eq_some hn).1 hj
    cases job with
    | compaction c => cases hp
    | plan s =>
      have hc := (RecoveredJobs.planTime_ofJobs hn).2 ⟨s, hm, hdone, rfl⟩
      rw [← hr.planTime] at hc
      rcases hid with hid | hid
      · exact hid rfl
      · rw [hc] at hid; cases hid
  · rw [hr.planTime, RecoveredJobs.planTime_ofJobs hn] at hc
    obtain ⟨s, hj, hdone, hsince⟩ := hc
    exact ⟨s, (JobTable.of_eq_some hn).2 ⟨hj, rfl⟩, hdone, hsince⟩

end Mirrors

end Tracker

end CompactionLeasing

import CompactionLeasing.Proofs.Tracker.Tracks

/-!
# What holds after a request

`Serves.outcome`: the tracker that a request proposes is consistent, and its jobs are the jobs before with
the batch committed. `Serves.next`: every job takes one step of its life.
-/

namespace CompactionLeasing

namespace Tracker

/-- The tracker `t'` after the batch `b`. The three cases differ in the plan job. -/
inductive Outcome (t : Tracker) (now : Instant) (b : Batch) (t' : Tracker) : Prop
  | kept (hd : b.deletes = []) (h : t'.Tracks (t.job?.commit b) t.planTime)
  | created (hd : b.deletes = []) (old : t.job? planId = none)
      (new : t.job?.commit b planId = some (.plan (.fresh now))) (h : t'.Tracks (t.job?.commit b) none)
  | completed (s : JobState) (old : t.job? planId = some (.plan s)) (leased : s.status = .leased)
      (done : t.job?.commit b planId = some (.plan (s.complete now)))
      (h : t'.Tracks ((t.job?.commit b).drop planId) (some now))

variable {t : Tracker} {now : Instant} {slot : Slot} {r : Request} {b : Batch} {e : Effect Reply}

theorem nodup_ranOut (h : t.queues.Sound) (policy : MaintenancePolicy) (now : Instant) :
    ((t.ranOut policy now).map Prod.fst).Nodup :=
  (h.nodup .active).sublist ((List.takeWhile_sublist _).map _)

theorem mem_of_ranOut {policy : MaintenancePolicy} {x : Slot × Job} (hx : x ∈ t.ranOut policy now) :
    x ∈ t.queues.toList .active := (List.takeWhile_sublist _).mem hx

theorem Consistent.job?_plan_of_wants (h : t.Consistent) {policy : MaintenancePolicy} {force : Bool}
    (hw : t.wantsPlan? policy force now = some true) : t.job? planId = none := by
  refine h.job?_plan_eq_none.2 ?_
  rw [wantsPlan?] at hw
  split_ifs at hw with hs
  · cases hw
  all_goals simpa using hs

theorem Consistent.planId_notMem_released (h : t.Consistent) {policy : MaintenancePolicy} {force : Bool}
    (hw : t.wantsPlan? policy force now = some true) :
    planId ∉ ((t.ranOut policy now).map fun e => e.2.release now).map Job.id := by
  intro hm
  have hp := h.job?_plan_of_wants hw
  simp only [List.map_map, List.mem_map] at hm
  obtain ⟨x, hx, hid⟩ := hm
  rw [← hid, Function.comp, Job.id_release, h.job?_of_mem (mem_of_ranOut hx)] at hp
  cases hp

theorem Consistent.maintained (h : t.Consistent) {policy : MaintenancePolicy} {force wanted : Bool}
    (hw : t.wantsPlan? policy force now = some wanted) :
    t.Outcome now
      ⟨(t.ranOut policy now).map (fun e => e.2.release now) ++ if wanted then [.plan (.fresh now)] else [], []⟩
      (t.maintained policy now wanted) := by
  have hr : (t.releaseAll now (t.ranOut policy now)).Tracks _ t.planTime :=
    h.tracks.releaseAll (nodup_ranOut h.sound policy now) fun _ => mem_of_ranOut
  cases wanted with
  | false => exact .kept rfl (hr.congr fun id => by simp [JobTable.commit, JobTable.dropAll])
  | true =>
    have hp := h.job?_plan_of_wants hw
    have hnew : t.job?.putAll ((t.ranOut policy now).map fun e => e.2.release now) planId = none := by
      rw [JobTable.putAll_of_notMem (h.planId_notMem_released hw), hp]
    have hnone :
        ({ t.releaseAll now (t.ranOut policy now) with planTime := none } : Tracker).Tracks _ none :=
      hr.withPlanTime fun ht => by cases ht
    have hplace : (t.maintained policy now true).Tracks (.put _ (.plan (.fresh now))) none :=
      hnone.place hnew rfl (Job.isNamed_plan _) fun _ => rfl
    have hcommit : t.job?.commit
        ⟨(t.ranOut policy now).map (fun e => e.2.release now) ++ [.plan (.fresh now)], []⟩ =
      (t.job?.putAll ((t.ranOut policy now).map fun e => e.2.release now)).put (.plan (.fresh now)) :=
        JobTable.putAll_append ..
    exact .created rfl hp (hcommit ▸ JobTable.put_self _ (.plan (.fresh now))) (hcommit ▸ hplace)

theorem Consistent.planId_notMem_offered (h : t.Consistent) (planned : List PlannedJob) :
    planId ∉ (t.offered now planned).map Job.id := by
  intro hm
  obtain ⟨job, hj, hid⟩ := List.mem_map.1 hm
  obtain ⟨c, rfl, hne, -⟩ := h.mem_offered hj
  exact hne hid

/-- The jobs to be pruned are tracked, those that are offered are not. -/
theorem Consistent.offered_disjoint (h : t.Consistent) (planned : List PlannedJob) :
    ∀ id ∈ (t.offered now planned).map Job.id,
      id ∉ ((t.unlisted planned).map Job.compaction).map Job.id := by
  intro id hm hu
  obtain ⟨job, hj, rfl⟩ := List.mem_map.1 hm
  obtain ⟨c, rfl, -, hnone, -⟩ := h.mem_offered hj
  rw [List.map_map] at hu
  obtain ⟨c', hc', hid⟩ := List.mem_map.1 hu
  rw [show c.id = c'.id from hid.symm, (h.mem_unlisted hc').1] at hnone
  cases hnone

theorem Consistent.tracks_planned (h : t.Consistent) {old : JobState}
    (ho : (slot, .plan old) ∈ t.queues.toList .active)
    (planned : List PlannedJob) :
    (t.planned now slot planned).Tracks
      (((t.job?.drop planId).putAll (t.offered now planned)).dropAll
        ((t.unlisted planned).map .compaction)) (some now) := by
  -- First the plan job goes, which lets the time be set; then the offered jobs come in, none of which is
  -- tracked; at last those go that the plan does not list.
  have hforget : ({ t.forget slot with planTime := some now } : Tracker).Tracks (t.job?.drop planId)
      (some now) :=
    (h.tracks.forget ho).withPlanTime fun _ => JobTable.drop_self ..
  have hplace := hforget.placeAll (k := .pending) (t.nodup_offered now planned) (fun job hm => ?_)
      (fun job hm => ?_)
    (fun job hm => ?_) fun job hm => ?_
  refine hplace.eraseComplete fun c hc => ?_
  · obtain ⟨hj, hs, hid, -⟩ := h.mem_unlisted hc
    refine ⟨?_, hs⟩
    rw [JobTable.putAll_of_notMem fun hm => h.offered_disjoint planned c.id hm
      (List.mem_map_of_mem (List.mem_map_of_mem hc)),
      JobTable.drop_of_ne hid, hj]
  · obtain ⟨c, rfl, hid, hnone, -⟩ := h.mem_offered hm
    exact (JobTable.drop_of_ne hid).trans hnone
  · obtain ⟨c, rfl, -, -, hf⟩ := h.mem_offered hm
    rw [Job.state, hf]; rfl
  · obtain ⟨c, rfl, hid, -⟩ := h.mem_offered hm
    exact Job.isNamed_compaction hid
  · obtain ⟨c, rfl, -⟩ := h.mem_offered hm
    exact fun hp => by cases hp

theorem Consistent.planned (h : t.Consistent) {old : JobState}
    (ho : (slot, .plan old) ∈ t.queues.toList .active)
    (planned : List PlannedJob) :
    t.Outcome now ⟨(Job.plan old).complete now :: t.offered now planned,
      (t.unlisted planned).map .compaction⟩
      (t.planned now slot planned) := by
  have hplan : (Job.plan (old.complete now)).id ∉ (t.offered now planned).map Job.id :=
      h.planId_notMem_offered planned
  have ht : (t.planned now slot planned).Tracks _ (some now) := h.tracks_planned ho planned
  refine .completed old (h.job?_of_mem ho) (h.status .active _ ho) ?_ (ht.congr fun id => ?_)
  · rw [JobTable.commit, JobTable.putAll_cons, JobTable.putAll_of_notMem (h.planId_notMem_offered planned)]
    exact JobTable.put_self (t.job?.dropAll _) (.plan (old.complete now))
  · exact (JobTable.drop_commit hplan (h.offered_disjoint planned) id).symm

theorem Consistent.tracks_finish (h : t.Consistent) {old : CompactionJob}
    (ho : (slot, .compaction old) ∈ t.queues.toList .active) :
    ({ t.forget slot with complete := t.completeWith ((Job.compaction old).complete now) } : Tracker).Tracks
      (t.job?.put ((Job.compaction old).complete now)) t.planTime := by
  have hid : old.id ≠ planId := mt (h.named .active _ ho).1 (by simp [Job.isPlan])
  have hplace := (h.tracks.forget ho).insertComplete (x := { old with state := old.state.complete now })
    (JobTable.drop_self ..) rfl hid
  rw [(h.forget ho).complete] at hplace
  have hput : (t.job?.drop old.id).put ((Job.compaction old).complete now) =
      t.job?.put ((Job.compaction old).complete now) :=
    JobTable.drop_put t.job? ((Job.compaction old).complete now)
  exact hput ▸ hplace

theorem Consistent.tracks_lease (h : t.Consistent) {k : Queue} {old job : Job}
    (ho : (slot, old) ∈ t.queues.toList k)
    (hj : old.lease? now = some job) : (t.replace slot .active job).Tracks (t.job?.put job) t.planTime := by
  obtain ⟨-, rfl⟩ := Job.lease?_eq_some.1 hj
  exact h.tracks.replace ho (Job.id_withState ..) (by rw [Job.state_withState]; rfl)
    ((h.named _ _ ho).withState _)

/-- No two jobs of a batch have the same name. -/
theorem Serves.nodup (h : t.Consistent) (hs : Serves t now r b e) :
    ((b.writes ++ b.deletes).map Job.id).Nodup := by
  have planned : ∀ {old : JobState} {ps}, (((Job.plan old).complete now :: t.offered now ps ++
      (t.unlisted ps).map Job.compaction).map Job.id).Nodup := by
    intro old ps
    have hunlisted : (((t.unlisted ps).map Job.compaction).map Job.id).Nodup := by
      rw [List.map_map]
      have hkeys : (t.complete.values.map (·.id)).Nodup := h.ids_complete ▸ Std.ExtTreeMap.nodup_keys
      exact hkeys.sublist (List.filter_sublist.map _)
    rw [List.cons_append, List.map_cons, List.nodup_cons, List.map_append, List.mem_append, not_or]
    refine ⟨⟨h.planId_notMem_offered ps, fun hm => ?_⟩,
      (t.nodup_offered now ps).append hunlisted (h.offered_disjoint ps)⟩
    simp only [List.map_map, List.mem_map] at hm
    obtain ⟨c, hc, hid⟩ := hm
    exact (h.mem_unlisted hc).2.2.1 hid
  cases hs with
  | maintain policy force wanted refilled events hw =>
    have hreleased : (((t.ranOut policy now).map fun e => e.2.release now).map Job.id).Nodup := by
      simp only [List.map_map, Function.comp_def, Job.id_release]
      exact (h.nodup_names .active).sublist ((List.takeWhile_sublist _).map _)
    cases wanted with
    | false => simpa using hreleased
    | true =>
      rw [List.append_nil, List.map_append]
      refine hreleased.append (List.nodup_singleton _) fun id hm hp => ?_
      obtain rfl : id = planId := by simpa [Job.id] using hp
      exact h.planId_notMem_released hw hm
  | lease | renew | cancel | finish => exact List.nodup_singleton _
  | finishPlan | completePlan => exact planned

theorem Outcome.single {job : Job} {t' : Tracker} (h : t'.Tracks (t.job?.put job) t.planTime) :
    t.Outcome now ⟨[job], []⟩ t' := .kept rfl h

theorem Serves.outcome (h : t.Consistent) (hs : Serves t now r b e) : t.Outcome now b e.tracker := by
  cases hs with
  | maintain policy force wanted refilled events hw => exact h.maintained hw
  | lease slot old job hf hj => exact .single (h.tracks_lease (List.mem_of_mem_head? hf) hj)
  | renew slot old ho =>
    refine .single (h.tracks.replace ho (Job.id_renew ..) ?_ ((h.named _ _ ho).withState _))
    rw [Job.state_renew]; exact h.status _ _ ho
  | cancel slot old ho =>
    exact .single (h.tracks.replace ho (Job.id_release ..) (old.status_release now) ((h.named _ _ ho).withState _))
  | finish slot old ho => exact .single (h.tracks_finish ho)
  | finishPlan slot old ho => exact h.planned ho []
  | completePlan slot old planned ho => exact h.planned ho planned

theorem Outcome.consistent {t' : Tracker} (h : t.Outcome now b t') : t'.Consistent := by
  cases h with
  | kept _ h => exact h.consistent
  | created _ _ _ h => exact h.consistent
  | completed _ _ _ _ h => exact h.consistent

/-- What is tracked after the batch. Only the plan job, once it is complete, is written and not tracked. -/
theorem Serves.job?_after (h : t.Consistent) (hs : Serves t now r b e) (id : JobId) :
    e.tracker.job? id = t.job?.commit b id ∨
      e.tracker.job? id = none ∧ id = planId ∧ ∃ s, .plan s ∈ b.writes ∧ s.status = .complete := by
  cases hs.outcome h with
  | kept _ ht => exact .inl (ht.job? id)
  | created _ _ _ ht => exact .inl (ht.job? id)
  | completed s hold hl hdone ht =>
    rw [ht.job?, JobTable.drop_apply]
    split_ifs with hid
    · refine .inr ⟨rfl, hid, s.complete now, ?_, rfl⟩
      rcases JobTable.putAll_eq_some hdone with ⟨hw, -⟩ | ⟨-, hd⟩
      · exact hw
      · -- The plan job was leased before the batch, so it is complete only if the batch writes it.
        rw [JobTable.dropAll_apply] at hd
        split_ifs at hd
        rw [hold, Option.some.injEq, Job.plan.injEq] at hd
        have hstatus : s.status = .complete := congrArg JobState.status hd
        rw [hl] at hstatus; cases hstatus
    · exact .inl rfl

/-- A tracker that knows of a plan job, tracked or completed, goes on to do so. -/
theorem Outcome.plan_isSome {t' : Tracker} (h : t.Outcome now b t')
    (hp : (t.job? planId).isSome ∨ t.planTime.isSome) : (t'.job? planId).isSome ∨ t'.planTime.isSome := by
  cases h with
  | kept hd h =>
    rw [h.job?, h.planTime]
    refine hp.imp_left fun hp => JobTable.putAll_isSome (.inr ?_)
    rwa [hd]
  | created _ _ hnew h => exact .inl (by rw [h.job?, hnew]; rfl)
  | completed _ _ _ _ h => exact .inr (by rw [h.planTime]; rfl)

/-! ### Requests carried out -/

/-- How a request ends, given how batches are made durable. -/
inductive Settled {ε σ : Type} (t : Tracker) (now : Instant) (r : Request) (store : σ)
    (write : Batch → Except ε σ) :
    Settlement ε σ Reply → Prop
  | refused : Settled t now r store write ⟨.done r.refusal, t, store, [], false⟩
  | overflow : Settled t now r store write ⟨.overflow, t, store, [], false⟩
  | failed (b : Batch) (err : ε) (hw : write b = .error err) :
      Settled t now r store write ⟨.failed err, t, store, [.persistFailed], false⟩
  | committed (b : Batch) (e : Effect Reply) (store' : σ) (hr : t.retired = false) (hs : Serves t now r b e)
      (hw : write b = .ok store') :
      Settled t now r store write ⟨.done e.answer, e.tracker, store', e.events, e.refilled⟩

theorem Consistent.settled {ε σ : Type} (h : t.Consistent) (now : Instant) (r : Request) (store : σ)
    (write : Batch → Except ε σ) : t.Settled now r store write (t.serve now r store write) := by
  rw [Tracker.serve]
  cases hp : t.propose now r with
  | settled a => rw [refusal_of_settled hp]; exact .refused
  | overflow => exact .overflow
  | persist b e =>
    obtain ⟨hr, hs⟩ := h.serves hp
    rw [Proposal.settle]
    cases hw : write b with
    | error err => exact .failed b err hw
    | ok store' => exact .committed b e store' hr hs hw

theorem Consistent.serve {ε σ : Type} (h : t.Consistent) (now : Instant) (r : Request) (store : σ)
    (write : Batch → Except ε σ) : (t.serve now r store write).tracker.Consistent := by
  have hs := h.settled now r store write
  generalize t.serve now r store write = s at hs ⊢
  cases hs with
  | refused | overflow | failed => exact h
  | committed b e store' _ hs _ => exact (hs.outcome h).consistent

end Tracker

end CompactionLeasing

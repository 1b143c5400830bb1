import CompactionLeasing.Proofs.Tracker.Atomicity
import CompactionLeasing.Proofs.Tracker.Commits
import CompactionLeasing.Proofs.Tracker.Lineup

/-!
# What becomes of a plan

`PlanEnds`: all that follows when the leased plan job is completed with a plan, in terms of the plan and of what can be
seen of the tracker. `plan_ends` says that it does so in every state of every run, whatever the plan lists.
-/

namespace CompactionLeasing

namespace Tracker
variable {t : Tracker} {now : Instant} {planned ps : List PlannedJob} {slot : Slot} {plan : JobState}

/-! ### The jobs of a plan -/

/-- The job that a plan asks for at a position, which is its order. There is none if the name is listed already, is that
of the plan job, or is that of an incomplete or complete job. -/
def offer? (t : Tracker) (now : Instant) (listed : List JobId) (p : PlannedJob) (n : Nat) : Option CompactionJob :=
  if p.id ∈ listed ∨ p.id = planId ∨ p.id ∈ (t.pending ++ t.active).map Job.id ∨ (t.complete[p.id]?).isSome then none
  else some ⟨p.id, p.spec, .ofNat (min n 0xffffffff), .fresh now⟩

/-- The jobs that a plan adds. Positions count from one; of those with the same name the first counts. -/
def accepted (t : Tracker) (now : Instant) (planned : List PlannedJob) : List CompactionJob :=
  (planned.zipIdx 1).filterMap fun x => t.offer? now ((planned.take (x.2 - 1)).map (·.id)) x.1 x.2

theorem length_accepted_le (t : Tracker) (now : Instant) (planned : List PlannedJob) :
    (t.accepted now planned).length ≤ planned.length := by
  unfold accepted
  exact (List.length_filterMap_le ..).trans_eq (List.length_zipIdx ..)

theorem Consistent.contains_slots (h : t.Consistent) (id : JobId) :
    t.slots.contains id = true ↔ id ∈ (t.pending ++ t.active).map Job.id := by
  rw [← h.keys_perm.mem_iff, Std.ExtTreeMap.mem_keys, Std.ExtTreeMap.contains_iff_mem]

/-- The jobs of the rest of a plan whose names so far are `listed`. -/
theorem Consistent.offers_eq (h : t.Consistent) (listed : List JobId) (n : Nat) : t.offers now listed n ps =
    (ps.zipIdx n).filterMap fun x => t.offer? now (listed ++ (ps.take (x.2 - n)).map (·.id)) x.1 x.2 := by
  induction ps generalizing listed n with
  | nil => rfl
  | cons p ps ih =>
    have hfirst : (listed.contains p.id || p.id == planId || t.slots.contains p.id || t.complete.contains p.id) = true ↔
        p.id ∈ listed ∨ p.id = planId ∨ p.id ∈ (t.pending ++ t.active).map Job.id ∨ (t.complete[p.id]?).isSome := by
      simp only [Bool.or_eq_true, List.contains_iff_mem, beq_iff_eq, h.contains_slots,
        Std.ExtTreeMap.isSome_getElem?_eq_contains, or_assoc]
    -- The names that are listed before a later position are those so far and those in between.
    have hrest : ∀ x ∈ ps.zipIdx (n + 1), t.offer? now (p.id :: listed ++ (ps.take (x.2 - (n + 1))).map (·.id)) x.1 x.2 =
        t.offer? now (listed ++ ((p :: ps).take (x.2 - n)).map (·.id)) x.1 x.2 := by
      rintro ⟨p', m⟩ hx
      have hm : n + 1 ≤ m := List.le_snd_of_mem_zipIdx hx
      obtain ⟨k, rfl⟩ : ∃ k, m = n + 1 + k := ⟨m - (n + 1), by omega⟩
      show t.offer? now (p.id :: listed ++ (ps.take (n + 1 + k - (n + 1))).map _) _ _ = _
      rw [show n + 1 + k - n = k + 1 by omega, show n + 1 + k - (n + 1) = k by omega, List.take_succ_cons,
        List.map_cons, offer?, offer?]
      refine if_congr (or_congr_left ?_) rfl rfl
      simp only [List.mem_append, List.mem_cons]
      tauto
    rw [offers, ih, List.filterMap_congr hrest, List.zipIdx_cons, List.filterMap_cons, Nat.sub_self, List.take_zero,
      List.map_nil, List.append_nil, offer?]
    simp only [hfirst]
    split_ifs <;> rfl

theorem Consistent.offered_eq (h : t.Consistent) (now : Instant) (planned : List PlannedJob) :
    t.offered now planned = (t.accepted now planned).map .compaction := by
  unfold offered accepted
  rw [h.offers_eq]
  rfl

/-- The complete jobs that a plan does not list. -/
theorem Consistent.mem_unlisted_iff {c : CompactionJob} (h : t.Consistent) :
    c ∈ t.unlisted planned ↔ t.complete[c.id]? = some c ∧ c.id ∉ planned.map (·.id) := by
  unfold unlisted
  rw [List.mem_filter, Table.mem_values]
  refine and_congr ⟨fun ⟨id, hid⟩ => ?_, fun hc => ⟨c.id, hc⟩⟩ (by simp)
  obtain ⟨rfl, -⟩ := h.complete id c hid
  exact hid

theorem Consistent.pairwise_unlisted (h : t.Consistent) (planned : List PlannedJob) :
    ((t.unlisted planned).map (·.id)).Pairwise (· < ·) := by
  have hkeys : t.complete.keys.Pairwise (· < ·) := by
    rw [← Std.ExtTreeMap.map_fst_toList_eq_keys]
    exact List.pairwise_map.2 (Table.pairwise_toList t.complete)
  rw [← h.ids_complete] at hkeys
  exact hkeys.sublist (List.filter_sublist.map _)

/-! ### The tracker after the plan -/

theorem complete_placeAll (t : Tracker) (k : Queue) (jobs : List Job) : (t.placeAll k jobs).complete = t.complete := by
  induction jobs generalizing t with
  | nil => rfl
  | cons job jobs ih => exact ih (t.place k job)

theorem complete_forget (t : Tracker) (slot : Slot) : (t.forget slot).complete = t.complete := by
  unfold forget
  split <;> rfl

theorem Consistent.complete_planned (h : t.Consistent) (id : JobId) :
    (t.planned now slot planned).complete[id]? = if id ∈ planned.map (·.id) then t.complete[id]? else none := by
  unfold Tracker.planned
  rw [Table.getElem?_foldl_erase, complete_placeAll, complete_forget]
  split_ifs with hu hp hp
  · obtain ⟨c, hc, rfl⟩ := List.mem_map.1 hu
    exact absurd hp (h.mem_unlisted_iff.1 hc).2
  · rfl
  · rfl
  · rw [Option.eq_none_iff_forall_ne_some]
    intro c hc
    obtain ⟨rfl, -⟩ := h.complete id c hc
    exact hu (List.mem_map_of_mem (h.mem_unlisted_iff.2 ⟨hc, hp⟩))

/-- While the plan job is leased, none is pending. -/
theorem Consistent.exists_pending (h : t.Consistent) (hl : Lined t.queues) (hm : (slot, .plan plan) ∈ t.queues.toList .active) :
    ∃ cs : List CompactionJob, t.pending = cs.map .compaction := by
  have hs : t.pending.Pairwise fun a b => a.Ahead .pending b := List.pairwise_map.2 (hl.ordered .pending)
  obtain ⟨cs, hcs, -⟩ := exists_compaction hs
  refine ⟨cs, hcs.trans ?_⟩
  rw [List.filter_eq_nil_iff.2, List.append_nil]
  intro job hj hplan
  obtain ⟨⟨slot', job⟩, hx, rfl⟩ := List.mem_map.1 hj
  have hid : job.id = planId := (h.named .pending _ hx).2 hplan
  cases (h.slot_unique hx hm hid).2.2

theorem Consistent.pending_planned {cs : List CompactionJob} (h : t.Consistent) (hl : Lined t.queues)
    (hm : (slot, .plan plan) ∈ t.queues.toList .active) (hcs : t.pending = cs.map .compaction) (now : Instant)
    (planned : List PlannedJob) : (t.planned now slot planned).pending =
      ((cs ++ t.accepted now planned).mergeSort fun a b => a.order ≤ b.order).map .compaction := by
  obtain ⟨new, hnew, hr⟩ := hl.planned hm now planned
  have hgone : ∀ i ∈ [slot], i ∈ (t.queues.toList .active).map Prod.fst := by
    intro i hi
    rw [List.mem_singleton.1 hi]
    exact List.mem_map_of_mem hm
  have hcame := hr.sameLevels hl.sound hgone hnew (t.status_offered now planned)
  refine SameLevels.eq (fun o => (hcame o).trans ?_) (List.pairwise_map.2 ((hr.lined hl).ordered .pending))
    (pairwise_mergeSort _)
  rw [sameLevels_mergeSort, List.map_append, ← hcs, ← h.offered_eq]
  rfl

theorem Consistent.active_planned (h : t.Consistent) (hl : Lined t.queues)
    (hm : (slot, .plan plan) ∈ t.queues.toList .active) (now : Instant) (planned : List PlannedJob) :
    (t.planned now slot planned).active = t.active.erase (.plan plan) := by
  obtain ⟨new, hnew, hr⟩ := hl.planned hm now planned
  have hnodup : t.active.Nodup := (List.nodup_append.1 h.nodup_ids.of_map).2.1
  rw [hnodup.erase_eq_filter]
  refine hr.items_of_status (fun e he hs => ?_) fun e he => ?_
  · have ho := t.status_offered now planned e.2 (hnew ▸ List.mem_map_of_mem he)
    rw [hs] at ho
    cases ho
  · rw [bne_iff_ne, List.mem_singleton]
    refine not_congr ⟨fun hj => ?_, fun hs => ?_⟩
    · exact (h.slot_unique he hm (congrArg Job.id hj)).1
    · exact job_unique h.sound he (hs ▸ hm)

/-! ### Plans that end -/

section Ends
variable {ε : Type}

/-- All that follows from the completion of the plan job `plan`: the batch, the answer, and the tracker. -/
structure PlanEnds (t : Tracker) (now : Instant) (plan : JobState) (planned : List PlannedJob)
    (pruned : List CompactionJob) (s : Settlement (List Batch × ε) (List Batch) Reply) : Prop where
  mem_pruned : ∀ c, c ∈ pruned ↔ t.complete[c.id]? = some c ∧ c.id ∉ planned.map (·.id)
  pairwise_pruned : (pruned.map (·.id)).Pairwise (· < ·)
  noted : s.noted =
    [⟨.plan (plan.complete now) :: (t.accepted now planned).map .compaction, pruned.map .compaction⟩]
  answer : ∃ o : PlanOutcome, s.verdict = .done (.plan (some o)) ∧ o.accepted = (t.accepted now planned).length ∧
    o.accepted + o.skipped = planned.length ∧ o.pruned = pruned.length ∧
    (o.transitioned = true ↔ t.pending = [] ∧ t.accepted now planned ≠ [])
  /-- The jobs of the plan join those that are pending, behind those of the same order. -/
  pending : ∃ cs : List CompactionJob, t.pending = cs.map .compaction ∧ s.tracker.pending =
    ((cs ++ t.accepted now planned).mergeSort fun a b => a.order ≤ b.order).map .compaction
  active : s.tracker.active = t.active.erase (.plan plan)
  complete : ∀ id : JobId, s.tracker.complete[id]? = if id ∈ planned.map (·.id) then t.complete[id]? else none
  planTime : s.tracker.planTime = some now
  planLeased : s.tracker.planLeased = false

theorem Consistent.ask_completePlan (h : t.Consistent) (hr : t.retired = false)
    (hm : (slot, .plan plan) ∈ t.queues.toList .active) (now : Instant) (planned : List PlannedJob) :
    t.ask now (.completePlan plan.epoch planned) (fun _ => (none : Option ε)) =
      ⟨.done (.plan (t.plannedEffect now slot planned).answer), t.planned now slot planned,
        [⟨.plan (plan.complete now) :: t.offered now planned, (t.unlisted planned).map .compaction⟩],
        (t.plannedEffect now slot planned).events, (t.plannedEffect now slot planned).refilled⟩ := by
  have hl : t.leased? planId plan.epoch = some (slot, .plan plan) := h.leased?_eq_some.2 ⟨hm, rfl, rfl⟩
  have hp : t.completePlan plan.epoch planned now =
      .persist ⟨.plan (plan.complete now) :: t.offered now planned, (t.unlisted planned).map .compaction⟩
        (t.plannedEffect now slot planned) := by
    unfold completePlan
    rw [if_neg (by rw [hr]; nofun), hl]
    rfl
  unfold ask Tracker.serve propose
  simp only [hp]
  rfl

theorem Consistent.planEnds (h : t.Consistent) (hl : Lined t.queues) (hr : t.retired = false)
    (hm : (slot, .plan plan) ∈ t.queues.toList .active) (now : Instant) (planned : List PlannedJob) :
    t.PlanEnds now plan planned (t.unlisted planned)
      (t.ask now (.completePlan plan.epoch planned) fun _ => (none : Option ε)) := by
  obtain ⟨cs, hcs⟩ := h.exists_pending hl hm
  have hpending := h.pending_planned hl hm hcs now planned
  have hactive := h.active_planned hl hm now planned
  have h' : (t.planned now slot planned).Consistent := (h.tracks_planned hm planned).consistent
  have hrefilled : (!t.hasPending && (t.planned now slot planned).hasPending) = true ↔
      t.pending = [] ∧ t.accepted now planned ≠ [] := by
    rw [Bool.and_eq_true, Bool.not_eq_true', ← Bool.not_eq_true, hasPending_iff h.sound, hasPending_iff h'.sound,
      not_not, hpending, hcs, List.map_eq_nil_iff]
    refine and_congr_right fun hnil => ?_
    subst hnil
    rw [ne_eq, List.map_eq_nil_iff, ← List.length_eq_zero_iff, List.length_mergeSort, List.length_eq_zero_iff,
      List.nil_append]
  rw [h.ask_completePlan hr hm]
  refine ⟨fun c => h.mem_unlisted_iff, h.pairwise_unlisted planned, ?_, ⟨_, rfl, ?_, ?_, rfl, hrefilled⟩, ⟨cs, hcs, hpending⟩,
    hactive, h.complete_planned, planTime_planned .., ?_⟩
  · rw [← h.offered_eq]
    rfl
  · show (t.offered now planned).length = _
    rw [h.offered_eq, List.length_map]
  · have hle := t.length_accepted_le now planned
    show (t.offered now planned).length + (planned.length - (t.offered now planned).length) = _
    rw [h.offered_eq, List.length_map]
    omega
  · -- The names are distinct, so no other plan job is active.
    rw [← Bool.not_eq_true]
    intro hleased
    obtain ⟨job, hj, hplan⟩ := h'.wellFormed.planLeased.1 hleased
    have hnodup : (t.active.map Job.id).Nodup := (List.nodup_append.1 (List.map_append ▸ h.nodup_ids)).2.1
    rw [hactive, (List.Nodup.of_map _ hnodup).mem_erase_iff] at hj
    have hp : .plan plan ∈ t.active := List.mem_map.2 ⟨_, hm, rfl⟩
    obtain ⟨⟨slot', job⟩, hx, rfl⟩ := List.mem_map.1 hj.2
    exact hj.1 (h.slot_unique hx hm ((h.named .active _ hx).2 hplan)).2.1

/-- In every state of every run of a tracker that is not retired, while the plan job is leased. -/
theorem plan_ends (actions : List (Action ε)) (ha : ∀ jobs, .recover jobs ∈ actions → jobs.Apart) (now : Instant)
    (plan : JobState) (planned : List PlannedJob) :
    let t := (Watched.run actions).tracker
    t.retired = false → .plan plan ∈ t.active →
      ∃ pruned, t.PlanEnds now plan planned pruned
        (t.ask now (.completePlan plan.epoch planned) fun _ => (none : Option ε)) := by
  intro t hr hp
  have hinv : (Watched.run actions).Inv := Watched.Inv.foldl ⟨consistent_empty, nofun⟩ ha
  obtain ⟨⟨slot, job⟩, hm, rfl⟩ := List.mem_map.1 hp
  exact ⟨_, hinv.consistent.planEnds (Line.lined_run actions) hr hm now planned⟩

/-- A plan that lists a job twice, the plan job, a pending job and one of two complete jobs. -/
theorem plan_ends_repeated :
    let plan : JobState := ⟨.leased, .epoch, 1, .epoch⟩
    let jobs : RecoveredJobs :=
      ⟨[⟨"old", ⟨[], false⟩, 2, .fresh .epoch⟩, ⟨"done", ⟨[], false⟩, 1, ⟨.complete, .epoch, 1, .epoch⟩⟩,
        ⟨"gone", ⟨[], false⟩, 1, ⟨.complete, .epoch, 1, .epoch⟩⟩], some plan⟩
    let actions : List (Action Unit) := [.recover jobs]
    let t := (Watched.run actions).tracker
    let planned : List PlannedJob := ["new", "old", "done", "new", planId, "last"].map fun id => ⟨id, ⟨[], false⟩⟩
    let s := t.ask .epoch (.completePlan plan.epoch planned) fun _ => (none : Option Unit)
    jobs.Apart ∧ t.retired = false ∧ .plan plan ∈ t.active ∧ (∃ pruned, t.PlanEnds .epoch plan planned pruned s) ∧
      s.verdict = .done (.plan (some ⟨2, 4, 1, false⟩)) ∧
      s.tracker.view = ⟨["new", "old", "last"], [], ["done"], false, some .epoch⟩ := by
  intro plan jobs actions t planned s
  have ha : jobs.Apart := ⟨by decide, by decide⟩
  have hall : ∀ js, .recover js ∈ actions → js.Apart := by
    intro js hj
    obtain rfl : js = jobs := by simpa [actions] using hj
    exact ha
  have hr : t.retired = false := by decide +kernel
  have hp : .plan plan ∈ t.active := by decide +kernel
  exact ⟨ha, hr, hp, plan_ends actions hall .epoch plan planned hr hp, by decide +kernel, by decide +kernel⟩

end Ends

end Tracker

end CompactionLeasing

import CompactionLeasing.Proofs.Table
import CompactionLeasing.Proofs.Tracker.Balance
import CompactionLeasing.Proofs.Tracker.Lineup

/-!
# Where the plan job is

`PlanKept`: a tracker whose other jobs may share their names still finds its plan job, and knows whether it is
leased, as long as no other job has the plan job's name. Requests keep it (`Commits.planKept`), and so does recovery
(`planKept_recover`).
-/

namespace CompactionLeasing

/-- No compaction job that is recovered and incomplete has the plan job's name. -/
def RecoveredJobs.Spares (jobs : RecoveredJobs) : Prop :=
  ∀ c ∈ jobs.compaction, c.state.status ≠ .complete → c.id ≠ planId

namespace Tracker
variable {t t' : Tracker} {now : Instant} {k k₀ : Queue} {slot : Slot} {job old : Job} {r : Request} {b : Batch}
  {e : Effect Reply}

structure PlanKept (t : Tracker) : Prop where
  lined : Lined t.queues
  slots : ∀ (id : JobId) i, t.slots[id]? = some i → ∃ k job, (i, job) ∈ t.queues.toList k ∧ job.id = id
  named : ∀ k, ∀ e ∈ t.queues.toList k, e.2.id = planId → e.2.isPlan = true
  plan : ∀ k, ∀ e ∈ t.queues.toList k, e.2.isPlan = true → t.slots[planId]? = some e.1
  leased : t.planLeased = true ↔ ∃ e ∈ t.queues.toList .active, e.2.isPlan = true

theorem id_of_isPlan (h : job.isPlan = true) : job.id = planId := by
  cases job with
  | plan s => rfl
  | compaction c => cases h

theorem plans_placeAll {jobs : List Job} (h : Lined t.queues) (hk : ∀ job ∈ jobs, job.state.status = k.status) :
    (t.placeAll k jobs).plans = t.plans + jobs.countP Job.isPlan := by
  obtain ⟨-, hx⟩ := h.placeAll_exchange hk
  have hp := hx .pending Job.isPlan
  have ha := hx .active Job.isPlan
  unfold plans pending active
  cases k <;> simp only [only, reduceCtorEq, if_true, if_false, List.countP_nil] at hp ha <;> omega

namespace PlanKept

theorem of_empty (hq : t.queues = .empty) (hs : t.slots = ∅) (hp : t.planLeased = false) : t.PlanKept := by
  have hnone : ∀ k e, e ∉ t.queues.toList k := fun k e he => by
    rw [hq, Queues.toList_empty] at he
    cases he
  refine ⟨?_, fun id i hi => ?_, fun k e he => absurd he (hnone k e), fun k e he => absurd he (hnone k e), ?_, ?_⟩
  · rw [hq]
    exact lined_empty
  · rw [hs, Std.ExtTreeMap.getElem?_empty] at hi
    cases hi
  · rw [hp]
    nofun
  · rintro ⟨e, he, -⟩
    exact absurd he (hnone .active e)

theorem of_eq (h : t.PlanKept) (hq : t'.queues = t.queues) (hs : t'.slots = t.slots)
    (hp : t'.planLeased = t.planLeased) : t'.PlanKept := by
  refine ⟨?_, ?_, ?_, ?_, ?_⟩
  · rw [hq]; exact h.lined
  · rw [hq, hs]; exact h.slots
  · rw [hq]; exact h.named
  · rw [hq, hs]; exact h.plan
  · rw [hq, hp]; exact h.leased

theorem place (h : t.PlanKept) (hk : job.state.status = k.status) (hid : job.id = planId → job.isPlan = true)
    (hnew : job.isPlan = true → ∀ k, ∀ e ∈ t.queues.toList k, e.2.isPlan = false) : (t.place k job).PlanKept := by
  obtain ⟨slot, hr, hs⟩ := h.lined.place_slots hk
  have hmem : ∀ k' e, e ∈ (t.place k job).queues.toList k' ↔ e = (slot, job) ∧ k' = k ∨ e ∈ t.queues.toList k' := by
    intro k' e
    rw [(hr.lists k').mem, Lined.filter_status (e := (slot, job)) hk]
    split_ifs with hkk <;> simp [hkk]
  refine ⟨hr.lined h.lined, fun id i hi => ?_, fun k' e he hn => ?_, fun k' e he hp => ?_, ?_⟩
  · rw [hs, Table.getElem?_insert] at hi
    split_ifs at hi with heq
    · cases hi
      exact ⟨k, job, (hmem ..).2 (.inl ⟨rfl, rfl⟩), heq.symm⟩
    · obtain ⟨k', job', hm, hj⟩ := h.slots id i hi
      exact ⟨k', job', (hmem ..).2 (.inr hm), hj⟩
  · rcases (hmem ..).1 he with ⟨rfl, -⟩ | he
    · exact hid hn
    · exact h.named k' e he hn
  · rw [hs, Table.getElem?_insert]
    rcases (hmem ..).1 he with ⟨rfl, -⟩ | he
    · rw [if_pos (id_of_isPlan hp).symm]
    · have hne : planId ≠ job.id := by
        intro hj
        rw [hnew (hid hj.symm) k' e he] at hp
        cases hp
      rw [if_neg hne, h.plan k' e he hp]
  · show t.planLeasedAfter k job = true ↔ _
    unfold planLeasedAfter
    split_ifs with hp
    · constructor
      · intro hactive
        exact ⟨(slot, job), (hmem ..).2 (.inl ⟨rfl, (of_decide_eq_true hactive).symm⟩), hp⟩
      · rintro ⟨e, he, hpe⟩
        rcases (hmem ..).1 he with ⟨rfl, hk⟩ | he
        · exact decide_eq_true hk.symm
        · rw [hnew hp .active e he] at hpe
          cases hpe
    · refine h.leased.trans ⟨fun ⟨e, he, hpe⟩ => ⟨e, (hmem ..).2 (.inr he), hpe⟩, ?_⟩
      rintro ⟨e, he, hpe⟩
      rcases (hmem ..).1 he with ⟨rfl, -⟩ | he
      · exact absurd hpe hp
      · exact ⟨e, he, hpe⟩

/-- Two entries of the plan job are one. -/
theorem slot_eq (h : t.PlanKept) {e e' : Slot × Job} {k' : Queue} (he : e ∈ t.queues.toList k)
    (hp : e.2.isPlan = true) (he' : e' ∈ t.queues.toList k') (hp' : e'.2.isPlan = true) : e.1 = e'.1 := by
  have hs := h.plan k e he hp
  rwa [h.plan k' e' he' hp', Option.some.injEq, eq_comm] at hs

theorem replace (h : t.PlanKept) (hm : (slot, old) ∈ t.queues.toList k₀) (hk : job.state.status = k.status)
    (hid : job.id = old.id) (hplan : job.isPlan = old.isPlan) : (t.replace slot k job).PlanKept := by
  have hr := h.lined.replace hm hk
  have hmem : ∀ k' e, e ∈ (t.replace slot k job).queues.toList k' ↔
      e = (slot, job) ∧ k' = k ∨ e ∈ t.queues.toList k' ∧ e.1 ≠ slot := by
    intro k' e
    rw [(hr.lists k').mem, Lined.filter_status (e := (slot, job)) hk]
    split_ifs with hkk <;> simp [hkk]
  refine ⟨hr.lined h.lined, fun id i hi => ?_, fun k' e he hn => ?_, fun k' e he hp => ?_, ?_⟩
  · obtain ⟨k', job', hm', hj⟩ := h.slots id i hi
    by_cases hs : i = slot
    · subst hs
      rw [job_unique h.lined.sound hm' hm] at hj
      exact ⟨k, job, (hmem ..).2 (.inl ⟨rfl, rfl⟩), hid.trans hj⟩
    · exact ⟨k', job', (hmem ..).2 (.inr ⟨hm', hs⟩), hj⟩
  · rcases (hmem ..).1 he with ⟨rfl, -⟩ | ⟨he, -⟩
    · exact hplan.trans (h.named k₀ _ hm (hid.symm.trans hn))
    · exact h.named k' e he hn
  · rcases (hmem ..).1 he with ⟨rfl, -⟩ | ⟨he, -⟩
    · exact h.plan k₀ (slot, old) hm (hplan.symm.trans hp)
    · exact h.plan k' e he hp
  · show t.planLeasedAfter k job = true ↔ _
    unfold planLeasedAfter
    split_ifs with hp
    · constructor
      · intro hactive
        exact ⟨(slot, job), (hmem ..).2 (.inl ⟨rfl, (of_decide_eq_true hactive).symm⟩), hp⟩
      · rintro ⟨e, he, hpe⟩
        rcases (hmem ..).1 he with ⟨rfl, hk⟩ | ⟨he, hne⟩
        · exact decide_eq_true hk.symm
        · exact absurd (h.slot_eq he hpe hm (hplan.symm.trans hp)) hne
    · refine h.leased.trans ⟨fun ⟨e, he, hpe⟩ => ⟨e, (hmem ..).2 (.inr ⟨he, ?_⟩), hpe⟩, ?_⟩
      · rintro rfl
        rw [job_unique h.lined.sound (show (e.1, e.2) ∈ t.queues.toList .active from he) hm, ← hplan] at hpe
        exact hp hpe
      · rintro ⟨e, he, hpe⟩
        rcases (hmem ..).1 he with ⟨rfl, -⟩ | ⟨he, -⟩
        · exact absurd hpe hp
        · exact ⟨e, he, hpe⟩

theorem forget (h : t.PlanKept) (hm : (slot, old) ∈ t.queues.toList k₀) : (t.forget slot).PlanKept := by
  have hr := h.lined.forget hm
  have heq := h.lined.forget_eq hm
  have hmem : ∀ k' e, e ∈ (t.forget slot).queues.toList k' ↔ e ∈ t.queues.toList k' ∧ e.1 ≠ slot := by
    intro k' e
    rw [(hr.lists k').mem]
    simp
  -- The plan job, if it stays, is not the job that is dropped.
  have hother : ∀ {k' e}, e ∈ t.queues.toList k' → e.1 ≠ slot → e.2.isPlan = true → old.isPlan = false := by
    intro k' e he hne hp
    by_contra ho
    exact hne (h.slot_eq he hp hm (by simpa using ho))
  refine ⟨hr.lined h.lined, fun id i hi => ?_, fun k' e he hn => ?_, fun k' e he hp => ?_, ?_⟩
  · rw [heq, Table.getElem?_erase] at hi
    split_ifs at hi with hne
    obtain ⟨k', job', hm', hj⟩ := h.slots id i hi
    refine ⟨k', job', (hmem ..).2 ⟨hm', ?_⟩, hj⟩
    rintro rfl
    exact hne (hj.symm.trans (by rw [job_unique h.lined.sound hm' hm]))
  · exact h.named k' e ((hmem ..).1 he).1 hn
  · obtain ⟨he, hne⟩ := (hmem ..).1 he
    rw [heq, Table.getElem?_erase, if_neg, h.plan k' e he hp]
    intro hid
    have hplan := h.named k₀ _ hm hid.symm
    rw [hother he hne hp] at hplan
    cases hplan
  · rw [heq]
    show (if old.isPlan then false else t.planLeased) = true ↔ ∃ e ∈ (t.queues.remove slot).2.toList .active, _
    rw [show (t.queues.remove slot).2 = (t.forget slot).queues by rw [heq]]
    split_ifs with hp
    · refine ⟨nofun, ?_⟩
      rintro ⟨e, he, hpe⟩
      obtain ⟨he, hne⟩ := (hmem ..).1 he
      rw [hother he hne hpe] at hp
      cases hp
    · refine h.leased.trans ⟨fun ⟨e, he, hpe⟩ => ⟨e, (hmem ..).2 ⟨he, ?_⟩, hpe⟩, ?_⟩
      · rintro rfl
        rw [job_unique h.lined.sound (show (e.1, e.2) ∈ t.queues.toList .active from he) hm] at hpe
        exact hp hpe
      · rintro ⟨e, he, hpe⟩
        exact ⟨e, ((hmem ..).1 he).1, hpe⟩

theorem releaseAll {es : List (Slot × Job)} (h : t.PlanKept) (now : Instant)
    (hm : ∀ e ∈ es, e ∈ t.queues.toList .active) (hn : (es.map Prod.fst).Nodup) :
    (t.releaseAll now es).PlanKept ∧ (t.releaseAll now es).slots = t.slots := by
  induction es generalizing t with
  | nil => exact ⟨h, rfl⟩
  | cons e es ih =>
    obtain ⟨slot, old⟩ := e
    obtain ⟨hme, hm⟩ := List.forall_mem_cons.1 hm
    obtain ⟨hne, hn⟩ := List.nodup_cons.1 hn
    have hk := old.status_release now
    have hfirst := h.replace hme hk (Job.id_release ..) (Job.isPlan_withState ..)
    exact ih hfirst (h.lined.mem_active_replace hme hk hm hne) hn

theorem maintained {policy : MaintenancePolicy} {force wanted : Bool} (h : t.PlanKept)
    (hw : t.wantsPlan? policy force now = some wanted) : (t.maintained policy now wanted).PlanKept := by
  obtain ⟨hreleased, hslots⟩ := h.releaseAll now (fun _ => mem_of_ranOut)
    (nodup_ranOut h.lined.sound policy now)
  cases wanted with
  | false => exact hreleased
  | true =>
    have hnone : t.slots[planId]? = none := by
      unfold wantsPlan? at hw
      split at hw
      · cases hw
      · rename_i hc
        simpa using hc
    have hcleared : ({ t.releaseAll now (t.ranOut policy now) with planTime := none } : Tracker).PlanKept :=
      hreleased.of_eq rfl rfl rfl
    refine hcleared.place rfl (fun _ => rfl) fun _ k e he => ?_
    by_contra hp
    have hs := hreleased.plan k e he (by simpa using hp)
    rw [hslots, hnone] at hs
    cases hs

/-- Jobs enter, at most one of them the plan job, and this only if there is none. -/
theorem placeAll {jobs : List Job} (h : t.PlanKept) (hk : ∀ job ∈ jobs, job.state.status = k.status)
    (hid : ∀ job ∈ jobs, job.id = planId → job.isPlan = true)
    (hone : 0 < jobs.countP Job.isPlan → t.plans + jobs.countP Job.isPlan ≤ 1) : (t.placeAll k jobs).PlanKept := by
  induction jobs generalizing t with
  | nil => exact h
  | cons job jobs ih =>
    obtain ⟨hkj, hk⟩ := List.forall_mem_cons.1 hk
    obtain ⟨hidj, hid⟩ := List.forall_mem_cons.1 hid
    have hplans : (t.place k job).plans = t.plans + [job].countP Job.isPlan :=
      plans_placeAll h.lined (List.forall_mem_singleton.2 hkj)
    rw [List.countP_singleton] at hplans
    rw [List.countP_cons] at hone
    refine ih (h.place hkj hidj fun hp k' e he => ?_) hk hid fun hpos => ?_
    · rw [if_pos hp] at hone
      have hzero : t.plans = 0 := by omega
      by_contra hpe
      have hpos : 0 < (t.queues.items k').countP Job.isPlan :=
        List.countP_pos_iff.2 ⟨e.2, List.mem_map_of_mem he, by simpa using hpe⟩
      unfold plans pending active at hzero
      cases k' <;> omega
    · rw [hplans]
      split_ifs at hone ⊢ <;> omega

theorem planned {planned : List PlannedJob} (h : t.PlanKept) (hm : (slot, old) ∈ t.queues.toList .active) :
    (t.planned now slot planned).PlanKept := by
  have hoffered : ∀ job ∈ t.offered now planned, job.isPlan = false ∧ job.id ≠ planId := by
    intro job hj
    obtain ⟨c, hc, rfl⟩ := List.mem_map.1 hj
    exact ⟨rfl, (mem_offers hc).2.1⟩
  have hnone : (t.offered now planned).countP Job.isPlan = 0 :=
    List.countP_eq_zero.2 fun job hj => by simp [(hoffered job hj).1]
  have hdone : ({ t.forget slot with planTime := some now } : Tracker).PlanKept := (h.forget hm).of_eq rfl rfl rfl
  have hplaced := hdone.placeAll (t.status_offered now planned)
    (fun job hj hid => absurd hid (hoffered job hj).2) fun hpos => by omega
  exact hplaced.of_eq rfl rfl rfl

end PlanKept

/-- A request keeps the plan job. -/
theorem Commits.planKept (h : t.Commits now r b e) (hk : t.PlanKept) : e.tracker.PlanKept := by
  cases h with
  | maintain policy force wanted hw => exact hk.maintained hw
  | lease slot old job hf hj =>
    obtain ⟨hid, hstatus⟩ := status_of_lease? hj
    obtain ⟨-, rfl⟩ := Job.lease?_eq_some.1 hj
    exact hk.replace (mem_of_firstPending? hk.lined.sound hf) hstatus hid (Job.isPlan_withState ..)
  | renew id epoch slot old hf =>
    have hm := mem_of_leased? hk.lined.sound hf
    exact hk.replace hm (hk.lined.status_renew hm now) (Job.id_renew ..) (Job.isPlan_withState ..)
  | cancel id epoch slot old hf =>
    have hm := mem_of_leased? hk.lined.sound hf
    exact hk.replace hm (old.status_release now) (Job.id_release ..) (Job.isPlan_withState ..)
  | finish id epoch slot old hid hf =>
    have hm := mem_of_leased? hk.lined.sound hf
    exact (hk.forget hm).of_eq rfl rfl rfl
  | plan r answer epoch slot old planned hr hf =>
    have hm := mem_of_leased? hk.lined.sound hf
    exact hk.planned hm

theorem planKept_recover (t : Tracker) {jobs : RecoveredJobs} (h : jobs.Spares) : (t.recover jobs).PlanKept := by
  let start : Tracker :=
    { empty with
      complete := (jobs.withStatus .complete).foldl (fun m job => m.insert job.id job) ∅
      planTime := jobs.planTime
      retired := t.retired }
  have hstart : start.PlanKept := .of_empty rfl rfl rfl
  have hspared : ∀ {status}, status ≠ .complete → ∀ job ∈ (jobs.withStatus status).map Job.compaction,
      job.isPlan = false ∧ job.id ≠ planId := by
    intro status hs job hj
    obtain ⟨c, hc, rfl⟩ := List.mem_map.1 hj
    obtain ⟨hm, hstatus⟩ := RecoveredJobs.mem_withStatus.1 hc
    exact ⟨rfl, h c hm (hstatus.symm ▸ hs)⟩
  have hpending : ∀ job ∈ jobs.planWithStatus .available, job.state.status = Queue.pending.status :=
    fun job hj => (fits_plan (k := .pending) hj).1
  have hnamed : ∀ status, ∀ job ∈ jobs.planWithStatus status, job.isPlan = true := by
    intro status job hj
    obtain ⟨s, -, -, rfl⟩ := RecoveredJobs.mem_planWithStatus.1 hj
    rfl
  have hone : (jobs.planWithStatus .available).countP Job.isPlan +
      (jobs.planWithStatus .leased).countP Job.isPlan ≤ 1 := by
    unfold RecoveredJobs.planWithStatus
    cases jobs.plan with
    | none => exact Nat.zero_le 1
    | some s => cases hs : s.status <;> simp [hs, Job.isPlan]
  have havailable : ∀ job ∈ availableOf jobs, job.isPlan = false ∧ job.id ≠ planId := by
    intro job hj
    obtain ⟨c, hc, rfl⟩ := List.mem_map.1 hj
    exact hspared (by decide) _ (List.mem_map_of_mem (List.mem_mergeSort.1 hc))
  have hleased : ∀ job ∈ leasedOf jobs, job.id = planId → job.isPlan = true := by
    intro job hj hid
    rcases List.mem_append.1 (List.mem_mergeSort.1 hj) with hj | hj
    · exact absurd hid (hspared (by decide) job hj).2
    · exact hnamed _ job hj
  have hcount : (availableOf jobs).countP Job.isPlan = 0 :=
    List.countP_eq_zero.2 fun job hj => by simp [(havailable job hj).1]
  have hcount' : (leasedOf jobs).countP Job.isPlan = (jobs.planWithStatus .leased).countP Job.isPlan := by
    have hspare : ((jobs.withStatus .leased).map Job.compaction).countP Job.isPlan = 0 :=
      List.countP_eq_zero.2 fun job hj => by simp [(hspared (by decide) job hj).1]
    unfold leasedOf
    rw [(List.mergeSort_perm ..).countP_eq, List.countP_append, hspare, Nat.zero_add]
  have hzero : start.plans = 0 := by
    unfold plans pending active Queues.items
    rw [show start.queues = .empty from rfl, Queues.toList_empty, Queues.toList_empty]
    rfl
  have h₁ := hstart.placeAll (status_availableOf jobs) (fun job hj hid => absurd hid (havailable job hj).2) (by omega)
  have hp₁ := plans_placeAll hstart.lined (status_availableOf jobs)
  have h₂ := h₁.placeAll hpending (fun job hj _ => hnamed _ job hj) (by omega)
  have hp₂ := plans_placeAll h₁.lined hpending
  have h₃ := h₂.placeAll (status_leasedOf jobs) hleased (by omega)
  exact h₃

end Tracker

end CompactionLeasing

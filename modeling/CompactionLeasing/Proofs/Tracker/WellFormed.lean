import CompactionLeasing.Proofs.Tracker.Outcome
import CompactionLeasing.Proofs.Tracker.Recovery
import Mathlib.Logic.Basic

/-!
# Well-formed trackers

`WellFormed` says what `Consistent` means for the data of a tracker as it can be seen from outside. It
holds in every state of every run, whatever is asked, whichever batches cannot be made durable, and
however often the tracker is rebuilt.
-/

namespace CompactionLeasing

namespace Tracker

structure WellFormed (t : Tracker) : Prop where
  /-- The index has one entry for each incomplete job: its slot, under its name. -/
  slots : ∀ id slot, t.slots[id]? = some slot ↔ ∃ k job, (slot, job) ∈ t.queues.toList k ∧ job.id = id
  size : t.incompleteCount = t.pending.length + t.active.length
  lens : t.queues.len .pending = t.pending.length ∧ t.queues.len .active = t.active.length
  distinct : ((t.pending ++ t.active).map Job.id ++ t.complete.keys).Nodup
  pending : ∀ job ∈ t.pending, job.state.status = .available
  active : ∀ job ∈ t.active, job.state.status = .leased
  complete : ∀ (id : JobId) job, t.complete[id]? = some job → job.id = id ∧ job.state.status = .complete
  onePlan : ((t.pending ++ t.active).filter Job.isPlan).length ≤ 1
  planLeased : t.planLeased = true ↔ ∃ job ∈ t.active, job.isPlan = true
  planTime : t.planTime.isSome → ∀ job ∈ t.pending ++ t.active, job.isPlan = false

/-- Whether a plan job is among the incomplete jobs. -/
def HasPlan (t : Tracker) : Prop := ∃ job ∈ t.pending ++ t.active, job.isPlan = true

namespace Consistent
variable {t : Tracker} {job : Job}

theorem mem_incomplete : job ∈ t.pending ++ t.active ↔ ∃ k slot, (slot, job) ∈ t.queues.toList k := by
  simp only [List.mem_append, pending, active, Queues.items, List.mem_map, Prod.exists, exists_eq_right]
  constructor
  · rintro (⟨slot, h⟩ | ⟨slot, h⟩)
    · exact ⟨.pending, slot, h⟩
    · exact ⟨.active, slot, h⟩
  · rintro ⟨_ | _, slot, h⟩
    · exact .inl ⟨slot, h⟩
    · exact .inr ⟨slot, h⟩

theorem nodup_ids (h : t.Consistent) : ((t.pending ++ t.active).map Job.id).Nodup := by
  have hs : ∀ k, ((t.queues.items k).map Job.id).Nodup := by
    intro k
    rw [Queues.items, List.map_map]; exact h.nodup_names k
  rw [List.map_append]
  refine (hs .pending).append (hs .active) fun id hp ha => ?_
  simp only [active, Queues.items, List.map_map, List.mem_map] at hp ha
  obtain ⟨⟨slot, job⟩, hx, rfl⟩ := hp
  obtain ⟨⟨slot', job'⟩, hy, hid⟩ := ha
  cases (h.slot_unique hy hx hid).2.2

theorem hasPlan_iff (h : t.Consistent) : t.HasPlan ↔ (t.job? planId).isSome := by
  simp only [HasPlan, mem_incomplete, Option.isSome_iff_exists, h.job?_eq_some]
  constructor
  · rintro ⟨job, ⟨k, slot, he⟩, hp⟩
    exact ⟨job, (h.named k _ he).2 hp, .inl ⟨k, slot, he⟩⟩
  · rintro ⟨job, hid, ⟨k, slot, he⟩ | ⟨c, rfl, hc⟩⟩
    · exact ⟨job, ⟨k, slot, he⟩, (h.named k _ he).1 hid⟩
    · exact absurd rfl (h.complete _ _ hc).2.2.1

theorem keys_perm (h : t.Consistent) : t.slots.keys.Perm ((t.pending ++ t.active).map Job.id) := by
  refine (List.perm_ext_iff_of_nodup Std.ExtTreeMap.nodup_keys h.nodup_ids).2 fun id => ?_
  rw [Std.ExtTreeMap.mem_keys, Std.ExtTreeMap.mem_iff_isSome_getElem?, Option.isSome_iff_exists,
    List.mem_map]
  constructor
  · rintro ⟨slot, hs⟩
    obtain ⟨k, job, he, hid⟩ := h.exists_mem hs
    exact ⟨job, mem_incomplete.2 ⟨k, slot, he⟩, hid⟩
  · rintro ⟨job, hj, rfl⟩
    obtain ⟨k, slot, he⟩ := mem_incomplete.1 hj
    exact ⟨slot, h.slot_of_mem he⟩

theorem filter_isPlan_length_le {jobs : List Job} (hn : (jobs.map Job.id).Nodup) :
    (jobs.filter Job.isPlan).length ≤ 1 := by
  have hids : ∀ id ∈ (jobs.filter Job.isPlan).map Job.id, id = planId := by
    intro id hm
    obtain ⟨job, hj, rfl⟩ := List.mem_map.1 hm
    obtain ⟨-, hp⟩ := List.mem_filter.1 hj
    cases job with
    | plan s => rfl
    | compaction c => cases hp
  have hplans := hn.sublist ((List.filter_sublist (p := Job.isPlan)).map Job.id)
  rwa [List.eq_replicate_of_mem hids, List.nodup_replicate, List.length_map] at hplans

theorem wellFormed (h : t.Consistent) : t.WellFormed := by
  refine ⟨fun id slot => ?_, ?_, ?_, ?_, fun job hj => ?_, fun job hj => ?_, fun id job hj => ?_, ?_, ?_,
    fun ht job hj => ?_⟩
  · exact ⟨h.exists_mem, fun ⟨k, job, he, hid⟩ => hid ▸ h.slot_of_mem he⟩
  · rw [incompleteCount, ← Std.ExtTreeMap.length_keys, h.keys_perm.length_eq, List.length_map,
      List.length_append]
  · simp [h.sound.len_eq, pending, active, Queues.items]
  · refine h.nodup_ids.append Std.ExtTreeMap.nodup_keys fun id hi hc => ?_
    rw [← h.keys_perm.mem_iff] at hi
    rw [Std.ExtTreeMap.mem_keys, Std.ExtTreeMap.mem_iff_isSome_getElem?, Option.isSome_iff_exists] at hi hc
    obtain ⟨slot, hs⟩ := hi
    obtain ⟨c, hc⟩ := hc
    rw [(h.complete id c hc).2.2.2] at hs; cases hs
  · obtain ⟨x, hx, rfl⟩ := List.mem_map.1 hj
    exact h.status .pending x hx
  · obtain ⟨x, hx, rfl⟩ := List.mem_map.1 hj
    exact h.status .active x hx
  · exact ⟨(h.complete id job hj).1, (h.complete id job hj).2.1⟩
  · exact filter_isPlan_length_le h.nodup_ids
  · simp only [h.planLeased, active, Queues.items, List.mem_map]
    exact ⟨fun ⟨x, hx, hp⟩ => ⟨x.2, ⟨x, hx, rfl⟩, hp⟩, fun ⟨_, ⟨x, hx, hj⟩, hp⟩ => ⟨x, hx, hj ▸ hp⟩⟩
  · obtain ⟨k, slot, he⟩ := mem_incomplete.1 hj
    have := h.planTime ht
    cases hp : job.isPlan with
    | false => rfl
    | true => rw [← (h.named k _ he).2 hp, h.slot_of_mem he] at this; cases this

end Consistent

/-! ### Runs -/

section Run
variable {ε : Type}

/-- What is done to a tracker: a request, with a way to make batches durable, or one of the calls outside
of requests. -/
inductive Action (ε : Type) where
  | call (now : Instant) (request : Request) (write : Batch → Except ε Unit)
  | retire
  | reinstate
  | recover (jobs : RecoveredJobs)

/-- A tracker, and whether a plan job has been created or recovered since it was last rebuilt. -/
structure Watched where
  tracker : Tracker
  planSeen : Bool

namespace Watched

def act (w : Watched) : Action ε → Watched
  | .call now request write =>
    let s := w.tracker.serve now request () write
    ⟨s.tracker, w.planSeen || s.events.contains .planCreated⟩
  | .retire => { w with tracker := w.tracker.retire }
  | .reinstate => { w with tracker := w.tracker.reinstate }
  | .recover jobs => ⟨w.tracker.recover jobs, jobs.plan.isSome⟩

/-- The new tracker after some actions. -/
def run (actions : List (Action ε)) : Watched := actions.foldl act ⟨empty, false⟩

/-- The tracker is consistent; and it has a plan job or the time of the last one once it has seen one. -/
structure Inv (w : Watched) : Prop where
  consistent : w.tracker.Consistent
  plan : w.planSeen = true → (w.tracker.job? planId).isSome ∨ w.tracker.planTime.isSome

end Watched

theorem Serves.hasPlan_of_created {t : Tracker} {now : Instant} {r : Request} {b : Batch} {e : Effect Reply}
    (h : t.Consistent) (hs : Serves t now r b e) (he : .planCreated ∈ e.events) :
    (e.tracker.job? planId).isSome := by
  cases hs with
  | maintain policy force wanted refilled events hw hr hev =>
    obtain rfl : wanted = true := by
      subst hev
      cases wanted with
      | true => rfl
      | false => simp [gauges] at he
    cases h.maintained hw with
    | kept _ ht =>
      rw [ht.job?]
      exact JobTable.putAll_isSome (.inl (by simp [Job.id]))
    | created _ _ hnew ht => rw [ht.job?, hnew]; rfl
    | completed s hold =>
      rw [h.job?_plan_of_wants hw] at hold; cases hold
  | _ => simp [gauges, plannedEffect] at he

namespace Watched
variable {w : Watched}

theorem Inv.act (h : w.Inv) (a : Action ε) (ha : ∀ jobs, a = .recover jobs → jobs.Apart) :
    (w.act a).Inv := by
  cases a with
  | retire => exact ⟨(h.consistent.tracks.withRetired true).consistent, h.plan⟩
  | reinstate => exact ⟨(h.consistent.tracks.withRetired false).consistent, h.plan⟩
  | recover jobs =>
    have ht := w.tracker.tracks_recover (ha jobs rfl)
    refine ⟨ht.consistent, fun hp => ?_⟩
    obtain ⟨s, hs⟩ := Option.isSome_iff_exists.1 hp
    -- A complete plan job is not kept, but its time is.
    by_cases hc : s.status = .complete
    · exact .inr (by rw [Watched.act, ht.planTime, jobs.planTime_eq_some hs hc]; rfl)
    · exact .inl (by rw [Watched.act, ht.job?, (ha jobs rfl).of_tracked_plan hs hc]; rfl)
  | call now r write =>
    have hs := h.consistent.settled now r () write
    simp only [Watched.act]
    generalize w.tracker.serve now r () write = s at hs ⊢
    cases hs with
    | refused => exact ⟨h.consistent, by simpa using h.plan⟩
    | overflow => exact ⟨h.consistent, by simpa using h.plan⟩
    | failed => exact ⟨h.consistent, by simpa using h.plan⟩
    | committed b e store' _ hs _ =>
      refine ⟨(hs.outcome h.consistent).consistent, fun hp => ?_⟩
      rcases Bool.or_eq_true_iff.1 hp with hp | hp
      · exact (hs.outcome h.consistent).plan_isSome (h.plan hp)
      · exact .inl (hs.hasPlan_of_created h.consistent (List.contains_iff_mem.1 hp))

theorem Inv.foldl {actions : List (Action ε)} (h : w.Inv)
    (ha : ∀ jobs, .recover jobs ∈ actions → jobs.Apart) :
    (actions.foldl Watched.act w).Inv :=
  List.foldlRecOn _ _ h fun _ ih a hm => ih.act a fun jobs hj => ha jobs (hj ▸ hm)

/-- Every state of every run is well-formed. Once a plan job has been created or recovered, there is at
each time either one, or the time when the last one was completed. -/
theorem wellFormed_run (actions : List (Action ε)) (ha : ∀ jobs, .recover jobs ∈ actions → jobs.Apart) :
    (run actions).tracker.WellFormed ∧
      ((run actions).planSeen = true →
        Xor (run actions).tracker.HasPlan ((run actions).tracker.planTime.isSome = true)) := by
  have h : (run actions).Inv := Inv.foldl ⟨consistent_empty, nofun⟩ ha
  refine ⟨h.consistent.wellFormed, fun hp => ?_⟩
  have hnot : ¬ ((run actions).tracker.HasPlan ∧ (run actions).tracker.planTime.isSome = true) := by
    rintro ⟨⟨job, hj, hplan⟩, ht⟩
    rw [h.consistent.wellFormed.planTime ht job hj] at hplan; cases hplan
  have hor := h.plan hp
  rw [← h.consistent.hasPlan_iff] at hor
  exact (xor_iff_or_and_not_and ..).2 ⟨hor, hnot⟩

/-- A tracker rebuilt with a leased plan job, which then leases a compaction job. -/
theorem wellFormed_run_rebuilt :
    let jobs : RecoveredJobs :=
      ⟨[⟨"a", ⟨["x", "y"], false⟩, 1, .fresh .epoch⟩], some ⟨.leased, .epoch, 1, .epoch⟩⟩
    let actions : List (Action Unit) := [.recover jobs, .call .epoch .lease fun _ => .ok ()]
    jobs.Apart ∧ (run actions).tracker.WellFormed ∧
      Xor (run actions).tracker.HasPlan ((run actions).tracker.planTime.isSome = true) := by
  intro jobs actions
  have ha : jobs.Apart := ⟨List.nodup_singleton _, by simp [jobs, planId]⟩
  have h := wellFormed_run actions fun js hj => by
    obtain rfl : js = jobs := by simpa [actions] using hj
    exact ha
  exact ⟨ha, h.1, h.2 rfl⟩

end Watched

end Run

end Tracker

end CompactionLeasing

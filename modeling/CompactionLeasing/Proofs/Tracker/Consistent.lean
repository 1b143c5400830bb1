import CompactionLeasing.Proofs.JobTable
import CompactionLeasing.Proofs.Queues.Sound
import CompactionLeasing.Proofs.Table
import CompactionLeasing.Tracker.Basic

/-!
# Consistent trackers

`Consistent t`: the arena, the index of the incomplete jobs, the complete jobs and the flags of the
tracker tell one story, which is `t.job?`: the job that is tracked under a name. Inserting a job
(`place`), moving it (`replace`), dropping it (`forget`) and the updates of the complete jobs keep the
tracker consistent, and each changes `job?` at one name.
-/

namespace CompactionLeasing

def Queue.status : Queue → JobStatus
  | .pending => .available
  | .active => .leased

/-- Whether the job has a name of its kind: the plan job, and only that one, has the reserved name. -/
def Job.IsNamed (job : Job) : Prop := job.id = planId ↔ job.isPlan = true

namespace Tracker

/-- The job that is tracked under a name, whether incomplete or complete. -/
def job? (t : Tracker) : JobTable := fun id =>
  match t.slots[id]? with
  | some slot => t.queues.get? slot
  | none => t.complete[id]?.map .compaction

structure Consistent (t : Tracker) : Prop where
  sound : t.queues.Sound
  /-- The index has the slots of the incomplete jobs, each under the name of its job. -/
  slots : ∀ id slot, t.slots[id]? = some slot ↔ ∃ job, t.queues.get? slot = some job ∧ job.id = id
  status : ∀ k, ∀ e ∈ t.queues.toList k, e.2.state.status = k.status
  named : ∀ k, ∀ e ∈ t.queues.toList k, e.2.IsNamed
  complete : ∀ id job, t.complete[id]? = some job →
    job.id = id ∧ job.state.status = .complete ∧ id ≠ planId ∧ t.slots[id]? = none
  planLeased : t.planLeased = true ↔ ∃ e ∈ t.queues.toList .active, e.2.isPlan = true
  planTime : t.planTime.isSome → t.slots[planId]? = none

theorem consistent_empty : empty.Consistent := by
  have hl : ∀ k, empty.queues.toList k = [] := Queues.toList_empty
  refine ⟨Queues.sound_empty, fun id slot => ?_, fun k e he => ?_, fun k e he => ?_, fun id c hc => ?_,
    ?_, nofun⟩
  · simp [empty, Queues.empty, Queues.get?, Queues.node?]
  · simp [hl] at he
  · simp [hl] at he
  · simp [empty] at hc
  · simp [hl]; rfl

/-- The slot in front of which a job goes splits its queue. -/
theorem position?_split (t : Tracker) (k : Queue) (job : Job) :
    ∃ xs ys, t.queues.toList k = xs ++ ys ∧ t.position? k job = Queues.headSlot ys := by
  have split : ∀ (p : Job → Bool) (es : List (Slot × Job)),
      ∃ xs ys, es = xs ++ ys ∧ Queues.slotAfterLast p es = Queues.headSlot ys := by
    intro p es
    obtain ⟨xs, ys, hs, hslot, -⟩ := Queues.slotAfterLast_split p es
    exact ⟨xs, ys, hs, hslot⟩
  cases k with
  | active => exact split (fun j => decide (j.state.since ≤ job.state.since)) _
  | pending =>
    cases ho : job.order? with
    | none => exact ⟨t.queues.toList .pending, [], by simp, by simp [position?, ho]⟩
    | some order => simpa only [position?, ho] using split ..

namespace Consistent
variable {t : Tracker} {k : Queue} {slot : Slot} {job old : Job} {id : JobId}

theorem get?_of_mem (h : t.Consistent) (he : (slot, job) ∈ t.queues.toList k) :
    t.queues.get? slot = some job :=
  (h.sound.mem_toList.1 he).1

theorem slot_of_mem (h : t.Consistent) (he : (slot, job) ∈ t.queues.toList k) :
    t.slots[job.id]? = some slot :=
  (h.slots ..).2 ⟨job, h.get?_of_mem he, rfl⟩

theorem job?_of_mem (h : t.Consistent) (he : (slot, job) ∈ t.queues.toList k) :
    t.job? job.id = some job := by
  rw [job?, h.slot_of_mem he]; exact h.get?_of_mem he

theorem exists_mem (h : t.Consistent) (hs : t.slots[id]? = some slot) :
    ∃ k job, (slot, job) ∈ t.queues.toList k ∧ job.id = id := by
  obtain ⟨job, hg, rfl⟩ := (h.slots ..).1 hs
  obtain ⟨k, he⟩ := h.sound.get?_eq_some.1 hg
  exact ⟨k, job, he, rfl⟩

theorem slot_unique (h : t.Consistent) {k' : Queue} {slot' : Slot} (he : (slot, job) ∈ t.queues.toList k)
    (he' : (slot', old) ∈ t.queues.toList k') (hid : job.id = old.id) :
    slot = slot' ∧ job = old ∧ k = k' := by
  have hs := h.slot_of_mem he
  rw [hid, h.slot_of_mem he', Option.some.injEq] at hs
  subst hs
  have hj := h.get?_of_mem he
  rw [h.get?_of_mem he', Option.some.injEq] at hj
  subst hj
  exact ⟨rfl, rfl, h.sound.linked.queue_eq (List.mem_map_of_mem he) (List.mem_map_of_mem he')⟩

theorem nodup_names (h : t.Consistent) (k : Queue) : ((t.queues.toList k).map (·.2.id)).Nodup := by
  refine List.Nodup.map_on ?_ (h.sound.nodup k).of_map
  rintro ⟨slot, job⟩ hx ⟨slot', job'⟩ hy hxy
  obtain ⟨rfl, rfl, -⟩ := h.slot_unique hx hy hxy
  rfl

theorem job?_eq_some (h : t.Consistent) : t.job? id = some job ↔
    job.id = id ∧ ((∃ k slot, (slot, job) ∈ t.queues.toList k) ∨
      ∃ c, job = .compaction c ∧ t.complete[id]? = some c) := by
  constructor
  · intro hj
    cases hs : t.slots[id]? with
    | some slot =>
      obtain ⟨k, job', he, rfl⟩ := h.exists_mem hs
      rw [h.job?_of_mem he, Option.some.injEq] at hj
      subst hj; exact ⟨rfl, .inl ⟨k, slot, he⟩⟩
    | none =>
      simp only [job?, hs, Option.map_eq_some_iff] at hj
      obtain ⟨c, hc, rfl⟩ := hj
      exact ⟨(h.complete id c hc).1, .inr ⟨c, rfl, hc⟩⟩
  · rintro ⟨rfl, ⟨k, slot, he⟩ | ⟨c, rfl, hc⟩⟩
    · exact h.job?_of_mem he
    · rw [job?, (h.complete _ _ hc).2.2.2, hc]; rfl

theorem id_of_job? (h : t.Consistent) (hj : t.job? id = some job) : job.id = id := (h.job?_eq_some.1 hj).1

theorem job?_eq_none (h : t.Consistent) :
    t.job? id = none ↔ t.slots[id]? = none ∧ t.complete[id]? = none := by
  cases hs : t.slots[id]? with
  | some slot =>
    obtain ⟨k, job, he, rfl⟩ := h.exists_mem hs
    simp [h.job?_of_mem he]
  | none => simp [job?, hs]

/-- The queue of a tracked job shows in its status. -/
theorem mem_of_status (h : t.Consistent) (hj : t.job? id = some job) (hk : job.state.status = k.status) :
    ∃ slot, (slot, job) ∈ t.queues.toList k := by
  obtain ⟨-, ⟨k', slot, he⟩ | ⟨c, rfl, hc⟩⟩ := h.job?_eq_some.1 hj
  · have := h.status k' _ he
    have hkk : k' = k := by cases k <;> cases k' <;> simp_all [Queue.status]
    exact ⟨slot, hkk ▸ he⟩
  · have := (h.complete _ _ hc).2.1
    cases k <;> simp_all [Queue.status, Job.state]

theorem id_eq_iff (h : t.Consistent) (he : (slot, old) ∈ t.queues.toList k) {k' : Queue} {e : Slot × Job}
    (he' : e ∈ t.queues.toList k') : e.2.id = old.id ↔ e.1 = slot := by
  obtain ⟨s, a⟩ := e
  refine ⟨fun hid => (h.slot_unique he' he hid).1, ?_⟩
  rintro rfl
  have hj := h.get?_of_mem he'
  rw [h.get?_of_mem he, Option.some.injEq] at hj
  rw [hj]

theorem not_complete_of_mem (h : t.Consistent) (he : (slot, old) ∈ t.queues.toList k) :
    t.complete[old.id]? = none := by
  cases hc : t.complete[old.id]? with
  | none => rfl
  | some c =>
    have := (h.complete _ c hc).2.2.2
    rw [h.slot_of_mem he] at this; cases this

theorem planTime_of_mem (h : t.Consistent) (he : (slot, old) ∈ t.queues.toList k) (hid : old.id = planId) :
    t.planTime = none := by
  cases ht : t.planTime with
  | none => rfl
  | some c =>
    have := h.planTime (by rw [ht]; rfl)
    rw [← hid, h.slot_of_mem he] at this; cases this

theorem job?_plan_eq_none (h : t.Consistent) : t.job? planId = none ↔ t.slots[planId]? = none := by
  rw [h.job?_eq_none, and_iff_left]
  cases hc : t.complete[planId]? with
  | none => rfl
  | some c => exact absurd rfl (h.complete _ _ hc).2.2.1

theorem ids_complete (h : t.Consistent) : t.complete.values.map (·.id) = t.complete.keys := by
  rw [Table.values_eq, ← Std.ExtTreeMap.map_fst_toList_eq_keys, List.map_map]
  refine List.map_congr_left fun e he => ?_
  exact (h.complete _ _ (Std.ExtTreeMap.mem_toList_iff_getElem?_eq_some.1 he)).1

theorem isNamed (h : t.Consistent) (hj : t.job? id = some job) : job.IsNamed := by
  obtain ⟨hid, ⟨k, slot, he⟩ | ⟨c, rfl, hc⟩⟩ := h.job?_eq_some.1 hj
  · exact h.named k _ he
  · rw [Job.IsNamed, hid]; simpa [Job.isPlan] using (h.complete _ _ hc).2.2.1

end Consistent

/-! ### Changes in one slot -/

/-- `t'` is `t` with other contents of one slot: the job `new` in its queue, or none. The jobs before and
after are the only ones of the name `n`. -/
structure Edit (t t' : Tracker) (slot : Slot) (n : JobId) (new : Option (Queue × Job)) : Prop where
  sound : t'.queues.Sound
  entries : ∀ k e, e ∈ t'.queues.toList k ↔
    e ∈ t.queues.toList k ∧ e.1 ≠ slot ∨ new = some (k, e.2) ∧ e.1 = slot
  slots : ∀ id, t'.slots[id]? = if id = n then new.map fun _ => slot else t.slots[id]?
  complete : t'.complete = t.complete
  planLeased : t'.planLeased = if n = planId then new.any (·.1 = .active) else t.planLeased
  planTime : t'.planTime = t.planTime
  old : ∀ k, ∀ e ∈ t.queues.toList k, e.2.id = n ↔ e.1 = slot
  not_complete : t.complete[n]? = none
  new_job : ∀ k job, new = some (k, job) → job.id = n ∧ job.state.status = k.status ∧ job.IsNamed
  new_plan : new.isSome → n = planId → t.planTime = none

namespace Edit
variable {t t' : Tracker} {slot : Slot} {n : JobId} {new : Option (Queue × Job)}

theorem get?_eq_some (e : Edit t t' slot n new) (h : t.Consistent) {s : Slot} {job : Job} :
    t'.queues.get? s = some job ↔
      t.queues.get? s = some job ∧ s ≠ slot ∨ s = slot ∧ ∃ k, new = some (k, job) := by
  simp only [e.sound.get?_eq_some, h.sound.get?_eq_some, e.entries]
  constructor
  · rintro ⟨k, ⟨hm, hs⟩ | ⟨hm, hs⟩⟩
    · exact .inl ⟨⟨k, hm⟩, hs⟩
    · exact .inr ⟨hs, k, hm⟩
  · rintro (⟨⟨k, hm⟩, hs⟩ | ⟨hs, k, hm⟩)
    · exact ⟨k, .inl ⟨hm, hs⟩⟩
    · exact ⟨k, .inr ⟨hm, hs⟩⟩

theorem getElem?_slots (e : Edit t t' slot n new) (h : t.Consistent) {id : JobId} {s : Slot} :
    t'.slots[id]? = some s ↔ ∃ job, t'.queues.get? s = some job ∧ job.id = id := by
  rw [e.slots]
  split_ifs with hid
  · subst hid
    constructor
    · intro hs
      obtain ⟨⟨k, job⟩, hnew, rfl⟩ := Option.map_eq_some_iff.1 hs
      exact ⟨job, (e.get?_eq_some h).2 (.inr ⟨rfl, k, hnew⟩), (e.new_job k job hnew).1⟩
    · rintro ⟨job, hg, rfl⟩
      rcases (e.get?_eq_some h).1 hg with ⟨hg, hs⟩ | ⟨rfl, k, hnew⟩
      · -- The name is that of the slot, where another job stands now.
        obtain ⟨k, hm⟩ := h.sound.get?_eq_some.1 hg
        exact absurd ((e.old k _ hm).1 rfl) hs
      · rw [hnew]; rfl
  · rw [h.slots]
    constructor
    · rintro ⟨job, hg, rfl⟩
      obtain ⟨k, hm⟩ := h.sound.get?_eq_some.1 hg
      exact ⟨job, (e.get?_eq_some h).2 (.inl ⟨hg, fun hs => hid ((e.old k _ hm).2 hs)⟩), rfl⟩
    · rintro ⟨job, hg, rfl⟩
      rcases (e.get?_eq_some h).1 hg with ⟨hg, -⟩ | ⟨-, k, hnew⟩
      · exact ⟨job, hg, rfl⟩
      · exact absurd (e.new_job k job hnew).1 hid

theorem planLeased_iff (e : Edit t t' slot n new) (h : t.Consistent) :
    t'.planLeased = true ↔ ∃ x ∈ t'.queues.toList .active, x.2.isPlan = true := by
  rw [e.planLeased]
  split_ifs with hid
  · -- The slot has the reserved name, so no job elsewhere is a plan job.
    simp only [Option.any_eq_true, decide_eq_true_eq]
    constructor
    · rintro ⟨⟨k, job⟩, hnew, rfl⟩
      obtain ⟨hn, -, hnamed⟩ := e.new_job .active job hnew
      exact ⟨(slot, job), (e.entries ..).2 (.inr ⟨hnew, rfl⟩), hnamed.1 (hn.trans hid)⟩
    · rintro ⟨x, hx, hp⟩
      rcases (e.entries .active x).1 hx with ⟨hx, hs⟩ | ⟨hx, -⟩
      · exact absurd ((e.old .active x hx).1 (((h.named .active x hx).2 hp).trans hid.symm)) hs
      · exact ⟨_, hx, rfl⟩
  · rw [h.planLeased]
    constructor
    · rintro ⟨x, hx, hp⟩
      refine ⟨x, (e.entries ..).2 (.inl ⟨hx, fun hs => hid ?_⟩), hp⟩
      rw [← (e.old .active x hx).2 hs, (h.named .active x hx).2 hp]
    · rintro ⟨x, hx, hp⟩
      rcases (e.entries .active x).1 hx with ⟨hx, -⟩ | ⟨hx, -⟩
      · exact ⟨x, hx, hp⟩
      · obtain ⟨hn, -, hnamed⟩ := e.new_job .active x.2 hx
        exact absurd (hn.symm.trans (hnamed.2 hp)) hid

theorem consistent (e : Edit t t' slot n new) (h : t.Consistent) : t'.Consistent := by
  refine ⟨e.sound, fun id s => e.getElem?_slots h, ?_, ?_, ?_, e.planLeased_iff h, ?_⟩
  · intro k x hx
    rcases (e.entries k x).1 hx with ⟨hx, -⟩ | ⟨hx, -⟩
    · exact h.status k x hx
    · exact (e.new_job k _ hx).2.1
  · intro k x hx
    rcases (e.entries k x).1 hx with ⟨hx, -⟩ | ⟨hx, -⟩
    · exact h.named k x hx
    · exact (e.new_job k _ hx).2.2
  · intro id job hj
    rw [e.complete] at hj
    obtain ⟨h₁, h₂, h₃, h₄⟩ := h.complete id job hj
    refine ⟨h₁, h₂, h₃, ?_⟩
    rw [e.slots, if_neg, h₄]
    rintro rfl
    rw [e.not_complete] at hj; cases hj
  · intro ht
    rw [e.planTime] at ht
    rw [e.slots]
    split_ifs with hid
    · cases hnew : new with
      | none => rfl
      | some p => rw [e.new_plan (by simp [hnew]) hid.symm] at ht; cases ht
    · exact h.planTime ht

theorem job? (e : Edit t t' slot n new) (h : t.Consistent) (id : JobId) :
    t'.job? id = if id = n then new.map (·.2) else t.job? id := by
  have h' := e.consistent h
  split_ifs with hid
  · subst hid
    cases hnew : new with
    | none =>
      have hs := e.slots id
      rw [if_pos rfl, hnew] at hs
      rw [Option.map_none, h'.job?_eq_none, e.complete]
      exact ⟨hs, e.not_complete⟩
    | some p =>
      obtain ⟨k, job⟩ := p
      obtain ⟨rfl, -, -⟩ := e.new_job k job hnew
      exact h'.job?_of_mem ((e.entries k (slot, job)).2 (.inr ⟨hnew, rfl⟩))
  · have hs := e.slots id
    rw [if_neg hid] at hs
    cases ht : t.slots[id]? with
    | none => rw [Tracker.job?, Tracker.job?, hs, ht, e.complete]
    | some s =>
      obtain ⟨k, job, hm, rfl⟩ := h.exists_mem ht
      rw [h.job?_of_mem hm]
      exact h'.job?_of_mem ((e.entries k _).2 (.inl ⟨hm, fun hs => hid ((e.old k _ hm).2 hs)⟩))

end Edit

/-! ### Inserting, moving and dropping a job -/

theorem planLeasedAfter_eq (t : Tracker) (k : Queue) {job : Job} (hn : job.IsNamed) :
    t.planLeasedAfter k job =
      if job.id = planId then (some (k, job)).any (·.1 = .active) else t.planLeased := by
  rw [planLeasedAfter, if_congr hn rfl rfl]; rfl

namespace Consistent
variable {t : Tracker} {k k₀ : Queue} {slot : Slot} {job old : Job}

/-- A new job in a queue. -/
theorem place (h : t.Consistent) (hnew : t.job? job.id = none) (hk : job.state.status = k.status)
    (hn : job.IsNamed) (ht : job.isPlan = true → t.planTime = none) :
    ∃ slot, Edit t (t.place k job) slot job.id (some (k, job)) := by
  obtain ⟨xs, ys, hs, hp⟩ := t.position?_split k job
  obtain ⟨hfresh, hd⟩ := Queues.Denotes.insertBefore h.sound hs job
  obtain ⟨hslot, hcomplete⟩ := h.job?_eq_none.1 hnew
  rw [Tracker.place, hp]
  generalize t.queues.insertBefore k (Queues.headSlot ys) job = r at *
  obtain ⟨slot, q⟩ := r
  dsimp only at *
  have hold : ∀ k', ∀ e ∈ t.queues.toList k', e.1 ≠ slot := fun k' e he hs =>
    hfresh k' (hs ▸ List.mem_map_of_mem he)
  refine ⟨slot, ⟨hd.sound, fun k' e => ?_, fun id => ?_, rfl, planLeasedAfter_eq t k hn, rfl,
    fun k' e he => ?_,
    hcomplete, ?_, fun _ hid => ht (hn.1 hid)⟩⟩
  · rw [hd.linked.toList_eq]
    by_cases hkk : k' = k
    · subst hkk
      rw [Function.update_self, and_iff_left_of_imp (hold k' e), hs]
      obtain ⟨s, b⟩ := e
      simp only [List.mem_append, List.mem_cons, Prod.mk.injEq, Option.some.injEq, true_and]
      grind
    · rw [Function.update_of_ne hkk, and_iff_left_of_imp (hold k' e)]
      simp [Ne.symm hkk]
  · exact Table.getElem?_insert ..
  · refine iff_of_false (fun hid => ?_) (hold k' e he)
    have : t.slots[e.2.id]? = some e.1 := h.slot_of_mem he
    rw [hid, hslot] at this; cases this
  · rintro k' job' ⟨⟩
    exact ⟨rfl, hk, hn⟩

/-- Another version of an incomplete job, in either queue. -/
theorem replace (h : t.Consistent) (he : (slot, old) ∈ t.queues.toList k₀) (hid : job.id = old.id)
    (hk : job.state.status = k.status) (hn : job.IsNamed) :
    Edit t (t.replace slot k job) slot job.id (some (k, job)) := by
  obtain ⟨xs, ys, hs, hp⟩ := t.position?_split k job
  have hm : (slot, job) ∈ Queues.replaced slot job (t.queues.toList k₀) :=
      List.mem_map.2 ⟨_, he, if_pos rfl⟩
  have hs' : Queues.replaced slot job (t.queues.toList k) =
      Queues.replaced slot job xs ++ Queues.replaced slot job ys := by
    rw [hs, Queues.replaced, List.map_append]; rfl
  have hd := (Queues.Denotes.set h.sound slot job).moveBefore hm hs'
  rw [show Queues.headSlot (Queues.replaced slot job ys) = t.position? k job from
    (Queues.headSlot_map (Queues.slot_replaced slot job) ys).trans hp.symm] at hd
  simp only [Queues.without_replaced] at hd
  refine ⟨hd.sound, fun k' e => ?_, fun id => ?_, rfl, planLeasedAfter_eq t k hn, rfl, fun k' e he' => ?_,
    ?_, ?_,
    fun _ hid' => h.planTime_of_mem he (hid ▸ hid')⟩
  · rw [Tracker.replace, hd.linked.toList_eq]
    by_cases hkk : k' = k
    · subst hkk
      rw [Function.update_self, hs]
      obtain ⟨s, b⟩ := e
      simp only [List.mem_append, List.mem_cons, Prod.mk.injEq, Option.some.injEq, true_and,
        Queues.mem_without]
      grind
    · rw [Function.update_of_ne hkk, Queues.mem_without]
      simp [Ne.symm hkk]
  · rw [Tracker.replace, hid]
    split_ifs with hid'
    · rw [hid', h.slot_of_mem he]; rfl
    · rfl
  · rw [hid]; exact h.id_eq_iff he he'
  · rw [hid]; exact h.not_complete_of_mem he
  · rintro k' job' ⟨⟩
    exact ⟨rfl, hk, hn⟩

theorem forget (h : t.Consistent) (he : (slot, old) ∈ t.queues.toList k₀) :
    Edit t (t.forget slot) slot old.id none := by
  obtain ⟨hr, hd⟩ := Queues.Denotes.remove h.sound he
  have hf : t.forget slot = { t with
      queues := (t.queues.remove slot).2
      slots := t.slots.erase old.id
      planLeased := if old.isPlan then false else t.planLeased } := by
    rw [Tracker.forget]
    generalize t.queues.remove slot = r at *
    obtain ⟨_, q⟩ := r
    subst hr; rfl
  rw [hf]
  refine ⟨hd.sound, fun k' e => ?_, fun id => Table.getElem?_erase .., rfl, ?_, rfl,
    fun k' e he' => h.id_eq_iff he he',
    h.not_complete_of_mem he, fun _ _ hn => (nomatch hn), fun hn => (nomatch hn)⟩
  · rw [hd.linked.toList_eq, Queues.mem_without]
    simp
  · exact if_congr (h.named k₀ _ he).symm rfl rfl

theorem insertComplete {c : CompactionJob} (h : t.Consistent) (hnew : t.job? c.id = none)
    (hc : c.state.status = .complete) (hid : c.id ≠ planId) :
    ({ t with complete := t.complete.insert c.id c } : Tracker).Consistent ∧
      ∀ id, ({ t with complete := t.complete.insert c.id c } : Tracker).job? id =
        if id = c.id then some (.compaction c) else t.job? id := by
  have hslot := (h.job?_eq_none.1 hnew).1
  refine ⟨⟨h.sound, h.slots, h.status, h.named, fun id job hj => ?_, h.planLeased, h.planTime⟩,
    fun id => ?_⟩
  · simp only [Table.getElem?_insert] at hj
    split_ifs at hj with hi
    · cases hj; subst hi; exact ⟨rfl, hc, hid, hslot⟩
    · exact h.complete id job hj
  · simp only [Tracker.job?, Table.getElem?_insert]
    split_ifs with hi
    · subst hi; rw [hslot]; rfl
    · rfl

theorem eraseComplete (h : t.Consistent) (cs : List CompactionJob)
    (hcs : ∀ c ∈ cs, t.complete[c.id]? = some c) :
    ({ t with complete := cs.foldl (fun m c => m.erase c.id) t.complete } : Tracker).Consistent ∧
      ∀ id, ({ t with complete := cs.foldl (fun m c => m.erase c.id) t.complete } : Tracker).job? id =
        if id ∈ cs.map (·.id) then none else t.job? id := by
  refine ⟨⟨h.sound, h.slots, h.status, h.named, fun id job hj => ?_, h.planLeased, h.planTime⟩,
    fun id => ?_⟩
  · simp only [Table.getElem?_foldl_erase] at hj
    split_ifs at hj
    exact h.complete id job hj
  · simp only [Tracker.job?, Table.getElem?_foldl_erase]
    split_ifs with hi
    · obtain ⟨c, hc, rfl⟩ := List.mem_map.1 hi
      rw [(h.complete _ c (hcs c hc)).2.2.2]; rfl
    · rfl

end Consistent

end Tracker

end CompactionLeasing

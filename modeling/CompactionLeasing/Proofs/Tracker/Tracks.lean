import CompactionLeasing.Proofs.Tracker.Serves

/-!
# The jobs that a tracker tracks

`t.Tracks f c`: `t` is consistent, its jobs are those of the table `f`, and `c` is the time of the last
plan. `Serves.outcome` says of every request that the jobs afterwards are the jobs before with the batch
committed; only a completed plan job, which is written, is no longer tracked.
-/

namespace CompactionLeasing

namespace Job
variable {job job' : Job} {now : Instant}

@[simp] theorem id_renew (job : Job) (now : Instant) : (job.renew now).id = job.id := id_withState ..

@[simp] theorem id_release (job : Job) (now : Instant) : (job.release now).id = job.id := id_withState ..

@[simp] theorem id_complete (job : Job) (now : Instant) : (job.complete now).id = job.id := id_withState ..

@[simp] theorem state_renew (job : Job) (now : Instant) : (job.renew now).state = job.state.renew now :=
  state_withState ..

@[simp] theorem state_release (job : Job) (now : Instant) :
    (job.release now).state = job.state.release now :=
  state_withState ..

/-- What is released is pending. -/
theorem status_release (job : Job) (now : Instant) : (job.release now).state.status = Queue.pending.status := by
  rw [state_release]
  rfl

@[simp] theorem state_complete (job : Job) (now : Instant) :
    (job.complete now).state = job.state.complete now :=
  state_withState ..

theorem lease?_eq_some : job.lease? now = some job' ↔ job.state.epoch ≠ 0xffffffffffffffff ∧
    job' =
      job.withState { job.state with status := .leased, since := now, epoch := job.state.epoch + 1 } := by
  rw [lease?, JobState.lease?]
  split_ifs with h
  · simp [h]
  · simp [h, eq_comm]

theorem IsNamed.withState (h : job.IsNamed) (s : JobState) : (job.withState s).IsNamed := by
  rwa [IsNamed, id_withState, isPlan_withState]

theorem isNamed_plan (s : JobState) : (plan s).IsNamed := iff_of_true rfl rfl

theorem isNamed_compaction {c : CompactionJob} (h : c.id ≠ planId) : (compaction c).IsNamed :=
  iff_of_false h (by simp [isPlan])

end Job

namespace Tracker

structure Tracks (t : Tracker) (f : JobTable) (c : Option Instant) : Prop where
  consistent : t.Consistent
  job? : ∀ id, t.job? id = f id
  planTime : t.planTime = c

theorem Consistent.tracks {t : Tracker} (h : t.Consistent) : t.Tracks t.job? t.planTime :=
  ⟨h, fun _ => rfl, rfl⟩

namespace Tracks
variable {t : Tracker} {f g : JobTable} {c : Option Instant} {k k₀ : Queue} {slot : Slot} {job old : Job}

theorem congr (h : t.Tracks f c) (hfg : ∀ id, f id = g id) : t.Tracks g c :=
  ⟨h.consistent, fun id => (h.job? id).trans (hfg id), h.planTime⟩

theorem place (h : t.Tracks f c) (hnew : f job.id = none) (hk : job.state.status = k.status)
    (hn : job.IsNamed) (ht : job.isPlan = true → c = none) : (t.place k job).Tracks (f.put job) c := by
  obtain ⟨slot, e⟩ := h.consistent.place (k := k) ((h.job? _).trans hnew) hk hn
    fun hp => h.planTime.trans (ht hp)
  refine ⟨e.consistent h.consistent, fun id => ?_, e.planTime.trans h.planTime⟩
  rw [e.job? h.consistent, f.put_apply, h.job?]; rfl

theorem placeAll {jobs : List Job} (h : t.Tracks f c) (hd : (jobs.map Job.id).Nodup)
    (hnew : ∀ job ∈ jobs, f job.id = none) (hk : ∀ job ∈ jobs, job.state.status = k.status)
    (hn : ∀ job ∈ jobs, job.IsNamed) (ht : ∀ job ∈ jobs, job.isPlan = true → c = none) :
    (t.placeAll k jobs).Tracks (f.putAll jobs) c := by
  induction jobs generalizing t f with
  | nil => exact h
  | cons job jobs ih =>
    simp only [List.forall_mem_cons] at hnew hk hn ht
    rw [List.map_cons, List.nodup_cons] at hd
    refine ih (h.place hnew.1 hk.1 hn.1 ht.1) hd.2 (fun job' hm => ?_) hk.2 hn.2 ht.2
    rw [JobTable.put_of_ne fun hid => hd.1 (hid ▸ List.mem_map_of_mem hm)]
    exact hnew.2 job' hm

theorem replace (h : t.Tracks f c) (he : (slot, old) ∈ t.queues.toList k₀) (hid : job.id = old.id)
    (hk : job.state.status = k.status) (hn : job.IsNamed) : (t.replace slot k job).Tracks (f.put job) c := by
  have e := h.consistent.replace he hid hk hn
  refine ⟨e.consistent h.consistent, fun id => ?_, e.planTime.trans h.planTime⟩
  rw [e.job? h.consistent, f.put_apply, h.job?]; rfl

theorem forget (h : t.Tracks f c) (he : (slot, old) ∈ t.queues.toList k₀) :
    (t.forget slot).Tracks (f.drop old.id) c := by
  have e := h.consistent.forget he
  refine ⟨e.consistent h.consistent, fun id => ?_, e.planTime.trans h.planTime⟩
  rw [e.job? h.consistent, f.drop_apply, h.job?]; rfl

/-- The time of the last plan may be forgotten, and set while no plan job is tracked. -/
theorem withPlanTime (h : t.Tracks f c) {c' : Option Instant} (hc : c'.isSome → f planId = none) :
    ({ t with planTime := c' } : Tracker).Tracks f c' :=
  ⟨⟨h.consistent.sound, h.consistent.slots, h.consistent.status, h.consistent.named, h.consistent.complete,
    h.consistent.planLeased, fun ht => (h.consistent.job?_eq_none.1 ((h.job? _).trans (hc ht))).1⟩,
      h.job?, rfl⟩

theorem insertComplete {x : CompactionJob} (h : t.Tracks f c) (hnew : f x.id = none)
    (hx : x.state.status = .complete) (hid : x.id ≠ planId) :
    ({ t with complete := t.complete.insert x.id x } : Tracker).Tracks (f.put (.compaction x)) c := by
  obtain ⟨hc, hj⟩ := h.consistent.insertComplete ((h.job? _).trans hnew) hx hid
  refine ⟨hc, fun id => ?_, h.planTime⟩
  rw [hj, f.put_apply, h.job?]; rfl

theorem eraseComplete {xs : List CompactionJob} (h : t.Tracks f c)
    (hx : ∀ x ∈ xs, f x.id = some (.compaction x) ∧ x.state.status = .complete) :
    ({ t with complete := xs.foldl (fun m x => m.erase x.id) t.complete } : Tracker).Tracks
      (f.dropAll (xs.map .compaction)) c := by
  have hmem : ∀ x ∈ xs, t.complete[x.id]? = some x := by
    intro x hm
    obtain ⟨-, ⟨k, slot, he⟩ | ⟨y, hy, hc⟩⟩ := h.consistent.job?_eq_some.1 ((h.job? _).trans (hx x hm).1)
    · have hs := h.consistent.status k _ he
      rw [show (Job.compaction x).state.status = .complete from (hx x hm).2] at hs
      cases k <;> cases hs
    · cases hy; exact hc
  obtain ⟨hc, hj⟩ := h.consistent.eraseComplete xs hmem
  refine ⟨hc, fun id => ?_, h.planTime⟩
  rw [hj, f.dropAll_apply, h.job?, List.map_map]; rfl

theorem releaseAll {now : Instant} {es : List (Slot × Job)} (h : t.Tracks f c)
    (hd : (es.map Prod.fst).Nodup)
    (he : ∀ e ∈ es, e ∈ t.queues.toList .active) :
    (t.releaseAll now es).Tracks (f.putAll (es.map fun e => e.2.release now)) c := by
  induction es generalizing t f with
  | nil => exact h
  | cons e es ih =>
    rw [List.forall_mem_cons] at he
    rw [List.map_cons, List.nodup_cons] at hd
    obtain ⟨slot, old⟩ := e
    have hn := (h.consistent.named .active _ he.1).withState (old.state.release now)
    have hk := old.status_release now
    refine ih (h.replace he.1 (Job.id_release ..) hk hn) hd.2 fun e' hm => ?_
    refine ((h.consistent.replace he.1 (Job.id_release ..) hk hn).entries ..).2 (.inl ⟨he.2 e' hm, ?_⟩)
    exact fun hs => hd.1 (List.mem_map.2 ⟨e', hm, hs⟩)

end Tracks

/-! ### The jobs of a plan -/

section Plan
variable {t : Tracker} {now : Instant} {planned : List PlannedJob} {c : CompactionJob}

theorem mem_offers {listed : List JobId} {n : Nat} (hc : c ∈ t.offers now listed n planned) :
    c.id ∉ listed ∧ c.id ≠ planId ∧ t.slots[c.id]? = none ∧ t.complete[c.id]? = none ∧
      c.state = .fresh now := by
  induction planned generalizing listed n with
  | nil => simp [offers] at hc
  | cons p ps ih =>
    have hrest : c ∈ t.offers now (p.id :: listed) (n + 1) ps → _ := fun hc => (ih hc).imp_left fun hl hm =>
      hl (List.mem_cons_of_mem _ hm)
    rw [offers] at hc
    split_ifs at hc with hp
    · exact hrest hc
    · rcases List.mem_cons.1 hc with rfl | hc
      · simpa [not_or, and_assoc] using hp
      · exact hrest hc

theorem nodup_offers (t : Tracker) (now : Instant) (listed : List JobId) (n : Nat)
    (planned : List PlannedJob) :
    ((t.offers now listed n planned).map (·.id)).Nodup := by
  induction planned generalizing listed n with
  | nil => exact List.nodup_nil
  | cons p ps ih =>
    rw [offers]
    split_ifs with hp
    · exact ih ..
    · rw [List.map_cons, List.nodup_cons]
      refine ⟨fun hm => ?_, ih ..⟩
      obtain ⟨c, hc, hid⟩ := List.mem_map.1 hm
      exact (mem_offers hc).1 (by simp [hid])

theorem nodup_offered (t : Tracker) (now : Instant) (planned : List PlannedJob) :
    ((t.offered now planned).map Job.id).Nodup := by
  rw [offered, List.map_map]; exact nodup_offers ..

theorem Consistent.mem_offered {job : Job} (h : t.Consistent) (hm : job ∈ t.offered now planned) :
    ∃ c, job = .compaction c ∧ c.id ≠ planId ∧ t.job? c.id = none ∧ c.state = .fresh now := by
  obtain ⟨c, hc, rfl⟩ := List.mem_map.1 hm
  obtain ⟨-, hid, hs, hc', hf⟩ := mem_offers hc
  exact ⟨c, rfl, hid, h.job?_eq_none.2 ⟨hs, hc'⟩, hf⟩

theorem Consistent.mem_unlisted (h : t.Consistent) (hc : c ∈ t.unlisted planned) :
    t.job? c.id = some (.compaction c) ∧ c.state.status = .complete ∧ c.id ≠ planId ∧
      c.id ∉ planned.map (·.id) := by
  obtain ⟨hv, hl⟩ := List.mem_filter.1 hc
  obtain ⟨id, hid⟩ := Table.mem_values.1 hv
  obtain ⟨rfl, hs, hp, -⟩ := h.complete id c hid
  exact ⟨h.job?_eq_some.2 ⟨rfl, .inr ⟨c, rfl, hid⟩⟩, hs, hp, by simpa using hl⟩

end Plan

end Tracker

end CompactionLeasing

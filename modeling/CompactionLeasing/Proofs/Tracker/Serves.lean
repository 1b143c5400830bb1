import CompactionLeasing.Proofs.Tracker.Commits
import CompactionLeasing.Proofs.Tracker.Consistent

/-!
# What a request can do

`t.Serves now r b e` lists, request by request, the batches `b` that a consistent tracker has made durable and the
effects `e` that hold then. It is `Commits` with the jobs found: they are active under the names and epochs that the
request gives, and the job with the plan job's name is the plan job (`Consistent.serves`).
-/

namespace CompactionLeasing

namespace Tracker

variable {t : Tracker} {now : Instant} {slot : Slot} {job : Job} {id : JobId} {epoch : UInt64}

/-- What a request writes, and what holds then. -/
inductive Serves (t : Tracker) (now : Instant) : Request → Batch → Effect Reply → Prop
  | maintain (policy : MaintenancePolicy) (force wanted : Bool) (refilled : Bool) (events : List TallyEvent)
      (hw : t.wantsPlan? policy force now = some wanted)
      (hr : refilled = (!t.hasPending && (t.maintained policy now wanted).hasPending))
      (he : events =
        (if (t.ranOut policy now).isEmpty then [] else [.leasesExpired (t.ranOut policy now).length]) ++
        (if wanted then [.planCreated] else []) ++ (t.maintained policy now wanted).gauges) :
      Serves t now (.maintain policy force)
        ⟨(t.ranOut policy now).map (fun e => e.2.release now) ++ if wanted then [.plan (.fresh now)] else [], []⟩
        ⟨t.maintained policy now wanted, .flag refilled, events, refilled⟩
  | lease (slot : Slot) (old job : Job) (hf : (t.queues.toList .pending).head? = some (slot, old))
      (hj : old.lease? now = some job) :
      Serves t now .lease ⟨[job], []⟩
        ⟨t.replace slot .active job, .job (some job),
          .leaseGranted :: (t.replace slot .active job).gauges, false⟩
  | renew (slot : Slot) (old : Job) (ho : (slot, old) ∈ t.queues.toList .active) :
      Serves t now (.renew old.id old.state.epoch) ⟨[old.renew now], []⟩
        ⟨t.replace slot .active (old.renew now), .flag true, [], false⟩
  | cancel (slot : Slot) (old : Job) (ho : (slot, old) ∈ t.queues.toList .active) :
      Serves t now (.cancel old.id old.state.epoch) ⟨[old.release now], []⟩
        ⟨t.replace slot .pending (old.release now), .flag true,
          (t.replace slot .pending (old.release now)).gauges,
          !t.hasPending && (t.replace slot .pending (old.release now)).hasPending⟩
  | finish (slot : Slot) (old : CompactionJob) (ho : (slot, .compaction old) ∈ t.queues.toList .active) :
      Serves t now (.finish old.id old.state.epoch) ⟨[(Job.compaction old).complete now], []⟩
        ⟨{ t.forget slot with complete := t.completeWith ((Job.compaction old).complete now) }, .flag true,
          .jobCompleted ::
            gauges { t.forget slot with complete := t.completeWith ((Job.compaction old).complete now) },
          false⟩
  | finishPlan (slot : Slot) (old : JobState) (ho : (slot, .plan old) ∈ t.queues.toList .active) :
      Serves t now (.finish planId old.epoch)
        ⟨(Job.plan old).complete now :: t.offered now [], (t.unlisted []).map .compaction⟩
        ⟨t.planned now slot [], .flag true, (t.plannedEffect now slot []).events,
          (t.plannedEffect now slot []).refilled⟩
  | completePlan (slot : Slot) (old : JobState) (planned : List PlannedJob)
      (ho : (slot, .plan old) ∈ t.queues.toList .active) :
      Serves t now (.completePlan old.epoch planned)
        ⟨(Job.plan old).complete now :: t.offered now planned, (t.unlisted planned).map .compaction⟩
        ⟨t.planned now slot planned, .plan (t.plannedEffect now slot planned).answer,
          (t.plannedEffect now slot planned).events, (t.plannedEffect now slot planned).refilled⟩

theorem leased?_iff (h : t.queues.Sound) : t.leased? id epoch = some (slot, job) ↔
    t.slots[id]? = some slot ∧ (slot, job) ∈ t.queues.toList .active ∧ job.state.epoch = epoch := by
  rw [leased?, h.mem_toList]
  cases hs : t.slots[id]? with
  | none => simp
  | some s =>
    constructor
    · intro hl
      simp only at hl
      split at hl
      · rename_i hq hj
        split_ifs at hl with he
        cases hl
        exact ⟨rfl, ⟨hj, hq⟩, he⟩
      · cases hl
    · rintro ⟨hslot, ⟨hj, hq⟩, he⟩
      cases hslot
      simp [hj, hq, he]

theorem mem_of_leased? (h : t.queues.Sound) (hl : t.leased? id epoch = some (slot, job)) :
    (slot, job) ∈ t.queues.toList .active :=
  ((leased?_iff h).1 hl).2.1

theorem Consistent.leased?_eq_some (h : t.Consistent) : t.leased? id epoch = some (slot, job) ↔
    (slot, job) ∈ t.queues.toList .active ∧ job.id = id ∧ job.state.epoch = epoch := by
  rw [leased?_iff h.sound]
  constructor
  · rintro ⟨hs, hm, he⟩
    obtain ⟨job', hg, hid⟩ := (h.slots ..).1 hs
    rw [h.get?_of_mem hm] at hg
    cases hg
    exact ⟨hm, hid, he⟩
  · rintro ⟨hm, rfl, rfl⟩
    exact ⟨h.slot_of_mem hm, hm, rfl⟩

theorem firstPending?_eq (h : t.queues.Sound) : t.firstPending? = (t.queues.toList .pending).head? := by
  rw [firstPending?, h.front?_eq]
  cases hl : t.queues.toList .pending with
  | nil => rfl
  | cons e es =>
    have hm : (e.1, e.2) ∈ t.queues.toList .pending := by rw [hl]; exact List.mem_cons_self ..
    simp [(h.mem_toList.1 hm).1]

theorem mem_of_firstPending? (h : t.queues.Sound) (hf : t.firstPending? = some (slot, job)) :
    (slot, job) ∈ t.queues.toList .pending := by
  rw [firstPending?_eq h] at hf
  exact List.mem_of_mem_head? hf

theorem hasPending_iff (h : t.queues.Sound) : t.hasPending = true ↔ t.pending ≠ [] := by
  unfold hasPending pending Queues.items
  rw [Bool.not_eq_true', ← Bool.not_eq_true, h.isEmpty_iff, ne_eq, List.map_eq_nil_iff]

theorem Consistent.serves (h : t.Consistent) {r : Request} {b : Batch} {e : Effect Reply}
    (hp : t.propose now r = .persist b e) : t.retired = false ∧ t.Serves now r b e := by
  refine ⟨not_retired_of_propose hp, ?_⟩
  cases commits_of_propose hp with
  | maintain policy force wanted hw => exact .maintain policy force wanted _ _ hw rfl rfl
  | lease slot old job hf hj =>
    rw [firstPending?_eq h.sound] at hf
    exact .lease slot old job hf hj
  | renew id epoch slot old hl =>
    obtain ⟨hm, rfl, rfl⟩ := h.leased?_eq_some.1 hl
    exact .renew slot old hm
  | cancel id epoch slot old hl =>
    obtain ⟨hm, rfl, rfl⟩ := h.leased?_eq_some.1 hl
    exact .cancel slot old hm
  | finish id epoch slot old hid hl =>
    obtain ⟨hm, rfl, rfl⟩ := h.leased?_eq_some.1 hl
    cases old with
    | plan old => exact absurd rfl hid
    | compaction old => exact .finish slot old hm
  | plan _ answer epoch slot old planned hr hl =>
    obtain ⟨hm, hid, rfl⟩ := h.leased?_eq_some.1 hl
    cases old with
    | compaction old => cases (h.named .active _ hm).1 hid
    | plan old =>
      rcases hr with ⟨rfl, rfl, rfl⟩ | ⟨rfl, rfl⟩
      · exact .finishPlan slot old hm
      · exact .completePlan slot old planned hm

end Tracker

end CompactionLeasing

import CompactionLeasing.Tracker.Request

/-!
# What a request makes durable

`t.Commits now r b e` lists, request by request, the batches `b` that a tracker makes durable and the effects `e` that
hold then, as the requests find their jobs. `commits_of_propose` is the inversion of `propose`: later proofs go through
the cases of `Commits` and do not open the requests again. Nothing is known of the jobs: their names may clash, and a
compaction job may have the plan job's name. For consistent trackers `Consistent.serves` makes more of it.
-/

namespace CompactionLeasing

/-- The answer to a request that changes nothing. -/
def Request.refusal : Request → Reply
  | .lease => .job none
  | .completePlan .. => .plan none
  | _ => .flag false

theorem Proposal.map_eq_persist {α β : Type} {f : α → β} {p : Proposal α} {b : Batch} {e : Effect β}
    (h : p.map f = .persist b e) :
    ∃ e', p = .persist b e' ∧ e = ⟨e'.tracker, f e'.answer, e'.events, e'.refilled⟩ := by
  cases p with
  | settled a => cases h
  | overflow => cases h
  | persist b' e' => cases h; exact ⟨e', rfl, rfl⟩

theorem Proposal.map_eq_settled {α β : Type} {f : α → β} {p : Proposal α} {x : β}
    (h : p.map f = .settled x) :
    ∃ a, p = .settled a ∧ f a = x := by
  cases p with
  | settled a => cases h; exact ⟨a, rfl, rfl⟩
  | overflow => cases h
  | persist b e => cases h

namespace Tracker

variable {t : Tracker} {now : Instant} {r : Request} {b : Batch} {e : Effect Reply} {epoch : UInt64}

def releaseAll (t : Tracker) (now : Instant) (es : List (Slot × Job)) : Tracker :=
  es.foldl (fun t e => t.replace e.1 .pending (e.2.release now)) t

/-- The jobs that a plan adds, as a job each. -/
def offered (t : Tracker) (now : Instant) (planned : List PlannedJob) : List Job :=
  (t.offers now [] 1 planned).map .compaction

/-- The tracker without its plan job, which was completed now, and with the jobs of the plan. -/
def planned (t : Tracker) (now : Instant) (slot : Slot) (planned : List PlannedJob) : Tracker :=
  let t' := { t.forget slot with planTime := some now }.placeAll .pending (t.offered now planned)
  { t' with complete := (t.unlisted planned).foldl (fun m job => m.erase job.id) t'.complete }

/-- The effect of completing the plan job. -/
def plannedEffect (t : Tracker) (now : Instant) (slot : Slot) (planned : List PlannedJob) :
    Effect (Option PlanOutcome) :=
  let t' := t.planned now slot planned
  let refilled := !t.hasPending && t'.hasPending
  { tracker := t'
    answer := some
      { accepted := (t.offered now planned).length
        skipped := planned.length - (t.offered now planned).length
        pruned := (t.unlisted planned).length
        transitioned := refilled }
    events := .jobCompleted :: t'.gauges
    refilled := refilled }

/-- The tracker after maintenance. -/
def maintained (t : Tracker) (policy : MaintenancePolicy) (now : Instant) (wanted : Bool) : Tracker :=
  let t' := t.releaseAll now (t.ranOut policy now)
  if wanted then { t' with planTime := none }.place .pending (.plan (.fresh now)) else t'

/-- What a request writes, and what holds then. -/
inductive Commits (t : Tracker) (now : Instant) : Request → Batch → Effect Reply → Prop
  | maintain (policy : MaintenancePolicy) (force wanted : Bool)
      (hw : t.wantsPlan? policy force now = some wanted) :
      Commits t now (.maintain policy force)
        ⟨(t.ranOut policy now).map (fun e => e.2.release now) ++ if wanted then [.plan (.fresh now)] else [], []⟩
        ⟨t.maintained policy now wanted, .flag (!t.hasPending && (t.maintained policy now wanted).hasPending),
          (if (t.ranOut policy now).isEmpty then [] else [.leasesExpired (t.ranOut policy now).length]) ++
            (if wanted then [.planCreated] else []) ++ (t.maintained policy now wanted).gauges,
          !t.hasPending && (t.maintained policy now wanted).hasPending⟩
  | lease (slot : Slot) (old job : Job) (hf : t.firstPending? = some (slot, old)) (hj : old.lease? now = some job) :
      Commits t now .lease ⟨[job], []⟩
        ⟨t.replace slot .active job, .job (some job), .leaseGranted :: (t.replace slot .active job).gauges, false⟩
  | renew (id : JobId) (epoch : UInt64) (slot : Slot) (old : Job) (hl : t.leased? id epoch = some (slot, old)) :
      Commits t now (.renew id epoch) ⟨[old.renew now], []⟩
        ⟨t.replace slot .active (old.renew now), .flag true, [], false⟩
  | cancel (id : JobId) (epoch : UInt64) (slot : Slot) (old : Job) (hl : t.leased? id epoch = some (slot, old)) :
      Commits t now (.cancel id epoch) ⟨[old.release now], []⟩
        ⟨t.replace slot .pending (old.release now), .flag true,
          (t.replace slot .pending (old.release now)).gauges,
          !t.hasPending && (t.replace slot .pending (old.release now)).hasPending⟩
  | finish (id : JobId) (epoch : UInt64) (slot : Slot) (old : Job) (hid : id ≠ planId)
      (hl : t.leased? id epoch = some (slot, old)) :
      Commits t now (.finish id epoch) ⟨[old.complete now], []⟩
        ⟨{ t.forget slot with complete := t.completeWith (old.complete now) }, .flag true,
          .jobCompleted :: gauges { t.forget slot with complete := t.completeWith (old.complete now) }, false⟩
  | plan (r : Request) (answer : Reply) (epoch : UInt64) (slot : Slot) (old : Job) (planned : List PlannedJob)
      (hr : r = .finish planId epoch ∧ planned = [] ∧ answer = .flag true ∨
        r = .completePlan epoch planned ∧ answer = .plan (t.plannedEffect now slot planned).answer)
      (hl : t.leased? planId epoch = some (slot, old)) :
      Commits t now r
        ⟨old.complete now :: t.offered now planned, (t.unlisted planned).map .compaction⟩
        ⟨t.planned now slot planned, answer, (t.plannedEffect now slot planned).events,
          (t.plannedEffect now slot planned).refilled⟩

/-! ### The requests one by one -/

theorem maintain_eq (t : Tracker) (policy : MaintenancePolicy) (force : Bool) (now : Instant) :
    t.maintain policy force now =
      if t.retired then .settled false
      else match t.wantsPlan? policy force now with
        | none => .overflow
        | some wanted =>
          if (t.ranOut policy now).isEmpty && !wanted then .settled false
          else
            .persist
              ⟨(t.ranOut policy now).map (fun e => e.2.release now) ++ if wanted then [.plan (.fresh now)] else [], []⟩
              { tracker := t.maintained policy now wanted
                answer := !t.hasPending && (t.maintained policy now wanted).hasPending
                events :=
                  (if (t.ranOut policy now).isEmpty then []
                    else [.leasesExpired (t.ranOut policy now).length]) ++
                    (if wanted then [.planCreated] else []) ++ (t.maintained policy now wanted).gauges
                refilled := !t.hasPending && (t.maintained policy now wanted).hasPending } := by
  have hfold : ((t.ranOut policy now).map fun e => (e.1, e.2.release now)).foldl
      (fun t e => t.replace e.1 .pending e.2) t = t.releaseAll now (t.ranOut policy now) := by
    rw [List.foldl_map]; rfl
  rw [maintain]
  split
  · rfl
  cases t.wantsPlan? policy force now with
  | none => rfl
  | some wanted =>
    simp only [hfold, List.isEmpty_map, List.length_map, List.map_map]
    cases wanted <;> rfl

theorem persist_completePlan {planned : List PlannedJob} {e : Effect (Option PlanOutcome)}
    (hp : t.completePlan epoch planned now = .persist b e) : ∃ slot old, t.leased? planId epoch = some (slot, old) ∧
      b = ⟨old.complete now :: t.offered now planned, (t.unlisted planned).map .compaction⟩ ∧
      e = t.plannedEffect now slot planned := by
  unfold completePlan at hp
  split at hp
  · cases hp
  split at hp
  · cases hp
  · rename_i slot old hl
    cases hp
    exact ⟨slot, old, hl, rfl, rfl⟩

/-- Every batch that is proposed is one of those in `Commits`. -/
theorem commits_of_propose (hp : t.propose now r = .persist b e) : t.Commits now r b e := by
  cases r with
  | maintain policy force =>
    obtain ⟨e, hq, rfl⟩ := Proposal.map_eq_persist hp
    rw [maintain_eq] at hq
    split at hq
    · cases hq
    split at hq
    · cases hq
    split at hq
    · cases hq
    · rename_i hw _
      cases hq
      exact .maintain policy force _ hw
  | lease =>
    obtain ⟨e, hq, rfl⟩ := Proposal.map_eq_persist hp
    unfold lease at hq
    split at hq
    · cases hq
    split at hq
    · cases hq
    rename_i slot old hf
    split at hq
    · cases hq
    · rename_i job hj
      cases hq
      exact .lease slot old job hf hj
  | renew id epoch =>
    obtain ⟨e, hq, rfl⟩ := Proposal.map_eq_persist hp
    unfold renew at hq
    split at hq
    · cases hq
    split at hq
    · cases hq
    · rename_i hl
      cases hq
      exact .renew id epoch _ _ hl
  | cancel id epoch =>
    obtain ⟨e, hq, rfl⟩ := Proposal.map_eq_persist hp
    unfold cancel at hq
    split at hq
    · cases hq
    split at hq
    · cases hq
    · rename_i hl
      cases hq
      exact .cancel id epoch _ _ hl
  | completePlan epoch planned =>
    obtain ⟨e, hq, rfl⟩ := Proposal.map_eq_persist hp
    obtain ⟨slot, old, hl, rfl, rfl⟩ := persist_completePlan hq
    exact .plan _ _ epoch slot old planned (.inr ⟨rfl, rfl⟩) hl
  | finish id epoch =>
    obtain ⟨e, hq, rfl⟩ := Proposal.map_eq_persist hp
    clear hp
    unfold finish at hq
    split at hq
    · rename_i hid
      obtain ⟨e, hq', rfl⟩ := Proposal.map_eq_persist hq
      obtain ⟨slot, old, hl, rfl, rfl⟩ := persist_completePlan hq'
      exact .plan _ _ epoch slot old [] (.inl ⟨by rw [hid], rfl, rfl⟩) hl
    split at hq
    · cases hq
    split at hq
    · cases hq
    · rename_i hid _ _ _ _ hl
      cases hq
      exact .finish id epoch _ _ hid hl

/-- A request that writes nothing is refused. -/
theorem refusal_of_settled {a : Reply} (hp : t.propose now r = .settled a) : a = r.refusal := by
  have plan : ∀ {epoch ps a}, t.completePlan epoch ps now = .settled a → a = none := by
    intro epoch ps a hq
    grind [completePlan]
  cases r with
  | maintain policy force =>
    obtain ⟨a, hq, rfl⟩ := Proposal.map_eq_settled hp
    rw [maintain_eq] at hq
    grind [Request.refusal]
  | lease =>
    obtain ⟨a, hq, rfl⟩ := Proposal.map_eq_settled hp
    grind [lease, Request.refusal]
  | renew id epoch =>
    obtain ⟨a, hq, rfl⟩ := Proposal.map_eq_settled hp
    grind [renew, Request.refusal]
  | cancel id epoch =>
    obtain ⟨a, hq, rfl⟩ := Proposal.map_eq_settled hp
    grind [cancel, Request.refusal]
  | completePlan epoch planned =>
    obtain ⟨a, hq, rfl⟩ := Proposal.map_eq_settled hp
    rw [plan hq]; rfl
  | finish id epoch =>
    obtain ⟨a, hq, rfl⟩ := Proposal.map_eq_settled hp
    rw [finish] at hq
    by_cases hid : id = planId
    · rw [if_pos hid] at hq
      obtain ⟨o, ho, rfl⟩ := Proposal.map_eq_settled hq
      rw [plan ho]; rfl
    · rw [if_neg hid] at hq
      grind [Request.refusal]

/-! ### Retirement -/

/-- A retired tracker refuses every request. -/
theorem propose_of_retired (hr : t.retired = true) (now : Instant) (r : Request) :
    t.propose now r = .settled r.refusal := by
  have plan : ∀ epoch planned, t.completePlan epoch planned now = .settled none :=
    fun epoch planned => if_pos hr
  cases r with
  | maintain policy force => rw [propose, maintain, if_pos hr]; rfl
  | lease => rw [propose, lease, if_pos hr]; rfl
  | renew id epoch => rw [propose, renew, if_pos hr]; rfl
  | cancel id epoch => rw [propose, cancel, if_pos hr]; rfl
  | completePlan epoch planned => rw [propose, plan]; rfl
  | finish id epoch =>
    rw [propose, finish]
    split
    · rw [plan]; rfl
    · rfl

theorem serve_of_retired {ε σ : Type} (hr : t.retired = true) (now : Instant) (r : Request) (store : σ)
    (write : Batch → Except ε σ) : t.serve now r store write = ⟨.done r.refusal, t, store, [], false⟩ := by
  rw [serve, propose_of_retired hr]
  rfl

theorem not_retired_of_propose (hp : t.propose now r = .persist b e) : t.retired = false := by
  cases hr : t.retired with
  | false => rfl
  | true =>
    rw [propose_of_retired hr] at hp
    cases hp

@[simp] theorem retired_placeAll (t : Tracker) (k : Queue) (jobs : List Job) :
    (t.placeAll k jobs).retired = t.retired :=
  List.foldlRecOn (motive := fun t' : Tracker => t'.retired = t.retired) _ _ rfl fun _ ih _ _ => ih

@[simp] theorem retired_releaseAll (t : Tracker) (now : Instant) (es : List (Slot × Job)) :
    (t.releaseAll now es).retired = t.retired :=
  List.foldlRecOn (motive := fun t' : Tracker => t'.retired = t.retired) _ _ rfl fun _ ih _ _ => ih

@[simp] theorem retired_forget (t : Tracker) (slot : Slot) : (t.forget slot).retired = t.retired := by
  rw [forget]
  split <;> rfl

theorem retired_recover (t : Tracker) (jobs : RecoveredJobs) : (t.recover jobs).retired = t.retired := by
  rw [recover, retired_placeAll, retired_placeAll, retired_placeAll]

theorem retired_maintained (t : Tracker) (policy : MaintenancePolicy) (now : Instant) (wanted : Bool) :
    (t.maintained policy now wanted).retired = t.retired := by
  cases wanted with
  | false => exact retired_releaseAll ..
  | true => exact retired_releaseAll ..

/-- A request neither retires a tracker nor takes that back. -/
theorem retired_of_propose (hp : t.propose now r = .persist b e) : e.tracker.retired = t.retired := by
  cases commits_of_propose hp with
  | maintain => exact retired_maintained ..
  | lease | renew | cancel => rfl
  | finish => exact retired_forget ..
  | plan => exact (retired_placeAll ..).trans (retired_forget ..)

theorem retired_serve {ε σ : Type} (t : Tracker) (now : Instant) (r : Request) (store : σ)
    (write : Batch → Except ε σ) : (t.serve now r store write).tracker.retired = t.retired := by
  rw [serve]
  cases hp : t.propose now r with
  | settled a => rfl
  | overflow => rfl
  | persist b e =>
    rw [Proposal.settle]
    cases write b with
    | error err => rfl
    | ok store' => exact retired_of_propose hp

/-- Whatever a tracker is asked, the store stays as it is or takes one batch, the latter only if the tracker is
not retired. -/
theorem store_serve {ε σ : Type} (t : Tracker) (now : Instant) (r : Request) (store : σ)
    (write : Batch → Except ε σ) : (t.serve now r store write).store = store ∨
      t.retired = false ∧ ∃ b, write b = .ok (t.serve now r store write).store := by
  rw [serve]
  cases hp : t.propose now r with
  | settled a => exact .inl rfl
  | overflow => exact .inl rfl
  | persist b e =>
    rw [Proposal.settle]
    cases hw : write b with
    | error err => exact .inl rfl
    | ok store' => exact .inr ⟨not_retired_of_propose hp, b, hw⟩

/-! ### The time of the last plan -/

@[simp] theorem planTime_placeAll (t : Tracker) (k : Queue) (jobs : List Job) :
    (t.placeAll k jobs).planTime = t.planTime :=
  List.foldlRecOn (motive := fun t' : Tracker => t'.planTime = t.planTime) _ _ rfl fun _ ih _ _ => ih

@[simp] theorem planTime_releaseAll (t : Tracker) (now : Instant) (es : List (Slot × Job)) :
    (t.releaseAll now es).planTime = t.planTime :=
  List.foldlRecOn (motive := fun t' : Tracker => t'.planTime = t.planTime) _ _ rfl fun _ ih _ _ => ih

@[simp] theorem planTime_forget (t : Tracker) (slot : Slot) : (t.forget slot).planTime = t.planTime := by
  rw [forget]
  split <;> rfl

theorem planTime_planned (t : Tracker) (now : Instant) (slot : Slot) (planned : List PlannedJob) :
    (t.planned now slot planned).planTime = some now :=
  planTime_placeAll ..

/-- A request leaves the time of the last plan as it is, or forgets it, or makes it the time of the request. -/
theorem Commits.planTime (h : t.Commits now r b e) :
    e.tracker.planTime = t.planTime ∨ e.tracker.planTime = none ∨ e.tracker.planTime = some now := by
  cases h with
  | maintain policy force wanted =>
    cases wanted with
    | false => exact .inl (planTime_releaseAll ..)
    | true => exact .inr (.inl rfl)
  | lease | renew | cancel => exact .inl rfl
  | finish => exact .inl (planTime_forget ..)
  | plan => exact .inr (.inr (planTime_planned ..))

theorem planTime_recover (t : Tracker) (jobs : RecoveredJobs) :
    (t.recover jobs).planTime = (jobs.planWithStatus .complete).head?.map fun job => job.state.since := by
  rw [recover, planTime_placeAll, planTime_placeAll, planTime_placeAll]

end Tracker

end CompactionLeasing

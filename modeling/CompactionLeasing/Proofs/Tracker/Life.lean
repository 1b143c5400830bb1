import CompactionLeasing.Proofs.Tracker.Outcome

/-!
# The life of a job

`Job.Turn` lists what a job that is written becomes, and what it is called; `Job.Next` lists the steps of
what is tracked under one name. `Serves.next`: a request takes each name at most one step further.
-/

namespace CompactionLeasing

/-- What happens to a job. A holder of a lease acts under an epoch. -/
inductive Event where
  | offered
  | granted (epoch : Nat)
  | renewed (epoch : Nat)
  | released (epoch : Nat)
  | completed (epoch : Nat)
  | dropped
deriving DecidableEq

/-- What a request does to a tracked job of this epoch. A request with a token acts under its own epoch. -/
def Request.event (epoch : Nat) : Request → Event
  | .maintain .. => .released epoch
  | .lease => .granted epoch
  | .renew _ epoch => .renewed epoch.toNat
  | .cancel _ epoch => .released epoch.toNat
  | .finish _ epoch => .completed epoch.toNat
  | .completePlan epoch _ => .completed epoch.toNat

namespace Job

/-- What a job that is tracked, or not yet, becomes when it is written now. -/
inductive Turn (now : Instant) : Event → Option Job → Job → Prop
  | offered (job : Job) (h : job.state = .fresh now) : Turn now .offered none job
  | granted (old job : Job) (ha : old.state.status = .available) (h : old.lease? now = some job) :
      Turn now (.granted job.state.epoch.toNat) (some old) job
  | renewed (old : Job) (hl : old.state.status = .leased) :
      Turn now (.renewed old.state.epoch.toNat) (some old) (old.renew now)
  | released (old : Job) (hl : old.state.status = .leased) :
      Turn now (.released old.state.epoch.toNat) (some old) (old.release now)
  | completed (old : Job) (hl : old.state.status = .leased) :
      Turn now (.completed old.state.epoch.toNat) (some old) (old.complete now)

/-- A step of what is tracked under a name, taken now. -/
inductive Next (now : Instant) : Option Job → Option Job → Prop
  | kept (o : Option Job) : Next now o o
  | created (job : Job) (h : job.state = .fresh now) : Next now none (some job)
  | leased (old job : Job) (ha : old.state.status = .available) (h : old.lease? now = some job) :
      Next now (some old) (some job)
  | renewed (old : Job) (hl : old.state.status = .leased) : Next now (some old) (some (old.renew now))
  | released (old : Job) (hl : old.state.status = .leased) : Next now (some old) (some (old.release now))
  | completed (old : Job) (hl : old.state.status = .leased) : Next now (some old) (some (old.complete now))
  | planDone (old : JobState) (hl : old.status = .leased) : Next now (some (.plan old)) none
  | pruned (old : CompactionJob) (hc : old.state.status = .complete) :
      Next now (some (.compaction old)) none

theorem Turn.next {now : Instant} {ev : Event} {o : Option Job} {job : Job} (h : Turn now ev o job) :
    Next now o (some job) := by
  cases h with
  | offered job h => exact .created job h
  | granted old job ha h => exact .leased old job ha h
  | renewed old hl => exact .renewed old hl
  | released old hl => exact .released old hl
  | completed old hl => exact .completed old hl

end Job

namespace Tracker
variable {t : Tracker} {now : Instant} {r : Request} {b : Batch} {e : Effect Reply} {job : Job}

/-- What happens to a job that a request writes. -/
def event (t : Tracker) (r : Request) (job : Job) : Event :=
  if t.job? job.id = none then .offered else r.event job.state.epoch.toNat

/-- What is written is the next version of the job that is tracked under its name. -/
theorem Serves.turn_of_write (h : t.Consistent) (hs : Serves t now r b e) (hm : job ∈ b.writes) :
    Job.Turn now (t.event r job) (t.job? job.id) job := by
  -- A lease that has run out is given back like one that is cancelled, and both ways to complete a plan
  -- do the same to the plan job.
  have released : ∀ {slot old}, (slot, old) ∈ t.queues.toList .active → job = old.release now →
      r.event job.state.epoch.toNat = .released old.state.epoch.toNat →
      Job.Turn now (t.event r job) (t.job? job.id) job := by
    rintro slot old ho rfl hev
    rw [event, hev, Job.id_release, h.job?_of_mem ho, if_neg (Option.some_ne_none _)]
    exact .released old (h.status _ _ ho)
  have completed : ∀ {slot old}, (slot, old) ∈ t.queues.toList .active → job = old.complete now →
      r.event job.state.epoch.toNat = .completed old.state.epoch.toNat →
      Job.Turn now (t.event r job) (t.job? job.id) job := by
    rintro slot old ho rfl hev
    rw [event, hev, Job.id_complete, h.job?_of_mem ho, if_neg (Option.some_ne_none _)]
    exact .completed old (h.status _ _ ho)
  have offered : t.job? job.id = none → job.state = .fresh now →
      Job.Turn now (t.event r job) (t.job? job.id) job := by
    intro hnone hf
    rw [event, if_pos hnone, hnone]
    exact .offered job hf
  have planned : ∀ {ps}, job ∈ t.offered now ps → Job.Turn now (t.event r job) (t.job? job.id) job := by
    intro ps ho
    obtain ⟨c, rfl, -, hnone, hf⟩ := h.mem_offered ho
    exact offered hnone hf
  cases hs with
  | maintain policy force wanted refilled events hw =>
    rcases List.mem_append.1 hm with hm | hm
    · obtain ⟨x, hx, rfl⟩ := List.mem_map.1 hm
      refine released (mem_of_ranOut hx) rfl ?_
      rw [Request.event, Job.state_release]; rfl
    · cases wanted with
      | false => simp at hm
      | true =>
        obtain rfl := List.mem_singleton.1 hm
        exact offered (h.job?_plan_of_wants hw) rfl
  | lease slot old job' hf hj =>
    obtain rfl := List.mem_singleton.1 hm
    have ho : (slot, old) ∈ t.queues.toList .pending := List.mem_of_mem_head? hf
    have hid : job.id = old.id := by rw [(Job.lease?_eq_some.1 hj).2, Job.id_withState]
    rw [event, hid, h.job?_of_mem ho, if_neg (Option.some_ne_none _)]
    exact .granted old job (h.status _ _ ho) hj
  | renew slot old ho =>
    obtain rfl := List.mem_singleton.1 hm
    rw [event, Job.id_renew, h.job?_of_mem ho, if_neg (Option.some_ne_none _)]
    exact .renewed old (h.status _ _ ho)
  | cancel slot old ho =>
    obtain rfl := List.mem_singleton.1 hm
    exact released ho rfl rfl
  | finish slot old ho =>
    obtain rfl := List.mem_singleton.1 hm
    exact completed ho rfl rfl
  | finishPlan slot old ho =>
    rcases List.mem_cons.1 hm with rfl | hm
    · exact completed ho rfl rfl
    · exact planned hm
  | completePlan slot old ps ho =>
    rcases List.mem_cons.1 hm with rfl | hm
    · exact completed ho rfl rfl
    · exact planned hm

/-- What is deleted is a complete compaction job. -/
theorem Serves.complete_of_delete (h : t.Consistent) (hs : Serves t now r b e) (hm : job ∈ b.deletes) :
    ∃ c, job = .compaction c ∧ c.id ≠ planId ∧ c.state.status = .complete ∧
      t.job? c.id = some (.compaction c) := by
  have unlisted : ∀ {planned}, job ∈ (t.unlisted planned).map .compaction →
      ∃ c, job = .compaction c ∧ c.id ≠ planId ∧ c.state.status = .complete ∧
        t.job? c.id = some (.compaction c) := by
    intro planned hu
    obtain ⟨c, hc, rfl⟩ := List.mem_map.1 hu
    obtain ⟨hj, hst, hid, -⟩ := h.mem_unlisted hc
    exact ⟨c, rfl, hid, hst, hj⟩
  cases hs with
  | finishPlan slot old ho => exact unlisted hm
  | completePlan slot old planned ho => exact unlisted hm
  | _ => simp at hm

theorem Serves.next_commit (h : t.Consistent) (hs : Serves t now r b e) (id : JobId) :
    Job.Next now (t.job? id) (t.job?.commit b id) := by
  rw [JobTable.commit]
  by_cases hw : id ∈ b.writes.map Job.id
  · obtain ⟨job, hm, rfl, hp⟩ := JobTable.exists_of_mem_ids (f := t.job?.dropAll b.deletes) hw
    rw [hp]
    exact (hs.turn_of_write h hm).next
  · rw [JobTable.putAll_of_notMem hw, JobTable.dropAll_apply]
    split_ifs with hd
    · obtain ⟨job, hm, rfl⟩ := List.mem_map.1 hd
      obtain ⟨c, rfl, -, hc, hj⟩ := hs.complete_of_delete h hm
      rw [show t.job? (Job.compaction c).id = _ from hj]
      exact .pruned c hc
    · exact .kept _

/-- A request takes each name at most one step further. -/
theorem Serves.next (h : t.Consistent) (hs : Serves t now r b e) (id : JobId) :
    Job.Next now (t.job? id) (e.tracker.job? id) := by
  cases hs.outcome h with
  | kept _ ht => rw [ht.job?]; exact hs.next_commit h id
  | created _ _ _ ht => rw [ht.job?]; exact hs.next_commit h id
  | completed s hold hl _ ht =>
    rw [ht.job?, JobTable.drop_apply]
    split_ifs with hid
    · subst hid
      rw [hold]
      exact .planDone s hl
    · exact hs.next_commit h id

end Tracker

end CompactionLeasing

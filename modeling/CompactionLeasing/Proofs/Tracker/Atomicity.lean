import CompactionLeasing.Proofs.Tracker.Fencing
import CompactionLeasing.Proofs.Tracker.Mirrors

/-!
# Requests are atomic

A request ends in one of three ways. Either one batch is made durable, and no other jobs change than those
of the batch. Or nothing is to be made durable, and nothing changes. Or the batch cannot be made durable or
a number would leave its range, and nothing changes but the count of failures.
-/

namespace CompactionLeasing

section Noted
variable {ε α : Type}

/-- Makes batches durable, unless `fault` has an error for them, and notes each of them either way. -/
def Batch.note (fault : Batch → Option ε) (noted : List Batch) (b : Batch) :
    Except (List Batch × ε) (List Batch) :=
  match fault b with
  | some err => .error (noted ++ [b], err)
  | none => .ok (noted ++ [b])

/-- All batches that were to be made durable. -/
def Settlement.noted (s : Settlement (List Batch × ε) (List Batch) α) : List Batch :=
  match s.verdict with
  | .failed err => err.1
  | _ => s.store

end Noted

namespace Tracker

/-- The jobs of the name are the same, in the same place. -/
structure SameAt (t t' : Tracker) (id : JobId) : Prop where
  pending : ∀ job, job.id = id → (job ∈ t'.pending ↔ job ∈ t.pending)
  active : ∀ job, job.id = id → (job ∈ t'.active ↔ job ∈ t.active)
  complete : t'.complete[id]? = t.complete[id]?

/-- A number leaves its range: the time of the next plan, or the epoch of the first pending job. -/
inductive Overflows (t : Tracker) (now : Instant) : Request → Prop
  | time (policy : MaintenancePolicy) (completed : Instant) (hc : t.planTime = some completed)
      (hn : nextPlan? policy completed = none) : Overflows t now (.maintain policy false)
  | epoch (job : Job) (hj : t.pending.head? = some job) (he : job.state.epoch = 0xffffffffffffffff) :
      Overflows t now .lease

section Ends
variable {ε : Type} (t : Tracker) (now : Instant) (r : Request) (fault : Batch → Option ε)
  (s : Settlement (List Batch × ε) (List Batch) Reply)

/-- One batch was made durable, and it accounts for all that has changed. -/
structure Committed (b : Batch) : Prop where
  noted : s.noted = [b]
  durable : fault b = none
  answered : ∃ a, s.verdict = .done a
  kept : ∀ id ∉ (b.writes ++ b.deletes).map Job.id, t.SameAt s.tracker id
  written : ∀ job ∈ b.writes, ∀ job' ∈ s.tracker.allJobs, job'.id = job.id → job' = job
  deleted : ∀ job ∈ b.deletes, job.id ∉ s.tracker.allJobs.map Job.id

/-- Nothing was to be made durable, nothing has changed, and the answer says so. -/
def Refused : Prop := s = ⟨.done r.refusal, t, [], [], false⟩

/-- Nothing has changed but the count of failures. -/
inductive Failed : Settlement (List Batch × ε) (List Batch) Reply → Prop
  | write (b : Batch) (err : ε) (hf : fault b = some err) :
      Failed ⟨.failed ([b], err), t, [], [.persistFailed], false⟩
  | overflow (h : t.Overflows now r) : Failed ⟨.overflow, t, [], [], false⟩

/-- The tracker asked, while the batches are noted. -/
def ask : Settlement (List Batch × ε) (List Batch) Reply := t.serve now r [] (Batch.note fault [])

end Ends

section
variable {ε : Type} {t t' : Tracker} {now : Instant} {r : Request} {b : Batch} {e : Effect Reply}
  {fault : Batch → Option ε} {s : Settlement (List Batch × ε) (List Batch) Reply} {id : JobId}
  {epoch : UInt64}

theorem Consistent.sameAt (h : t.Consistent) (h' : t'.Consistent) (hj : t'.job? id = t.job? id) :
    t.SameAt t' id := by
  refine ⟨?_, ?_, ?_⟩
  · rintro job rfl
    have hp : job ∈ t.pending ↔ _ := h.mem_items (k := .pending)
    have hp' : job ∈ t'.pending ↔ _ := h'.mem_items (k := .pending)
    rw [hp, hp', hj]
  · rintro job rfl
    have ha : job ∈ t.active ↔ _ := h.mem_items (k := .active)
    have ha' : job ∈ t'.active ↔ _ := h'.mem_items (k := .active)
    rw [ha, ha', hj]
  · refine Option.ext fun c => ?_
    rw [h.getElem?_complete, h'.getElem?_complete, hj]

theorem Serves.committed (h : t.Consistent) (hs : Serves t now r b e) (hf : fault b = none) :
    t.Committed fault ⟨.done e.answer, e.tracker, [b], e.events, e.refilled⟩ b := by
  have h' : e.tracker.Consistent := (hs.outcome h).consistent
  have hn := hs.nodup h
  rw [List.map_append] at hn
  refine ⟨rfl, hf, ⟨e.answer, rfl⟩, fun id hid => ?_, fun job hj job' hj' hid => ?_, fun job hj hm => ?_⟩
  · rw [List.map_append, List.mem_append, not_or] at hid
    refine h.sameAt h' ?_
    rcases hs.job?_after h id with hj | ⟨-, rfl, s, hw, -⟩
    · rw [hj, JobTable.commit, JobTable.putAll_of_notMem hid.1, JobTable.dropAll_apply, if_neg hid.2]
    · exact absurd (List.mem_map_of_mem (f := Job.id) hw) hid.1
  · rw [h'.mem_allJobs, hid] at hj'
    rcases hs.job?_after h job.id with ha | ⟨ha, -⟩
    · rw [ha, JobTable.commit, JobTable.putAll_of_mem (List.Nodup.of_append_left hn) hj] at hj'
      exact (Option.some.inj hj').symm
    · rw [ha] at hj'; cases hj'
  · obtain ⟨job', hj', hid⟩ := List.mem_map.1 hm
    have hdelete : job.id ∈ b.deletes.map Job.id := List.mem_map_of_mem hj
    have hwrite : job.id ∉ b.writes.map Job.id := fun hw => List.disjoint_of_nodup_append hn hw hdelete
    rw [h'.mem_allJobs, hid] at hj'
    rcases hs.job?_after h job.id with ha | ⟨ha, -⟩
    · rw [ha, JobTable.commit, JobTable.putAll_of_notMem hwrite, JobTable.dropAll_apply, if_pos hdelete] at hj'
      cases hj'
    · rw [ha] at hj'; cases hj'

/-! ### Requests that do not come to a batch -/

theorem Consistent.head?_pending (h : t.Consistent) :
    t.pending.head? = t.firstPending?.map (·.2) := by
  rw [firstPending?_eq h.sound, pending, Queues.items, List.head?_map]

theorem completePlan_ne_overflow {planned : List PlannedJob} : t.completePlan epoch planned now ≠ .overflow := by
  intro h
  rw [completePlan] at h
  split at h
  · cases h
  · split at h <;> cases h

theorem Consistent.overflows (h : t.Consistent) (hp : t.propose now r = .overflow) : t.Overflows now r := by
  have map : ∀ {α β : Type} {f : α → β} {p : Proposal α}, p.map f = .overflow → p = .overflow := by
    intro α β f p hp
    cases p with
    | overflow => rfl
    | _ => cases hp
  cases r with
  | maintain policy force =>
    have hq := map hp
    rw [maintain_eq] at hq
    split at hq
    · cases hq
    split at hq
    · rename_i hw
      rw [wantsPlan?] at hw
      split_ifs at hw with hs hforce
      obtain rfl : force = false := by simpa using hforce
      rw [planDue?] at hw
      split at hw
      · cases hw
      · rename_i completed hc
        exact .time policy completed hc (Option.map_eq_none_iff.1 hw)
    · split at hq <;> cases hq
  | lease =>
    have hq := map hp
    rw [lease] at hq
    split at hq
    · cases hq
    split at hq
    · cases hq
    · rename_i slot job hf
      split at hq
      · rename_i hl
        refine .epoch job (by rw [h.head?_pending, hf]; rfl) ?_
        by_contra he
        simp [Job.lease?, JobState.lease?, he] at hl
      · cases hq
  | renew id epoch =>
    have hq := map hp
    rw [renew] at hq
    split at hq
    · cases hq
    · split at hq <;> cases hq
  | cancel id epoch =>
    have hq := map hp
    rw [cancel] at hq
    split at hq
    · cases hq
    · split at hq <;> cases hq
  | completePlan epoch planned => exact absurd (map hp) completePlan_ne_overflow
  | finish id epoch =>
    have hq := map hp
    rw [finish] at hq
    split at hq
    · exact absurd (map hq) completePlan_ne_overflow
    split at hq
    · cases hq
    · split at hq <;> cases hq

/-- A tracker that is not retired accepts the token of a leased job. -/
theorem exists_batch {x : Slot × Job} (now : Instant) (ha : t.retired = false) (hr : r.Presents id epoch)
    (hl : t.leased? id epoch = some x) : ∃ b e, t.propose now r = .persist b e := by
  have hne : ¬ t.retired = true := by rw [ha]; nofun
  have hplan : ∀ planned, planId = id → ∃ b e, t.completePlan epoch planned now = .persist b e := by
    rintro planned rfl
    rw [completePlan, if_neg hne, hl]
    exact ⟨_, _, rfl⟩
  cases r with
  | maintain | lease => cases hr
  | renew id' epoch' =>
    obtain ⟨rfl, rfl⟩ := hr
    rw [propose, renew, if_neg hne, hl]
    exact ⟨_, _, rfl⟩
  | cancel id' epoch' =>
    obtain ⟨rfl, rfl⟩ := hr
    rw [propose, cancel, if_neg hne, hl]
    exact ⟨_, _, rfl⟩
  | completePlan epoch' planned =>
    obtain ⟨hid, rfl⟩ := hr
    obtain ⟨b, e, hb⟩ := hplan planned hid
    rw [propose, hb]
    exact ⟨_, _, rfl⟩
  | finish id' epoch' =>
    obtain ⟨rfl, rfl⟩ := hr
    rw [propose, finish]
    split_ifs with hid
    · obtain ⟨b, e, hb⟩ := hplan [] hid.symm
      rw [hb]
      exact ⟨_, _, rfl⟩
    · rw [hl]
      exact ⟨_, _, rfl⟩

/-! ### The three ends of a request -/

theorem Consistent.ends (h : t.Consistent) (now : Instant) (r : Request) (fault : Batch → Option ε) :
    (∃ b, t.Committed fault (t.ask now r fault) b) ∨ t.Refused r (t.ask now r fault) ∨
      t.Failed now r fault (t.ask now r fault) := by
  rw [ask, Tracker.serve]
  cases hp : t.propose now r with
  | settled a =>
    rw [refusal_of_settled hp]
    exact .inr (.inl rfl)
  | overflow => exact .inr (.inr (.overflow (h.overflows hp)))
  | persist b e =>
    obtain ⟨-, hs⟩ := h.serves hp
    rw [Proposal.settle]
    cases hf : fault b with
    | some err =>
      have hnote : Batch.note fault [] b = .error ([b], err) := by simp [Batch.note, hf]
      rw [hnote]
      exact .inr (.inr (.write b err hf))
    | none =>
      have hnote : Batch.note fault [] b = .ok [b] := by simp [Batch.note, hf]
      rw [hnote]
      exact .inl ⟨b, hs.committed h hf⟩

theorem Committed.not_refused (hc : t.Committed fault s b) : ¬ t.Refused r s := by
  intro hr
  have hn := hc.noted
  rw [hr, Settlement.noted] at hn
  cases hn

theorem Committed.not_failed (hc : t.Committed fault s b) : ¬ t.Failed now r fault s := by
  obtain ⟨a, ha⟩ := hc.answered
  rintro (⟨b, err, hf⟩ | ⟨ho⟩) <;> cases ha

theorem Refused.not_failed (hr : t.Refused r s) : ¬ t.Failed now r fault s := by
  intro hf
  rw [hr] at hf
  cases hf

/-- A request with a token is refused by a tracker that is retired or does not have this lease. -/
theorem Consistent.refused_iff (h : t.Consistent) (fault : Batch → Option ε) (hr : r.Presents id epoch) :
    t.Refused r (t.ask now r fault) ↔
      t.retired = true ∨ ∀ job ∈ t.active, job.id = id → job.state.epoch ≠ epoch := by
  have hactive : t.leased? id epoch = none ↔ ∀ job ∈ t.active, job.id = id → job.state.epoch ≠ epoch := by
    rw [Option.eq_none_iff_forall_ne_some]
    constructor
    · intro hl job hj hid he
      obtain ⟨⟨slot, job⟩, hm, rfl⟩ := List.mem_map.1 hj
      exact hl (slot, job) (h.leased?_eq_some.2 ⟨hm, hid, he⟩)
    · rintro hj ⟨slot, job⟩ hl
      obtain ⟨hm, hid, he⟩ := h.leased?_eq_some.1 hl
      exact hj job (List.mem_map.2 ⟨_, hm, rfl⟩) hid he
  rw [← hactive]
  constructor
  · intro href
    by_contra hne
    rw [not_or, Bool.not_eq_true] at hne
    obtain ⟨x, hl⟩ := Option.ne_none_iff_exists'.1 hne.2
    obtain ⟨b, e, hb⟩ := exists_batch now hne.1 hr hl
    obtain ⟨-, hs⟩ := h.serves hb
    rw [ask, Tracker.serve, hb, Proposal.settle] at href
    cases hf : fault b with
    | some err => simp [Batch.note, hf, Refused] at href
    | none => simp [Batch.note, hf, Refused] at href
  · intro hor
    have hp : t.propose now r = .settled r.refusal := by
      rcases hor with hret | hl
      · exact propose_of_retired hret now r
      · exact propose_of_unleased hr hl
    rw [ask, Tracker.serve, hp]
    rfl

end

/-- Exactly one of three holds. -/
def ExactlyOne (p q r : Prop) : Prop := (p ∨ q ∨ r) ∧ ¬ (p ∧ q) ∧ ¬ (p ∧ r) ∧ ¬ (q ∧ r)

/-- In every state of every run a request ends in exactly one of three ways: one batch is made durable and
accounts for all that has changed, or nothing was to be made durable, or an error is reported. Only the
first changes the jobs. A request with a token is refused just by a tracker that is retired or has no
active job of this name and epoch. -/
theorem atomic {ε : Type} (actions : List (Action ε)) (ha : ∀ jobs, .recover jobs ∈ actions → jobs.Apart)
    (now : Instant) (r : Request) (fault : Batch → Option ε) :
    let t := (Watched.run actions).tracker
    let s := t.ask now r fault
    ExactlyOne (∃ b, t.Committed fault s b) (t.Refused r s) (t.Failed now r fault s) ∧
      ∀ id epoch, r.Presents id epoch →
        (t.Refused r s ↔ t.retired = true ∨ ∀ job ∈ t.active, job.id = id → job.state.epoch ≠ epoch) := by
  intro t s
  have hinv : (Watched.run actions).Inv := Watched.Inv.foldl ⟨consistent_empty, nofun⟩ ha
  have h : t.Consistent := hinv.consistent
  refine ⟨⟨h.ends now r fault, ?_, ?_, ?_⟩, fun id epoch hr => h.refused_iff fault hr⟩
  · rintro ⟨⟨b, hc⟩, hr⟩
    exact hc.not_refused hr
  · rintro ⟨⟨b, hc⟩, hf⟩
    exact hc.not_failed hf
  · rintro ⟨hr, hf⟩
    exact hr.not_failed hf

/-- A tracker is rebuilt with a leased plan job and a complete job. The plan is completed with another job,
which is made durable with it, while the complete job is deleted. -/
theorem atomic_planned :
    let jobs : RecoveredJobs :=
      ⟨[⟨"a", ⟨["x", "y"], false⟩, 1, ⟨.complete, .epoch, 1, .epoch⟩⟩], some ⟨.leased, .epoch, 1, .epoch⟩⟩
    let actions : List (Action Unit) := [.recover jobs]
    let t := (Watched.run actions).tracker
    let s := t.ask .epoch (.completePlan 1 [⟨"b", ⟨["z"], true⟩⟩]) fun _ => (none : Option Unit)
    jobs.Apart ∧ s.verdict = .done (.plan (some ⟨1, 0, 1, true⟩)) ∧
      ∃ b, t.Committed (fun _ => none) s b ∧ b.writes.map Job.id = [planId, "b"] ∧
        b.deletes.map Job.id = ["a"] := by
  intro jobs actions t s
  have ha : jobs.Apart := ⟨List.nodup_singleton _, by simp [jobs, planId]⟩
  have hall : ∀ js, .recover js ∈ actions → js.Apart := by
    intro js hj
    obtain rfl : js = jobs := by simpa [actions] using hj
    exact ha
  have hv : s.verdict = .done (.plan (some ⟨1, 0, 1, true⟩)) := by decide +kernel
  have hnoted : s.noted.map (fun b => (b.writes.map Job.id, b.deletes.map Job.id)) =
      [([planId, "b"], ["a"])] := by decide +kernel
  obtain ⟨⟨hends, -⟩, -⟩ := atomic actions hall .epoch (.completePlan 1 [⟨"b", ⟨["z"], true⟩⟩])
    fun _ => (none : Option Unit)
  refine ⟨ha, hv, ?_⟩
  rcases hends with ⟨b, hc⟩ | hr | hf
  · have hb : s.noted = [b] := hc.noted
    rw [hb] at hnoted
    simp only [List.map_cons, List.map_nil, List.cons.injEq, Prod.mk.injEq, and_true] at hnoted
    exact ⟨b, hc, hnoted⟩
  · have hs : s.verdict = .done (.plan none) := congrArg Settlement.verdict hr
    rw [hv] at hs; cases hs
  · change t.Failed .epoch _ _ s at hf
    generalize s = s' at hv hf
    cases hf <;> cases hv

end Tracker

end CompactionLeasing

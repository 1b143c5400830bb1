import CompactionLeasing.Proofs.Tracker.Life

/-!
# Lease fencing

A lease is named by a token: the name of its job and the epoch of the job. The epochs of a job rise from
lease to lease, so a token that was superseded or used up is never accepted again, as long as no new job
of the name is created: a new job counts its leases from zero again.
-/

namespace CompactionLeasing

namespace Job

theorem epoch_of_lease? {job job' : Job} {now : Instant} (h : job.lease? now = some job') :
    job'.state.epoch.toNat = job.state.epoch.toNat + 1 := by
  obtain ⟨hne, rfl⟩ := lease?_eq_some.1 h
  have hlt := job.state.epoch.toNat_lt
  have : job.state.epoch.toNat ≠ 2 ^ 64 - 1 := fun he => hne (UInt64.toNat_inj.1 he)
  rw [state_withState, UInt64.toNat_add]
  simp only [UInt64.toNat_one]
  omega

/-- The token is not ahead of what is tracked under its name. -/
def Reached (epoch : UInt64) (o : Option Job) : Prop :=
  ∀ job, o = some job → epoch.toNat ≤ job.state.epoch.toNat

/-- The token is behind what is tracked under its name, or the job is complete. -/
def Spent (epoch : UInt64) (o : Option Job) : Prop :=
  ∀ job, o = some job → epoch.toNat < job.state.epoch.toNat ∨ job.state.status = .complete

namespace Next
variable {now : Instant} {o o' : Option Job} {epoch : UInt64}

theorem reached (h : Next now o o') (hc : ¬ (o = none ∧ o'.isSome)) (hr : Reached epoch o) :
    Reached epoch o' := by
  cases h with
  | kept => exact hr
  | created job hf => exact absurd ⟨rfl, rfl⟩ hc
  | leased old job ha hl =>
    rintro _ ⟨⟩
    have := hr old rfl
    have := epoch_of_lease? hl
    omega
  | renewed old hl => rintro _ ⟨⟩; rw [state_renew]; exact hr old rfl
  | released old hl => rintro _ ⟨⟩; rw [state_release]; exact hr old rfl
  | completed old hl => rintro _ ⟨⟩; rw [state_complete]; exact hr old rfl
  | planDone => rintro _ ⟨⟩
  | pruned => rintro _ ⟨⟩

theorem spent (h : Next now o o') (hc : ¬ (o = none ∧ o'.isSome)) (hs : Spent epoch o) :
    Spent epoch o' := by
  have behind : ∀ {old : Job} {st : JobStatus}, old.state.status = st → st ≠ .complete →
      Spent epoch (some old) → epoch.toNat < old.state.epoch.toNat :=
    fun hst hne hs => (hs _ rfl).resolve_right fun hc => hne (hst ▸ hc)
  cases h with
  | kept => exact hs
  | created job hf => exact absurd ⟨rfl, rfl⟩ hc
  | leased old job ha hl =>
    rintro _ ⟨⟩
    have := behind ha nofun hs
    have := epoch_of_lease? hl
    exact .inl (by omega)
  | renewed old hl => rintro _ ⟨⟩; rw [state_renew]; exact .inl (behind hl nofun hs)
  | released old hl => rintro _ ⟨⟩; rw [state_release]; exact .inl (behind hl nofun hs)
  | completed old hl => rintro _ ⟨⟩; rw [state_complete]; exact .inr rfl
  | planDone => rintro _ ⟨⟩
  | pruned => rintro _ ⟨⟩

end Next

end Job

/-- Whether a request presents a token. -/
def Request.Presents (id : JobId) (epoch : UInt64) : Request → Prop
  | .renew id' epoch' | .cancel id' epoch' | .finish id' epoch' => id' = id ∧ epoch' = epoch
  | .completePlan epoch' _ => planId = id ∧ epoch' = epoch
  | _ => False

namespace Tracker
variable {t : Tracker} {now : Instant} {r : Request} {id : JobId} {epoch : UInt64} {job : Job}

/-- A token is refused that is not that of a leased job: every request that presents one looks up the leased
job of its name and epoch. -/
theorem propose_of_unleased (hr : r.Presents id epoch) (hn : t.leased? id epoch = none) :
    t.propose now r = .settled r.refusal := by
  have hplan : ∀ {planned}, planId = id → t.completePlan epoch planned now = .settled none := by
    rintro planned rfl
    rw [completePlan]
    split_ifs
    · rfl
    · rw [hn]
  cases r with
  | maintain | lease => cases hr
  | renew id' epoch' =>
    obtain ⟨rfl, rfl⟩ := hr
    rw [propose, renew, hn]
    split_ifs <;> rfl
  | cancel id' epoch' =>
    obtain ⟨rfl, rfl⟩ := hr
    rw [propose, cancel, hn]
    split_ifs <;> rfl
  | finish id' epoch' =>
    obtain ⟨rfl, rfl⟩ := hr
    rw [propose, Tracker.finish]
    split_ifs with hid
    · rw [hplan hid.symm]; rfl
    · rfl
    · rw [hn]; rfl
  | completePlan epoch' planned =>
    obtain ⟨hid, rfl⟩ := hr
    rw [propose, hplan hid]; rfl

/-- A spent token is refused, and nothing is changed. -/
theorem Consistent.refuses (h : t.Consistent) (hs : Job.Spent epoch (t.job? id))
    (hr : r.Presents id epoch) :
    t.propose now r = .settled r.refusal := by
  refine propose_of_unleased hr ?_
  by_contra hne
  obtain ⟨⟨slot, job⟩, hl⟩ := Option.ne_none_iff_exists'.1 hne
  obtain ⟨hm, rfl, rfl⟩ := h.leased?_eq_some.1 hl
  rcases hs job (h.job?_of_mem hm) with hlt | hc
  · omega
  · rw [h.status _ _ hm] at hc; cases hc

/-! ### Runs -/

section Run
variable {ε : Type}

/-- A request at a time, with a way to make batches durable. -/
structure Call (ε : Type) where
  now : Instant
  request : Request
  write : Batch → Except ε Unit

def answer (t : Tracker) (c : Call ε) : Settlement ε Unit Reply := t.serve c.now c.request () c.write

def after (t : Tracker) (c : Call ε) : Tracker := (t.answer c).tracker

def afterAll (t : Tracker) (cs : List (Call ε)) : Tracker := cs.foldl after t

/-- A call grants a lease of a job. -/
def Grants (t : Tracker) (c : Call ε) (job : Job) : Prop := (t.answer c).verdict = .done (.job (some job))

/-- A call that presents a token of a lease completes the job. -/
def Completes (t : Tracker) (c : Call ε) (id : JobId) (epoch : UInt64) : Prop :=
  c.request = .finish id epoch ∧ (t.answer c).verdict = .done (.flag true) ∨
    id = planId ∧ ∃ planned o, c.request = .completePlan epoch planned ∧
      (t.answer c).verdict = .done (.plan (some o))

/-- None of the calls creates a job of the name. -/
def NoneCreated (id : JobId) : Tracker → List (Call ε) → Prop
  | _, [] => True
  | t, c :: cs => ¬ (t.job? id = none ∧ ((t.after c).job? id).isSome) ∧ NoneCreated id (t.after c) cs

variable {c : Call ε} {cs : List (Call ε)}

theorem afterAll_append (t : Tracker) (xs ys : List (Call ε)) :
    t.afterAll (xs ++ ys) = (t.afterAll xs).afterAll ys :=
  List.foldl_append

theorem NoneCreated.append {xs ys : List (Call ε)} :
    NoneCreated id t (xs ++ ys) ↔ NoneCreated id t xs ∧ NoneCreated id (t.afterAll xs) ys := by
  induction xs generalizing t with
  | nil => simp [NoneCreated, afterAll]
  | cons x xs ih => rw [List.cons_append, NoneCreated, NoneCreated, ih, and_assoc]; rfl

theorem Consistent.after (h : t.Consistent) (c : Call ε) : (t.after c).Consistent := h.serve ..

theorem Consistent.afterAll (h : t.Consistent) (cs : List (Call ε)) : (t.afterAll cs).Consistent :=
  List.foldlRecOn _ _ h fun _ ih c _ => ih.after c

theorem Consistent.next_after (h : t.Consistent) (c : Call ε) (id : JobId) :
    Job.Next c.now (t.job? id) ((t.after c).job? id) := by
  have hs := h.settled c.now c.request () c.write
  rw [Tracker.after, answer]
  generalize t.serve c.now c.request () c.write = s at hs ⊢
  cases hs with
  | refused | overflow | failed => exact .kept _
  | committed b e _ _ hs _ => exact hs.next h id

theorem NoneCreated.reached (h : t.Consistent) (hn : NoneCreated id t cs)
    (hr : Job.Reached epoch (t.job? id)) :
    Job.Reached epoch ((t.afterAll cs).job? id) := by
  induction cs generalizing t with
  | nil => exact hr
  | cons c cs ih => exact ih (h.after c) hn.2 ((h.next_after c id).reached hn.1 hr)

theorem NoneCreated.spent (h : t.Consistent) (hn : NoneCreated id t cs) (hs : Job.Spent epoch (t.job? id)) :
    Job.Spent epoch ((t.afterAll cs).job? id) := by
  induction cs generalizing t with
  | nil => exact hs
  | cons c cs ih => exact ih (h.after c) hn.2 ((h.next_after c id).spent hn.1 hs)

/-- A lease that is granted has the epoch after that of the job before, and the job is tracked with it. -/
theorem Consistent.of_grants (h : t.Consistent) (hg : t.Grants c job) :
    (∃ old, t.job? job.id = some old ∧ job.state.epoch.toNat = old.state.epoch.toNat + 1) ∧
      (t.after c).job? job.id = some job := by
  have hs := h.settled c.now c.request () c.write
  rw [Grants, answer] at hg
  rw [Tracker.after, answer]
  generalize t.serve c.now c.request () c.write = s at hg hs ⊢
  cases hs with
  | refused =>
    cases hr : c.request <;> simp [hr, Request.refusal] at hg
  | overflow | failed => cases hg
  | committed b e _ _ hs _ =>
    generalize c.request = r at hs
    cases hs with
    | lease slot old job' hf hj =>
      cases hg
      have ho : (slot, old) ∈ t.queues.toList .pending := List.mem_of_mem_head? hf
      have hid : job.id = old.id := by rw [(Job.lease?_eq_some.1 hj).2, Job.id_withState]
      exact ⟨⟨old, hid ▸ h.job?_of_mem ho, Job.epoch_of_lease? hj⟩,
        by rw [(h.tracks_lease ho hj).job?, JobTable.put_self]⟩
    | _ => cases hg

theorem Consistent.spent_planned (h : t.Consistent) {slot : Slot} {old : JobState}
    (ho : (slot, .plan old) ∈ t.queues.toList .active) (planned : List PlannedJob) :
    Job.Spent epoch ((t.planned now slot planned).job? planId) := by
  rw [(h.tracks_planned ho planned).job?, JobTable.dropAll_apply,
    JobTable.putAll_of_notMem (h.planId_notMem_offered planned),
    JobTable.drop_self, ite_self]
  rintro _ ⟨⟩

/-- A job that is completed is complete or, if it is the plan job, no longer tracked. -/
theorem Consistent.spent_of_completes (h : t.Consistent) (hc : t.Completes c id epoch) :
    Job.Spent epoch ((t.after c).job? id) := by
  have hs := h.settled c.now c.request () c.write
  rw [Completes, answer] at hc
  rw [Tracker.after, answer]
  generalize t.serve c.now c.request () c.write = s at hc hs ⊢
  rcases hc with ⟨hr, hv⟩ | ⟨rfl, planned, o, hr, hv⟩
  · rw [hr] at hs
    cases hs with
    | refused | overflow | failed => cases hv
    | committed b e _ _ hs _ =>
      cases hs with
      | finish slot old ho =>
        have hj : ∀ id, _ = t.job?.put ((Job.compaction old).complete c.now) id := (h.tracks_finish ho).job?
        rw [hj, show t.job?.put ((Job.compaction old).complete c.now) old.id = _ from JobTable.put_self ..]
        rintro _ ⟨⟩
        exact .inr rfl
      | finishPlan slot old ho => exact h.spent_planned ho []
  · rw [hr] at hs
    cases hs with
    | refused | overflow | failed => cases hv
    | committed b e _ _ hs _ =>
      cases hs with
      | completePlan slot old planned ho => exact h.spent_planned ho planned

/-- How a token ends: a lease of the job is granted anew, or the token is used to complete the job. -/
def Ends (t : Tracker) (c : Call ε) (id : JobId) (epoch : UInt64) : Prop :=
  (∃ job, t.Grants c job ∧ job.id = id) ∨ t.Completes c id epoch

/-- From a state that the token has reached. -/
theorem Consistent.fenced_from (h : t.Consistent) (hr : Job.Reached epoch (t.job? id))
    {later : List (Call ε)}
    (hn : NoneCreated id t later) :
    (∀ (c : Call ε) job, (t.afterAll later).Grants c job → job.id = id → job.state.epoch ≠ epoch) ∧
      ∀ xs c ys, later = xs ++ c :: ys → (t.afterAll xs).Ends c id epoch →
        ∀ c' : Call ε, c'.request.Presents id epoch →
          (t.afterAll later).answer c' = ⟨.done c'.request.refusal, t.afterAll later, (), [], false⟩ := by
  refine ⟨fun c job hg hid he => ?_, fun xs c ys hl hends c' hp => ?_⟩
  · obtain ⟨⟨old, hold, hlt⟩, -⟩ := (h.afterAll later).of_grants hg
    -- The job is not behind the token by now, and the new lease is ahead of the job.
    have := hn.reached h hr old (hid ▸ hold)
    rw [he] at hlt
    omega
  · rw [hl] at hn
    obtain ⟨hxs, -, hys⟩ := NoneCreated.append.1 hn
    have hx := h.afterAll xs
    -- Both ends of a token leave it spent, and it stays so up to the end of the calls.
    have hspent : Job.Spent epoch (((t.afterAll xs).after c).job? id) := by
      rcases hends with ⟨job, hg, hid⟩ | hc
      · obtain ⟨⟨old, hold, hlt⟩, hj⟩ := hx.of_grants hg
        have := hxs.reached h hr old (hid ▸ hold)
        rw [← hid, hj]
        rintro _ ⟨⟩
        exact .inl (by omega)
      · exact hx.spent_of_completes hc
    have hall : t.afterAll later = ((t.afterAll xs).after c).afterAll ys := by rw [hl, afterAll_append]; rfl
    have hrefuse : (((t.afterAll xs).after c).afterAll ys).propose c'.now c'.request =
        .settled c'.request.refusal :=
      ((hx.after c).afterAll ys).refuses (hys.spent (hx.after c) hspent) hp
    rw [hall, answer, Tracker.serve, hrefuse]
    rfl

/-- In every run of a new tracker: as long as no new job of its name is created, the token of a granted lease
is not granted again, and once another lease of the job has been granted or the token has been used to
complete the job, each request that presents the token is refused and changes nothing. -/
theorem fenced (before : List (Call ε)) (grant : Call ε) (later : List (Call ε)) {job : Job}
    (hg : (empty.afterAll before).Grants grant job)
    (hn : NoneCreated job.id ((empty.afterAll before).after grant) later) :
    let t := empty.afterAll (before ++ grant :: later)
    (∀ (c : Call ε) job', t.Grants c job' → job'.id = job.id → job'.state.epoch ≠ job.state.epoch) ∧
      ∀ xs c ys, later = xs ++ c :: ys →
        (empty.afterAll (before ++ grant :: xs)).Ends c job.id job.state.epoch →
        ∀ c' : Call ε, c'.request.Presents job.id job.state.epoch →
          t.answer c' = ⟨.done c'.request.refusal, t, (), [], false⟩ := by
  have h : (empty.afterAll before).Consistent := consistent_empty.afterAll before
  have hreached : Job.Reached job.state.epoch (((empty.afterAll before).after grant).job? job.id) := by
    rw [(h.of_grants hg).2]
    rintro _ ⟨⟩
    exact Nat.le_refl _
  have hrun : ∀ xs, empty.afterAll (before ++ grant :: xs) =
      ((empty.afterAll before).after grant).afterAll xs :=
    fun xs => afterAll_append ..
  simp only [hrun]
  exact (h.after grant).fenced_from hreached hn

end Run

/-- A request at the epoch whose batch is made durable. -/
def durably (r : Request) : Call Unit := ⟨.epoch, r, fun _ => .ok ()⟩

/-- The creation of a plan job, whatever the time. -/
def forcePlan : Call Unit := durably (.maintain ⟨.ofSeconds 60, .ofSeconds 60, .ofSeconds 60⟩ true)

/-- A lease of the plan job is given back and the job is leased again: the first token no longer completes
it. -/
theorem fenced_cancelled :
    let job := Job.plan ⟨.leased, .epoch, 1, .epoch⟩
    let later := [durably (.cancel planId 1), durably .lease]
    let t := empty.afterAll ([forcePlan] ++ durably .lease :: later)
    (empty.afterAll [forcePlan]).Grants (durably .lease) job ∧
      NoneCreated planId ((empty.afterAll [forcePlan]).after (durably .lease)) later ∧
      t.answer (durably (.completePlan 1 [])) = ⟨.done (.plan none), t, (), [], false⟩ := by
  intro job later t
  have hg : (empty.afterAll [forcePlan]).Grants (durably .lease) job := by
    rw [Grants]; decide +kernel
  have hn : NoneCreated planId ((empty.afterAll [forcePlan]).after (durably .lease)) later :=
    ⟨by decide +kernel, by decide +kernel, trivial⟩
  have hagain : (empty.afterAll ([forcePlan] ++ durably .lease :: [durably (.cancel planId 1)])).Grants
      (durably .lease)
      (.plan ⟨.leased, .epoch, 2, .epoch⟩) := by
    rw [Grants]; decide +kernel
  exact ⟨hg, hn, (fenced [forcePlan] (durably .lease) later hg hn).2 [durably (.cancel planId 1)]
    (durably .lease) [] rfl
    (.inl ⟨_, hagain, rfl⟩) (durably (.completePlan 1 [])) ⟨rfl, rfl⟩⟩

/-- The leases of two plan jobs, one created after the other was completed, have the same token. -/
theorem grants_not_unique :
    ¬ ∀ (before later : List (Call Unit)) (c c' : Call Unit) (job job' : Job),
      (empty.afterAll before).Grants c job →
      (empty.afterAll (before ++ c :: later)).Grants c' job' →
        (job.id, job.state.epoch) ≠ (job'.id, job'.state.epoch) := by
  intro h
  refine h [forcePlan] [durably (.completePlan 1 []), forcePlan] (durably .lease) (durably .lease)
    (.plan ⟨.leased, .epoch, 1, .epoch⟩) (.plan ⟨.leased, .epoch, 1, .epoch⟩) ?_ ?_ rfl
  all_goals rw [Grants]; decide +kernel

end Tracker

end CompactionLeasing

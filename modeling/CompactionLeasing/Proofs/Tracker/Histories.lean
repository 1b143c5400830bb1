import CompactionLeasing.Proofs.Tracker.Fencing
import CompactionLeasing.Proofs.Tracker.Life
import CompactionLeasing.Proofs.Tracker.Mirrors
import CompactionLeasing.Store.Error

/-!
# The histories of jobs

What is made durable is noted in a ledger: the jobs as they stand, and for each name all that has happened
to its jobs. A job is offered, leased under the epochs 1, 2, … and released until a lease leads to its
completion, and dropped after that. `lives` says that the ledger of every run, with failing writes and
restarts from the durable jobs, has such lives one after the other, and that the tracker has the job just
where the last entry leaves it.
-/

namespace CompactionLeasing

/-! ### Lives -/

/-- A lease that is granted and renewed `n` times. -/
def leasing (epoch n : Nat) : List Event := .granted epoch :: List.replicate n (.renewed epoch)

/-- A job is offered, and then leased and released once for each of `rs`, with so many renewals. -/
def opened (rs : List Nat) : List Event :=
  .offered :: (rs.mapIdx fun i n => leasing (i + 1) n ++ [.released (i + 1)]).flatten

/-- Opened, and leased once more, with `n` renewals so far. -/
def held (rs : List Nat) (n : Nat) : List Event := opened rs ++ leasing (rs.length + 1) n

/-- From the offer to the completion. -/
def whole (rs : List Nat) (n : Nat) : List Event := held rs n ++ [.completed (rs.length + 1)]

/-- All that happens to one job. The plan job is not kept once it is complete. -/
def ended (id : JobId) (rs : List Nat) (n : Nat) : List Event :=
  whole rs n ++ if id = planId then [] else [.dropped]

/-- What can happen next in the life of a job. -/
inductive Follows : List Event → Event → Prop
  | offered : Follows [] .offered
  | granted (rs : List Nat) : Follows (opened rs) (.granted (rs.length + 1))
  | renewed (rs : List Nat) (n : Nat) : Follows (held rs n) (.renewed (rs.length + 1))
  | released (rs : List Nat) (n : Nat) : Follows (held rs n) (.released (rs.length + 1))
  | completed (rs : List Nat) (n : Nat) : Follows (held rs n) (.completed (rs.length + 1))

theorem opened_concat (rs : List Nat) (n : Nat) :
    opened (rs ++ [n]) = held rs n ++ [.released (rs.length + 1)] := by
  simp [opened, held]

theorem held_succ (rs : List Nat) (n : Nat) : held rs (n + 1) = held rs n ++ [.renewed (rs.length + 1)] := by
  rw [held, leasing, List.replicate_succ', held, leasing]
  simp

theorem held_isPrefix (rs : List Nat) (n : Nat) : held rs n <+: whole rs n := List.prefix_append ..

theorem opened_isPrefix (rs : List Nat) : opened rs <+: whole rs 0 :=
  (List.prefix_append ..).trans (held_isPrefix rs 0)

/-! ### Where a job stands -/

/-- How often a name occurs in pending, in active, and among the complete jobs. -/
def Tracker.places (t : Tracker) (id : JobId) : Nat × Nat × Nat :=
  ((t.pending.map Job.id).count id, (t.active.map Job.id).count id, t.complete.keys.count id)

/-- The places of a job after the latest event. -/
def Event.places : Option Event → Nat × Nat × Nat
  | some .offered | some (.released _) => (1, 0, 0)
  | some (.granted _) | some (.renewed _) => (0, 1, 0)
  | some (.completed _) => (0, 0, 1)
  | some .dropped | none => (0, 0, 0)

namespace Tracker
variable {t : Tracker} {id : JobId} {job : Job} {current : List Event}

/-- The job that is tracked under a name, if any, is as its life so far has left it. -/
inductive Lives : List Event → Option Job → Prop
  | absent : Lives [] none
  | waiting (rs : List Nat) (job : Job) (hs : job.state.status = .available)
      (he : job.state.epoch.toNat = rs.length) : Lives (opened rs) (some job)
  | leased (rs : List Nat) (n : Nat) (job : Job) (hs : job.state.status = .leased)
      (he : job.state.epoch.toNat = rs.length + 1) : Lives (held rs n) (some job)
  | complete (rs : List Nat) (n : Nat) (job : Job) (hs : job.state.status = .complete) :
      Lives (whole rs n) (some job)

theorem Lives.isPrefix {o : Option Job} (h : Lives current o) : ∃ rs n, current <+: whole rs n := by
  cases h with
  | absent => exact ⟨[], 0, List.nil_prefix⟩
  | waiting rs => exact ⟨rs, 0, opened_isPrefix rs⟩
  | leased rs n => exact ⟨rs, n, held_isPrefix rs n⟩
  | complete rs n => exact ⟨rs, n, List.prefix_refl _⟩

theorem Lives.of_available (h : Lives current (some job)) (hs : job.state.status = .available) :
    ∃ rs, current = opened rs ∧ job.state.epoch.toNat = rs.length := by
  cases h with
  | waiting rs _ _ he => exact ⟨rs, rfl, he⟩
  | leased rs n _ hl => rw [hs] at hl; cases hl
  | complete rs n _ hc => rw [hs] at hc; cases hc

theorem Lives.of_leased (h : Lives current (some job)) (hs : job.state.status = .leased) :
    ∃ rs n, current = held rs n ∧ job.state.epoch.toNat = rs.length + 1 := by
  cases h with
  | waiting rs _ ha => rw [hs] at ha; cases ha
  | leased rs n _ _ he => exact ⟨rs, n, rfl, he⟩
  | complete rs n _ hc => rw [hs] at hc; cases hc

theorem Lives.of_complete (h : Lives current (some job)) (hs : job.state.status = .complete) :
    ∃ rs n, current = whole rs n := by
  cases h with
  | waiting rs _ ha => rw [hs] at ha; cases ha
  | leased rs n _ hl => rw [hs] at hl; cases hl
  | complete rs n => exact ⟨rs, n, rfl⟩

/-- A turn of the job is one that its life allows. -/
theorem Lives.turn {now : Instant} {ev : Event} {o : Option Job} (h : Lives current o)
    (ht : Job.Turn now ev o job) : Follows current ev ∧ Lives (current ++ [ev]) (some job) := by
  cases ht with
  | offered job hf =>
    cases h
    have hlives : Lives (opened []) (some job) := .waiting [] job (by rw [hf]; rfl) (by rw [hf]; rfl)
    exact ⟨.offered, hlives⟩
  | granted old job ha hl =>
    obtain ⟨hmax, rfl⟩ := Job.lease?_eq_some.1 hl
    obtain ⟨rs, rfl, he⟩ := h.of_available ha
    have hlt : old.state.epoch.toNat + 1 < 2 ^ 64 := by
      have hle := old.state.epoch.toNat_lt
      have hne : old.state.epoch.toNat ≠ 0xffffffffffffffff := fun hn => hmax (UInt64.toNat_inj.1 hn)
      omega
    have hepoch : (old.state.epoch + 1).toNat = rs.length + 1 := by
      rw [UInt64.toNat_add, UInt64.toNat_one, Nat.mod_eq_of_lt hlt, he]
    rw [Job.state_withState, hepoch]
    refine ⟨.granted rs, .leased rs 0 _ ?_ ?_⟩
    · rw [Job.state_withState]
    · rw [Job.state_withState]; exact hepoch
  | renewed old hl =>
    obtain ⟨rs, n, rfl, he⟩ := h.of_leased hl
    rw [he, ← held_succ]
    refine ⟨.renewed rs n, .leased rs (n + 1) _ ?_ ?_⟩
    · rw [Job.state_renew]; exact hl
    · rw [Job.state_renew]; exact he
  | released old hl =>
    obtain ⟨rs, n, rfl, he⟩ := h.of_leased hl
    rw [he, ← opened_concat]
    refine ⟨.released rs n, .waiting (rs ++ [n]) _ ?_ ?_⟩
    · rw [Job.state_release]; rfl
    · rw [Job.state_release, List.length_append]; exact he
  | completed old hl =>
    obtain ⟨rs, n, rfl, he⟩ := h.of_leased hl
    rw [he]
    refine ⟨.completed rs n, .complete rs n _ ?_⟩
    rw [Job.state_complete]; rfl

/-- The one place of a job, by its status. -/
def placeOf : JobStatus → Nat × Nat × Nat
  | .available => (1, 0, 0)
  | .leased => (0, 1, 0)
  | .complete => (0, 0, 1)

theorem Consistent.places_eq (h : t.Consistent) (id : JobId) :
    t.places id = ((t.job? id).map fun job => placeOf job.state.status).getD (0, 0, 0) := by
  have hqueue : ∀ k, ((t.queues.items k).map Job.id).count id =
      if (t.job? id).any (·.state.status = k.status) then 1 else 0 := by
    intro k
    have hn : ((t.queues.items k).map Job.id).Nodup := by
      rw [Queues.items, List.map_map]; exact h.nodup_names k
    rw [hn.count]
    refine if_congr ?_ rfl rfl
    rw [List.mem_map, Option.any_eq_true]
    constructor
    · rintro ⟨job, hj, rfl⟩
      obtain ⟨ht, hs⟩ := h.mem_items.1 hj
      exact ⟨job, ht, decide_eq_true hs⟩
    · rintro ⟨job, ht, hs⟩
      obtain rfl := h.id_of_job? ht
      exact ⟨job, h.mem_items.2 ⟨ht, of_decide_eq_true hs⟩, rfl⟩
  have hcomplete : t.complete.keys.count id =
      if (t.job? id).any (·.state.status = .complete) then 1 else 0 := by
    rw [Std.ExtTreeMap.nodup_keys.count]
    refine if_congr ?_ rfl rfl
    rw [Std.ExtTreeMap.mem_keys, Std.ExtTreeMap.mem_iff_isSome_getElem?, Option.isSome_iff_exists,
      Option.any_eq_true]
    constructor
    · rintro ⟨c, hc⟩
      obtain ⟨ht, hs⟩ := h.getElem?_complete.1 hc
      exact ⟨_, ht, decide_eq_true hs⟩
    · rintro ⟨job, ht, hs⟩
      have hdone : job.state.status = .complete := of_decide_eq_true hs
      cases job with
      | plan s => exact absurd hdone (h.plan_incomplete ht rfl)
      | compaction c => exact ⟨c, h.getElem?_complete.2 ⟨ht, hdone⟩⟩
  rw [places, pending, active, hqueue, hqueue, hcomplete]
  cases t.job? id with
  | none => rfl
  | some job => cases hs : job.state.status <;> simp [hs, Queue.status, placeOf]

theorem Lives.places (h : t.Consistent) (hl : Lives current (t.job? id)) :
    t.places id = Event.places current.getLast? := by
  rw [h.places_eq]
  generalize t.job? id = o at hl
  cases hl with
  | absent => rfl
  | waiting rs job hs =>
    rw [Option.map_some, hs]
    rcases List.eq_nil_or_concat' rs with rfl | ⟨rs, n, rfl⟩
    · rfl
    · rw [opened_concat, List.getLast?_concat]; rfl
  | leased rs n job hs =>
    rw [Option.map_some, hs]
    cases n with
    | zero => rw [held, leasing, List.replicate_zero, List.getLast?_concat]; rfl
    | succ n => rw [held_succ, List.getLast?_concat]; rfl
  | complete rs n job hs =>
    rw [Option.map_some, hs, whole, List.getLast?_concat]; rfl

/-! ### The ledger -/

/-- What is durable: the jobs as they stand, and what has happened to those of each name. -/
structure Ledger where
  jobs : JobTable
  events : JobId → List Event

def Ledger.empty : Ledger := ⟨.of [], fun _ => []⟩

/-- What a batch of the tracker means for the jobs of a name. -/
def events (t : Tracker) (r : Request) (b : Batch) (id : JobId) : List Event :=
  (b.writes.filter (·.id = id)).map (t.event r) ++ (b.deletes.filter (·.id = id)).map fun _ => .dropped

/-- Makes a batch durable and notes what it means. -/
def Ledger.note (l : Ledger) (t : Tracker) (r : Request) (b : Batch) : Ledger :=
  ⟨l.jobs.commit b, fun id => l.events id ++ t.events r b id⟩

/-- A tracker and its ledger. -/
structure Chronicle where
  tracker : Tracker
  ledger : Ledger

/-- A request, whose batch is not made durable if there is a fault. -/
def Chronicle.call (x : Chronicle) (now : Instant) (r : Request) (fault : Option StoreError) :
    Settlement StoreError Ledger Reply :=
  x.tracker.serve now r x.ledger fun b =>
    match fault with
    | some err => .error err
    | none => .ok (x.ledger.note x.tracker r b)

def Chronicle.after (x : Chronicle) (now : Instant) (r : Request) (fault : Option StoreError) : Chronicle :=
  ⟨(x.call now r fault).tracker, (x.call now r fault).store⟩

/-- A new tracker in the course of a run. At any time it may be lost, and rebuilt from what is durable. -/
inductive Chronicle.Reachable : Chronicle → Prop
  | new : Reachable ⟨.empty, .empty⟩
  | call {x : Chronicle} (h : Reachable x) (now : Instant) (r : Request) (fault : Option StoreError) :
      Reachable (x.after now r fault)
  | retire {x : Chronicle} (h : Reachable x) : Reachable ⟨x.tracker.retire, x.ledger⟩
  | reinstate {x : Chronicle} (h : Reachable x) : Reachable ⟨x.tracker.reinstate, x.ledger⟩
  | restart {x : Chronicle} (h : Reachable x) (t : Tracker) (jobs : List Job)
      (hn : (jobs.map Job.id).Nodup) (hj : JobTable.of jobs = x.ledger.jobs) :
      Reachable ⟨t.recover (.ofJobs jobs), x.ledger⟩

/-- The lives that have ended, one after the other, and then the one that goes on. -/
def Recorded (id : JobId) (events current : List Event) : Prop :=
  ∃ past : List (List Nat × Nat), events = (past.map fun p => ended id p.1 p.2).flatten ++ current

/-- What has happened to the jobs of a name has led to what is tracked under it. -/
def Course (id : JobId) (events : List Event) (o : Option Job) : Prop :=
  ∃ current, Recorded id events current ∧ Lives current o

structure Chronicle.Inv (x : Chronicle) : Prop where
  consistent : x.tracker.Consistent
  mirrors : Mirrors x.ledger.jobs x.tracker
  course : ∀ id, Course id (x.ledger.events id) (x.tracker.job? id)

theorem Recorded.ended {events : List Event} {rs : List Nat} {n : Nat}
    (h : Recorded id events (whole rs n)) (rest : List Event)
    (hr : whole rs n ++ rest = ended id rs n) : Recorded id (events ++ rest) [] := by
  obtain ⟨past, rfl⟩ := h
  refine ⟨past ++ [(rs, n)], ?_⟩
  rw [List.append_assoc, hr]
  simp

theorem Recorded.concat {events : List Event} (h : Recorded id events current) (ev : Event) :
    Recorded id (events ++ [ev]) (current ++ [ev]) := by
  obtain ⟨past, rfl⟩ := h
  exact ⟨past, List.append_assoc ..⟩

/-! ### One request -/

section Serve
variable {now : Instant} {r : Request} {b : Batch} {e : Effect Reply}

theorem filter_id_of_notMem {jobs : List Job} (h : id ∉ jobs.map Job.id) :
    jobs.filter (·.id = id) = [] := by
  simp only [List.filter_eq_nil_iff, decide_eq_true_eq]
  rintro job hj rfl
  exact h (List.mem_map_of_mem hj)

theorem filter_id {jobs : List Job} (hn : (jobs.map Job.id).Nodup) (hj : job ∈ jobs) :
    jobs.filter (·.id = job.id) = [job] := by
  induction jobs with
  | nil => cases hj
  | cons x xs ih =>
    rw [List.map_cons, List.nodup_cons] at hn
    rcases List.mem_cons.1 hj with rfl | hj
    · rw [List.filter_cons_of_pos (by simp), filter_id_of_notMem hn.1]
    · have hx : x.id ≠ job.id := fun he => hn.1 (he ▸ List.mem_map_of_mem hj)
      rw [List.filter_cons_of_neg (by simpa using hx), ih hn.2 hj]

theorem Serves.events_of_write (h : t.Consistent) (hs : Serves t now r b e) (hm : job ∈ b.writes) :
    t.events r b job.id = [t.event r job] := by
  have hn := hs.nodup h
  rw [List.map_append] at hn
  have hw : job.id ∈ b.writes.map Job.id := List.mem_map_of_mem hm
  rw [events, filter_id hn.of_append_left hm,
    filter_id_of_notMem fun hd => List.disjoint_of_nodup_append hn hw hd]
  rfl

theorem Serves.events_of_delete (h : t.Consistent) (hs : Serves t now r b e) (hm : job ∈ b.deletes) :
    t.events r b job.id = [.dropped] := by
  have hn := hs.nodup h
  rw [List.map_append] at hn
  have hd : job.id ∈ b.deletes.map Job.id := List.mem_map_of_mem hm
  rw [events, filter_id hn.of_append_right hm,
    filter_id_of_notMem fun hw => List.disjoint_of_nodup_append hn hw hd]
  rfl

/-- A request keeps the ledger and the tracked jobs together. -/
theorem Serves.course (h : t.Consistent) (hs : Serves t now r b e) {events : List Event}
    (hc : Course id events (t.job? id)) : Course id (events ++ t.events r b id) (e.tracker.job? id) := by
  obtain ⟨current, hrec, hl⟩ := hc
  have hn := hs.nodup h
  rw [List.map_append] at hn
  by_cases hw : id ∈ b.writes.map Job.id
  · obtain ⟨job, hj, rfl⟩ := List.mem_map.1 hw
    obtain ⟨-, hl'⟩ := hl.turn (hs.turn_of_write h hj)
    rw [hs.events_of_write h hj]
    rcases hs.job?_after h job.id with ha | ⟨ha, hid, s, hp, hdone⟩
    · rw [ha, JobTable.commit, JobTable.putAll_of_mem hn.of_append_left hj]
      exact ⟨_, hrec.concat _, hl'⟩
    · -- The plan job is complete, and with that its life ends.
      obtain rfl : job = .plan s := List.inj_on_of_nodup_map hn.of_append_left hj hp hid
      have hrec' := hrec.concat (t.event r (.plan s))
      obtain ⟨rs, n, hwhole⟩ := hl'.of_complete hdone
      rw [hwhole] at hrec'
      have hend := hrec'.ended [] (by rw [ended, if_pos hid])
      rw [List.append_nil] at hend
      rw [ha]
      exact ⟨[], hend, .absent⟩
  by_cases hd : id ∈ b.deletes.map Job.id
  · obtain ⟨job, hj, rfl⟩ := List.mem_map.1 hd
    obtain ⟨c, rfl, hid, hdone, htracked⟩ := hs.complete_of_delete h hj
    have hnone : e.tracker.job? (Job.compaction c).id = none := by
      rcases hs.job?_after h (Job.compaction c).id with ha | ⟨ha, -⟩
      · rw [ha, JobTable.commit, JobTable.putAll_of_notMem hw, JobTable.dropAll_apply, if_pos hd]
      · exact ha
    rw [hs.events_of_delete h hj, hnone]
    rw [show t.job? (Job.compaction c).id = some (.compaction c) from htracked] at hl
    obtain ⟨rs, n, rfl⟩ := hl.of_complete hdone
    have hend : whole rs n ++ [.dropped] = ended (Job.compaction c).id rs n := by
      rw [ended, if_neg (show (Job.compaction c).id ≠ planId from hid)]
    exact ⟨[], hrec.ended [.dropped] hend, .absent⟩
  · have hnil : t.events r b id = [] := by
      rw [Tracker.events, filter_id_of_notMem hw, filter_id_of_notMem hd]; rfl
    have hsame : e.tracker.job? id = t.job? id := by
      rcases hs.job?_after h id with ha | ⟨-, rfl, s, hp, -⟩
      · rw [ha, JobTable.commit, JobTable.putAll_of_notMem hw, JobTable.dropAll_apply, if_neg hd]
      · exact absurd (List.mem_map_of_mem (f := Job.id) hp) hw
    rw [hnil, hsame, List.append_nil]
    exact ⟨current, hrec, hl⟩

/-- The request was granted by this answer, which means this event for the job of this name. -/
inductive Accepts : Request → Reply → JobId → Event → Prop
  | lease (job : Job) : Accepts .lease (.job (some job)) job.id (.granted job.state.epoch.toNat)
  | renew (id : JobId) (epoch : UInt64) : Accepts (.renew id epoch) (.flag true) id (.renewed epoch.toNat)
  | cancel (id : JobId) (epoch : UInt64) : Accepts (.cancel id epoch) (.flag true) id (.released epoch.toNat)
  | finish (id : JobId) (epoch : UInt64) : Accepts (.finish id epoch) (.flag true) id (.completed epoch.toNat)
  | completePlan (epoch : UInt64) (planned : List PlannedJob) (outcome : PlanOutcome) :
      Accepts (.completePlan epoch planned) (.plan (some outcome)) planId (.completed epoch.toNat)

/-- A request that was granted has written the job as it says. -/
theorem Serves.exists_write (h : t.Consistent) (hs : Serves t now r b e) {ev : Event}
    (ha : Accepts r e.answer id ev) : ∃ job ∈ b.writes, job.id = id ∧ t.event r job = ev := by
  have tracked : ∀ {k slot old} {job : Job}, (slot, old) ∈ t.queues.toList k → job.id = old.id →
      t.event r job = r.event job.state.epoch.toNat := by
    intro k slot old job ho hid
    rw [event, hid, h.job?_of_mem ho, if_neg (Option.some_ne_none _)]
  cases hs with
  | maintain => cases ha
  | lease slot old job hf hj =>
    cases ha
    have hid : job.id = old.id := by rw [(Job.lease?_eq_some.1 hj).2, Job.id_withState]
    exact ⟨job, List.mem_singleton_self _, rfl, tracked (List.mem_of_mem_head? hf) hid⟩
  | renew slot old ho =>
    cases ha
    exact ⟨_, List.mem_singleton_self _, Job.id_renew .., tracked ho (Job.id_renew ..)⟩
  | cancel slot old ho =>
    cases ha
    exact ⟨_, List.mem_singleton_self _, Job.id_release .., tracked ho (Job.id_release ..)⟩
  | finish slot old ho =>
    cases ha
    exact ⟨_, List.mem_singleton_self _, Job.id_complete .., tracked ho (Job.id_complete ..)⟩
  | finishPlan slot old ho =>
    cases ha
    exact ⟨_, List.mem_cons_self .., rfl, tracked ho rfl⟩
  | completePlan slot old planned ho =>
    cases ha
    exact ⟨_, List.mem_cons_self .., rfl, tracked ho rfl⟩

end Serve

/-! ### Runs -/

namespace Chronicle
variable {x : Chronicle}

/-- A call changes nothing, or is carried out and noted. -/
theorem Inv.call_cases (h : x.Inv) (now : Instant) (r : Request) (fault : Option StoreError) :
    (x.after now r fault = x ∧ ∀ a, (x.call now r fault).verdict = .done a → a = r.refusal) ∨
      ∃ b e, Serves x.tracker now r b e ∧ (x.call now r fault).verdict = .done e.answer ∧
        x.after now r fault = ⟨e.tracker, x.ledger.note x.tracker r b⟩ := by
  unfold Chronicle.after Chronicle.call
  have hs := h.consistent.settled now r x.ledger fun b =>
    match fault with
    | some err => .error err
    | none => .ok (x.ledger.note x.tracker r b)
  generalize x.tracker.serve now r x.ledger _ = s at hs ⊢
  cases hs with
  | refused => exact .inl ⟨rfl, fun a ha => by cases ha; rfl⟩
  | overflow | failed => exact .inl ⟨rfl, fun a ha => by cases ha⟩
  | committed b e store' _ hs hw =>
    cases fault with
    | some err => cases hw
    | none =>
      cases hw
      exact .inr ⟨b, e, hs, rfl, rfl⟩

theorem Inv.after (h : x.Inv) (now : Instant) (r : Request) (fault : Option StoreError) :
    (x.after now r fault).Inv := by
  rcases h.call_cases now r fault with ⟨he, -⟩ | ⟨b, e, hs, -, he⟩
  · rw [he]
    exact h
  · rw [he]
    have ho := hs.outcome h.consistent
    exact ⟨ho.consistent, ho.mirrors h.consistent h.mirrors, fun id => hs.course h.consistent (h.course id)⟩

theorem Reachable.inv (h : x.Reachable) : x.Inv := by
  induction h with
  | new =>
    refine ⟨consistent_empty, ⟨fun id _ => (tracks_empty.job? id).symm, fun c hc => by cases hc⟩,
      fun id => ?_⟩
    rw [tracks_empty.job?]
    exact ⟨[], ⟨[], rfl⟩, .absent⟩
  | call _ now r fault ih => exact ih.after now r fault
  | retire _ ih =>
    have ht := ih.consistent.tracks.withRetired true
    exact ⟨ht.consistent, ⟨ih.mirrors.jobs, ih.mirrors.plan⟩, ih.course⟩
  | reinstate _ ih =>
    have ht := ih.consistent.tracks.withRetired false
    exact ⟨ht.consistent, ⟨ih.mirrors.jobs, ih.mirrors.plan⟩, ih.course⟩
  | restart _ t jobs hn hj ih =>
    have hm := ih.mirrors
    rw [← hj] at hm
    have ht := hm.tracks_recover ih.consistent hn t
    refine ⟨ht.consistent, ⟨fun id hid => ?_, fun c hc => ?_⟩, fun id => ?_⟩
    · rw [ht.planTime] at hid
      rw [ih.mirrors.jobs id hid, ht.job?]
    · exact ih.mirrors.plan c (ht.planTime ▸ hc)
    · rw [ht.job?]; exact ih.course id

/-- The ledger of a name is in order: lives that have ended and then the current one, which is part of a
whole life. The job stands just where its latest event has put it, and a request is granted only if the
current life can go on with it. -/
structure Lawful (x : Chronicle) (id : JobId) (current : List Event) : Prop where
  recorded : Recorded id (x.ledger.events id) current
  isPrefix : ∃ rs n, current <+: whole rs n
  places : x.tracker.places id = Event.places current.getLast?
  accepted : ∀ now r fault a ev, (x.call now r fault).verdict = .done a → Accepts r a id ev →
    Follows current ev ∧ (x.call now r fault).store.events id = x.ledger.events id ++ [ev]

theorem Inv.accepted {id : JobId} {current : List Event} (h : x.Inv) (hl : Lives current (x.tracker.job? id))
    (now : Instant) (r : Request) (fault : Option StoreError) (a : Reply) (ev : Event)
    (hv : (x.call now r fault).verdict = .done a) (ha : Accepts r a id ev) :
    Follows current ev ∧ (x.call now r fault).store.events id = x.ledger.events id ++ [ev] := by
  rcases h.call_cases now r fault with ⟨-, hrefused⟩ | ⟨b, e, hs, hdone, he⟩
  · obtain rfl := hrefused a hv
    cases ha
  · rw [hdone] at hv
    cases hv
    obtain ⟨job, hj, rfl, rfl⟩ := hs.exists_write h.consistent ha
    obtain ⟨hf, -⟩ := hl.turn (hs.turn_of_write h.consistent hj)
    refine ⟨hf, ?_⟩
    show (x.after now r fault).ledger.events job.id = _
    rw [he]
    exact congrArg (x.ledger.events job.id ++ ·) (hs.events_of_write h.consistent hj)

/-- Whatever is asked, whichever batches are not made durable and however often the tracker is lost and
rebuilt, the ledger of each name is in order. -/
theorem lives (h : x.Reachable) (id : JobId) : ∃ current, x.Lawful id current := by
  obtain ⟨current, hrec, hl⟩ := h.inv.course id
  exact ⟨current, hrec, hl.isPrefix, hl.places h.inv.consistent, h.inv.accepted hl⟩

/-- A plan job is created, leased and renewed. Its tracker is lost and rebuilt, and then the plan is completed
with one job. -/
theorem lives_rebuilt :
    let renewed : Chronicle := (Chronicle.mk .empty .empty)
      |>.after .epoch (.maintain ⟨.ofSeconds 60, .ofSeconds 60, .ofSeconds 60⟩ true) none
      |>.after .epoch .lease none
      |>.after .epoch (.renew planId 1) none
    let jobs : List Job := [.plan ⟨.leased, .epoch, 1, .epoch⟩]
    let planned := (Chronicle.mk (Tracker.empty.recover (.ofJobs jobs)) renewed.ledger)
      |>.after .epoch (.completePlan 1 [⟨"j", ⟨["x", "y"], false⟩⟩]) none
    JobTable.of jobs = renewed.ledger.jobs ∧
      planned.ledger.events planId = [.offered, .granted 1, .renewed 1, .completed 1] ∧
      planned.ledger.events "j" = [.offered] ∧ ∃ current, planned.Lawful "j" current := by
  intro renewed jobs planned
  have hj : JobTable.of jobs = renewed.ledger.jobs := by
    have hputs : renewed.ledger.jobs = (((JobTable.of []).put (.plan (.fresh .epoch))).put
        (.plan ⟨.leased, .epoch, 1, .epoch⟩)).put (.plan ⟨.leased, .epoch, 1, .epoch⟩) := rfl
    rw [hputs]
    funext id
    simp only [JobTable.put_apply, Job.id]
    by_cases hid : id = planId <;> simp [hid, jobs, JobTable.of, JobTable.put_apply, Job.id]
  have hrenewed : renewed.Reachable := .call (.call (.call .new ..) ..) ..
  have hplanned : planned.Reachable := .call (.restart hrenewed .empty jobs (List.nodup_singleton _) hj) ..
  exact ⟨hj, by decide +kernel, by decide +kernel, lives hplanned "j"⟩

end Chronicle

end Tracker

end CompactionLeasing

import CompactionLeasing.Proofs.Sorting
import CompactionLeasing.Proofs.Tracker.Shifts
import CompactionLeasing.Proofs.Tracker.WellFormed

/-!
# The order in which jobs are leased

A `Line` is a tracker with its pending jobs in the order in which they came. `Line.in_line` says for every run,
whatever the clocks say and whatever is recovered, how the queues stand, how they change, and which job is leased
next.
-/

namespace CompactionLeasing

/-! ### Jobs in the order in which they came -/

section Levels
variable {xs ys jobs : List Job} {job : Job}

/-- The jobs of each order stand in the same sequence in both lists. -/
def SameLevels (xs ys : List Job) : Prop := ∀ o, level o xs = level o ys

theorem SameLevels.perm (h : SameLevels xs ys) : xs.Perm ys := by
  rw [List.perm_iff_count]
  intro job
  have hcount : ∀ jobs : List Job, (level job.order? jobs).count job = jobs.count job :=
    fun jobs => List.count_filter (by simp)
  rw [← hcount, h, hcount]

theorem SameLevels.append {xs' ys' : List Job} (h : SameLevels xs ys) (h' : SameLevels xs' ys') :
    SameLevels (xs ++ xs') (ys ++ ys') := by
  intro o
  unfold level
  rw [List.filter_append, List.filter_append]
  exact congrArg₂ _ (h o) (h' o)

/-- Jobs leave the first list at the front. -/
theorem SameLevels.drop (h : SameLevels xs ys) (n : Nat) : SameLevels (xs.drop n) (ys.diff (xs.take n)) := by
  induction n generalizing xs ys with
  | zero => simpa using h
  | succ n ih =>
    cases xs with
    | nil => simpa using h
    | cons job xs =>
      rw [List.drop_succ_cons, List.take_succ_cons, List.diff_cons]
      refine ih fun o => ?_
      have ho := h o
      unfold level at ho ⊢
      rw [← List.erase_filter, ← ho, List.filter_cons]
      split_ifs with hj
      · rw [List.erase_cons_head]
      · rw [List.erase_of_not_mem]
        intro hm
        exact hj (List.mem_filter.1 hm).2

/-- The first job of one list comes before all others of its order in the other list. -/
theorem SameLevels.first (h : SameLevels (job :: xs) ys) :
    ∃ before after, ys = before ++ job :: after ∧ ∀ j ∈ before, j.order? ≠ job.order? := by
  have ho := (h job.order?).symm
  unfold level at ho
  rw [List.filter_cons_of_pos (by simp), List.filter_eq_cons_iff] at ho
  obtain ⟨before, after, hys, hbefore, -, -⟩ := ho
  exact ⟨before, after, hys, fun j hj => by simpa using hbefore j hj⟩

/-- Pending jobs in order are given by the sequence of the jobs of each order. -/
theorem SameLevels.eq (h : SameLevels xs ys) (hx : xs.Pairwise fun a b => a.Ahead .pending b)
    (hy : ys.Pairwise fun a b => a.Ahead .pending b) : xs = ys := by
  refine Sorting.eq_of_levels Job.order? (fun a b hab hba => ?_) hx hy h
  cases a with
  | plan s =>
    cases b with
    | plan s' => rfl
    | compaction c =>
      obtain ⟨o, ho, -⟩ := hab c.order rfl
      cases ho
  | compaction c =>
    obtain ⟨o, ho, hle⟩ := hba c.order rfl
    obtain ⟨o', ho', hle'⟩ := hab o ho
    cases ho'
    rw [ho]
    exact congrArg some (UInt32.le_antisymm hle' hle)

/-- Pending jobs in order are compaction jobs by their orders, and then plan jobs. -/
theorem exists_compaction (h : jobs.Pairwise fun a b => a.Ahead .pending b) : ∃ cs : List CompactionJob,
    jobs = cs.map Job.compaction ++ jobs.filter Job.isPlan ∧ cs.Pairwise fun a b => a.order ≤ b.order := by
  induction jobs with
  | nil => exact ⟨[], rfl, .nil⟩
  | cons job jobs ih =>
    obtain ⟨hahead, hs⟩ := List.pairwise_cons.1 h
    cases job with
    | plan s =>
      have hplans : ∀ j ∈ jobs, j.isPlan = true := by
        intro j hj
        cases j with
        | plan s' => rfl
        | compaction c =>
          obtain ⟨o, ho, -⟩ := hahead _ hj c.order rfl
          cases ho
      exact ⟨[], (List.filter_eq_self.2 (List.forall_mem_cons.2 ⟨rfl, hplans⟩)).symm, .nil⟩
    | compaction c =>
      obtain ⟨cs, hjobs, hcs⟩ := ih hs
      refine ⟨c :: cs, ?_, List.pairwise_cons.2 ⟨fun c' hc' => ?_, hcs⟩⟩
      · rw [List.filter_cons_of_neg Bool.false_ne_true, List.map_cons, List.cons_append, ← hjobs]
      · have hm : .compaction c' ∈ jobs := by
          rw [hjobs]
          exact List.mem_append_left _ (List.mem_map_of_mem hc')
        obtain ⟨o, ho, hle⟩ := hahead _ hm c'.order rfl
        cases ho
        exact hle

end Levels

/-! ### What becomes of pending -/

theorem Rearranged.level_pending {q q' : Queues Job} {gone : List Slot} {new : List (Slot × Job)}
    (h : Rearranged q q' gone new) (o : Option UInt32) : level o (q'.items .pending) =
      level o (((q.toList .pending).filter fun e => e.1 ∉ gone).map Prod.snd) ++
        level o ((new.map Prod.snd).filter fun job => job.state.status = .available) := by
  rw [List.filter_map]
  exact (h.lists .pending).level_eq o

/-- Active jobs leave, and the jobs that enter are pending. -/
theorem Rearranged.sameLevels {q q' : Queues Job} {gone : List Slot} {new : List (Slot × Job)} {jobs : List Job}
    (h : Rearranged q q' gone new) (hs : q.Sound) (hgone : ∀ i ∈ gone, i ∈ (q.toList .active).map Prod.fst)
    (hnew : new.map Prod.snd = jobs) (hjobs : ∀ job ∈ jobs, job.state.status = Queue.pending.status) :
    SameLevels (q'.items .pending) (q.items .pending ++ jobs) := by
  have hstay : ((q.toList .pending).filter fun e => e.1 ∉ gone) = q.toList .pending := by
    refine List.filter_eq_self.2 fun e he => decide_eq_true fun hi => ?_
    cases hs.linked.queue_eq (List.mem_map_of_mem he) (hgone e.1 hi)
  have hall : (jobs.filter fun job => job.state.status = .available) = jobs :=
    List.filter_eq_self.2 fun job hj => decide_eq_true (hjobs job hj)
  intro o
  rw [h.level_pending, hstay, hnew, hall]
  exact (List.filter_append ..).symm

namespace Tracker
variable {t t' : Tracker} {r : Request} {b : Batch} {gone : List Slot} {new : List (Slot × Job)}

/-- If the jobs came in the order of `arrivals` before, they come in this order now. -/
theorem Shift.sameLevels (h : Shift t r b t' gone new) {arrivals : List Job} (ha : SameLevels t.pending arrivals) :
    SameLevels t'.pending
      (arrivals.diff (t.pending.take r.takes) ++ b.writes.filter fun job => job.state.status = .available) := by
  have hwrites : (new.map Prod.snd).filter (fun job => job.state.status = .available) =
      b.writes.filter fun job => job.state.status = .available := by
    rw [h.entering, List.filter_filter]
    refine List.filter_congr fun job _ => ?_
    cases job.state.status <;> rfl
  intro o
  have hlevel := h.rearranged.level_pending o
  rw [h.pending, hwrites, List.map_drop] at hlevel
  refine hlevel.trans ?_
  have hrest := ha.drop r.takes o
  unfold level at hrest ⊢
  rw [List.filter_append]
  exact congrArg (· ++ _) hrest

/-! ### Recovery -/

theorem order_trans (a b c : CompactionJob) (hab : decide (a.order ≤ b.order) = true)
    (hbc : decide (b.order ≤ c.order) = true) : decide (a.order ≤ c.order) = true :=
  decide_eq_true (UInt32.le_trans (of_decide_eq_true hab) (of_decide_eq_true hbc))

theorem order_total (a b : CompactionJob) : (decide (a.order ≤ b.order) || decide (b.order ≤ a.order)) = true := by
  rw [Bool.or_eq_true, decide_eq_true_eq, decide_eq_true_eq]
  exact UInt32.le_total _ _

/-- Sorting by order changes nothing among the jobs of one order. -/
theorem sameLevels_mergeSort (cs : List CompactionJob) :
    SameLevels ((cs.mergeSort fun a b => a.order ≤ b.order).map .compaction) (cs.map .compaction) := by
  intro o
  unfold level
  rw [List.filter_map, List.filter_map]
  refine congrArg _ (Sorting.filter_mergeSort (fun c : CompactionJob => some c.order) order_trans order_total
    (fun a b hab => ?_) o cs)
  rw [decide_eq_true_eq, Option.some.inj hab]
  exact UInt32.le_refl _

theorem pairwise_mergeSort (cs : List CompactionJob) :
    ((cs.mergeSort fun a b => a.order ≤ b.order).map Job.compaction).Pairwise fun a b => a.Ahead .pending b := by
  refine List.pairwise_map.2 ((List.pairwise_mergeSort order_trans order_total cs).imp fun {a b} hab o ho => ?_)
  cases ho
  exact ⟨a.order, rfl, of_decide_eq_true hab⟩

theorem status_availableOf (jobs : RecoveredJobs) : ∀ job ∈ availableOf jobs, job.state.status = Queue.pending.status := by
  intro job hj
  obtain ⟨c, hc, rfl⟩ := List.mem_map.1 hj
  exact (RecoveredJobs.mem_withStatus.1 (List.mem_mergeSort.1 hc)).2

theorem status_leasedOf (jobs : RecoveredJobs) : ∀ job ∈ leasedOf jobs, job.state.status = Queue.active.status := by
  intro job hj
  rcases List.mem_append.1 (List.mem_mergeSort.1 hj) with hj | hj
  · obtain ⟨c, hc, rfl⟩ := List.mem_map.1 hj
    exact (RecoveredJobs.mem_withStatus.1 hc).2
  · exact (fits_plan (k := .active) hj).1

/-- The jobs enter empty queues. -/
theorem recover_rearranged (t : Tracker) (jobs : RecoveredJobs) : ∃ new,
    new.map Prod.snd = availableOf jobs ++ jobs.planWithStatus .available ++ leasedOf jobs ∧
      Rearranged .empty (t.recover jobs).queues [] new := by
  let start : Tracker :=
    { empty with
      complete := (jobs.withStatus .complete).foldl (fun m job => m.insert job.id job) ∅
      planTime := jobs.planTime
      retired := t.retired }
  have hstart : Lined start.queues := lined_empty
  have hplan : ∀ job ∈ jobs.planWithStatus .available, job.state.status = Queue.pending.status :=
    fun job hj => (fits_plan (k := .pending) hj).1
  obtain ⟨new₁, hnew₁, h₁⟩ := hstart.placeAll (status_availableOf jobs)
  obtain ⟨new₂, hnew₂, h₂⟩ := (h₁.lined hstart).placeAll hplan
  obtain ⟨new₃, hnew₃, h₃⟩ := (h₂.lined (h₁.lined hstart)).placeAll (status_leasedOf jobs)
  refine ⟨new₁ ++ new₂ ++ new₃, by rw [List.map_append, List.map_append, hnew₁, hnew₂, hnew₃], ?_⟩
  exact (h₁.trans h₂ fun _ _ => List.not_mem_nil).trans h₃ fun _ _ => List.not_mem_nil

/-- The jobs that enter pending. -/
theorem filter_recovered (jobs : RecoveredJobs) : ((availableOf jobs ++ jobs.planWithStatus .available ++ leasedOf jobs).filter
    fun job => job.state.status = .available) = availableOf jobs ++ jobs.planWithStatus .available := by
  rw [List.filter_append, List.filter_eq_self.2, List.filter_eq_nil_iff.2, List.append_nil]
  · intro job hj
    rw [status_leasedOf jobs job hj]
    exact nofun
  · intro job hj
    rcases List.mem_append.1 hj with hj | hj
    · exact decide_eq_true (status_availableOf jobs job hj)
    · exact decide_eq_true (fits_plan (k := .pending) hj).1

theorem recover_lined (t : Tracker) (jobs : RecoveredJobs) : Lined (t.recover jobs).queues ∧
    SameLevels (t.recover jobs).pending
      ((jobs.withStatus .available).map .compaction ++ jobs.planWithStatus .available) := by
  obtain ⟨new, hnew, h⟩ := t.recover_rearranged jobs
  refine ⟨h.lined lined_empty, fun o => (h.level_pending o).trans ?_⟩
  rw [hnew, filter_recovered, Queues.toList_empty]
  exact (sameLevels_mergeSort _).append (fun _ => rfl) o

section Runs
variable {ε : Type}

/-- The batch that a request makes durable, if it does. -/
def written? (t : Tracker) (now : Instant) (r : Request) (write : Batch → Except ε Unit) : Option Batch :=
  (t.serve now r none fun b => (write b).map fun _ => some b).store

theorem written?_cases (t : Tracker) (now : Instant) (r : Request) (write : Batch → Except ε Unit) :
    (t.written? now r write = none ∧ (t.serve now r () write).tracker = t) ∨
      ∃ b e, t.propose now r = .persist b e ∧ t.written? now r write = some b ∧
        (t.serve now r () write).tracker = e.tracker := by
  unfold written? serve
  cases hp : t.propose now r with
  | settled a => exact .inl ⟨rfl, rfl⟩
  | overflow => exact .inl ⟨rfl, rfl⟩
  | persist b e =>
    simp only [Proposal.settle]
    cases write b with
    | error err => exact .inl ⟨rfl, rfl⟩
    | ok u => exact .inr ⟨b, e, rfl, rfl, rfl⟩

/-! ### Runs -/

/-- A tracker, and its pending jobs in the order in which they came. -/
structure Line where
  tracker : Tracker
  arrivals : List Job

namespace Line
variable {x : Line}

/-- The jobs that an action writes. -/
def writes (x : Line) : Action ε → List Job
  | .call now r write => ((x.tracker.written? now r write).map Batch.writes).getD []
  | _ => []

/-- The job that is leased leaves; released and new jobs come last, in the order in which they are written. Those
that are recovered come in the order in which they are given, the plan job last. -/
def act (x : Line) : Action ε → Line
  | .call now r write =>
    ⟨(x.tracker.serve now r () write).tracker,
      match x.tracker.written? now r write with
      | none => x.arrivals
      | some b =>
        x.arrivals.diff (x.tracker.pending.take r.takes) ++ b.writes.filter fun job => job.state.status = .available⟩
  | .retire => { x with tracker := x.tracker.retire }
  | .reinstate => { x with tracker := x.tracker.reinstate }
  | .recover jobs =>
    ⟨x.tracker.recover jobs, (jobs.withStatus .available).map .compaction ++ jobs.planWithStatus .available⟩

def run (actions : List (Action ε)) : Line := actions.foldl act ⟨empty, []⟩

/-- A request changes nothing, or what it proposes takes place. -/
theorem act_call (x : Line) (now : Instant) (r : Request) (write : Batch → Except ε Unit) :
    (x.act (.call now r write) = x ∧ x.writes (.call now r write) = []) ∨
      ∃ b e, x.tracker.propose now r = .persist b e ∧ x.writes (.call now r write) = b.writes ∧
        x.act (.call now r write) = ⟨e.tracker, x.arrivals.diff (x.tracker.pending.take r.takes) ++
          b.writes.filter fun job => job.state.status = .available⟩ := by
  simp only [act, writes]
  rcases x.tracker.written?_cases now r write with ⟨hb, ht⟩ | ⟨b, e, hp, hb, ht⟩
  · rw [hb, ht]
    exact .inl ⟨rfl, rfl⟩
  · rw [hb, ht]
    exact .inr ⟨b, e, hp, rfl, rfl⟩

structure Inv (x : Line) : Prop where
  lined : Lined x.tracker.queues
  came : SameLevels x.tracker.pending x.arrivals

namespace Inv

theorem act (h : x.Inv) (a : Action ε) : (x.act a).Inv := by
  cases a with
  | retire => exact ⟨h.lined, h.came⟩
  | reinstate => exact ⟨h.lined, h.came⟩
  | recover jobs =>
    obtain ⟨hlined, hcame⟩ := x.tracker.recover_lined jobs
    exact ⟨hlined, hcame⟩
  | call now r write =>
    rcases x.act_call now r write with ⟨hact, -⟩ | ⟨b, e, hp, -, hact⟩
    · rw [hact]
      exact h
    · rw [hact]
      obtain ⟨gone, new, hshift⟩ := h.lined.shift hp
      exact ⟨hshift.rearranged.lined h.lined, hshift.sameLevels h.came⟩

theorem foldl (h : x.Inv) (actions : List (Action ε)) : (actions.foldl Line.act x).Inv :=
  List.foldlRecOn _ _ h fun _ ih a _ => ih.act a

theorem rearranged (h : x.Inv) {a : Action ε} (ha : ∀ jobs, a ≠ .recover jobs) :
    ∃ gone new, Rearranged x.tracker.queues (x.act a).tracker.queues gone new ∧
      (new.map Prod.snd = (x.writes a).filter fun job => job.state.status ≠ .complete) ∧
      ∀ k, ∀ e ∈ x.tracker.queues.toList k, e.1 ∈ gone → e.2.id ∈ (x.writes a).map Job.id := by
  have hnone : ∀ k, ∀ e ∈ x.tracker.queues.toList k, e.1 ∈ ([] : List Slot) → e.2.id ∈ ([] : List Job).map Job.id :=
    fun _ _ _ hm => absurd hm List.not_mem_nil
  cases a with
  | retire => exact ⟨[], [], .refl h.lined.sound, rfl, hnone⟩
  | reinstate => exact ⟨[], [], .refl h.lined.sound, rfl, hnone⟩
  | recover jobs => exact absurd rfl (ha jobs)
  | call now r write =>
    rcases x.act_call now r write with ⟨hact, hw⟩ | ⟨b, e, hp, hw, hact⟩
    · rw [hact, hw]
      exact ⟨[], [], .refl h.lined.sound, rfl, hnone⟩
    · rw [hact, hw]
      obtain ⟨gone, new, hshift⟩ := h.lined.shift hp
      exact ⟨gone, new, hshift.rearranged, hshift.entering, hshift.leaving⟩

theorem pairwise (h : x.Inv) (k : Queue) : (x.tracker.queues.items k).Pairwise fun a b => a.Ahead k b :=
  List.pairwise_map.2 (h.lined.ordered k)

/-- The pending jobs behind the first one, if that is leased. -/
theorem front (h : x.Inv) {next : Job} {rest : List Job} (hp : x.tracker.pending = next :: rest) :
    (∀ c, next = .compaction c → ∀ c', .compaction c' ∈ rest → c.order ≤ c'.order) ∧
      (next.isPlan = true → ∀ j ∈ rest, j.isPlan = true) ∧
      ∃ before after, x.arrivals = before ++ next :: after ∧ ∀ j ∈ before, j.order? ≠ next.order? := by
  have hahead : ∀ j ∈ rest, next.Ahead .pending j := by
    have hs := h.pairwise .pending
    rw [show x.tracker.queues.items .pending = _ from hp] at hs
    exact (List.pairwise_cons.1 hs).1
  refine ⟨?_, fun hplan j hj => ?_, SameLevels.first (hp ▸ h.came)⟩
  · rintro c rfl c' hc'
    obtain ⟨o, ho, hle⟩ := hahead _ hc' c'.order rfl
    cases ho
    exact hle
  · cases next with
    | compaction c => cases hplan
    | plan s =>
      cases j with
      | plan s' => rfl
      | compaction c =>
        obtain ⟨o, ho, -⟩ := hahead _ hj c.order rfl
        cases ho

end Inv

theorem tracker_foldl {x : Line} {w : Watched} (h : x.tracker = w.tracker) (actions : List (Action ε)) :
    (actions.foldl act x).tracker = (actions.foldl Watched.act w).tracker :=
  List.foldl_rel (r := fun (x : Line) (w : Watched) => x.tracker = w.tracker) h fun a _ x w h => by
    cases a <;> simp only [act, Watched.act, h]

theorem lined_run (actions : List (Action ε)) : Lined (Watched.run actions).tracker.queues := by
  have h : (run actions).Inv := Inv.foldl ⟨lined_empty, fun _ => rfl⟩ actions
  have hline : (run actions).tracker = (Watched.run actions).tracker := tracker_foldl rfl actions
  exact hline ▸ h.lined

/-- How the queues stand, how they change, and which job is leased. -/
structure Ordered (ε : Type) (x : Line) : Prop where
  /-- Compaction jobs by their orders, and then the plan job. -/
  pending : ∃ cs : List CompactionJob,
    x.tracker.pending = cs.map Job.compaction ++ x.tracker.pending.filter Job.isPlan ∧
      cs.Pairwise fun a b => a.order ≤ b.order
  /-- By the times of the leases. -/
  active : x.tracker.active.Pairwise fun a b => a.state.since ≤ b.state.since
  arrivals : x.arrivals.Perm x.tracker.pending
  /-- The jobs that are written may leave their places. Those that are not complete enter, each behind all that stand
  ahead of it and before the others. All else stays as it is. -/
  changes : ∀ a : Action ε, (∀ jobs, a ≠ .recover jobs) → ∃ gone new,
    Rearranged x.tracker.queues (x.act a).tracker.queues gone new ∧
      (new.map Prod.snd = (x.writes a).filter fun job => job.state.status ≠ .complete) ∧
      ∀ k, ∀ e ∈ x.tracker.queues.toList k, e.1 ∈ gone → e.2.id ∈ (x.writes a).map Job.id
  /-- The job that is leased has the least order of all, and came first among those of its order. It is the plan job
  only if no other is pending. -/
  leased : ∀ now (write : Batch → Except ε Unit) job,
    (x.tracker.serve now .lease () write).verdict = .done (.job (some job)) →
      ∃ next rest, x.tracker.pending = next :: rest ∧ next.lease? now = some job ∧
        (∀ c, next = .compaction c → ∀ c', .compaction c' ∈ rest → c.order ≤ c'.order) ∧
        (next.isPlan = true → ∀ j ∈ rest, j.isPlan = true) ∧
        ∃ before after, x.arrivals = before ++ next :: after ∧ ∀ j ∈ before, j.order? ≠ next.order?
  leases : ∀ now (write : Batch → Except ε Unit) next rest job, x.tracker.retired = false →
    x.tracker.pending = next :: rest → next.lease? now = some job → write ⟨[job], []⟩ = .ok () →
      (x.tracker.serve now .lease () write).verdict = .done (.job (some job))

theorem Inv.ordered (h : x.Inv) : Ordered ε x := by
  refine ⟨exists_compaction (h.pairwise .pending), h.pairwise .active, h.came.perm.symm, fun a ha => h.rearranged ha,
    fun now write job hv => ?_, fun now write next rest job hr hp hl hw => ?_⟩
  · have hasked := h.lined.asked now () write
    generalize x.tracker.serve now .lease () write = r at hv hasked
    cases hasked with
    | granted events hr hr' hp hl hw ha =>
      cases hv
      exact ⟨_, _, hp, hl, h.front hp⟩
    | refused | spent | failed => cases hv
  · have hasked := h.lined.asked now () write
    generalize x.tracker.serve now .lease () write = r at hasked ⊢
    cases hasked with
    | refused h' =>
      rcases h' with h' | h'
      · simp [hr] at h'
      · simp [hp] at h'
    | spent _ hp' hl' =>
      cases hp.symm.trans hp'
      cases hl.symm.trans hl'
    | failed _ hp' hl' hw' =>
      cases hp.symm.trans hp'
      cases hl.symm.trans hl'
      cases hw.symm.trans hw'
    | granted events _ _ hp' hl' _ _ =>
      have hold := hp.symm.trans hp'
      cases (List.cons.inj hold).1
      cases hl.symm.trans hl'
      rfl

/-- The queues are in order at the end of every run. The recovered jobs having names of their own, there is at most one
plan job. -/
theorem in_line (actions : List (Action ε)) : Ordered ε (run actions) ∧
    ((∀ jobs, .recover jobs ∈ actions → jobs.Apart) →
      ((run actions).tracker.pending.filter Job.isPlan).length ≤ 1) := by
  have h : (run actions).Inv := Inv.foldl ⟨lined_empty, fun _ => rfl⟩ actions
  refine ⟨h.ordered, fun ha => ?_⟩
  have hstart : Watched.Inv ⟨empty, false⟩ := ⟨consistent_empty, nofun⟩
  have hone := (hstart.foldl ha).consistent.wellFormed.onePlan
  rw [← tracker_foldl (x := ⟨empty, []⟩) rfl] at hone
  exact ((List.sublist_append_left ..).filter _).length_le.trans hone

/-- The clock goes back between two leases. One lease is given back, and its job goes behind the other one of its
order, although it came before that one at first. -/
theorem in_line_backwards :
    let at' (s : UInt64) : Instant := (Instant.epoch.add? (.ofSeconds s)).getD .epoch
    let jobs : RecoveredJobs := ⟨[⟨"old", ⟨["x"], false⟩, 2, .fresh .epoch⟩], some ⟨.leased, .epoch, 1, .epoch⟩⟩
    let planned : List PlannedJob := [⟨"new", ⟨["y"], false⟩⟩, ⟨"next", ⟨["z"], true⟩⟩]
    let write : Batch → Except Unit Unit := fun _ => .ok ()
    let leased : List (Action Unit) :=
      [.recover jobs, .call .epoch (.completePlan 1 planned) write, .call (at' 9) .lease write,
        .call (at' 5) .lease write]
    let released := leased ++ [.call (at' 7) (.cancel "old" 1) write]
    jobs.Apart ∧ (run leased).tracker.active.map Job.id = ["old", "new"] ∧
      (run released).tracker.pending.map Job.id = ["next", "old"] ∧ Ordered Unit (run released) ∧
      ((run released).tracker.pending.filter Job.isPlan).length ≤ 1 := by
  intro at' jobs planned write leased released
  have ha : jobs.Apart := ⟨by decide, by decide⟩
  have h := in_line released
  refine ⟨ha, by decide +kernel, by decide +kernel, h.1, h.2 fun js hj => ?_⟩
  obtain rfl : js = jobs := by simpa [released, leased] using hj
  exact ha

end Line

end Runs

end Tracker

end CompactionLeasing

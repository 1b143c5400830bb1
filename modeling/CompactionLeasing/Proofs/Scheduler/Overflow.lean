import CompactionLeasing.Loops.Maintenance
import CompactionLeasing.Proofs.Scheduler.Moves
import CompactionLeasing.Proofs.Tracker.Horizon

/-!
# When the maintenance loop dies

The loop dies if a tracker that it maintains leaves the range of times, whatever other threads do to the scheduler
in between. `MaintenanceLoop.running_iff`: while the clock is near, that never happens exactly if the policy fits.
-/

namespace CompactionLeasing

namespace Scheduler
variable {s : Scheduler} {policy : MaintenancePolicy} {now : Instant} {h : Handle} {tenant : TenantId}

/-- What was planned on any tracker, was planned at a time that is near. -/
def Near (s : Scheduler) : Prop := ∀ (h : Handle) (m : Member), s.members[h]? = some m → m.tracker.Near

/-- The clock is near, maintenance goes by the policy, and a plan that is recovered was completed at a time that is
near. -/
def Move.IsNear (policy : MaintenancePolicy) : Move → Prop
  | .call _ now r => now.IsNear ∧ ∀ policy' force, r = .maintain policy' force → policy' = policy
  | .rebuild _ jobs => ∀ s, jobs.plan = some s → s.status = .complete → s.since.IsNear
  | _ => True

theorem near_start (storage : Storage) (admission : Admission) (maxLeases : UInt64) :
    (start storage admission maxLeases).Near :=
  Every.start storage admission maxLeases

namespace Near

theorem call (hs : s.Near) (hn : now.IsNear) (h : Handle) (r : Request) : (s.call h now r).2.Near :=
  Every.call hs h fun _ store write ht => ht.serve hn r store write

theorem move (hs : s.Near) {m : Move} (hm : m.IsNear policy) : (s.move m).Near := by
  refine Every.move hs m Tracker.near_empty ?_ ?_ fun t ht => ⟨ht, ht⟩
  · rintro h now r rfl t store write ht
    exact ht.serve hm.1 r store write
  · rintro h jobs rfl t
    exact Tracker.near_recover hm t

/-- A maintenance pass over some trackers comes to its end. -/
theorem maintainFrom (hs : s.Near) (hi : 0 < policy.planInterval.nanos) (hf : policy.Fits) (hn : now.IsNear)
    (force : Bool) (sum : MaintenanceSummary) (es : List (TenantId × Handle)) :
    (∃ sum', (s.maintainFrom policy force now sum es).1 = .done sum') ∧
      (s.maintainFrom policy force now sum es).2.Near := by
  induction es generalizing s sum with
  | nil => exact ⟨⟨sum, rfl⟩, hs⟩
  | cons e es ih =>
    have hcall := hs.call hn e.2 (.maintain policy force)
    have hverdict : (s.call e.2 now (.maintain policy force)).1 ≠ some .overflow := by
      cases hm : s.members[e.2]? with
      | none => simp [Scheduler.call, hm]
      | some m =>
        have hne := Tracker.propose_maintain_ne_overflow hi hf (hs e.2 m hm) now force
        simp only [Scheduler.call, hm, Tracker.serve]
        cases hp : m.tracker.propose now (.maintain policy force) with
        | settled a => simp [Proposal.settle]
        | overflow => exact absurd hp hne
        | persist b e =>
          rw [Proposal.settle]
          split <;> simp
    rw [Scheduler.maintainFrom]
    generalize s.call e.2 now (.maintain policy force) = r at hcall hverdict ⊢
    split
    · exact ih hcall _
    · exact ih hcall _
    · exact absurd rfl hverdict
    · exact ih hcall _

theorem maintainAll (hs : s.Near) (hi : 0 < policy.planInterval.nanos) (hf : policy.Fits) (hn : now.IsNear)
    (force : Bool) : (∃ sum, (s.maintainAll policy force now).1 = .done sum) ∧
      (s.maintainAll policy force now).2.Near := by
  obtain ⟨⟨sum, hsum⟩, hnear⟩ := hs.maintainFrom hi hf hn force ⟨s.registered.length, 0, 0⟩ s.registered
  rw [Scheduler.maintainAll]
  generalize s.maintainFrom policy force now ⟨s.registered.length, 0, 0⟩ s.registered = r at hsum hnear ⊢
  obtain ⟨v, s'⟩ := r
  cases hsum
  refine ⟨⟨sum, rfl⟩, ?_⟩
  simp only
  split <;> exact hnear

end Near

/-- A pass over one tracker ends where the tracker leaves the range. -/
theorem maintainAll_overflow {m : Member} {force : Bool} (hr : s.registered = [(tenant, h)])
    (hm : s.members[h]? = some m) (hp : m.tracker.propose now (.maintain policy force) = .overflow) :
    (s.maintainAll policy force now).1 = .overflow := by
  have hcall : (s.call h now (.maintain policy force)).1 = some .overflow := by
    simp only [Scheduler.call, hm, Tracker.serve, hp, Proposal.settle]
  rw [maintainAll, hr, maintainFrom]
  generalize s.call h now (.maintain policy force) = r at hcall ⊢
  obtain ⟨v, s'⟩ := r
  cases hcall
  rfl

/-- A tenant whose plan was completed at `c` is recovered. -/
def recovery (c : Instant) : List Move :=
  [.enroll "a" .nowhere, .rebuild 0 (Tracker.plannedAt c), .register "a" 0]

theorem recovery_eq (c : Instant) (storage : Storage) (admission : Admission) (maxLeases : UInt64) :
    ∃ s m, (recovery c).foldl move (start storage admission maxLeases) = s ∧ s.registered = [("a", 0)] ∧
      s.members[0]? = some m ∧ m.tracker = { Tracker.empty with planTime := some c } := by
  let s₁ := (start storage admission maxLeases).move (.enroll "a" .nowhere)
  have hs₁ : s₁.members = #[⟨"a", maxLeases, .empty, 0, 0, .nowhere⟩] := by
    simp [s₁, move, enroll, start, Metrics.numberOf, Metrics.empty]
  have hrebuild : s₁.move (.rebuild 0 (Tracker.plannedAt c)) = s₁.rebuild 0 (Tracker.plannedAt c) := by
    have hnone : s₁.registered = [] := by simp [s₁, move, enroll, start, registered]
    rw [move, hnone, List.any_nil, if_neg Bool.false_ne_true]
  refine ⟨_, ⟨"a", maxLeases, { Tracker.empty with planTime := some c }, 0, 0, .nowhere⟩, rfl, ?_, ?_, rfl⟩
  · have htrackers : (((recovery c).foldl move (start storage admission maxLeases)).roster.trackers) =
        (∅ : Std.ExtTreeMap TenantId Handle).insert "a" 0 := by
      simp only [recovery, List.foldl_cons, List.foldl_nil]
      rw [hrebuild]
      simp [register, rebuild, s₁, move, enroll, start]
    rw [registered, htrackers]
    decide
  · simp only [recovery, List.foldl_cons, List.foldl_nil]
    rw [hrebuild]
    simp [move, register, rebuild, hs₁, Tracker.recover_plannedAt, Tracker.empty]

end Scheduler

/-- What happens beside the maintenance loop, or within it. -/
inductive Turn where
  | move (m : Scheduler.Move)
  /-- The loop acts. -/
  | maintain (now : Instant)

def Turn.IsNear (policy : MaintenancePolicy) : Turn → Prop
  | .move m => m.IsNear policy
  | .maintain now => now.IsNear

namespace MaintenanceLoop
variable {policy : MaintenancePolicy} {every : Span} {x : MaintenanceLoop × Scheduler}

/-- The loop and the scheduler after a turn. A loop that has died acts no more. -/
def turn (x : MaintenanceLoop × Scheduler) : Turn → MaintenanceLoop × Scheduler
  | .move m => (x.1, x.2.move m)
  | .maintain now => if x.1.running then x.1.act (some now) x.2 else x

/-- The loop is alive and goes by the policy, and all that was planned was planned at times that are near. -/
structure Alive (policy : MaintenancePolicy) (x : MaintenanceLoop × Scheduler) : Prop where
  running : x.1.running = true
  policy : x.1.policy = policy
  near : x.2.Near

namespace Alive

theorem turn (hx : Alive policy x) (hi : 0 < policy.planInterval.nanos) (hf : policy.Fits) {a : Turn}
    (ha : a.IsNear policy) : Alive policy (turn x a) := by
  cases a with
  | move m => exact ⟨hx.running, hx.policy, hx.near.move ha⟩
  | maintain now =>
    obtain ⟨⟨sum, hsum⟩, hnear⟩ := hx.near.maintainAll hi hf ha false
    rw [MaintenanceLoop.turn, if_pos hx.running, act]
    simp only [hx.policy]
    generalize x.2.maintainAll policy false now = r at hsum hnear ⊢
    obtain ⟨v, s'⟩ := r
    cases hsum
    exact ⟨hx.running, rfl, hnear⟩

theorem foldl (hx : Alive policy x) (hi : 0 < policy.planInterval.nanos) (hf : policy.Fits) {turns : List Turn}
    (ha : ∀ a ∈ turns, a.IsNear policy) : Alive policy (turns.foldl MaintenanceLoop.turn x) :=
  List.foldlRecOn _ _ hx fun _ ih a hm => ih.turn hi hf (ha a hm)

end Alive

theorem isNear_recovery (policy : MaintenancePolicy) :
    ∀ a ∈ (Scheduler.recovery .horizon).map Turn.move ++ [Turn.maintain .horizon], a.IsNear policy := by
  have hjobs : (Scheduler.Move.rebuild 0 (Tracker.plannedAt .horizon)).IsNear policy := by
    rintro s hs -
    cases hs
    exact Instant.isNear_horizon
  intro a ha
  simp only [Scheduler.recovery, List.map_cons, List.map_nil, List.cons_append, List.nil_append, List.mem_cons,
    List.not_mem_nil, or_false] at ha
  rcases ha with rfl | rfl | rfl | rfl
  · trivial
  · exact hjobs
  · trivial
  · exact Instant.isNear_horizon

theorem foldl_move (x : MaintenanceLoop × Scheduler) (ms : List Scheduler.Move) :
    (ms.map Turn.move).foldl turn x = (x.1, ms.foldl Scheduler.move x.2) := by
  rw [List.foldl_map]
  exact List.foldl_hom (x.1, ·) fun _ _ => rfl

theorem running_recovery (hn : Tracker.nextPlan? policy .horizon = none) (every : Span) (storage : Storage)
    (admission : Admission) (maxLeases : UInt64) : (((Scheduler.recovery .horizon).map Turn.move ++ [Turn.maintain .horizon]).foldl turn
      (start policy every, .start storage admission maxLeases)).1.running = false := by
  obtain ⟨s, m, hs, hr, hm, ht⟩ := Scheduler.recovery_eq .horizon storage admission maxLeases
  have hp : m.tracker.propose .horizon (.maintain policy false) = .overflow := by
    rw [ht]
    exact Tracker.propose_maintain_eq_overflow rfl (by simp [Tracker.empty]) rfl hn
  have hall := Scheduler.maintainAll_overflow hr hm hp
  rw [List.foldl_append, foldl_move, hs, List.foldl_cons, List.foldl_nil, turn]
  split
  · rw [act]
    simp only [start]
    generalize s.maintainAll policy false .horizon = r at hall ⊢
    obtain ⟨v, s'⟩ := r
    cases hall
    rfl
  · rename_i hrun
    simpa using hrun

/-- While the clock is near, the loop never dies, whatever is done to the scheduler in between, exactly if the policy
fits. -/
theorem running_iff (hi : 0 < policy.planInterval.nanos) (he : every.isZero = false) (storage : Storage)
    (admission : Admission) (maxLeases : UInt64) :
    (∀ turns : List Turn, (∀ a ∈ turns, a.IsNear policy) →
      (turns.foldl turn (start policy every, .start storage admission maxLeases)).1.running = true) ↔
    policy.Fits := by
  constructor
  · intro h
    by_contra hf
    have hnone : Tracker.nextPlan? policy .horizon = none :=
      Option.not_isSome_iff_eq_none.1 ((Tracker.isSome_nextPlan?_horizon hi).not.2 hf)
    have hdead := running_recovery hnone every storage admission maxLeases
    rw [h _ (isNear_recovery policy)] at hdead
    cases hdead
  · intro hf turns ha
    have hstart : Alive policy (start policy every, .start storage admission maxLeases) :=
      ⟨by simp [start, he], rfl, Scheduler.near_start storage admission maxLeases⟩
    exact (hstart.foldl hi hf ha).running

end MaintenanceLoop

end CompactionLeasing

import CompactionLeasing.Proofs.Tracker.Cadence
import CompactionLeasing.Proofs.Tracker.Commits

/-!
# Times that maintenance works out

Maintenance adds an interval and a delay to the time of the last plan, and neither is bounded. `overflows_iff`: as
long as the clock stays between the epoch and a horizon, no tracker can make maintenance leave the range exactly if
the policy fits (`MaintenancePolicy.Fits`), that is if the next plan after one at the horizon still has a time.
-/

namespace CompactionLeasing

namespace Instant
variable {t c : Instant} {n : Int} {d : Span}

/-- The latest reading of a clock that is looked at: `2 ^ 62` seconds after the epoch. -/
def horizon : Instant := ⟨0x4000000000000000 * 1000000000, by decide, by decide⟩

/-- Between the epoch and the horizon. -/
def IsNear (t : Instant) : Prop := epoch ≤ t ∧ t ≤ horizon

instance (t : Instant) : Decidable t.IsNear := inferInstanceAs (Decidable (_ ∧ _))

theorem isNear_horizon : horizon.IsNear := by decide

theorem IsNear.nonneg (h : t.IsNear) : 0 ≤ t.nanos := h.1

theorem isSome_ofNanos? : (ofNanos? n).isSome ↔
    -(0x8000000000000000 * 1000000000) ≤ n ∧ n < 0x8000000000000000 * 1000000000 := by
  unfold ofNanos?
  split_ifs with h
  · exact iff_of_true rfl h
  · exact iff_of_false Bool.false_ne_true h

theorem isSome_add? (ht : 0 ≤ t.nanos) :
    (t.add? d).isSome ↔ t.nanos + d.nanos < 0x8000000000000000 * 1000000000 := by
  unfold add?
  rw [isSome_ofNanos?]
  omega

end Instant

/-- An interval after the horizon, and the delay after the boundary that the horizon comes before, are times. -/
def MaintenancePolicy.Fits (p : MaintenancePolicy) : Prop :=
  Instant.horizon.nanos + p.planInterval.nanos < 0x8000000000000000 * 1000000000 ∧
    Tracker.boundary p.planInterval p.planDelay .horizon < 0x8000000000000000 * 1000000000

instance (p : MaintenancePolicy) : Decidable p.Fits := inferInstanceAs (Decidable (_ ∧ _))

namespace Tracker
variable {policy : MaintenancePolicy} {t : Tracker} {c now : Instant} {ε : Type}

theorem isSome_nextPlan? (hi : 0 < policy.planInterval.nanos) (hc : 0 ≤ c.nanos) : (nextPlan? policy c).isSome ↔
    c.nanos + policy.planInterval.nanos < 0x8000000000000000 * 1000000000 ∧
      boundary policy.planInterval policy.planDelay c < 0x8000000000000000 * 1000000000 := by
  unfold nextPlan?
  cases ht : c.add? policy.planInterval with
  | none =>
    have hn := (Instant.isSome_add? (d := policy.planInterval) hc).not.1 (by rw [ht]; simp)
    exact iff_of_false Bool.false_ne_true fun h => hn h.1
  | some t =>
    have hs := (Instant.isSome_add? (d := policy.planInterval) hc).1 (by rw [ht]; rfl)
    have hfloor := nanos_floorTo_of_add? hi hc ht
    have hpos : 0 ≤ (t.floorTo policy.planInterval).nanos := by
      rw [hfloor]
      have hd := Int.ediv_nonneg hc (Int.natCast_nonneg policy.planInterval.nanos)
      exact Int.mul_nonneg (by omega) (by omega)
    simp only [Instant.isSome_add? hpos, hfloor, hs, true_and, boundary]

/-- If the policy fits, the next plan after any time that is near has a time. -/
theorem isSome_nextPlan?_of_fits (hi : 0 < policy.planInterval.nanos) (hf : policy.Fits) (hc : c.IsNear) :
    (nextPlan? policy c).isSome := by
  have hle : c.nanos ≤ Instant.horizon.nanos := hc.2
  have hmono : boundary policy.planInterval policy.planDelay c ≤
      boundary policy.planInterval policy.planDelay .horizon := boundary_mono hi hc.2
  obtain ⟨hadd, hbound⟩ := hf
  exact (isSome_nextPlan? hi hc.nonneg).2 ⟨by omega, by omega⟩

theorem isSome_nextPlan?_horizon (hi : 0 < policy.planInterval.nanos) :
    (nextPlan? policy .horizon).isSome ↔ policy.Fits :=
  isSome_nextPlan? hi Instant.isNear_horizon.nonneg

/-! ### Trackers -/

/-- The last plan, if its time is known, was completed at a time that is near. -/
def Near (t : Tracker) : Prop := ∀ c, t.planTime = some c → c.IsNear

theorem propose_maintain_ne_overflow (hi : 0 < policy.planInterval.nanos) (hf : policy.Fits) (h : t.Near)
    (now : Instant) (force : Bool) : t.propose now (.maintain policy force) ≠ .overflow := by
  have hdue : (t.planDue? policy now).isSome := by
    unfold planDue?
    split
    · rfl
    · rename_i c hc
      rw [Option.isSome_map]
      exact isSome_nextPlan?_of_fits hi hf (h c hc)
  have hwants : (t.wantsPlan? policy force now).isSome := by
    unfold wantsPlan?
    split_ifs
    · rfl
    · rfl
    · exact hdue
  obtain ⟨wanted, hw⟩ := Option.isSome_iff_exists.1 hwants
  rw [propose, maintain_eq, hw]
  split
  · simp [Proposal.map]
  · simp only
    split <;> simp [Proposal.map]

/-- Unforced maintenance of a tracker that has no plan job needs the time of the next plan. -/
theorem propose_maintain_eq_overflow (hr : t.retired = false) (hs : t.slots.contains planId = false)
    (hc : t.planTime = some c) (hn : nextPlan? policy c = none) :
    t.propose now (.maintain policy false) = .overflow := by
  have hwants : t.wantsPlan? policy false now = none := by simp [wantsPlan?, planDue?, hs, hc, hn]
  rw [propose, maintain_eq, hwants, hr]
  rfl

/-- The tracker after an action. -/
def act (t : Tracker) : Action ε → Tracker
  | .call now r write => (t.serve now r () write).tracker
  | .retire => t.retire
  | .reinstate => t.reinstate
  | .recover jobs => t.recover jobs

/-- The clock is near and maintenance goes by the policy. A plan that is recovered was completed at a time that is
near. -/
def Action.IsNear (policy : MaintenancePolicy) : Action ε → Prop
  | .call now r _ => now.IsNear ∧ ∀ policy' force, r = .maintain policy' force → policy' = policy
  | .recover jobs => ∀ s, jobs.plan = some s → s.status = .complete → s.since.IsNear
  | _ => True

theorem near_empty : empty.Near := fun _ hc => nomatch hc

theorem Near.serve {σ : Type} (h : t.Near) (hn : now.IsNear) (r : Request) (store : σ)
    (write : Batch → Except ε σ) : (t.serve now r store write).tracker.Near := by
  rw [Tracker.serve]
  cases hp : t.propose now r with
  | settled a => exact h
  | overflow => exact h
  | persist b e =>
    rw [Proposal.settle]
    cases write b with
    | error err => exact h
    | ok store' =>
      intro c hc
      rcases (commits_of_propose hp).planTime with ht | ht | ht <;> rw [ht] at hc
      · exact h c hc
      · cases hc
      · cases hc
        exact hn

theorem near_recover {jobs : RecoveredJobs} (h : ∀ s, jobs.plan = some s → s.status = .complete → s.since.IsNear)
    (t : Tracker) : (t.recover jobs).Near := by
  intro c hc
  rw [planTime_recover, RecoveredJobs.planWithStatus] at hc
  split at hc
  · rename_i s hs
    split_ifs at hc with hstatus
    · cases hc
      exact h s hs hstatus
    · cases hc
  · cases hc

theorem Near.act (h : t.Near) {a : Action ε} (ha : a.IsNear policy) : (t.act a).Near := by
  cases a with
  | call now r write => exact h.serve ha.1 r () write
  | retire => exact h
  | reinstate => exact h
  | recover jobs => exact near_recover ha t

theorem Near.foldl {actions : List (Action ε)} (h : t.Near) (ha : ∀ a ∈ actions, a.IsNear policy) :
    (actions.foldl Tracker.act t).Near :=
  List.foldlRecOn _ _ h fun _ ih a hm => ih.act (ha a hm)

/-- The durable jobs of a tenant whose only plan was completed at `c`. -/
def plannedAt (c : Instant) : RecoveredJobs := ⟨[], some ⟨.complete, c, 1, c⟩⟩

theorem recover_plannedAt (t : Tracker) (c : Instant) :
    t.recover (plannedAt c) = { empty with planTime := some c, retired := t.retired } := by
  simp [recover, plannedAt, RecoveredJobs.withStatus, RecoveredJobs.planWithStatus, placeAll, empty, Job.state]

/-- While the clock is near, maintenance leaves the range on no tracker, whatever it went through, exactly if the
policy fits. -/
theorem overflows_iff (hi : 0 < policy.planInterval.nanos) :
    (∀ actions : List (Action ε), (∀ a ∈ actions, a.IsNear policy) → ∀ now : Instant, now.IsNear → ∀ force,
      (actions.foldl Tracker.act empty).propose now (.maintain policy force) ≠ .overflow) ↔ policy.Fits := by
  constructor
  · intro h
    by_contra hf
    have hnone : nextPlan? policy .horizon = none :=
      Option.not_isSome_iff_eq_none.1 ((isSome_nextPlan?_horizon hi).not.2 hf)
    refine h [.recover (plannedAt .horizon)] ?_ .horizon Instant.isNear_horizon false ?_
    · rintro a ha
      rw [List.mem_singleton.1 ha]
      rintro s hs -
      cases hs
      exact Instant.isNear_horizon
    · rw [List.foldl_cons, List.foldl_nil, act, recover_plannedAt]
      exact propose_maintain_eq_overflow rfl (by simp [empty]) rfl hnone
  · intro hf actions ha now _ force
    exact propose_maintain_ne_overflow hi hf (near_empty.foldl ha) now force

end Tracker

end CompactionLeasing

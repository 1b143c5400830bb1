import CompactionLeasing.Tracker.Maintenance
import Mathlib.Order.Bounds.Defs
import Mathlib.Tactic.ByContra

/-!
# Times that are rounded down

Rounding down gives the latest whole multiple of a span that is not later than a time, and the words in which it is
worked out never lose anything. So the next plan is due after the last one, by at most an interval and a delay
(`Tracker.due_in_time`).
-/

namespace CompactionLeasing

namespace Instant
variable {t c : Instant} {step : Span}

theorem floorTo_eq_self (h : t < epoch ∨ step.nanos = 0) : t.floorTo step = t := by
  refine ext_nanos ?_
  rw [nanos_floorTo, if_neg]
  rintro ⟨h₀, hpos⟩
  rcases h with h | h
  · exact Int.not_le.2 h h₀
  · exact hpos h

theorem nanos_floorTo_of_le (h : epoch ≤ t) (hstep : 0 < step.nanos) :
    (t.floorTo step).nanos = t.nanos - t.nanos % step.nanos := by
  rw [nanos_floorTo, if_pos ⟨h, Nat.ne_of_gt hstep⟩]

/-- What is left of a time after whole steps, counted in words of 128 bits and cut down to seconds and nanoseconds, is
what the time exceeds its floor by. -/
theorem exists_rem (h : epoch ≤ t) (hstep : 0 < step.nanos) : ∃ age rem : Span,
    t.since? epoch = some age ∧ Span.ofWide? (age.wideRem step) = some rem ∧
      rem.nanos = (age.wideRem step).toNat ∧ t.sub? rem = some (t.floorTo step) := by
  obtain ⟨age, hage, -⟩ := exists_since? h
  have hzero : step.isZero = false := beq_eq_false_iff_ne.2 (Nat.ne_of_gt hstep)
  refine ⟨age, age.rem step, hage, Span.ofWide?_wideRem age step, (Span.toNat_wideRem age step).symm, ?_⟩
  rw [← floorTo?_of_since? hage hzero, floorTo?_eq_some]

/-- The latest multiple of the step that is not later than the time. -/
theorem isGreatest_floorTo (h : epoch ≤ t) (hstep : 0 < step.nanos) :
    IsGreatest {a : Instant | a ≤ t ∧ (step.nanos : Int) ∣ a.nanos} (t.floorTo step) := by
  have hfloor := nanos_floorTo_of_le h hstep
  have hlow := Int.emod_nonneg t.nanos (b := step.nanos) (by omega)
  have hhigh := Int.emod_lt_of_pos t.nanos (b := step.nanos) (by omega)
  have hdvd : (step.nanos : Int) ∣ (t.floorTo step).nanos := by
    rw [hfloor]
    exact Int.dvd_self_sub_emod
  refine ⟨⟨le_iff.2 (by omega), hdvd⟩, ?_⟩
  rintro a ⟨hle, ha⟩
  rw [le_iff] at hle ⊢
  by_contra hlt
  -- Two multiples that differ are a step apart, and the time is less than a step away from its floor.
  have hstep' := Int.le_of_dvd (by omega) (Int.dvd_sub ha hdvd)
  omega

theorem floorTo_le (t : Instant) (step : Span) : t.floorTo step ≤ t := by
  by_cases h : t < epoch ∨ step.nanos = 0
  · rw [floorTo_eq_self h]
    exact Int.le_refl _
  · obtain ⟨hle, hstep⟩ := not_or.1 h
    exact (isGreatest_floorTo (Int.not_lt.1 hle) (Nat.pos_of_ne_zero hstep)).1.1

/-- No multiple is skipped: zero is one. -/
theorem epoch_le_floorTo (h : epoch ≤ t) (hstep : 0 < step.nanos) : epoch ≤ t.floorTo step :=
  (isGreatest_floorTo h hstep).2 ⟨h, Int.dvd_zero _⟩

/-- From a step after `c`, rounding down does not come back to `c`, also before the epoch. -/
theorem lt_floorTo_of_add? (hstep : 0 < step.nanos) (ht : c.add? step = some t) : c < t.floorTo step := by
  have hn := nanos_of_add? ht
  rw [lt_iff]
  by_cases h : epoch ≤ t
  · have hfloor := nanos_floorTo_of_le h hstep
    have hhigh := Int.emod_lt_of_pos t.nanos (b := step.nanos) (by omega)
    omega
  · rw [floorTo_eq_self (.inl (Int.not_le.1 h))]
    omega

end Instant

namespace Tracker
variable {policy : MaintenancePolicy} {x : Tracker} {c due now : Instant}

theorem nextPlan?_eq_some : nextPlan? policy c = some due ↔
    ∃ t, c.add? policy.planInterval = some t ∧ (t.floorTo policy.planInterval).add? policy.planDelay = some due := by
  unfold nextPlan?
  cases c.add? policy.planInterval with
  | none => simp
  | some t => simp

theorem lt_of_nextPlan? (hi : 0 < policy.planInterval.nanos) (h : nextPlan? policy c = some due) : c < due := by
  obtain ⟨t, ht, hdue⟩ := nextPlan?_eq_some.1 h
  have hlt := Instant.lt_iff.1 (Instant.lt_floorTo_of_add? hi ht)
  have hn := Instant.nanos_of_add? hdue
  rw [Instant.lt_iff]
  omega

theorem nanos_le_of_nextPlan? (h : nextPlan? policy c = some due) :
    due.nanos ≤ c.nanos + policy.planInterval.nanos + policy.planDelay.nanos := by
  obtain ⟨t, ht, hdue⟩ := nextPlan?_eq_some.1 h
  have hle := Instant.le_iff.1 (t.floorTo_le policy.planInterval)
  rw [Instant.nanos_of_add? hdue, ← Instant.nanos_of_add? ht]
  omega

theorem planDue?_of_nextPlan? (hc : x.planTime = some c) (h : nextPlan? policy c = some due) (now : Instant) :
    x.planDue? policy now = some (decide (due ≤ now)) := by
  unfold planDue?
  rw [hc]
  simp [h]

/-- A plan that is due stays due; and whether the time of the next plan leaves the range does not depend on the
clock. -/
theorem planDue?_mono {now' : Instant} (hle : now ≤ now') (x : Tracker) (policy : MaintenancePolicy) :
    (x.planDue? policy now = some true → x.planDue? policy now' = some true) ∧
      ((x.planDue? policy now').isSome ↔ (x.planDue? policy now).isSome) := by
  cases hc : x.planTime with
  | none => simp [planDue?, hc]
  | some c =>
    cases hn : nextPlan? policy c with
    | none => simp [planDue?, hc, hn]
    | some due =>
      rw [planDue?_of_nextPlan? hc hn, planDue?_of_nextPlan? hc hn]
      refine ⟨fun h => ?_, Iff.rfl⟩
      rw [Option.some.injEq, decide_eq_true_iff] at h ⊢
      exact Int.le_trans h hle

/-- Rounding down is exact and never fails. Before the epoch, or by a step of length zero, it changes nothing; else it
gives the latest multiple of the step that is not later, the words hold what is taken away, and what is left lies
between the epoch and the time. So if the sums have a time, the next plan is due after the last one, by at most an
interval and a delay, and what is due stays due. -/
theorem due_in_time :
    (∀ (t : Instant) (step : Span), t.floorTo? step = some (t.floorTo step) ∧
      (t < .epoch ∨ step.nanos = 0 → t.floorTo step = t) ∧
      (.epoch ≤ t → 0 < step.nanos →
        IsGreatest {a : Instant | a ≤ t ∧ (step.nanos : Int) ∣ a.nanos} (t.floorTo step) ∧
        .epoch ≤ t.floorTo step ∧ t.floorTo step ≤ t ∧
        ∃ age rem : Span, t.since? .epoch = some age ∧ (age.wideRem step).toNat = age.nanos % step.nanos ∧
          (age.wideRem step / 1000000000).toNat < 0x10000000000000000 ∧
          (age.wideRem step % 1000000000).toNat < 0x100000000 ∧
          Span.ofWide? (age.wideRem step) = some rem ∧ rem.nanos = (age.wideRem step).toNat ∧
          t.sub? rem = some (t.floorTo step))) ∧
    (∀ (policy : MaintenancePolicy) (c t due : Instant), 0 < policy.planInterval.nanos →
      c.add? policy.planInterval = some t → (t.floorTo policy.planInterval).add? policy.planDelay = some due →
      c < due ∧ due.nanos ≤ c.nanos + policy.planInterval.nanos + policy.planDelay.nanos ∧
      ∀ (x : Tracker) (now : Instant), x.planTime = some c → x.planDue? policy now = some (decide (due ≤ now))) ∧
    ∀ (x : Tracker) (policy : MaintenancePolicy) (now now' : Instant), now ≤ now' →
      (x.planDue? policy now = some true → x.planDue? policy now' = some true) ∧
      ((x.planDue? policy now').isSome ↔ (x.planDue? policy now).isSome) := by
  refine ⟨fun t step => ⟨Instant.floorTo?_eq_some t step, Instant.floorTo_eq_self, fun ht hstep => ?_⟩,
    fun policy c t due hi ht hdue => ?_, fun x policy now now' hle => planDue?_mono hle x policy⟩
  · obtain ⟨age, rem, hage, hrem, hn, hsub⟩ := Instant.exists_rem ht hstep
    have hwide : (age.wideRem step).toNat = (age.rem step).nanos := Span.toNat_wideRem age step
    have hsecs : (age.wideRem step / 1000000000).toNat < 0x10000000000000000 := by
      rw [Span.toNat_div_second hwide]
      exact (age.rem step).seconds_lt
    have hnanos : (age.wideRem step % 1000000000).toNat < 0x100000000 := by
      rw [Span.toNat_mod_second hwide]
      exact (age.rem step).subsec_lt
    exact ⟨Instant.isGreatest_floorTo ht hstep, Instant.epoch_le_floorTo ht hstep, t.floorTo_le step,
      age, rem, hage, hwide, hsecs, hnanos, hrem, hn, hsub⟩
  · have hnext := nextPlan?_eq_some.2 ⟨t, ht, hdue⟩
    exact ⟨lt_of_nextPlan? hi hnext, nanos_le_of_nextPlan? hnext, fun x now hc => planDue?_of_nextPlan? hc hnext now⟩

/-- Five seconds are rounded down to seven times seven tenths of a second. A plan that was completed half a second before
the epoch is followed by one at the epoch, and not before. -/
theorem due_in_time_subsecond :
    let step : Span := .ofMillis 700
    let policy : MaintenancePolicy := ⟨.ofSeconds 600, step, .ofSeconds 0⟩
    let t : Instant := ⟨5000000000, by decide, by decide⟩
    let c : Instant := ⟨-500000000, by decide, by decide⟩
    let x : Tracker := { Tracker.empty with planTime := some c }
    IsGreatest {a : Instant | a ≤ t ∧ (step.nanos : Int) ∣ a.nanos} ⟨4900000000, by decide, by decide⟩ ∧
      x.planDue? policy ⟨-1, by decide, by decide⟩ = some false ∧ x.planDue? policy .epoch = some true ∧
      x.planDue? policy t = some true := by
  intro step policy t c x
  obtain ⟨hfloor, hdue, hmono⟩ := due_in_time
  have hgreatest := ((hfloor t step).2.2 (by decide) (by decide)).1
  have hx := (hdue policy c ⟨200000000, by decide, by decide⟩ .epoch (by decide) (by decide) (by decide)).2.2 x
  have hepoch : x.planDue? policy .epoch = some true := (hx _ rfl).trans (by decide)
  refine ⟨?_, (hx _ rfl).trans (by decide), hepoch, (hmono x policy .epoch t (by decide)).1 hepoch⟩
  rwa [show t.floorTo step = ⟨4900000000, by decide, by decide⟩ by decide] at hgreatest

end Tracker

end CompactionLeasing

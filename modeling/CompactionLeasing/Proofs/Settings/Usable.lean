import CompactionLeasing.Proofs.Backoff
import CompactionLeasing.Proofs.Scheduler.Overflow
import CompactionLeasing.Settings.Basic

/-!
# Whether settings that are accepted can be used

Settings are refused if a span is empty, but no span is too long to be accepted. `Settings.usable_iff` says which of
those that are accepted keep the maintenance loop alive, and which let every retry have a delay.
-/

namespace CompactionLeasing

namespace Settings
variable {s : Settings} {r : ResolvedSettings} {name text : String} {d : Span}

theorem ok_of_bind {ε α β : Type} {x : Except ε α} {f : α → Except ε β} {b : β} (h : x >>= f = .ok b) :
    ∃ a, x = .ok a ∧ f a = .ok b := by
  cases x with
  | error err => cases h
  | ok a => exact ⟨a, rfl, h⟩

theorem pos_of_properSpan (h : properSpan name text = .ok d) : 0 < d.nanos := by
  obtain ⟨d', -, h⟩ := ok_of_bind h
  split at h
  · cases h
  · rename_i hz
    cases h
    simpa [Span.isZero, Nat.pos_iff_ne_zero] using hz

/-- What is known of settings that are accepted: no interval is empty, and the delays are in order. -/
theorem resolve_ok (h : s.resolve = .ok r) : 0 < r.maintenance.planInterval.nanos ∧
    r.maintenanceInterval.isZero = false ∧ 0 < r.backoff.shortest.nanos ∧ r.backoff.shortest ≤ r.backoff.longest := by
  obtain ⟨policy, hpolicy, h⟩ := ok_of_bind h
  obtain ⟨delays, hdelays, h⟩ := ok_of_bind h
  obtain ⟨every, hevery, h⟩ := ok_of_bind h
  obtain ⟨_, -, h⟩ := ok_of_bind h
  cases h
  obtain ⟨_, -, hpolicy⟩ := ok_of_bind hpolicy
  obtain ⟨interval, hinterval, hpolicy⟩ := ok_of_bind hpolicy
  obtain ⟨_, -, hpolicy⟩ := ok_of_bind hpolicy
  cases hpolicy
  obtain ⟨shortest, hshortest, hdelays⟩ := ok_of_bind hdelays
  obtain ⟨longest, -, hdelays⟩ := ok_of_bind hdelays
  have hpos := pos_of_properSpan hevery
  split at hdelays
  · cases hdelays
  · rename_i hle
    cases hdelays
    refine ⟨pos_of_properSpan hinterval, ?_, pos_of_properSpan hshortest, ?_⟩
    · simpa [Span.isZero] using Nat.pos_iff_ne_zero.1 hpos
    · simpa [Span.le_iff, Span.lt_iff] using hle

/-- Settings that are accepted can be used as they are handed on, while the clock is near, exactly if their policy
fits and twice their longest delay is a span: then no maintenance leaves the range of times, whatever a tracker went
through; the maintenance loop never dies, whatever is done to the scheduler in between; and there is a delay for
every retry. -/
theorem usable_iff {ε : Type} (s : Settings) (r : ResolvedSettings) (h : s.resolve = .ok r) (storage : Storage) :
    ((∀ actions : List (Tracker.Action ε), (∀ a ∈ actions, a.IsNear r.maintenance) →
        ∀ now : Instant, now.IsNear → ∀ force,
          (actions.foldl Tracker.act .empty).propose now (.maintain r.maintenance force) ≠ .overflow) ↔
      r.maintenance.Fits) ∧
    ((∀ turns : List Turn, (∀ a ∈ turns, a.IsNear r.maintenance) →
        (turns.foldl MaintenanceLoop.turn (.start r.maintenance r.maintenanceInterval,
          .start storage r.admission r.maxLeases)).1.running = true) ↔
      r.maintenance.Fits) ∧
    ((∀ n, ((Backoff.start r.backoff).after n).next.1.isSome) ↔
      2 * r.backoff.longest.nanos < 0x10000000000000000 * 1000000000) := by
  obtain ⟨hinterval, hevery, hshortest, -⟩ := resolve_ok h
  exact ⟨Tracker.overflows_iff hinterval,
    MaintenanceLoop.running_iff hinterval hevery storage r.admission r.maxLeases,
    Backoff.isSome_next_iff hshortest⟩

/-- With the settings that hold by default the loop never dies. -/
theorem usable_iff_default : ∃ r, ({} : Settings).resolve = .ok r ∧ ∀ (storage : Storage) (turns : List Turn),
    (∀ a ∈ turns, a.IsNear r.maintenance) →
      (turns.foldl MaintenanceLoop.turn (.start r.maintenance r.maintenanceInterval,
        .start storage r.admission r.maxLeases)).1.running = true := by
  refine ⟨⟨⟨.ofSeconds 600, .ofSeconds 3600, .ofSeconds 900⟩, .ofSeconds 30, 0, .ofSeconds 300,
    ⟨.ofSeconds 1, .ofSeconds 60, 0⟩, .ofLists [] [], none, "data"⟩, by decide, fun storage => ?_⟩
  exact (usable_iff (ε := Empty) {} _ (by decide) storage).2.1.2 (by decide)

/-- Settings with an interval and a delay as long as they can be written in seconds of a time and a span. -/
def farthest : Settings where
  scheduling := { planInterval := "9223372036854775807s" }
  discovery := { shortestBackoff := "18446744073709551615s", longestBackoff := "18446744073709551615s" }

/-- A tracker that is new and completes a plan one second after the epoch. -/
def firstPlan (policy : MaintenancePolicy) (now : Instant) : List (Tracker.Action Empty) :=
  [.call now (.maintain policy false) fun _ => .ok (), .call now .lease fun _ => .ok (),
    .call now (.completePlan 1 []) fun _ => .ok ()]

/-- These settings are accepted. The first maintenance after a plan was completed one second after the epoch leaves
the range, the maintenance loop can die, and there is no delay for the first retry. -/
theorem farthest_unusable : ∃ r, farthest.resolve = .ok r ∧
    (∃ (actions : List (Tracker.Action Empty)) (now : Instant), (∀ a ∈ actions, a.IsNear r.maintenance) ∧
      now.IsNear ∧ (actions.foldl Tracker.act .empty).propose now (.maintain r.maintenance false) = .overflow) ∧
    (∀ storage : Storage, ∃ turns : List Turn, (∀ a ∈ turns, a.IsNear r.maintenance) ∧
      (turns.foldl MaintenanceLoop.turn (.start r.maintenance r.maintenanceInterval,
        .start storage r.admission r.maxLeases)).1.running = false) ∧
    (Backoff.start r.backoff).next.1 = none := by
  let policy : MaintenancePolicy := ⟨.ofSeconds 600, .ofSeconds 9223372036854775807, .ofSeconds 900⟩
  let now : Instant := ⟨1000000000, by decide, by decide⟩
  let longest : Span := .ofSeconds 18446744073709551615
  refine ⟨⟨policy, .ofSeconds 30, 0, .ofSeconds 300, ⟨longest, longest, 0⟩, .ofLists [] [], none, "data"⟩, by decide,
    ⟨firstPlan policy now, now, ?_, by decide, ?_⟩, fun storage => ?_, by decide⟩
  · intro a ha
    simp only [firstPlan, List.mem_cons, List.not_mem_nil, or_false] at ha
    have hnow : now.IsNear := by decide
    rcases ha with rfl | rfl | rfl
    · exact ⟨hnow, fun _ _ hr => by cases hr; rfl⟩
    · exact ⟨hnow, fun _ _ hr => by cases hr⟩
    · exact ⟨hnow, fun _ _ hr => by cases hr⟩
  · exact Tracker.propose_maintain_eq_overflow (c := now) (by decide) (by decide) (by decide) (by decide)
  · exact ⟨_, MaintenanceLoop.isNear_recovery policy,
      MaintenanceLoop.running_recovery (by decide) (.ofSeconds 30) storage (.ofLists [] []) 0⟩

end Settings

end CompactionLeasing

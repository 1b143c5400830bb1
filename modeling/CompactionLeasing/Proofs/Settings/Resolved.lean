import CompactionLeasing.Proofs.Settings.Usable
import CompactionLeasing.Proofs.SpanText

/-!
# Which settings are accepted

Settings are accepted exactly if every string that should be a span denotes one, only the wait after a boundary may be
empty, and the delays are in order. Then the spans are those that the strings denote (`Settings.accepted_iff`).
-/

namespace CompactionLeasing

namespace Settings
variable {s : Settings} {r : ResolvedSettings} {name text : String} {d : Span}

/-- The text denotes a span that is not empty. -/
def IsProper (text : String) : Prop := ∃ d, Span.Denotes text d ∧ 0 < d.nanos

/-- What settings say, word by word: each span is the one that its string denotes, and the rest is taken over. -/
structure Says (s : Settings) (r : ResolvedSettings) : Prop where
  leaseSpan : Span.Denotes s.scheduling.leaseSpan r.maintenance.leaseSpan
  planInterval : Span.Denotes s.scheduling.planInterval r.maintenance.planInterval
  planDelay : Span.Denotes s.scheduling.planDelay r.maintenance.planDelay
  maintenanceInterval : Span.Denotes s.scheduling.maintenanceInterval r.maintenanceInterval
  discoveryInterval : Span.Denotes s.discovery.interval r.discoveryInterval
  shortest : Span.Denotes s.discovery.shortestBackoff r.backoff.shortest
  longest : Span.Denotes s.discovery.longestBackoff r.backoff.longest
  maxRetries : r.backoff.maxRetries = s.discovery.maxRetries
  maxLeases : r.maxLeases = s.scheduling.maxLeases
  admission : r.admission = .ofLists s.discovery.enabled s.discovery.disabled
  bucket : r.bucket = s.discovery.bucket
  dataDir : r.dataDir = s.storage.dataDir

/-- No span is empty that must not be, and no delay is longer than the longest one. -/
structure IsUsable (r : ResolvedSettings) : Prop where
  leaseSpan : 0 < r.maintenance.leaseSpan.nanos
  planInterval : 0 < r.maintenance.planInterval.nanos
  maintenanceInterval : 0 < r.maintenanceInterval.nanos
  discoveryInterval : 0 < r.discoveryInterval.nanos
  shortest : 0 < r.backoff.shortest.nanos
  longest : 0 < r.backoff.longest.nanos
  order : r.backoff.shortest ≤ r.backoff.longest

/-! ### Fields -/

theorem span_eq_ok : span name text = .ok d ↔ Span.Denotes text d := by
  rw [← Span.ofText_eq_ok, span]
  cases Span.ofText text <;> simp

theorem properSpan_eq_ok : properSpan name text = .ok d ↔ Span.Denotes text d ∧ 0 < d.nanos := by
  constructor
  · intro h
    refine ⟨?_, pos_of_properSpan h⟩
    obtain ⟨d', hd', h⟩ := ok_of_bind h
    split at h
    · cases h
    · cases h
      exact span_eq_ok.1 hd'
  · rintro ⟨h, hpos⟩
    have hz : d.isZero = false := by simpa [Span.isZero] using Nat.pos_iff_ne_zero.1 hpos
    rw [properSpan, span_eq_ok.2 h]
    simp [bind, Except.bind, hz, pure, Except.pure]

/-! ### Sections -/

theorem maintenance_eq_ok {sched : SchedulingSettings} {policy : MaintenancePolicy} :
    maintenance sched = .ok policy ↔
      (Span.Denotes sched.leaseSpan policy.leaseSpan ∧ 0 < policy.leaseSpan.nanos) ∧
      (Span.Denotes sched.planInterval policy.planInterval ∧ 0 < policy.planInterval.nanos) ∧
      Span.Denotes sched.planDelay policy.planDelay := by
  constructor
  · intro h
    obtain ⟨lease, hlease, h⟩ := ok_of_bind h
    obtain ⟨interval, hinterval, h⟩ := ok_of_bind h
    obtain ⟨delay, hdelay, h⟩ := ok_of_bind h
    cases h
    exact ⟨properSpan_eq_ok.1 hlease, properSpan_eq_ok.1 hinterval, span_eq_ok.1 hdelay⟩
  · rintro ⟨hlease, hinterval, hdelay⟩
    rw [maintenance, properSpan_eq_ok.2 hlease, properSpan_eq_ok.2 hinterval, span_eq_ok.2 hdelay]
    rfl

theorem backoff_eq_ok {disc : DiscoverySettings} {policy : BackoffPolicy} :
    backoff disc = .ok policy ↔
      (Span.Denotes disc.shortestBackoff policy.shortest ∧ 0 < policy.shortest.nanos) ∧
      (Span.Denotes disc.longestBackoff policy.longest ∧ 0 < policy.longest.nanos) ∧
      policy.shortest ≤ policy.longest ∧ policy.maxRetries = disc.maxRetries := by
  have hle : ∀ a b : Span, a ≤ b ↔ ¬ b < a := fun a b => Nat.not_lt.symm
  constructor
  · intro h
    obtain ⟨shortest, hshortest, h⟩ := ok_of_bind h
    obtain ⟨longest, hlongest, h⟩ := ok_of_bind h
    split at h
    · cases h
    · rename_i horder
      cases h
      exact ⟨properSpan_eq_ok.1 hshortest, properSpan_eq_ok.1 hlongest, (hle ..).2 horder, rfl⟩
  · rintro ⟨hshortest, hlongest, horder, hretries⟩
    rw [backoff, properSpan_eq_ok.2 hshortest, properSpan_eq_ok.2 hlongest]
    simp only [bind, Except.bind, (hle ..).1 horder, if_false, ← hretries]
    rfl

theorem resolve_eq_ok : s.resolve = .ok r ↔ s.Says r ∧ IsUsable r := by
  constructor
  · intro h
    obtain ⟨policy, hpolicy, h⟩ := ok_of_bind h
    obtain ⟨delays, hdelays, h⟩ := ok_of_bind h
    obtain ⟨every, hevery, h⟩ := ok_of_bind h
    obtain ⟨interval, hinterval, h⟩ := ok_of_bind h
    cases h
    obtain ⟨⟨hlease, hlease'⟩, ⟨hplan, hplan'⟩, hdelay⟩ := maintenance_eq_ok.1 hpolicy
    obtain ⟨⟨hshortest, hshortest'⟩, ⟨hlongest, hlongest'⟩, horder, hretries⟩ := backoff_eq_ok.1 hdelays
    obtain ⟨hevery, hevery'⟩ := properSpan_eq_ok.1 hevery
    obtain ⟨hinterval, hinterval'⟩ := properSpan_eq_ok.1 hinterval
    exact ⟨⟨hlease, hplan, hdelay, hevery, hinterval, hshortest, hlongest, hretries, rfl, rfl, rfl, rfl⟩,
      ⟨hlease', hplan', hevery', hinterval', hshortest', hlongest', horder⟩⟩
  · rintro ⟨hs, hu⟩
    rw [resolve, maintenance_eq_ok.2 ⟨⟨hs.leaseSpan, hu.leaseSpan⟩, ⟨hs.planInterval, hu.planInterval⟩, hs.planDelay⟩,
      backoff_eq_ok.2 ⟨⟨hs.shortest, hu.shortest⟩, ⟨hs.longest, hu.longest⟩, hu.order, hs.maxRetries⟩,
      properSpan_eq_ok.2 ⟨hs.maintenanceInterval, hu.maintenanceInterval⟩,
      properSpan_eq_ok.2 ⟨hs.discoveryInterval, hu.discoveryInterval⟩]
    show Except.ok _ = Except.ok r
    rw [← hs.maxLeases, ← hs.admission, ← hs.bucket, ← hs.dataDir]

/-- A text is read as a span exactly if it denotes it, and it denotes one span at most, in one way. Settings are
accepted exactly if all seven strings denote spans, of which only the wait after a boundary may be empty, and the
shortest delay is not longer than the longest one; and then they say what they are resolved to. -/
theorem accepted_iff :
    (∀ text d, Span.ofText text = .ok d ↔ Span.Denotes text d) ∧
    (∀ text, (∃ err, Span.ofText text = .error err) ↔ ¬ ∃ d, Span.Denotes text d) ∧
    (∀ text n n', ∀ u ∈ Span.units, ∀ u' ∈ Span.units,
      Span.Spells text n u.1.toList → Span.Spells text n' u'.1.toList → n = n' ∧ u = u') ∧
    (∀ s : Settings, (∃ r, s.resolve = .ok r) ↔
      IsProper s.scheduling.leaseSpan ∧ IsProper s.scheduling.planInterval ∧
      (∃ d, Span.Denotes s.scheduling.planDelay d) ∧
      IsProper s.scheduling.maintenanceInterval ∧ IsProper s.discovery.interval ∧
      ∃ shortest longest, Span.Denotes s.discovery.shortestBackoff shortest ∧
        Span.Denotes s.discovery.longestBackoff longest ∧
        0 < shortest.nanos ∧ 0 < longest.nanos ∧ shortest ≤ longest) ∧
    ∀ (s : Settings) r, s.resolve = .ok r → s.Says r := by
  refine ⟨fun text d => Span.ofText_eq_ok, fun text => ?_, fun text n n' u hu u' hu' h h' => ?_, fun s => ?_,
    fun s r h => (resolve_eq_ok.1 h).1⟩
  · simp only [← Span.ofText_eq_ok]
    cases Span.ofText text <;> simp
  · obtain ⟨unit, rfl⟩ := Span.mem_units.1 hu
    obtain ⟨unit', rfl⟩ := Span.mem_units.1 hu'
    simp only [String.toList_ofList] at h h'
    obtain ⟨hn, rfl⟩ := h.unique h'
    exact ⟨hn, rfl⟩
  · constructor
    · rintro ⟨r, h⟩
      obtain ⟨hs, hu⟩ := resolve_eq_ok.1 h
      exact ⟨⟨_, hs.leaseSpan, hu.leaseSpan⟩, ⟨_, hs.planInterval, hu.planInterval⟩, ⟨_, hs.planDelay⟩,
        ⟨_, hs.maintenanceInterval, hu.maintenanceInterval⟩, ⟨_, hs.discoveryInterval, hu.discoveryInterval⟩,
        _, _, hs.shortest, hs.longest, hu.shortest, hu.longest, hu.order⟩
    · rintro ⟨⟨lease, hlease, hlease'⟩, ⟨interval, hinterval, hinterval'⟩, ⟨delay, hdelay⟩, ⟨every, hevery, hevery'⟩,
        ⟨pass, hpass, hpass'⟩, shortest, longest, hshortest, hlongest, hshortest', hlongest', horder⟩
      exact ⟨⟨⟨lease, interval, delay⟩, every, s.scheduling.maxLeases, pass,
          ⟨shortest, longest, s.discovery.maxRetries⟩, .ofLists s.discovery.enabled s.discovery.disabled,
          s.discovery.bucket, s.storage.dataDir⟩,
        resolve_eq_ok.2 ⟨⟨hlease, hinterval, hdelay, hevery, hpass, hshortest, hlongest, rfl, rfl, rfl, rfl, rfl⟩,
          ⟨hlease', hinterval', hevery', hpass', hshortest', hlongest', horder⟩⟩⟩

end Settings

end CompactionLeasing

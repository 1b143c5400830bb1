import CompactionLeasing.Loops.Discovery
import CompactionLeasing.Proofs.Backoff
import Mathlib.Data.List.Basic
import Mathlib.Data.List.Induction

/-!
# The first passes of discovery

Passes are made until one succeeds, no retry is left, or shutdown is seen. `DiscoveryRun.Starting` lists how such a
run can go, whatever the bucket lists and whenever shutdown is seen, with the time of every pass.
-/

namespace CompactionLeasing

/-! ### Delays -/

namespace BackoffPolicy
variable {p : BackoffPolicy}

/-- Behind every pass that there can be, twice the delay is a span. -/
def Doubles (p : BackoffPolicy) : Prop := ∀ n, p.Permits n → (p.delay n).twice?.isSome

/-- When the loop acts that has waited behind `n` failed passes. -/
def due (p : BackoffPolicy) : Nat → Tick
  | 0 => 0
  | n + 1 => p.due n + (p.delay n).ticks

theorem Doubles.of_longest (h : p.longest.twice?.isSome) : p.Doubles := fun n _ => by
  have hle := Span.le_iff.1 (p.delay_le_longest n)
  rw [Span.isSome_twice?] at h ⊢
  omega

end BackoffPolicy

/-! ### Events -/

/-- What a run of the discovery loop meets next. -/
inductive DiscoveryEvent where
  /-- The loop acts; this is what the bucket then lists, if it is asked. -/
  | turn (now : Instant) (listing : Except String (List TenantId))
  /-- Shutdown is seen, before the loop acts again. -/
  | shutdown (t : Tick)

/-- Passes that fail, one after the other. -/
def DiscoveryEvent.failing (causes : List (Instant × String)) : List DiscoveryEvent :=
  causes.map fun c => .turn c.1 (.error c.2)

namespace DiscoveryCourse

/-- The turns of a run, with the first listings of its course. -/
def turns (course : DiscoveryCourse) (n : Nat) : List DiscoveryEvent :=
  (List.range n).map fun i => .turn course.now (course.listing i)

theorem length_turns (course : DiscoveryCourse) (n : Nat) : (course.turns n).length = n := by
  simp [turns]

theorem turns_succ (course : DiscoveryCourse) (n : Nat) :
    course.turns (n + 1) = course.turns n ++ [.turn course.now (course.listing n)] := by
  simp [turns, List.range_succ]

end DiscoveryCourse

namespace DiscoveryRun
open DiscoveryEvent (failing)
variable {plan : DiscoveryPlan} {course : DiscoveryCourse} {p : BackoffPolicy} {s : Scheduler}
  {r : DiscoveryRun} {events : List DiscoveryEvent}

/-- A step of the run, without the choice between shutdown and a turn. -/
def meet (plan : DiscoveryPlan) (r : DiscoveryRun) (e : DiscoveryEvent) : DiscoveryRun :=
  if r.ended.isSome then r
  else
    match e with
    | .turn now listing =>
      let (loop, scheduler) := r.loop.act plan now listing r.scheduler
      { loop := loop
        scheduler := scheduler
        listed := if r.loop.makesPass then r.listed ++ [r.loop.due] else r.listed
        ended :=
          match loop.phase with
          | .ended _ => some r.loop.due
          | _ => none }
    | .shutdown t => { r with loop := r.loop.interrupt, ended := some t }

/-- The run that waits behind passes that all failed. -/
def waiting (p : BackoffPolicy) (s : Scheduler) (causes : List (Instant × String)) : DiscoveryRun :=
  ⟨⟨.starting ((Backoff.start p).after causes.length) (causes.getLast?.map fun c => .unlisted c.2),
      p.due causes.length⟩,
    s, (List.range causes.length).map p.due, none⟩

/-- How the run goes that ends with the first pass that succeeds. -/
inductive Starting (p : BackoffPolicy) (s : Scheduler) : List DiscoveryEvent → DiscoveryRun → Prop
  /-- All passes failed so far, and the loop waits. -/
  | waiting (causes : List (Instant × String)) (h : ∀ n < causes.length, p.Permits n) :
    Starting p s (failing causes) (.waiting p s causes)
  /-- The first pass that can list the bucket, and may be made, is the last one. -/
  | done (causes : List (Instant × String)) (h : p.Permits causes.length) (now : Instant) (tenants : List TenantId)
      (rest : List DiscoveryEvent) :
    Starting p s (failing causes ++ .turn now (.ok tenants) :: rest)
      ⟨⟨.ended (.done ()), p.due causes.length⟩,
        s.reconcile now tenants, (List.range (causes.length + 1)).map p.due, some (p.due causes.length)⟩
  /-- As many passes failed as are allowed. After one more delay the run ends with the error of the last one, and what
  the bucket would list does not matter. -/
  | exhausted (causes : List (Instant × String)) (last : Instant × String) (hlimit : p.maxRetries ≠ 0)
      (h : causes.length + 1 = p.maxRetries.toNat) (now : Instant) (listing : Except String (List TenantId))
      (rest : List DiscoveryEvent) :
    Starting p s (failing (causes ++ [last]) ++ .turn now listing :: rest)
      ⟨⟨.ended (.failed (.unlisted last.2)), p.due (causes.length + 1)⟩,
        s, (List.range (causes.length + 1)).map p.due, some (p.due (causes.length + 1))⟩
  /-- Shutdown is seen behind passes that failed, or before the first one. -/
  | shutdown (causes : List (Instant × String)) (h : ∀ n < causes.length, p.Permits n) (t : Tick)
      (rest : List DiscoveryEvent) :
    Starting p s (failing causes ++ .shutdown t :: rest)
      ⟨⟨.ended (.failed .shutdown), p.due causes.length⟩, s, (List.range causes.length).map p.due, some t⟩

/-! ### Runs -/

section
variable {causes : List (Instant × String)}

theorem listed_succ (p : BackoffPolicy) (n : Nat) :
    (List.range n).map p.due ++ [p.due n] = (List.range (n + 1)).map p.due := by
  rw [List.range_succ, List.map_append]
  rfl

theorem meet_ok (honce : plan.once = true) (h : p.Permits causes.length) (now : Instant) (tenants : List TenantId) :
    (waiting p s causes).meet plan (.turn now (.ok tenants)) =
      ⟨⟨.ended (.done ()), p.due causes.length⟩,
        s.reconcile now tenants, (List.range (causes.length + 1)).map p.due, some (p.due causes.length)⟩ := by
  have hpass := (Backoff.ongoing_after p causes.length).2 h
  simp [meet, waiting, DiscoveryLoop.act, DiscoveryLoop.makesPass, DiscoveryLoop.afterPass, DiscoveryLoop.finish,
    Scheduler.discover, hpass, honce, listed_succ]

theorem meet_error (hdouble : p.Doubles) (h : p.Permits causes.length) (now : Instant) (cause : String) :
    (waiting p s causes).meet plan (.turn now (.error cause)) = waiting p s (causes ++ [(now, cause)]) := by
  have hpass := (Backoff.ongoing_after p causes.length).2 h
  have hnext := Backoff.next_after_start (n := causes.length) fun i hi => hdouble i (h.mono hi)
  simp [meet, waiting, DiscoveryLoop.act, DiscoveryLoop.makesPass, DiscoveryLoop.afterPass, Scheduler.discover, hpass,
    hnext, listed_succ, BackoffPolicy.due]

theorem meet_exhausted {last : Instant × String} (h : ¬ p.Permits (causes.length + 1)) (now : Instant)
    (listing : Except String (List TenantId)) :
    (waiting p s (causes ++ [last])).meet plan (.turn now listing) =
      ⟨⟨.ended (.failed (.unlisted last.2)), p.due (causes.length + 1)⟩,
        s, (List.range (causes.length + 1)).map p.due, some (p.due (causes.length + 1))⟩ := by
  have hstop : ((Backoff.start p).after (causes.length + 1)).ongoing = false :=
    Bool.eq_false_iff.2 fun hpass => h ((Backoff.ongoing_after p _).1 hpass)
  simp [meet, waiting, DiscoveryLoop.act, DiscoveryLoop.makesPass, DiscoveryLoop.finish, hstop]

end

namespace Starting

theorem failing_append (causes : List (Instant × String)) (c : Instant × String) :
    failing (causes ++ [c]) = failing causes ++ [.turn c.1 (.error c.2)] :=
  List.map_append

/-- What the next event does to a run that waits. -/
theorem meet_waiting (honce : plan.once = true) (hdouble : p.Doubles) (causes : List (Instant × String))
    (h : ∀ n < causes.length, p.Permits n) (e : DiscoveryEvent) :
    Starting p s (failing causes ++ [e]) ((DiscoveryRun.waiting p s causes).meet plan e) := by
  cases e with
  | shutdown t => exact .shutdown causes h t []
  | turn now listing =>
    by_cases hpermits : p.Permits causes.length
    · cases listing with
      | ok tenants =>
        rw [meet_ok honce hpermits]
        exact .done causes hpermits now tenants []
      | error cause =>
        rw [meet_error hdouble hpermits, ← failing_append causes (now, cause)]
        exact .waiting _ fun n hn => hpermits.mono (Nat.le_of_lt_succ (by simpa using hn))
    · obtain ⟨hlimit, hle⟩ := not_or.1 hpermits
      rcases List.eq_nil_or_concat' causes with rfl | ⟨before, last, rfl⟩
      · exact absurd (UInt32.toNat_inj.1 (Nat.eq_zero_of_not_pos hle)) hlimit
      · rw [List.length_append, List.length_singleton] at hpermits hle h
        have hlast := (h before.length (Nat.lt_succ_self _)).resolve_left hlimit
        rw [meet_exhausted hpermits]
        exact .exhausted before last hlimit (by omega) now listing []

theorem step (honce : plan.once = true) (hdouble : p.Doubles) (h : Starting p s events r) (e : DiscoveryEvent) :
    Starting p s (events ++ [e]) (r.meet plan e) := by
  cases h with
  | waiting causes h => exact meet_waiting honce hdouble causes h e
  | done causes h now tenants rest =>
    rw [List.append_assoc]
    exact .done causes h now tenants (rest ++ [e])
  | exhausted causes last hlimit h now listing rest =>
    rw [List.append_assoc]
    exact .exhausted causes last hlimit h now listing (rest ++ [e])
  | shutdown causes h t rest =>
    rw [List.append_assoc]
    exact .shutdown causes h t (rest ++ [e])

theorem foldl (honce : plan.once = true) (hdouble : plan.backoff.Doubles) (s : Scheduler)
    (events : List DiscoveryEvent) :
    Starting plan.backoff s events (events.foldl (meet plan) (start plan s false)) := by
  induction events using List.reverseRecOn with
  | nil => exact .waiting [] fun _ hn => absurd hn (Nat.not_lt_zero _)
  | append_singleton events e ih =>
    rw [List.foldl_append]
    exact ih.step honce hdouble e

/-- A run that has not ended waits, behind as many passes as it met events. -/
theorem eq_waiting (h : Starting p s events r) (hended : r.ended = none) :
    r.loop.due = p.due events.length ∧ r.listed.length = events.length ∧ (∀ i < events.length, p.Permits i) ∧
      ∃ causes, events = failing causes := by
  cases h with
  | waiting causes h =>
    have hlength : (failing causes).length = causes.length := List.length_map ..
    rw [hlength]
    exact ⟨rfl, by simp [DiscoveryRun.waiting], h, causes, rfl⟩
  | done => cases hended
  | exhausted => cases hended
  | shutdown => cases hended

theorem length_listed_le (h : Starting p s events r) (hlimit : p.maxRetries ≠ 0) :
    r.listed.length ≤ p.maxRetries.toNat := by
  have hle : ∀ n, (∀ i < n, p.Permits i) → n ≤ p.maxRetries.toNat := by
    intro n hn
    cases n with
    | zero => exact Nat.zero_le _
    | succ n => exact (hn n (Nat.lt_succ_self n)).resolve_left hlimit
  cases h with
  | waiting causes h => simpa [DiscoveryRun.waiting] using hle _ h
  | done causes h => simpa [Nat.succ_le_iff] using h.resolve_left hlimit
  | exhausted causes last _ h => simpa using Nat.le_of_eq h
  | shutdown causes h => simpa using hle _ h

theorem verdict_of_unlimited (h : Starting p s events r) (hlimit : p.maxRetries = 0)
    {verdict : Verdict DiscoveryError Unit} (hended : r.loop.phase = .ended verdict) :
    verdict = .done () ∨ verdict = .failed .shutdown := by
  cases h with
  | waiting => cases hended
  | done => cases hended; exact .inl rfl
  | exhausted _ _ hne => exact absurd hlimit hne
  | shutdown => cases hended; exact .inr rfl

/-- Only the pass that succeeds has an effect. -/
theorem scheduler_eq (h : Starting p s events r) (hne : r.loop.phase ≠ .ended (.done ())) : r.scheduler = s := by
  cases h with
  | done => exact absurd rfl hne
  | waiting | exhausted | shutdown => rfl

end Starting

/-! ### Courses -/

theorem run_succ (plan : DiscoveryPlan) (course : DiscoveryCourse) (n : Nat) (r : DiscoveryRun) :
    run plan course (n + 1) r =
      if (run plan course n r).ended.isSome then run plan course n r else (run plan course n r).step plan course := by
  induction n generalizing r with
  | zero => rfl
  | succ n ih =>
    by_cases h : r.ended.isSome
    · have hrun : ∀ n, run plan course n r = r := by
        intro n
        cases n with
        | zero => rfl
        | succ n => exact if_pos h
      rw [hrun, hrun, if_pos h]
    · have hrun : ∀ n, run plan course (n + 1) r = run plan course n (r.step plan course) := fun n => if_neg h
      rw [hrun, ih, hrun]

theorem step_eq_meet (h : r.ended = none) : r.step plan course =
    r.meet plan (((course.shutdownTick.filter (· < r.loop.due)).map DiscoveryEvent.shutdown).getD
      (.turn course.now (course.listing r.listed.length))) := by
  unfold step meet
  rw [h]
  cases course.shutdownTick.filter (· < r.loop.due) <;> rfl

/-- A run meets turns with the listings of its course, one after the other, and then shutdown, if that is signalled
before the loop acts again. -/
theorem run_eq_foldl (honce : plan.once = true) (hdouble : plan.backoff.Doubles) (s : Scheduler)
    (course : DiscoveryCourse) (n : Nat) :
    ∃ m ≤ n, ∃ stop : Option Tick,
      run plan course n (start plan s false) =
          (course.turns m ++ (stop.map DiscoveryEvent.shutdown).toList).foldl (meet plan) (start plan s false) ∧
        (∀ t ∈ course.shutdownTick, ∀ i < m, plan.backoff.due i ≤ t) ∧
        (∀ t ∈ stop, t ∈ course.shutdownTick ∧ t < plan.backoff.due m) ∧
        ((run plan course n (start plan s false)).ended = none → m = n ∧ stop = none) := by
  induction n with
  | zero => exact ⟨0, Nat.le_refl 0, none, rfl, by simp, by simp, fun _ => ⟨rfl, rfl⟩⟩
  | succ n ih =>
    obtain ⟨m, hle, stop, hrun, htimes, hstop, hmet⟩ := ih
    rw [run_succ]
    split_ifs with hended
    · exact ⟨m, Nat.le_succ_of_le hle, stop, hrun, htimes, hstop, fun h => by simp [h] at hended⟩
    · have hnone := Option.not_isSome_iff_eq_none.1 hended
      obtain ⟨rfl, rfl⟩ := hmet hnone
      simp only [Option.map_none, Option.toList_none, List.append_nil] at hrun
      have hwaiting := Starting.foldl honce hdouble s (course.turns m)
      rw [← hrun] at hwaiting
      obtain ⟨hdue, hlisted, -⟩ := hwaiting.eq_waiting hnone
      rw [DiscoveryCourse.length_turns] at hdue hlisted
      rw [step_eq_meet hnone, hdue, hlisted]
      cases hfilter : course.shutdownTick.filter (· < plan.backoff.due m) with
      | some t =>
        obtain ⟨ht, hlt⟩ := Option.filter_eq_some_iff.1 hfilter
        refine ⟨m, Nat.le_succ m, some t, ?_, htimes, ?_, ?_⟩
        · rw [List.foldl_append, hrun]
          rfl
        · intro t' ht'
          cases ht'
          exact ⟨ht, of_decide_eq_true hlt⟩
        · intro h
          simp [meet, hnone] at h
      | none =>
        have hlate : ∀ t ∈ course.shutdownTick, plan.backoff.due m ≤ t := by
          intro t ht
          simpa using Option.filter_eq_none_iff.1 hfilter t ht
        refine ⟨m + 1, Nat.le_refl _, none, ?_, ?_, by simp, fun _ => ⟨rfl, rfl⟩⟩
        · rw [DiscoveryCourse.turns_succ, Option.map_none, Option.toList_none, List.append_nil, List.foldl_append, hrun]
          rfl
        · intro t ht i hi
          rcases Nat.lt_succ_iff_lt_or_eq.1 hi with hi | rfl
          · exact htimes t ht i hi
          · exact hlate t ht

/-- Delays that are not empty take time. -/
theorem le_due (hshortest : 0 < p.shortest.nanos) (hlongest : 0 < p.longest.nanos) (n : Nat) : n ≤ p.due n := by
  induction n with
  | zero => exact Nat.zero_le _
  | succ n ih =>
    have hdelay : 0 < (p.delay n).nanos := Nat.lt_min.2 ⟨Nat.mul_pos hshortest (Nat.pow_pos (by decide)), hlongest⟩
    have hticks : 0 < (p.delay n).ticks := by
      have := Tick.le_ofNanos (p.delay n).nanos
      exact Nat.lt_min.2 ⟨by omega, by decide⟩
    rw [BackoffPolicy.due]
    omega

/-- The number of steps that is allowed for suffices wherever there is an end. -/
theorem ended_complete (honce : plan.once = true) (hdouble : plan.backoff.Doubles) (s : Scheduler)
    (course : DiscoveryCourse)
    (h : plan.backoff.maxRetries ≠ 0 ∨ (∃ n tenants, course.listing n = .ok tenants) ∨
      course.shutdown.isSome ∧ 0 < plan.backoff.shortest.nanos ∧ 0 < plan.backoff.longest.nanos) :
    (complete plan course s false).ended.isSome := by
  rw [Option.isSome_iff_ne_none]
  intro hnone
  obtain ⟨m, -, stop, hrun, htimes, -, hmet⟩ := run_eq_foldl honce hdouble s course (bound plan course)
  obtain ⟨rfl, rfl⟩ := hmet hnone
  simp only [Option.map_none, Option.toList_none, List.append_nil] at hrun
  have hwaiting := Starting.foldl honce hdouble s (course.turns (bound plan course))
  rw [← hrun] at hwaiting
  obtain ⟨-, -, hpermits, causes, hcauses⟩ := hwaiting.eq_waiting hnone
  rw [DiscoveryCourse.length_turns] at hpermits
  rcases h with hlimit | ⟨n, tenants, hok⟩ | ⟨hshutdown, hshortest, hlongest⟩
  · have hlast := (hpermits plan.backoff.maxRetries.toNat (by unfold bound; omega)).resolve_left hlimit
    exact Nat.lt_irrefl _ hlast
  · -- Behind the listings that are given the last one repeats.
    have hfirst : ∃ i ≤ course.listings.length, course.listing i = .ok tenants := by
      by_cases hn : n ≤ course.listings.length
      · exact ⟨n, hn, hok⟩
      · refine ⟨_, Nat.le_refl _, ?_⟩
        rw [← hok, DiscoveryCourse.listing, DiscoveryCourse.listing, List.getElem?_eq_none (by omega),
          List.getElem?_eq_none (by omega)]
    obtain ⟨i, hi, hok⟩ := hfirst
    have hturn : DiscoveryEvent.turn course.now (course.listing i) ∈ failing causes :=
      hcauses ▸ List.mem_map_of_mem (List.mem_range.2 (by unfold bound; omega))
    obtain ⟨c, -, hc⟩ := List.mem_map.1 hturn
    rw [hok] at hc
    exact nomatch (DiscoveryEvent.turn.inj hc).2
  · obtain ⟨t, ht⟩ := Option.isSome_iff_exists.1 hshutdown
    have hlate := htimes (Tick.wait t) (by simp [DiscoveryCourse.shutdownTick, ht]) (t + 1)
      (by simp [bound, ht]; omega)
    have hdue := le_due hshortest hlongest (t + 1)
    exact Nat.lt_irrefl t (Nat.le_trans (Nat.le_trans hdue hlate) (Nat.min_le_left ..))

/-- Passes are made until the first one succeeds, no retry is left, or shutdown is seen; how the run then goes is given
by the events that it meets. A pass that fails is followed by a timer for twice the delay of the one before, up to the
longest one, and has no other effect. In time a run meets what the bucket lists, turn after turn, and shutdown as soon
as it is signalled. Where there is an end, the run comes to it. -/
theorem starts_up (plan : DiscoveryPlan) (honce : plan.once = true) (hdouble : plan.backoff.Doubles) (s : Scheduler) :
    (∀ events : List DiscoveryEvent,
      let r := events.foldl (meet plan) (start plan s false)
      Starting plan.backoff s events r ∧
        (plan.backoff.maxRetries ≠ 0 → r.listed.length ≤ plan.backoff.maxRetries.toNat) ∧
        (plan.backoff.maxRetries = 0 → ∀ verdict, r.loop.phase = .ended verdict →
          verdict = .done () ∨ verdict = .failed .shutdown) ∧
        (r.loop.phase ≠ .ended (.done ()) → r.scheduler = s)) ∧
    (∀ (course : DiscoveryCourse) (n : Nat), ∃ m ≤ n, ∃ stop : Option Tick,
      run plan course n (start plan s false) =
          (course.turns m ++ (stop.map DiscoveryEvent.shutdown).toList).foldl (meet plan) (start plan s false) ∧
        (∀ t ∈ course.shutdownTick, ∀ i < m, plan.backoff.due i ≤ t) ∧
        (∀ t ∈ stop, t ∈ course.shutdownTick ∧ t < plan.backoff.due m)) ∧
    (∀ (course : DiscoveryCourse) (n : Nat), run plan course n (start plan s true) =
      ⟨⟨.ended (.failed .shutdown), 0⟩, s, [], some 0⟩) ∧
    ∀ course : DiscoveryCourse,
      (plan.backoff.maxRetries ≠ 0 ∨ (∃ n tenants, course.listing n = .ok tenants) ∨
        course.shutdown.isSome ∧ 0 < plan.backoff.shortest.nanos ∧ 0 < plan.backoff.longest.nanos) →
      (complete plan course s false).ended.isSome := by
  refine ⟨fun events => ?_, fun course n => ?_, fun course n => ?_, ended_complete honce hdouble s⟩
  · have h := Starting.foldl honce hdouble s events
    exact ⟨h, h.length_listed_le, fun hlimit _ => h.verdict_of_unlimited hlimit, h.scheduler_eq⟩
  · obtain ⟨m, hle, stop, hrun, htimes, hstop, -⟩ := run_eq_foldl honce hdouble s course n
    exact ⟨m, hle, stop, hrun, htimes, hstop⟩
  · cases n with
    | zero => rfl
    | succ n => rfl

/-- Three passes are allowed and fail. The run waits once more, and ends with the error of the third one. -/
theorem starts_up_exhausted :
    let plan : DiscoveryPlan := ⟨⟨.ofSeconds 1, .ofSeconds 60, 3⟩, .ofSeconds 300, true⟩
    let s := Scheduler.start ⟨.empty, .none⟩ .all 0
    let events : List DiscoveryEvent :=
      [.turn .epoch (.error "x"), .turn .epoch (.error "y"), .turn .epoch (.error "z"), .turn .epoch (.ok ["a"])]
    let r := events.foldl (meet plan) (start plan s false)
    plan.once = true ∧ plan.backoff.Doubles ∧ r.loop.phase = .ended (.failed (.unlisted "z")) ∧
      r.listed = [0, 1000, 3000] ∧ r.ended = some 7000 ∧ Starting plan.backoff s events r := by
  intro plan s events r
  have hdouble : plan.backoff.Doubles := .of_longest (by decide)
  exact ⟨rfl, hdouble, by decide +kernel, by decide +kernel, by decide +kernel,
    ((starts_up plan rfl hdouble s).1 events).1⟩

/-- A delay of ten thousand million seconds can be doubled, but no timer waits for so long: the second pass is made
after thirty years, and not after the delay. -/
theorem longest_wait :
    let plan : DiscoveryPlan := ⟨⟨.ofSeconds 10000000000, .ofSeconds 10000000000, 2⟩, .ofSeconds 300, true⟩
    let r := complete plan ⟨[.error "e"], none, .epoch⟩ (.start ⟨.empty, .none⟩ .all 0) false
    plan.backoff.Doubles ∧ (plan.backoff.delay 0).nanos = 10000000000000 * 1000000 ∧ r.listed = [0, 946080000000] ∧
      r.listed ≠ [0, (plan.backoff.delay 0).nanos / 1000000] := by
  intro plan r
  exact ⟨.of_longest (by decide), by decide, by decide +kernel, by decide +kernel⟩

end DiscoveryRun

end CompactionLeasing

import CompactionLeasing.Backoff
import Mathlib.Algebra.Group.Nat.Defs
import Mathlib.Data.Nat.Find
import Mathlib.Tactic.SplitIfs

/-!
# Delays in closed form

`Backoff.delays_double` gives every delay by its number, under every policy: the first one is doubled as often as
there were delays before, up to the longest one. From the first delay that cannot be doubled on there are none. Retries
are counted all the same.
-/

namespace CompactionLeasing

theorem Span.isSome_twice? (a : Span) : a.twice?.isSome ↔ 2 * a.nanos < 0x10000000000000000 * 1000000000 := by
  unfold twice? ofNanos?
  split_ifs with h
  · exact iff_of_true rfl (by omega)
  · exact iff_of_false Bool.false_ne_true (by omega)

theorem Span.nanos_of_twice? {a d : Span} (h : a.twice? = some d) : d.nanos = a.nanos * 2 := nanos_of_ofNanos? h

namespace BackoffPolicy
variable {p : BackoffPolicy} {m n : Nat}

/-- The delay that `n` others go before. -/
def delay (p : BackoffPolicy) (n : Nat) : Span :=
  ⟨min (p.shortest.nanos * 2 ^ n) p.longest.nanos, Nat.lt_of_le_of_lt (Nat.min_le_right ..) p.longest.nanos_lt⟩

/-- Whether there is a retry behind `n` others. -/
def Permits (p : BackoffPolicy) (n : Nat) : Prop := p.maxRetries = 0 ∨ n < p.maxRetries.toNat

theorem Permits.mono (h : p.Permits n) (hle : m ≤ n) : p.Permits m :=
  h.imp_right (Nat.lt_of_le_of_lt hle)

theorem delay_le_longest (p : BackoffPolicy) (n : Nat) : p.delay n ≤ p.longest := Nat.min_le_right ..

theorem delay_mono (p : BackoffPolicy) (h : m ≤ n) : p.delay m ≤ p.delay n := by
  have hpow : p.shortest.nanos * 2 ^ m ≤ p.shortest.nanos * 2 ^ n :=
    Nat.mul_le_mul_left _ (Nat.pow_le_pow_right (by decide) h)
  exact Nat.le_min.2 ⟨Nat.le_trans (Nat.min_le_left ..) hpow, Nat.min_le_right ..⟩

/-- Before a delay that can be doubled, all can be. -/
theorem isSome_twice?_mono (hle : m ≤ n) (h : (p.delay n).twice?.isSome) : (p.delay m).twice?.isSome := by
  have hmono := Span.le_iff.1 (p.delay_mono hle)
  rw [Span.isSome_twice?] at h ⊢
  omega

end BackoffPolicy

namespace Backoff
variable {b : Backoff} {p : BackoffPolicy} {d : Span} {m n : Nat}

/-- After `n` delays were asked for. -/
def after (b : Backoff) : Nat → Backoff
  | 0 => b
  | n + 1 => (b.after n).next.2

/-! ### One delay -/

theorem fst_next (b : Backoff) : b.next.1 = b.upcoming.twice?.map fun _ => b.upcoming := by
  unfold next
  cases b.upcoming.twice? <;> rfl

theorem policy_next (b : Backoff) : b.next.2.policy = b.policy := by
  unfold next
  cases b.upcoming.twice? <;> rfl

/-- A retry counts whether or not there is a delay for it. -/
theorem retries_next (b : Backoff) :
    b.next.2.retries = if b.retries = 0xffffffff then b.retries else b.retries + 1 := by
  unfold next
  cases b.upcoming.twice? <;> rfl

theorem upcoming_next (h : b.upcoming.twice? = some d) :
    b.next.2.upcoming.nanos = min (b.upcoming.nanos * 2) b.policy.longest.nanos := by
  unfold next
  rw [h]
  exact (Span.nanos_min ..).trans (by rw [Span.nanos_of_twice? h])

theorem upcoming_next_of_none (h : b.upcoming.twice? = none) : b.next.2.upcoming = b.upcoming := by
  unfold next
  rw [h]

/-! ### Retries -/

theorem policy_after (b : Backoff) (n : Nat) : (b.after n).policy = b.policy := by
  induction n with
  | zero => rfl
  | succ n ih => exact (policy_next _).trans ih

theorem retries_after (p : BackoffPolicy) (n : Nat) : ((start p).after n).retries.toNat = min n 0xffffffff := by
  induction n with
  | zero => exact (Nat.zero_min _).symm
  | succ n ih =>
    rw [after, retries_next]
    split_ifs with h
    · rw [h] at ih
      rw [h]
      have hmax : (0xffffffff : UInt32).toNat = 0xffffffff := rfl
      omega
    · have hne : ((start p).after n).retries.toNat ≠ 0xffffffff := fun heq => h (UInt32.toNat_inj.1 heq)
      rw [UInt32.toNat_add, ih]
      have hone : (1 : UInt32).toNat = 1 := rfl
      omega

/-- Retries are counted up to a bound that no limit exceeds. -/
theorem ongoing_after (p : BackoffPolicy) (n : Nat) : ((start p).after n).ongoing ↔ p.Permits n := by
  have hlt := p.maxRetries.toNat_lt
  rw [ongoing, policy_after, BackoffPolicy.Permits, Bool.or_eq_true, beq_iff_eq, decide_eq_true_iff,
    UInt32.lt_iff_toNat_lt, retries_after]
  refine or_congr_right ?_
  show _ < p.maxRetries.toNat ↔ _
  omega

/-! ### All delays -/

theorem upcoming_after_start (h : ∀ i < n, (p.delay i).twice?.isSome) : ((start p).after n).upcoming = p.delay n := by
  refine Span.ext_nanos ?_
  induction n with
  | zero => exact (Span.nanos_min ..).trans (by simp [BackoffPolicy.delay])
  | succ n ih =>
    have hn := Span.ext_nanos (ih fun i hi => h i (by omega))
    obtain ⟨d, hd⟩ := Option.isSome_iff_exists.1 (h n (by omega))
    rw [after, upcoming_next (d := d) (by rw [hn, hd]), hn, policy_after]
    show min (min (p.shortest.nanos * 2 ^ n) p.longest.nanos * 2) p.longest.nanos = min _ _
    rw [Nat.pow_succ, ← Nat.mul_assoc]
    omega

theorem next_after_start (h : ∀ i ≤ n, (p.delay i).twice?.isSome) :
    ((start p).after n).next = (some (p.delay n), (start p).after (n + 1)) := by
  have hupcoming := upcoming_after_start (n := n) fun i hi => h i (Nat.le_of_lt hi)
  obtain ⟨d, hd⟩ := Option.isSome_iff_exists.1 (h n (Nat.le_refl n))
  have hfirst : ((start p).after n).next.1 = some (p.delay n) := by
    rw [fst_next, hupcoming, hd]
    rfl
  exact Prod.ext hfirst rfl

/-- The first delay that cannot be doubled comes next from then on, and is never handed out. -/
theorem stuck_after (h : ∀ i < m, (p.delay i).twice?.isSome) (hnone : (p.delay m).twice? = none) (hle : m ≤ n) :
    ((start p).after n).upcoming = p.delay m ∧ ((start p).after n).next.1 = none := by
  have hupcoming : ((start p).after n).upcoming = p.delay m := by
    induction n, hle using Nat.le_induction with
    | base => exact upcoming_after_start h
    | succ n _ ih => exact (upcoming_next_of_none (by rw [ih, hnone])).trans ih
  refine ⟨hupcoming, ?_⟩
  rw [fst_next, hupcoming, hnone]
  rfl

/-- Whatever came of the retries before, there is a delay exactly if the one that stands in this place can be
doubled. -/
theorem fst_next_after (p : BackoffPolicy) (n : Nat) :
    ((start p).after n).next.1 = (p.delay n).twice?.map fun _ => p.delay n := by
  cases hd : (p.delay n).twice? with
  | some d =>
    have hsome : (p.delay n).twice?.isSome := by rw [hd]; rfl
    rw [next_after_start fun i hi => BackoffPolicy.isSome_twice?_mono hi hsome]
    rfl
  | none =>
    -- The first delay that cannot be doubled may stand before this place.
    have hfail : ∃ i, (p.delay i).twice? = none := ⟨n, hd⟩
    have hbefore : ∀ i < Nat.find hfail, (p.delay i).twice?.isSome := fun i hi =>
      Option.isSome_iff_ne_none.2 (Nat.find_min hfail hi)
    exact (stuck_after hbefore (Nat.find_spec hfail) (Nat.find_min' hfail hd)).2

theorem isSome_next_after (p : BackoffPolicy) (n : Nat) :
    ((start p).after n).next.1.isSome ↔ 2 * (p.delay n).nanos < 0x10000000000000000 * 1000000000 := by
  rw [fst_next_after, Option.isSome_map, Span.isSome_twice?]

theorem eq_delay_of_next (h : ((start p).after n).next.1 = some d) : d = p.delay n := by
  rw [fst_next_after] at h
  obtain ⟨-, -, rfl⟩ := Option.map_eq_some_iff.1 h
  rfl

/-- There is a delay for every retry exactly if twice the longest delay is a span. -/
theorem isSome_next_iff (hpos : 0 < p.shortest.nanos) :
    (∀ n, ((start p).after n).next.1.isSome) ↔ 2 * p.longest.nanos < 0x10000000000000000 * 1000000000 := by
  constructor
  · intro h
    -- After so many delays the longest one is reached, whatever it is.
    have hreached : (p.delay 94).nanos = p.longest.nanos := by
      have hlt := p.longest.nanos_lt
      refine Nat.min_eq_right ?_
      omega
    rw [← hreached]
    exact (isSome_next_after p 94).1 (h 94)
  · intro hlong n
    have hle := Span.le_iff.1 (p.delay_le_longest n)
    exact (isSome_next_after p n).2 (by omega)

/-- Under every policy, as long as there were delays: the next one is the first one doubled as often as there were
delays before, up to the longest one; but if twice that is no span, there is no delay then or later, and the one that
comes next stays as it is. So no delay is shorter than one before it or longer than the longest one. Every retry
counts, up to a bound, and retries go on up to the limit if there is one. -/
theorem delays_double (p : BackoffPolicy) :
    (∀ k, (∀ i < k, ((start p).after i).next.1.isSome) →
      (2 * (p.delay k).nanos < 0x10000000000000000 * 1000000000 → ((start p).after k).next.1 = some (p.delay k)) ∧
      (0x10000000000000000 * 1000000000 ≤ 2 * (p.delay k).nanos → ∀ j ≥ k,
        ((start p).after j).next.1 = none ∧ ((start p).after j).upcoming = p.delay k)) ∧
    (∀ i j d d', i ≤ j → ((start p).after i).next.1 = some d → ((start p).after j).next.1 = some d' →
      d ≤ d' ∧ d' ≤ p.longest) ∧
    ∀ k, (((start p).after k).ongoing ↔ p.maxRetries = 0 ∨ k < p.maxRetries.toNat) ∧
      ((start p).after (k + 1)).retries.toNat = min (k + 1) 0xffffffff := by
  refine ⟨fun k h => ⟨fun hfits => ?_, fun hlong j hj => ?_⟩, fun i j d d' hij hi hj => ?_,
    fun k => ⟨ongoing_after p k, retries_after p (k + 1)⟩⟩
  · obtain ⟨d, hd⟩ := Option.isSome_iff_exists.1 ((isSome_next_after p k).2 hfits)
    rw [hd, eq_delay_of_next hd]
  · have hbefore : ∀ i < k, (p.delay i).twice?.isSome := fun i hi =>
      (Span.isSome_twice? _).2 ((isSome_next_after p i).1 (h i hi))
    have hnone : (p.delay k).twice? = none :=
      Option.not_isSome_iff_eq_none.1 fun hs => Nat.not_lt.2 hlong ((Span.isSome_twice? _).1 hs)
    exact (stuck_after hbefore hnone hj).symm
  · rw [eq_delay_of_next hi, eq_delay_of_next hj]
    exact ⟨p.delay_mono hij, p.delay_le_longest j⟩

/-- The first delay can be doubled, and its double cannot: there is one delay, and none for the retries after it. -/
theorem delays_double_once :
    let p : BackoffPolicy := ⟨.ofSeconds 0x4000000000000000, .ofSeconds 0xffffffffffffffff, 3⟩
    (∀ i < 1, ((start p).after i).next.1.isSome) ∧ 0x10000000000000000 * 1000000000 ≤ 2 * (p.delay 1).nanos ∧
      ((start p).after 0).next.1 = some (.ofSeconds 0x4000000000000000) ∧
      (∀ j ≥ 1, ((start p).after j).next.1 = none ∧ ((start p).after j).upcoming = .ofSeconds 0x8000000000000000) ∧
      ((start p).after 2).ongoing ∧ ((start p).after 2).retries.toNat = 2 := by
  intro p
  obtain ⟨hdelays, -, hretries⟩ := delays_double p
  have hfirst : ((start p).after 0).next.1 = some (p.delay 0) := (hdelays 0 (by simp)).1 (by decide)
  have hbefore : ∀ i < 1, ((start p).after i).next.1.isSome := by
    intro i hi
    obtain rfl : i = 0 := by omega
    rw [hfirst]
    rfl
  have hlong : 0x10000000000000000 * 1000000000 ≤ 2 * (p.delay 1).nanos := by decide
  have hsecond : p.delay 1 = .ofSeconds 0x8000000000000000 := Span.ext_nanos (by decide)
  refine ⟨hbefore, hlong, hfirst.trans (congrArg some (Span.ext_nanos (by decide))), fun j hj => ?_,
    (hretries 2).1.2 (by decide), (hretries 1).2⟩
  rw [← hsecond]
  exact (hdelays 1 hbefore).2 hlong j hj

end Backoff

end CompactionLeasing

/-!
# Instants and spans

Time is counted in whole nanoseconds, exactly. An `Instant` lies a signed number of nanoseconds from
the Unix epoch and its seconds fit in 64 signed bits; a `Span` is a length of time whose seconds fit
in 64 unsigned bits. Both bounds are part of the types, so a sum that would leave the range is `none`
and never a wrong instant. Rounding down works in words of 128, 64 and 32 bits; they lose nothing
(`Span.ofWide?_wideRem`), so it always gives an instant (`Instant.floorTo?_eq_some`).
-/

namespace CompactionLeasing

/-- A length of time in nanoseconds, below `2 ^ 64` seconds. -/
structure Span where
  nanos : Nat
  nanos_lt : nanos < 0x10000000000000000 * 1000000000
deriving DecidableEq

namespace Span

def ofNanos? (n : Nat) : Option Span :=
  if h : n < 0x10000000000000000 * 1000000000 then some ⟨n, h⟩ else none

def ofSeconds (s : UInt64) : Span :=
  ⟨s.toNat * 1000000000, by have := s.toNat_lt; omega⟩

def ofMillis (ms : UInt64) : Span :=
  ⟨ms.toNat * 1000000, by have := ms.toNat_lt; omega⟩

instance : LE Span := ⟨fun a b => a.nanos ≤ b.nanos⟩
instance : LT Span := ⟨fun a b => a.nanos < b.nanos⟩
instance (a b : Span) : Decidable (a ≤ b) := inferInstanceAs (Decidable (a.nanos ≤ b.nanos))
instance (a b : Span) : Decidable (a < b) := inferInstanceAs (Decidable (a.nanos < b.nanos))

def min (a b : Span) : Span := if a ≤ b then a else b

def isZero (a : Span) : Bool := a.nanos == 0

def twice? (a : Span) : Option Span := ofNanos? (a.nanos * 2)

def seconds (a : Span) : Nat := a.nanos / 1000000000

def subsec (a : Span) : Nat := a.nanos % 1000000000

/-- What is left of `a` after as many whole steps as fit into it; all of it if steps have no length. -/
def rem (a step : Span) : Span := ⟨a.nanos % step.nanos, Nat.lt_of_le_of_lt (Nat.mod_le ..) a.nanos_lt⟩

/-- The nanoseconds in 128 bits. -/
def wideNanos (a : Span) : BitVec 128 := .ofNat 128 a.nanos

/-- What is left of `a`, in nanoseconds, after as many whole steps as fit into it. -/
def wideRem (a step : Span) : BitVec 128 := a.wideNanos % step.wideNanos

/-- A span from seconds and nanoseconds, which carry over; `none` if the seconds leave their 64
bits. -/
def ofParts? (seconds : UInt64) (nanos : UInt32) : Option Span :=
  ofNanos? (seconds.toNat * 1000000000 + nanos.toNat)

/-- Whole seconds are cut down to 64 bits, and the nanoseconds beyond them to 32. -/
def ofWide? (n : BitVec 128) : Option Span :=
  ofParts? (.ofBitVec ((n / 1000000000).setWidth 64)) (.ofBitVec ((n % 1000000000).setWidth 32))

theorem ext_nanos {a b : Span} (h : a.nanos = b.nanos) : a = b := by
  cases a; cases b; cases h; rfl

theorem nanos_of_ofNanos? {n : Nat} {a : Span} (h : ofNanos? n = some a) : a.nanos = n := by
  unfold ofNanos? at h
  split at h
  · cases h; rfl
  · cases h

theorem ofNanos?_eq_some {n : Nat} {a : Span} : ofNanos? n = some a ↔ a.nanos = n := by
  constructor
  · exact nanos_of_ofNanos?
  · rintro rfl
    exact dif_pos a.nanos_lt

theorem le_iff {a b : Span} : a ≤ b ↔ a.nanos ≤ b.nanos := Iff.rfl

theorem lt_iff {a b : Span} : a < b ↔ a.nanos < b.nanos := Iff.rfl

@[simp] theorem nanos_min (a b : Span) : (min a b).nanos = Min.min a.nanos b.nanos := by
  unfold min
  split <;> rename_i h <;> rw [le_iff] at h <;> omega

theorem toNat_wideNanos (a : Span) : a.wideNanos.toNat = a.nanos := by
  have hlt := a.nanos_lt
  exact Nat.mod_eq_of_lt (by omega)

theorem toNat_wideRem (a step : Span) : (a.wideRem step).toNat = a.nanos % step.nanos := by
  rw [wideRem, BitVec.toNat_umod, toNat_wideNanos, toNat_wideNanos]

theorem seconds_lt (a : Span) : a.seconds < 0x10000000000000000 := by
  have hlt := a.nanos_lt
  unfold seconds
  omega

theorem subsec_lt (a : Span) : a.subsec < 0x100000000 := by
  unfold subsec
  omega

section
variable {n : BitVec 128} {a : Span}

theorem toNat_div_second (h : n.toNat = a.nanos) : (n / 1000000000).toNat = a.seconds :=
  BitVec.toNat_udiv.trans (congrArg (· / 1000000000) h)

theorem toNat_mod_second (h : n.toNat = a.nanos) : (n % 1000000000).toNat = a.subsec :=
  BitVec.toNat_umod.trans (congrArg (· % 1000000000) h)

/-- Nanoseconds of a span lose nothing when they are cut down. -/
theorem ofWide?_of_toNat (h : n.toNat = a.nanos) : ofWide? n = some a := by
  have hsecs : ((n / 1000000000).setWidth 64).toNat = a.seconds := by
    rw [BitVec.toNat_setWidth, toNat_div_second h, Nat.mod_eq_of_lt a.seconds_lt]
  have hnanos : ((n % 1000000000).setWidth 32).toNat = a.subsec := by
    rw [BitVec.toNat_setWidth, toNat_mod_second h, Nat.mod_eq_of_lt a.subsec_lt]
  rw [ofWide?, ofParts?, UInt64.toNat_ofBitVec, UInt32.toNat_ofBitVec, hsecs, hnanos, ofNanos?_eq_some]
  unfold seconds subsec
  omega

end

theorem ofWide?_wideRem (a step : Span) : ofWide? (a.wideRem step) = some (a.rem step) :=
  ofWide?_of_toNat (toNat_wideRem a step)

end Span

/-- A point in time, in nanoseconds from the Unix epoch. Its seconds, rounded down, fit in 64 signed
bits. -/
structure Instant where
  nanos : Int
  le_nanos : -(0x8000000000000000 * 1000000000) ≤ nanos
  nanos_lt : nanos < 0x8000000000000000 * 1000000000
deriving DecidableEq

namespace Instant

def epoch : Instant := ⟨0, by decide, by decide⟩

instance : Inhabited Instant := ⟨epoch⟩

def ofNanos? (n : Int) : Option Instant :=
  if h : -(0x8000000000000000 * 1000000000) ≤ n ∧ n < 0x8000000000000000 * 1000000000 then some ⟨n, h.1, h.2⟩ else none

instance : LE Instant := ⟨fun a b => a.nanos ≤ b.nanos⟩
instance : LT Instant := ⟨fun a b => a.nanos < b.nanos⟩
instance (a b : Instant) : Decidable (a ≤ b) := inferInstanceAs (Decidable (a.nanos ≤ b.nanos))
instance (a b : Instant) : Decidable (a < b) := inferInstanceAs (Decidable (a.nanos < b.nanos))

def add? (t : Instant) (d : Span) : Option Instant := ofNanos? (t.nanos + d.nanos)

/-- How long before `t` the instant `earlier` lies; `none` if it lies after `t`. -/
def since? (t earlier : Instant) : Option Span :=
  if h : earlier.nanos ≤ t.nanos then
    some ⟨(t.nanos - earlier.nanos).toNat, by
      have h₁ := t.nanos_lt
      have h₂ := earlier.le_nanos
      omega⟩
  else none

/-- The instant that lies `d` before `t`; `none` if it leaves the range. -/
def sub? (t : Instant) (d : Span) : Option Instant := ofNanos? (t.nanos - d.nanos)

/-- Takes from `t` what is left of its time since the epoch after as many whole steps as fit into it.
An instant before the epoch, or a step of length zero, leaves `t` as it is. `none` if a number does
not fit. -/
def floorTo? (t : Instant) (step : Span) : Option Instant :=
  match t.since? epoch with
  | none => some t
  | some age => if step.isZero then some t else (Span.ofWide? (age.wideRem step)).bind t.sub?

theorem since?_of_lt {t earlier : Instant} (h : t < earlier) : t.since? earlier = none :=
  dif_neg (Int.not_le.2 h)

theorem exists_since? {t earlier : Instant} (h : earlier ≤ t) :
    ∃ age, t.since? earlier = some age ∧ (age.nanos : Int) = t.nanos - earlier.nanos :=
  ⟨_, dif_pos h, Int.toNat_of_nonneg (Int.sub_nonneg_of_le h)⟩

theorem floorTo?_of_since? {t : Instant} {step age : Span} (h : t.since? epoch = some age)
    (hstep : step.isZero = false) : t.floorTo? step = t.sub? (age.rem step) := by
  unfold floorTo?
  simp only [h, hstep, Span.ofWide?_wideRem]
  rfl

/-- What is taken from a time is never more than the time since the epoch. -/
theorem exists_floorTo? (t : Instant) (step : Span) : ∃ b, t.floorTo? step = some b ∧
    b.nanos = if 0 ≤ t.nanos ∧ step.nanos ≠ 0 then t.nanos - t.nanos % step.nanos else t.nanos := by
  by_cases ht : 0 ≤ t.nanos
  · have hepoch : epoch ≤ t := ht
    obtain ⟨age, hage, hn⟩ := exists_since? hepoch
    rw [show epoch.nanos = 0 from rfl, Int.sub_zero] at hn
    cases hstep : step.isZero with
    | true =>
      have hzero : step.nanos = 0 := beq_iff_eq.1 hstep
      exact ⟨t, by simp [floorTo?, hage, hstep], (if_neg fun h => h.2 hzero).symm⟩
    | false =>
      have hpos : step.nanos ≠ 0 := beq_eq_false_iff_ne.1 hstep
      have hlow := t.le_nanos
      have hhigh := t.nanos_lt
      have hle : (age.rem step).nanos ≤ age.nanos := Nat.mod_le ..
      have hrem : ((age.rem step).nanos : Int) = age.nanos % step.nanos := Int.natCast_emod ..
      rw [hn] at hrem
      refine ⟨_, (floorTo?_of_since? hage hstep).trans (dif_pos (by omega)), ?_⟩
      rw [if_pos ⟨ht, hpos⟩, ← hrem]
  · exact ⟨t, by rw [floorTo?, since?_of_lt (Int.not_le.1 ht)], (if_neg fun h => ht h.1).symm⟩

theorem isSome_floorTo? (t : Instant) (step : Span) : (t.floorTo? step).isSome :=
  let ⟨b, hb, _⟩ := exists_floorTo? t step
  Option.isSome_iff_exists.2 ⟨b, hb⟩

/-- Rounds down to a whole multiple of `step` since the epoch. An instant before the epoch, or a
step of length zero, leaves `t` as it is. -/
def floorTo (t : Instant) (step : Span) : Instant := (t.floorTo? step).get (isSome_floorTo? t step)

def seconds (t : Instant) : Int := t.nanos / 1000000000

def subsec (t : Instant) : Nat := (t.nanos % 1000000000).toNat

theorem ext_nanos {a b : Instant} (h : a.nanos = b.nanos) : a = b := by
  cases a; cases b; cases h; rfl

theorem nanos_of_ofNanos? {n : Int} {a : Instant} (h : ofNanos? n = some a) : a.nanos = n := by
  unfold ofNanos? at h
  split at h
  · cases h; rfl
  · cases h

theorem nanos_of_add? {t a : Instant} {d : Span} (h : t.add? d = some a) :
    a.nanos = t.nanos + d.nanos :=
  nanos_of_ofNanos? h

theorem le_iff {a b : Instant} : a ≤ b ↔ a.nanos ≤ b.nanos := Iff.rfl

theorem lt_iff {a b : Instant} : a < b ↔ a.nanos < b.nanos := Iff.rfl

theorem floorTo?_eq_some (t : Instant) (step : Span) : t.floorTo? step = some (t.floorTo step) :=
  (Option.some_get _).symm

theorem nanos_floorTo (t : Instant) (step : Span) : (t.floorTo step).nanos =
    if 0 ≤ t.nanos ∧ step.nanos ≠ 0 then t.nanos - t.nanos % step.nanos else t.nanos := by
  obtain ⟨b, hb, hn⟩ := exists_floorTo? t step
  rw [floorTo?_eq_some, Option.some.injEq] at hb
  rw [hb, hn]

end Instant

end CompactionLeasing

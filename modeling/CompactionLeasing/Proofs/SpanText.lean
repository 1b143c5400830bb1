import CompactionLeasing.Proofs.Scanning
import CompactionLeasing.SpanText
import Mathlib.Data.Nat.Digits.Defs

/-!
# How spans are written

`Span.Spells` is the grammar of written spans: a number and a unit, with blanks around both. A text is read as a span
exactly if it is written so, and neither the number nor the span is too large (`Span.ofText_eq_ok`).
-/

namespace CompactionLeasing

namespace Text
variable {before cs after : List Char} {acc n : Nat}

/-! ### Blanks around a text -/

theorem exists_trim (cs : List Char) :
    ∃ before after, cs = before ++ trim cs ++ after ∧ ∀ c ∈ before ++ after, isBlank c = true := by
  let rest := cs.dropWhile isBlank
  refine ⟨cs.takeWhile isBlank, (rest.reverse.takeWhile isBlank).reverse, ?_, fun c hc => ?_⟩
  · have hrest : rest = trim cs ++ (rest.reverse.takeWhile isBlank).reverse := by
      rw [trim, trimEnd, ← List.reverse_append, List.takeWhile_append_dropWhile, List.reverse_reverse]
    rw [List.append_assoc, ← hrest]
    exact List.takeWhile_append_dropWhile.symm
  · rcases List.mem_append.1 hc with hc | hc
    · exact List.mem_takeWhile_imp hc
    · exact List.mem_takeWhile_imp (List.mem_reverse.1 hc)

/-- Trimming stops at the first and at the last character that is no blank. -/
theorem trim_append (hbefore : ∀ c ∈ before, isBlank c = true) (hafter : ∀ c ∈ after, isBlank c = true)
    (hhead : ∃ c ∈ cs.head?, isBlank c = false) (hlast : ∃ c ∈ cs.getLast?, isBlank c = false) :
    trim (before ++ cs ++ after) = cs := by
  obtain ⟨c, hc, hhead⟩ := hhead
  obtain ⟨d, hd, hlast⟩ := hlast
  have hfront : (before ++ (cs ++ after)).dropWhile isBlank = cs ++ after := by
    refine (span_append hbefore fun e he => ?_).2
    rw [List.head?_append, hc, Option.some_or] at he
    cases he
    exact hhead
  have hback : (after.reverse ++ cs.reverse).dropWhile isBlank = cs.reverse := by
    refine (span_append (fun e he => hafter e (List.mem_reverse.1 he)) fun e he => ?_).2
    rw [List.head?_reverse, hd] at he
    cases he
    exact hlast
  rw [trim, List.append_assoc, hfront, trimEnd, List.reverse_append, hback, List.reverse_reverse]

/-! ### Numerals -/

/-- What digits denote by their places. -/
def numeral (digits : List Char) : Nat := Nat.ofDigits 10 (digits.reverse.map fun c => c.toNat - '0'.toNat)

theorem numeral_cons (c : Char) (cs : List Char) :
    numeral (c :: cs) = numeral cs + 10 ^ cs.length * (c.toNat - '0'.toNat) := by
  rw [numeral, List.reverse_cons, List.map_append, Nat.ofDigits_append, List.length_map, List.length_reverse]
  exact congrArg _ (congrArg _ Nat.ofDigits_singleton)

theorem digitsFrom?_eq_some : digitsFrom? acc cs = some n ↔
    (∀ c ∈ cs, c.isDigit = true) ∧ acc * 10 ^ cs.length + numeral cs = n := by
  induction cs generalizing acc with
  | nil => simp [digitsFrom?, numeral]
  | cons c cs ih =>
    have hplace : (acc * 10 + (c.toNat - 48)) * 10 ^ cs.length + numeral cs =
        acc * 10 ^ (cs.length + 1) + numeral (c :: cs) := by
      rw [numeral_cons, Nat.add_mul, Nat.pow_succ]
      show _ = acc * (10 ^ cs.length * 10) + (numeral cs + 10 ^ cs.length * (c.toNat - 48))
      ring
    rw [digitsFrom?, List.forall_mem_cons, List.length_cons, ← hplace]
    split_ifs with hc
    · rw [ih]
      simp [hc]
    · simp [hc]

theorem ofDigits?_eq_some :
    ofDigits? cs = some n ↔ cs ≠ [] ∧ (∀ c ∈ cs, c.isDigit = true) ∧ numeral cs = n := by
  unfold ofDigits?
  split
  · simp
  · rename_i hne
    rw [digitsFrom?_eq_some, Nat.zero_mul, Nat.zero_add]
    exact (and_iff_right fun h => hne h).symm

theorem isBlank_of_isDigit {c : Char} (h : c.isDigit = true) : isBlank c = false := by
  simp only [Char.isDigit, ge_iff_le, Bool.and_eq_true, decide_eq_true_eq] at h
  have hlo : 48 ≤ c.toNat := h.1
  have hhi : c.toNat ≤ 57 := h.2
  simp only [isBlank, Bool.or_eq_false_iff, Bool.and_eq_false_iff, decide_eq_false_iff_not, beq_eq_false_iff_ne]
  omega

end Text

namespace Span
variable {s : String} {cs x : List Char} {n n' : Nat} {unit unit' : SpanUnit} {d : Span}

/-! ### The grammar -/

/-- A nonempty row of digits, and perhaps one plus before them. -/
def IsNumeral (cs : List Char) (n : Nat) : Prop :=
  ∃ sign digits, cs = sign ++ digits ∧ (sign = [] ∨ sign = ['+']) ∧ digits ≠ [] ∧
    (∀ c ∈ digits, c.isDigit = true) ∧ Text.numeral digits = n

/-- The text is the number with the unit behind it. There may be blanks around both. -/
def Spells (s : String) (n : Nat) (unit : List Char) : Prop :=
  ∃ before number gap after, s.toList = before ++ (number ++ gap ++ unit) ++ after ∧ IsNumeral number n ∧
    ∀ c ∈ before ++ gap ++ after, Text.isBlank c = true

/-- How units are written, and how many nanoseconds they have. -/
def units : List (String × Nat) :=
  [("ms", 10 ^ 6), ("s", 10 ^ 9), ("m", 60 * 10 ^ 9), ("h", 3600 * 10 ^ 9)]

/-- The text is a number below `2 ^ 64` and a unit, and the span is as long as they say. -/
def Denotes (s : String) (d : Span) : Prop :=
  ∃ n, ∃ u ∈ units, Spells s n u.1.toList ∧ n < 2 ^ 64 ∧ d.nanos = n * u.2

theorem mem_units {u : String × Nat} : u ∈ units ↔ ∃ unit : SpanUnit, u = (String.ofList unit.suffix, unit.nanos) := by
  simp only [units, List.mem_cons, List.not_mem_nil, or_false]
  constructor
  · rintro (rfl | rfl | rfl | rfl)
    · exact ⟨.millisecond, rfl⟩
    · exact ⟨.second, rfl⟩
    · exact ⟨.minute, rfl⟩
    · exact ⟨.hour, rfl⟩
  · rintro ⟨unit, rfl⟩
    cases unit <;> decide

theorem denotes_iff : Denotes s d ↔ ∃ unit : SpanUnit, ∃ n,
    Spells s n unit.suffix ∧ n < 2 ^ 64 ∧ d.nanos = n * unit.nanos := by
  constructor
  · rintro ⟨n, u, hu, h⟩
    obtain ⟨unit, rfl⟩ := mem_units.1 hu
    rw [String.toList_ofList] at h
    exact ⟨unit, n, h⟩
  · rintro ⟨unit, n, h⟩
    rw [← String.toList_ofList (l := unit.suffix)] at h
    exact ⟨n, _, mem_units.2 ⟨unit, rfl⟩, h⟩

/-! ### The number -/

theorem isNumeral_iff : IsNumeral cs n ↔
    Text.ofDigits? (match cs with | '+' :: r => r | r => r) = some n := by
  rw [Text.ofDigits?_eq_some]
  constructor
  · rintro ⟨sign, digits, rfl, rfl | rfl, hne, hdigits, hn⟩
    · obtain ⟨c, digits, rfl⟩ := List.exists_cons_of_ne_nil hne
      have hc : c ≠ '+' := fun h => absurd (hdigits c List.mem_cons_self) (h ▸ by decide)
      split
      · rename_i heq
        exact absurd (List.cons.inj heq).1 hc
      · exact ⟨hne, hdigits, hn⟩
    · exact ⟨hne, hdigits, hn⟩
  · intro h
    split at h
    · exact ⟨['+'], _, rfl, .inr rfl, h⟩
    · exact ⟨[], _, rfl, .inl rfl, h⟩

theorem amount?_eq_some : amount? cs = some n ↔ IsNumeral (Text.trim cs) n ∧ n < 2 ^ 64 := by
  rw [isNumeral_iff, amount?]
  cases Text.ofDigits? (match Text.trim cs with | '+' :: r => r | r => r) with
  | none => simp
  | some m =>
    dsimp only
    split_ifs with hm
    · rw [Option.some.injEq]
      exact ⟨fun h => ⟨h, h ▸ hm⟩, And.left⟩
    · refine iff_of_false nofun ?_
      rintro ⟨h, hn⟩
      exact hm (Option.some.inj h ▸ hn)

namespace IsNumeral

theorem unique (h : IsNumeral cs n) (h' : IsNumeral cs n') : n = n' :=
  Option.some.inj ((isNumeral_iff.1 h).symm.trans (isNumeral_iff.1 h'))

/-- A numeral ends in a digit, and begins with one or with a plus. -/
theorem ends (h : IsNumeral cs n) : (∃ c ∈ cs.head?, Text.isBlank c = false) ∧
    ∃ c ∈ cs.getLast?, c.isDigit = true := by
  obtain ⟨sign, digits, rfl, hsign, hne, hdigits, -⟩ := h
  obtain ⟨c, hc⟩ := Option.ne_none_iff_exists'.1 (mt List.head?_eq_none_iff.1 hne)
  obtain ⟨d, hd⟩ := Option.ne_none_iff_exists'.1 (mt List.getLast?_eq_none_iff.1 hne)
  refine ⟨?_, d, ?_, hdigits d (List.mem_of_getLast? hd)⟩
  · rcases hsign with rfl | rfl
    · exact ⟨c, hc, Text.isBlank_of_isDigit (hdigits c (List.mem_of_head? hc))⟩
    · exact ⟨'+', rfl, by decide⟩
  · rw [List.getLast?_append, hd]
    rfl

end IsNumeral

/-! ### The unit -/

theorem split?_eq_some (h : SpanUnit.split? cs = some (x, unit)) : cs = x ++ unit.suffix := by
  rw [← cs.reverse_reverse]
  unfold SpanUnit.split? at h
  split at h <;> rename_i heq <;> cases h <;> simp [heq, SpanUnit.suffix]

/-- The `s` of seconds is not taken for that of milliseconds. -/
theorem split?_append (hx : ∀ c ∈ x.getLast?, c ≠ 'm') (unit : SpanUnit) :
    SpanUnit.split? (x ++ unit.suffix) = some (x, unit) := by
  cases unit with
  | second =>
    rw [SpanUnit.split?, SpanUnit.suffix, List.reverse_append]
    cases hr : x.reverse with
    | nil => simp [List.reverse_eq_nil_iff.1 hr]
    | cons c r =>
      have hc : c ≠ 'm' := hx c (by rw [← List.head?_reverse, hr]; rfl)
      have hlast : (r.reverse ++ [c]) = x := by rw [← List.reverse_cons, ← hr, List.reverse_reverse]
      simp [hc, hlast]
  | millisecond | minute | hour => simp [SpanUnit.split?, SpanUnit.suffix]

theorem suffix_ends (unit : SpanUnit) : ∃ c ∈ unit.suffix.getLast?, Text.isBlank c = false := by
  cases unit <;> exact ⟨_, rfl, by decide⟩

/-- The grammar is the one by which the reader takes a text apart. -/
theorem spells_iff : Spells s n unit.suffix ↔
    ∃ x, SpanUnit.split? (Text.trim s.toList) = some (x, unit) ∧ IsNumeral (Text.trim x) n := by
  constructor
  · rintro ⟨before, number, gap, after, hs, hnumber, hblank⟩
    obtain ⟨⟨c, hc, hhead⟩, d, hd, hdigit⟩ := hnumber.ends
    have hlast := Text.isBlank_of_isDigit hdigit
    obtain ⟨e, he, hend⟩ := suffix_ends unit
    simp only [List.mem_append] at hblank
    have htrim : Text.trim s.toList = number ++ gap ++ unit.suffix := by
      rw [hs]
      refine Text.trim_append (fun a ha => hblank a (.inl (.inl ha))) (fun a ha => hblank a (.inr ha))
        ⟨c, ?_, hhead⟩ ⟨e, ?_, hend⟩
      · rw [List.append_assoc, List.head?_append, hc]
        rfl
      · rw [List.getLast?_append, he]
        rfl
    refine ⟨number ++ gap, ?_, ?_⟩
    · rw [htrim]
      refine split?_append (fun a ha => ?_) unit
      rw [List.getLast?_append, hd] at ha
      rintro rfl
      -- The last character before the unit is a blank or a digit.
      cases hg : gap.getLast? with
      | none =>
        rw [hg] at ha
        cases ha
        exact absurd hdigit (by decide)
      | some b =>
        rw [hg] at ha
        cases ha
        exact absurd (hblank 'm' (.inl (.inr (List.mem_of_getLast? hg)))) (by decide)
    · have hgap : Text.trim (number ++ gap) = number :=
        Text.trim_append (fun _ ha => absurd ha List.not_mem_nil)
          (fun a ha => hblank a (.inl (.inr ha))) ⟨c, hc, hhead⟩ ⟨d, hd, hlast⟩
      rw [hgap]
      exact hnumber
  · rintro ⟨x, hx, hnumber⟩
    obtain ⟨before, after, hs, hblank⟩ := Text.exists_trim s.toList
    obtain ⟨lead, gap, hgap, hblank'⟩ := Text.exists_trim x
    rw [split?_eq_some hx, hgap] at hs
    simp only [List.mem_append] at hblank hblank'
    refine ⟨before ++ lead, Text.trim x, gap, after, ?_, hnumber, fun c hc => ?_⟩
    · simpa only [List.append_assoc] using hs
    · simp only [List.mem_append] at hc
      rcases hc with ((hc | hc) | hc) | hc
      · exact hblank c (.inl hc)
      · exact hblank' c (.inl hc)
      · exact hblank' c (.inr hc)
      · exact hblank c (.inr hc)

/-- A text has one number and one unit. -/
theorem Spells.unique (h : Spells s n unit.suffix) (h' : Spells s n' unit'.suffix) : n = n' ∧ unit = unit' := by
  obtain ⟨x, hx, hn⟩ := spells_iff.1 h
  obtain ⟨x', hx', hn'⟩ := spells_iff.1 h'
  rw [hx, Option.some.injEq, Prod.mk.injEq] at hx'
  obtain ⟨rfl, rfl⟩ := hx'
  exact ⟨hn.unique hn', rfl⟩

/-! ### Reading -/

/-- A text is read as a span exactly if it denotes it. -/
theorem ofText_eq_ok : ofText s = .ok d ↔ Denotes s d := by
  rw [denotes_iff, ofText]
  constructor
  · intro h
    split at h
    · cases h
    · rename_i x unit hx
      split at h
      · cases h
      · rename_i n hn
        obtain ⟨hnumber, hlt⟩ := amount?_eq_some.1 hn
        split at h
        · cases h
        · rename_i d' hd
          cases h
          exact ⟨unit, n, spells_iff.2 ⟨x, hx, hnumber⟩, hlt, ofNanos?_eq_some.1 hd⟩
  · rintro ⟨unit, n, hspells, hlt, hd⟩
    obtain ⟨x, hx, hnumber⟩ := spells_iff.1 hspells
    simp only [hx, amount?_eq_some.2 ⟨hnumber, hlt⟩, ofNanos?_eq_some.2 hd]

end Span

end CompactionLeasing

import CompactionLeasing.Text.Decimal
import Mathlib.Data.List.TakeWhile

/-!
# Scanning

What readers of texts share: a run of characters of one kind is taken off as a whole, and a written number has no
leading zero.
-/

namespace CompactionLeasing.Text

theorem head?_decimal_ne {n : Nat} (h : 0 < n) : (decimal n).head? ≠ some '0' := by
  induction n using Nat.strongRecOn with
  | ind n ih =>
    by_cases hn : n < 10
    · simpa [decimal_of_lt hn, Nat.digitChar_eq_zero] using h.ne'
    · obtain ⟨c, cs, hc⟩ := List.exists_cons_of_ne_nil (decimal_ne_nil (n / 10))
      have := ih (n / 10) (by omega) (by omega)
      rw [decimal_of_le (Nat.le_of_not_lt hn), hc]
      rwa [hc] at this

theorem not_leadingZero_decimal (n : Nat) : ¬ ((decimal n).head? = some '0' ∧ (decimal n).length ≠ 1) := by
  rintro ⟨hzero, hlength⟩
  rcases Nat.eq_zero_or_pos n with rfl | hn
  · exact hlength rfl
  · exact head?_decimal_ne hn hzero

/-- A run of characters of a kind ends where another character comes. -/
theorem span_append {p : Char → Bool} {cs r : List Char} (hcs : ∀ c ∈ cs, p c = true)
    (hr : ∀ c ∈ r.head?, p c = false) : (cs ++ r).takeWhile p = cs ∧ (cs ++ r).dropWhile p = r := by
  have hstop : r.takeWhile p = [] ∧ r.dropWhile p = r := by
    cases r with
    | nil => exact ⟨rfl, rfl⟩
    | cons c r => simp [hr c rfl]
  rw [List.takeWhile_append_of_pos hcs, List.dropWhile_append_of_pos hcs, hstop.1, hstop.2, List.append_nil]
  exact ⟨rfl, rfl⟩

end CompactionLeasing.Text

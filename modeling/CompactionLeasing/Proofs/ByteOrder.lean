import Mathlib.Data.String.Basic
import Mathlib.Tactic.SplitIfs

/-!
# Texts in the order of their bytes

Texts are compared character by character. This is also the order of their UTF-8 bytes: where two texts
first differ, the bytes of the smaller character come first.
-/

namespace CompactionLeasing

/-- The bytes of a text in UTF-8. -/
def utf8 (s : String) : List UInt8 := s.toUTF8.data.toList

theorem utf8_eq (s : String) : utf8 s = s.toList.flatMap String.utf8EncodeChar := by
  rw [utf8, String.toUTF8, ← String.utf8Encode_toList, List.utf8Encode]
  simp

section Digits
variable {a b : Nat}

theorem lt_digits (h : a < b) : a / 64 < b / 64 ∨ a / 64 = b / 64 ∧ a % 64 < b % 64 := by omega

/-- Numbers are compared digit by digit, in base 64. -/
theorem lt_digits₄ (h : a < b) : a / 262144 < b / 262144 ∨ a / 262144 = b / 262144 ∧
    (a / 4096 % 64 < b / 4096 % 64 ∨ a / 4096 % 64 = b / 4096 % 64 ∧
      (a / 64 % 64 < b / 64 % 64 ∨ a / 64 % 64 = b / 64 % 64 ∧ a % 64 < b % 64)) := by
  have h₂ : ∀ n : Nat, n / 4096 = n / 64 / 64 := fun n => (Nat.div_div_eq_div_mul n 64 64).symm
  have h₃ : ∀ n : Nat, n / 262144 = n / 4096 / 64 := fun n => (Nat.div_div_eq_div_mul n 4096 64).symm
  rw [h₃, h₃, h₂, h₂]
  rcases lt_digits h with h | ⟨h, h₀⟩
  · rcases lt_digits h with h | ⟨h, h₁⟩
    · rcases lt_digits h with h | ⟨h, h₂⟩
      · exact .inl h
      · exact .inr ⟨h, .inl h₂⟩
    · rw [h]
      exact .inr ⟨rfl, .inr ⟨rfl, .inl h₁⟩⟩
  · rw [h]
    exact .inr ⟨rfl, .inr ⟨rfl, .inr ⟨rfl, h₀⟩⟩⟩

end Digits

/-- The bytes of the smaller character come first, whatever follows. -/
theorem utf8EncodeChar_lt {c d : Char} (h : c < d) (xs ys : List UInt8) :
    String.utf8EncodeChar c ++ xs < String.utf8EncodeChar d ++ ys := by
  have hlt : c.val.toNat < d.val.toNat := h
  have hmax : d.val.toNat < 0x110000 := by
    rcases d.valid with hv | hv
    · exact Nat.lt_trans hv (by decide)
    · exact hv.2
  unfold String.utf8EncodeChar
  generalize c.val.toNat = a at hlt
  generalize d.val.toNat = b at hlt hmax
  have hdigits := lt_digits₄ hlt
  have htop : a / 262144 % 8 = a / 262144 ∧ b / 262144 % 8 = b / 262144 := by omega
  dsimp only
  -- With fewer bytes the first byte is smaller; with equally many the digits decide.
  split_ifs
  all_goals
    simp only [List.cons_append, List.nil_append, List.cons_lt_cons_iff, UInt8.lt_iff_toNat_lt,
      ← UInt8.toNat_inj, UInt8.toNat_ofNat']
    simp (disch := omega) only [Nat.mod_eq_of_lt (b := 2 ^ 8)]
    omega

theorem utf8_lt {s t : String} (h : s < t) : utf8 s < utf8 t := by
  rw [String.lt_iff] at h
  rw [utf8_eq, utf8_eq]
  generalize s.toList = xs at h
  generalize t.toList = ys at h
  induction h with
  | @nil d ys =>
    have hpos : 0 < (String.utf8EncodeChar d).length := by
      rw [String.length_utf8EncodeChar]; exact d.utf8Size_pos
    obtain ⟨x, xs, hx⟩ := List.exists_cons_of_length_pos hpos
    rw [List.flatMap_nil, List.flatMap_cons, hx]
    exact List.nil_lt_cons ..
  | rel h => exact utf8EncodeChar_lt h _ _
  | cons h ih => exact List.append_left_lt ih

end CompactionLeasing

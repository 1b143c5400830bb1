/-!
# Blanks

The characters with the Unicode property White_Space, and trimming of a text by them.
-/

namespace CompactionLeasing.Text

/-- Whether the character has the property White_Space. -/
def isBlank (c : Char) : Bool :=
  let n := c.toNat
  (9 ≤ n && n ≤ 13) || n == 0x20 || n == 0x85 || n == 0xa0 || n == 0x1680 ||
    (0x2000 ≤ n && n ≤ 0x200a) || n == 0x2028 || n == 0x2029 || n == 0x202f || n == 0x205f ||
    n == 0x3000

def trimEnd (cs : List Char) : List Char := (cs.reverse.dropWhile isBlank).reverse

def trim (cs : List Char) : List Char := trimEnd (cs.dropWhile isBlank)

theorem isBlank_of_isWhitespace {c : Char} (h : c.isWhitespace = true) : isBlank c = true := by
  simp only [Char.isWhitespace, Bool.or_eq_true, decide_eq_true_eq] at h
  rcases h with ((rfl | rfl) | rfl) | rfl <;> decide

end CompactionLeasing.Text

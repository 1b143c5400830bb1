import CompactionLeasing.Text.Hexadecimal

/-!
# Strings in TOML

A string has four written forms: basic ones between double quotes, in which a backslash escapes, and
literal ones between single quotes, in which nothing does, each on one line or between three quotes on
several lines. Reading starts after the opening quotes and gives what follows the closing ones.
-/

namespace CompactionLeasing.Toml

def isBlank (c : Char) : Bool := c == ' ' || c == '\t'

/-- The characters that may stand in strings and comments: all but controls, of which only the tab
may. -/
def isPlain (c : Char) : Bool := c == '\t' || (0x20 ≤ c.toNat && c != '\x7f')

def beginsWithNewline : List Char → Bool
  | '\n' :: _ => true
  | '\r' :: '\n' :: _ => true
  | _ => false

def dropNewline : List Char → List Char
  | '\n' :: r => r
  | '\r' :: '\n' :: r => r
  | r => r

/-- What a backslash and one more character stand for. -/
def shortEscape? : Char → Option Char
  | '"' => some '"'
  | '\\' => some '\\'
  | 'b' => some '\x08'
  | 't' => some '\t'
  | 'n' => some '\n'
  | 'f' => some '\x0c'
  | 'r' => some '\r'
  | _ => none

/-- The character with a code point in hexadecimal; surrogates are no characters. -/
def numbered? (digits : List Char) : Option Char :=
  match Text.hexFrom? 0 digits with
  | none => none
  | some n => if n < 0xd800 ∨ (0xe000 ≤ n ∧ n < 0x110000) then some (Char.ofNat n) else none

/-- Puts a character in front of what was read. -/
def consChar (c : Char) (q : List Char × List Char) : List Char × List Char := (c :: q.1, q.2)

def readBasic? : List Char → Option (List Char × List Char)
  | [] => none
  | '"' :: r => some ([], r)
  | '\\' :: 'u' :: a :: b :: c :: d :: r =>
    match numbered? [a, b, c, d] with
    | none => none
    | some x => (readBasic? r).map (consChar x)
  | '\\' :: 'U' :: a :: b :: c :: d :: e :: f :: g :: h :: r =>
    match numbered? [a, b, c, d, e, f, g, h] with
    | none => none
    | some x => (readBasic? r).map (consChar x)
  | '\\' :: e :: r =>
    match shortEscape? e with
    | none => none
    | some x => (readBasic? r).map (consChar x)
  | c :: r => if c = '\\' ∨ !isPlain c then none else (readBasic? r).map (consChar c)

def readLiteral? : List Char → Option (List Char × List Char)
  | [] => none
  | '\'' :: r => some ([], r)
  | c :: r => if isPlain c then (readLiteral? r).map (consChar c) else none

/-- Reads the inside of a basic string of several lines. While `folding`, blanks and ends of lines
are skipped: a backslash at the end of a line joins the lines. The string may end in up to two quotes
of its own. -/
def readBasicLines? (folding : Bool) : List Char → Option (List Char × List Char)
  | [] => none
  | '"' :: '"' :: '"' :: '"' :: '"' :: r => some (['"', '"'], r)
  | '"' :: '"' :: '"' :: '"' :: r => some (['"'], r)
  | '"' :: '"' :: '"' :: r => some ([], r)
  | '\\' :: 'u' :: a :: b :: c :: d :: r =>
    match numbered? [a, b, c, d] with
    | none => none
    | some x => (readBasicLines? false r).map (consChar x)
  | '\\' :: 'U' :: a :: b :: c :: d :: e :: f :: g :: h :: r =>
    match numbered? [a, b, c, d, e, f, g, h] with
    | none => none
    | some x => (readBasicLines? false r).map (consChar x)
  | '\\' :: e :: r =>
    match shortEscape? e with
    | some x => (readBasicLines? false r).map (consChar x)
    | none =>
      if beginsWithNewline ((e :: r).dropWhile isBlank) then
        readBasicLines? true (e :: r)
      else none
  | '\r' :: '\n' :: r =>
    if folding then readBasicLines? true r else (readBasicLines? false r).map (consChar '\n')
  | c :: r =>
    if c = '\n' then
      if folding then readBasicLines? true r else (readBasicLines? false r).map (consChar '\n')
    else if folding && isBlank c then readBasicLines? true r
    else if c = '\\' ∨ !isPlain c then none
    else (readBasicLines? false r).map (consChar c)

/-- Reads the inside of a literal string of several lines. It may end in up to two quotes of its
own. -/
def readLiteralLines? : List Char → Option (List Char × List Char)
  | [] => none
  | '\'' :: '\'' :: '\'' :: '\'' :: '\'' :: r => some (['\'', '\''], r)
  | '\'' :: '\'' :: '\'' :: '\'' :: r => some (['\''], r)
  | '\'' :: '\'' :: '\'' :: r => some ([], r)
  | '\r' :: '\n' :: r => (readLiteralLines? r).map (consChar '\n')
  | c :: r =>
    if c = '\n' ∨ isPlain c then (readLiteralLines? r).map (consChar c) else none

/-- Reads a string that begins with a double quote, which has been read. The answer says whether the
string stands between three quotes. -/
def readQuoted? : List Char → Option (Bool × List Char × List Char)
  | '"' :: '"' :: r => (readBasicLines? false (dropNewline r)).map fun q => (true, q)
  | r => (readBasic? r).map fun q => (false, q)

/-- Reads a string that begins with a single quote, which has been read. -/
def readVerbatim? : List Char → Option (Bool × List Char × List Char)
  | '\'' :: '\'' :: r => (readLiteralLines? (dropNewline r)).map fun q => (true, q)
  | r => (readLiteral? r).map fun q => (false, q)

theorem length_dropNewline (cs : List Char) : (dropNewline cs).length ≤ cs.length := by
  unfold dropNewline
  split
  · simp
  · simp only [List.length_cons]; omega
  · exact Nat.le_refl _

theorem length_of_map_consChar {c : Char} {o : Option (List Char × List Char)} {t r : List Char}
    {n : Nat} (h : o.map (consChar c) = some (t, r))
    (ih : ∀ {t r : List Char}, o = some (t, r) → r.length < n) : r.length < n := by
  obtain ⟨q, hq, e⟩ := Option.map_eq_some_iff.1 h
  cases e
  exact ih hq

theorem length_readBasic? {cs t r : List Char} (h : readBasic? cs = some (t, r)) :
    r.length < cs.length := by
  fun_induction readBasic? cs generalizing t r with
  | case1 | case3 | case5 | case7 | case9 => cases h
  | case2 => cases h; simp
  | case4 | case6 | case8 | case10 =>
    rename_i ih
    have := length_of_map_consChar h ih
    simp only [List.length_cons]
    omega

theorem length_readLiteral? {cs t r : List Char} (h : readLiteral? cs = some (t, r)) :
    r.length < cs.length := by
  fun_induction readLiteral? cs generalizing t r with
  | case1 | case4 => cases h
  | case2 => cases h; simp
  | case3 =>
    rename_i ih
    have := length_of_map_consChar h ih
    simp only [List.length_cons]
    omega

theorem length_readBasicLines? {folding : Bool} {cs t r : List Char}
    (h : readBasicLines? folding cs = some (t, r)) : r.length < cs.length := by
  fun_induction readBasicLines? folding cs generalizing t r with
  | case1 | case5 | case7 | case11 | case17 => cases h
  | case2 | case3 | case4 => cases h; simp only [List.length_cons]; omega
  | case10 | case12 | case14 | case16 =>
    rename_i ih
    have := ih h
    simp only [List.length_cons] at this ⊢
    omega
  | case6 | case8 | case9 | case13 | case15 | case18 =>
    rename_i ih
    have := length_of_map_consChar h ih
    simp only [List.length_cons]
    omega

theorem length_readLiteralLines? {cs t r : List Char} (h : readLiteralLines? cs = some (t, r)) :
    r.length < cs.length := by
  fun_induction readLiteralLines? cs generalizing t r with
  | case1 | case7 => cases h
  | case2 | case3 | case4 => cases h; simp only [List.length_cons]; omega
  | case5 | case6 =>
    rename_i ih
    have := length_of_map_consChar h ih
    simp only [List.length_cons]
    omega

theorem length_readQuoted? {cs t r : List Char} {lines : Bool}
    (h : readQuoted? cs = some (lines, t, r)) : r.length ≤ cs.length := by
  unfold readQuoted? at h
  split at h
  · obtain ⟨q, hq, e⟩ := Option.map_eq_some_iff.1 h
    cases e
    have h₁ := length_readBasicLines? hq
    have h₂ := length_dropNewline ‹List Char›
    simp only [List.length_cons]
    omega
  · obtain ⟨q, hq, e⟩ := Option.map_eq_some_iff.1 h
    cases e
    exact Nat.le_of_lt (length_readBasic? hq)

theorem length_readVerbatim? {cs t r : List Char} {lines : Bool}
    (h : readVerbatim? cs = some (lines, t, r)) : r.length ≤ cs.length := by
  unfold readVerbatim? at h
  split at h
  · obtain ⟨q, hq, e⟩ := Option.map_eq_some_iff.1 h
    cases e
    have h₁ := length_readLiteralLines? hq
    have h₂ := length_dropNewline ‹List Char›
    simp only [List.length_cons]
    omega
  · obtain ⟨q, hq, e⟩ := Option.map_eq_some_iff.1 h
    cases e
    exact Nat.le_of_lt (length_readLiteral? hq)

end CompactionLeasing.Toml

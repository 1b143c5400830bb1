import CompactionLeasing.Toml.Text

/-!
# Tokens of TOML

A text is a row of strings, words, marks and ends of lines, with gaps between them.
-/

namespace CompactionLeasing.Toml

inductive Token where
  | newline
  /-- Blanks, or a comment. -/
  | gap (cs : List Char)
  /-- Letters, digits and the signs that stand in names, numbers and times. -/
  | word (cs : List Char)
  /-- A string, and whether it stands between three quotes. -/
  | text (lines : Bool) (cs : List Char)
  | dot
  | comma
  | equals
  | openBracket
  | closeBracket
  | openBrace
  | closeBrace
deriving DecidableEq

namespace Token

def isWordChar (c : Char) : Bool :=
  c.isAlphanum || c == '-' || c == '_' || c == '+' || c == ':'

def ofMark? : Char → Option Token
  | '\n' => some newline
  | '.' => some dot
  | ',' => some comma
  | '=' => some equals
  | '[' => some openBracket
  | ']' => some closeBracket
  | '{' => some openBrace
  | '}' => some closeBrace
  | _ => none

def ofText (q : Bool × List Char × List Char) : Token × List Char := (text q.1 q.2.1, q.2.2)

/-- The token that begins with `c`, and what of `r` follows it. A comment goes up to the end of its
line. -/
def read? (c : Char) (r : List Char) : Option (Token × List Char) :=
  match ofMark? c with
  | some t => some (t, r)
  | none =>
    if c = '\r' then if r.head? = some '\n' then some (newline, r.tail) else none
    else if c = '"' then (readQuoted? r).map ofText
    else if c = '\'' then (readVerbatim? r).map ofText
    else if c = '#' then
      let rest := r.dropWhile isPlain
      if rest.isEmpty || beginsWithNewline rest then some (gap (c :: r.takeWhile isPlain), rest)
      else none
    else if isBlank c then some (gap (c :: r.takeWhile isBlank), r.dropWhile isBlank)
    else if isWordChar c then some (word (c :: r.takeWhile isWordChar), r.dropWhile isWordChar)
    else none

theorem length_read? {c : Char} {r r' : List Char} {t : Token} (h : read? c r = some (t, r')) :
    r'.length ≤ r.length := by
  have drop (p : Char → Bool) : (r.dropWhile p).length ≤ r.length :=
    (List.dropWhile_sublist p).length_le
  unfold read? at h
  split at h
  · cases h; exact Nat.le_refl _
  split at h
  · split at h
    · cases h; simp
    · cases h
  split at h
  · obtain ⟨q, hq, e⟩ := Option.map_eq_some_iff.1 h
    cases e
    exact length_readQuoted? hq
  split at h
  · obtain ⟨q, hq, e⟩ := Option.map_eq_some_iff.1 h
    cases e
    exact length_readVerbatim? hq
  split at h
  · dsimp only at h
    split at h
    · cases h; exact drop _
    · cases h
  split at h
  · cases h; exact drop _
  split at h
  · cases h; exact drop _
  · cases h

/-- The tokens of a text. -/
def ofChars? : List Char → Option (List Token)
  | [] => some []
  | c :: r =>
    match _h : read? c r with
    | none => none
    | some (t, r') => (ofChars? r').map (t :: ·)
termination_by cs => cs.length
decreasing_by
  have := length_read? _h
  simp only [List.length_cons]
  omega

end Token

end CompactionLeasing.Toml

import CompactionLeasing.Text.Hexadecimal

/-!
# Strings in JSON

Escaping of strings, and reading up to the closing quote. A string whose escapes name half of a
surrogate pair is well formed but stands for no text. `readText?_escape` says that an escaped text
reads back.
-/

namespace CompactionLeasing.Json

/-- What a backslash and one more character stand for. -/
def shortEscape? : Char → Option Char
  | '"' => some '"'
  | '\\' => some '\\'
  | '/' => some '/'
  | 'b' => some '\x08'
  | 'f' => some '\x0c'
  | 'n' => some '\n'
  | 'r' => some '\r'
  | 't' => some '\t'
  | _ => none

/-- A piece of the inside of a string: a character, or the UTF-16 unit that a numbered escape names. -/
inductive Piece where
  | char (c : Char)
  | unit (n : Nat)
deriving DecidableEq

/-- Puts a piece in front of those that were read. -/
def consPiece (p : Piece) (q : List Piece × List Char) : List Piece × List Char := (p :: q.1, q.2)

/-- Reads the inside of a string up to its closing quote, and gives what follows the quote; `none`
when the string is not well formed. -/
def readPieces? : List Char → Option (List Piece × List Char)
  | [] => none
  | '"' :: r => some ([], r)
  | '\\' :: 'u' :: a :: b :: c :: d :: r =>
    match Text.hexFrom? 0 [a, b, c, d] with
    | none => none
    | some n => (readPieces? r).map (consPiece (.unit n))
  | '\\' :: e :: r =>
    match shortEscape? e with
    | none => none
    | some c => (readPieces? r).map (consPiece (.char c))
  | c :: r => if c = '\\' ∨ c.toNat < 0x20 then none else (readPieces? r).map (consPiece (.char c))

/-- The text that pieces spell; `none` when a surrogate stands without its partner. -/
def ofPieces? : List Piece → Option (List Char)
  | [] => some []
  | .char c :: r => (ofPieces? r).map (c :: ·)
  | .unit n :: r =>
    if 0xd800 ≤ n ∧ n < 0xdc00 then
      match r with
      | .unit m :: r =>
        if 0xdc00 ≤ m ∧ m < 0xe000 then
          (ofPieces? r).map (Char.ofNat (0x10000 + (n - 0xd800) * 0x400 + (m - 0xdc00)) :: ·)
        else none
      | _ => none
    else if 0xdc00 ≤ n ∧ n < 0xe000 then none
    else (ofPieces? r).map (Char.ofNat n :: ·)

/-- Reads a string after its opening quote: the text it spells, if it spells one, and what follows
the closing quote. -/
def readText? (cs : List Char) : Option (Option String × List Char) :=
  (readPieces? cs).map fun q => ((ofPieces? q.1).map String.ofList, q.2)

/-- A character as it is written in a string: quotes, backslashes and controls are escaped. -/
def escapeChar (c : Char) : List Char :=
  if c = '"' then ['\\', '"']
  else if c = '\\' then ['\\', '\\']
  else if c = '\x08' then ['\\', 'b']
  else if c = '\t' then ['\\', 't']
  else if c = '\n' then ['\\', 'n']
  else if c = '\x0c' then ['\\', 'f']
  else if c = '\r' then ['\\', 'r']
  else if c.toNat < 0x20 then
    ['\\', 'u', '0', '0', Nat.digitChar (c.toNat / 16), Nat.digitChar (c.toNat % 16)]
  else [c]

/-- A text as it is written in a string, without the quotes. -/
def escape (cs : List Char) : List Char := cs.flatMap escapeChar

/-- The pieces that an escaped character is read as. -/
def pieceOf (c : Char) : Piece :=
  if c.toNat < 0x20 ∧ c ≠ '\x08' ∧ c ≠ '\t' ∧ c ≠ '\n' ∧ c ≠ '\x0c' ∧ c ≠ '\r' then .unit c.toNat
  else .char c

theorem readPieces?_control {n : Nat} (h : n < 0x20) (r : List Char) :
    readPieces? ('\\' :: 'u' :: '0' :: '0' :: Nat.digitChar (n / 16) :: Nat.digitChar (n % 16) :: r) =
      (readPieces? r).map (consPiece (.unit n)) := by
  have hn : ∀ n < 0x20,
      Text.hexFrom? 0 ['0', '0', Nat.digitChar (n / 16), Nat.digitChar (n % 16)] = some n := by decide
  rw [readPieces?]
  simp only [hn n h]

theorem readPieces?_plain {c : Char} (h₁ : c ≠ '"') (h₂ : c ≠ '\\') (h₃ : ¬ c.toNat < 0x20)
    (r : List Char) : readPieces? (c :: r) = (readPieces? r).map (consPiece (.char c)) := by
  rw [readPieces?.eq_def]
  split
  · simp_all
  · simp_all
  · simp_all
  · simp_all
  · rename_i heq
    cases heq
    rw [if_neg (by simp [h₂, h₃])]

theorem readPieces?_escapeChar (c : Char) (r : List Char) :
    readPieces? (escapeChar c ++ r) = (readPieces? r).map (consPiece (pieceOf c)) := by
  unfold escapeChar
  split
  · subst_vars; simp [readPieces?, shortEscape?, pieceOf]
  split
  · subst_vars; simp [readPieces?, shortEscape?, pieceOf]
  split
  · subst_vars; simp [readPieces?, shortEscape?, pieceOf]
  split
  · subst_vars; simp [readPieces?, shortEscape?, pieceOf]
  split
  · subst_vars; simp [readPieces?, shortEscape?, pieceOf]
  split
  · subst_vars; simp [readPieces?, shortEscape?, pieceOf]
  split
  · subst_vars; simp [readPieces?, shortEscape?, pieceOf]
  split
  · rename_i h
    have := readPieces?_control h r
    simp_all [pieceOf]
  · rename_i h₁ h₂ _ _ _ _ _ h₃
    rw [List.singleton_append, readPieces?_plain h₁ h₂ h₃ r, pieceOf, if_neg fun h => h₃ h.1]

theorem readPieces?_escape (cs r : List Char) :
    readPieces? (escape cs ++ '"' :: r) = some (cs.map pieceOf, r) := by
  induction cs with
  | nil => simp [escape, readPieces?]
  | cons c cs ih =>
    have : escape (c :: cs) = escapeChar c ++ escape cs := rfl
    rw [this, List.append_assoc, readPieces?_escapeChar, ih]
    rfl

theorem ofPieces?_map_pieceOf (cs : List Char) : ofPieces? (cs.map pieceOf) = some cs := by
  induction cs with
  | nil => rfl
  | cons c cs ih =>
    rw [List.map_cons]
    by_cases h : c.toNat < 0x20 ∧ c ≠ '\x08' ∧ c ≠ '\t' ∧ c ≠ '\n' ∧ c ≠ '\x0c' ∧ c ≠ '\r'
    · rw [show pieceOf c = .unit c.toNat from if_pos h, ofPieces?.eq_def]
      dsimp only
      rw [if_neg (by omega), if_neg (by omega), ih, Char.ofNat_toNat]
      rfl
    · rw [show pieceOf c = .char c from if_neg h, ofPieces?, ih]
      rfl

/-- Reading undoes escaping, and stops at the closing quote. -/
theorem readText?_escape (s : String) (r : List Char) :
    readText? (escape s.toList ++ '"' :: r) = some (some s, r) := by
  simp [readText?, readPieces?_escape, ofPieces?_map_pieceOf]

theorem length_readPieces? {cs r : List Char} {ps : List Piece}
    (h : readPieces? cs = some (ps, r)) : r.length < cs.length := by
  fun_induction readPieces? cs generalizing ps r with
  | case1 => cases h
  | case2 r => cases h; simp
  | case3 => cases h
  | case4 a b c d r' n _ ih =>
    obtain ⟨q, hq, e⟩ := Option.map_eq_some_iff.1 h
    cases e
    have := ih hq
    simp only [List.length_cons]
    omega
  | case5 => cases h
  | case6 e r' _ c _ ih =>
    obtain ⟨q, hq, e⟩ := Option.map_eq_some_iff.1 h
    cases e
    have := ih hq
    simp only [List.length_cons]
    omega
  | case7 => cases h
  | case8 c r' _ _ _ _ ih =>
    obtain ⟨q, hq, e⟩ := Option.map_eq_some_iff.1 h
    cases e
    have := ih hq
    simp only [List.length_cons]
    omega

/-- What follows a string is shorter than the string with its end. -/
theorem length_readText? {cs r : List Char} {t : Option String}
    (h : readText? cs = some (t, r)) : r.length < cs.length := by
  obtain ⟨q, hq, e⟩ := Option.map_eq_some_iff.1 h
  cases e
  exact length_readPieces? hq

end CompactionLeasing.Json

import CompactionLeasing.Json.Number
import CompactionLeasing.Json.Text

/-!
# Tokens of JSON

A JSON text is a row of tokens with spaces between them.
-/

namespace CompactionLeasing.Json

inductive Token where
  | openObject
  | closeObject
  | openArray
  | closeArray
  | colon
  | comma
  | null
  | bool (b : Bool)
  | number (n : Number)
  /-- A string; `none` when it spells no text. -/
  | text (t : Option String)
deriving DecidableEq

namespace Token

def isSpace (c : Char) : Bool := c == ' ' || c == '\n' || c == '\t' || c == '\r'

def ofWord? (cs : List Char) : Option Token :=
  if cs = ['n', 'u', 'l', 'l'] then some null
  else if cs = ['t', 'r', 'u', 'e'] then some (bool true)
  else if cs = ['f', 'a', 'l', 's', 'e'] then some (bool false)
  else none

def ofMark? : Char → Option Token
  | '{' => some openObject
  | '}' => some closeObject
  | '[' => some openArray
  | ']' => some closeArray
  | ':' => some colon
  | ',' => some comma
  | _ => none

/-- The token that begins with `c`, and what of `r` follows it. -/
def read? (c : Char) (r : List Char) : Option (Token × List Char) :=
  match ofMark? c with
  | some t => some (t, r)
  | none =>
    if c = '"' then (readText? r).map fun p => (text p.1, p.2)
    else if Number.isLiteralChar c then
      (Number.ofLiteral? (c :: r.takeWhile Number.isLiteralChar)).map fun n =>
        (number n, r.dropWhile Number.isLiteralChar)
    else
      (ofWord? (c :: r.takeWhile Char.isAlpha)).map fun t => (t, r.dropWhile Char.isAlpha)

theorem length_read? {c : Char} {r r' : List Char} {t : Token} (h : read? c r = some (t, r')) :
    r'.length ≤ r.length := by
  unfold read? at h
  split at h
  · cases h; exact Nat.le_refl _
  split at h
  · obtain ⟨q, hq, e⟩ := Option.map_eq_some_iff.1 h
    cases e
    exact Nat.le_of_lt (length_readText? hq)
  split at h
  · obtain ⟨n, _, e⟩ := Option.map_eq_some_iff.1 h
    cases e
    exact (List.dropWhile_sublist _).length_le
  · obtain ⟨n, _, e⟩ := Option.map_eq_some_iff.1 h
    cases e
    exact (List.dropWhile_sublist _).length_le

/-- The tokens of a text, if it consists of tokens and spaces. -/
def ofText? : List Char → Option (List Token)
  | [] => some []
  | c :: r =>
    if isSpace c then ofText? r
    else
      match _h : read? c r with
      | none => none
      | some (t, r') => (ofText? r').map (t :: ·)
termination_by cs => cs.length
decreasing_by
  · simp
  · have := length_read? _h
    simp only [List.length_cons]
    omega

def render : Token → List Char
  | openObject => ['{']
  | closeObject => ['}']
  | openArray => ['[']
  | closeArray => [']']
  | colon => [':']
  | comma => [',']
  | null => ['n', 'u', 'l', 'l']
  | bool true => ['t', 'r', 'u', 'e']
  | bool false => ['f', 'a', 'l', 's', 'e']
  | number n => n.literal
  | text (some t) => '"' :: escape t.toList ++ ['"']
  | text none => ['"', '\\', 'u', 'd', '8', '0', '0', '"']

end Token

end CompactionLeasing.Json

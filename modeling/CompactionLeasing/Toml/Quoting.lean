/-!
# Writing strings in TOML

A string is written in the plainest of its forms that can hold it. Only the basic forms can hold every
string, as they alone have escapes. To choose a form, the quotes in a row are counted, and in a string
that is to be written they must not be more than fit into eight bits.
-/

namespace CompactionLeasing.Toml

/-- The written forms of a string. -/
inductive Quoting where
  | basic
  | literal
  | basicLines
  | literalLines
deriving DecidableEq

/-- The controls for which only an escape can stand: all but the tab and the end of a line. -/
def needsEscape (c : Char) : Bool := (c.toNat < 0x20 && c != '\t' && c != '\n') || c == '\x7f'

/-- Whether a character occurs three times in a row. -/
def hasThree (q : Char) : List Char → Bool
  | a :: b :: c :: r => (a == q && b == q && c == q) || hasThree q (b :: c :: r)
  | _ => false

/-- Whether a character occurs more than `limit` times in a row, `run` of them before the first. -/
def hasRun (q : Char) (limit : Nat) (run : Nat) : List Char → Bool
  | [] => limit < run
  | c :: r => limit < run || hasRun q limit (if c = q then run + 1 else 0) r

/-- Whether the quotes in a row can be counted in eight bits. -/
def isCountable (cs : List Char) : Bool :=
  let limit := UInt8.size - 1
  !hasRun '\'' limit 0 cs && !hasRun '"' limit 0 cs

namespace Quoting

/-- Whether the string reads the same when it is written in the form without escapes, tabs apart. -/
def fits (cs : List Char) : Quoting → Bool
  | basic => !cs.any needsEscape && !cs.contains '\\' && !cs.contains '"' && !cs.contains '\n'
  | literal => !cs.any needsEscape && !cs.contains '\'' && !cs.contains '\n'
  | basicLines => !cs.any needsEscape && !cs.contains '\\' && !hasThree '"' cs
  | literalLines => !cs.any needsEscape && !hasThree '\'' cs

/-- The form in which a string is written: the first one that fits, or else a basic one, of several
lines where the string has several. -/
def choose (cs : List Char) : Quoting :=
  match [basic, literal, basicLines, literalLines].find? (fits cs) with
  | some q => q
  | none => if cs.contains '\n' then basicLines else basic

def quotes : Quoting → List Char
  | basic => ['"']
  | literal => ['\'']
  | basicLines => ['"', '"', '"']
  | literalLines => ['\'', '\'', '\'']

def escapeChar (c : Char) : List Char :=
  if c = '"' then ['\\', '"']
  else if c = '\\' then ['\\', '\\']
  else if c = '\x08' then ['\\', 'b']
  else if c = '\t' then ['\\', 't']
  else if c = '\n' then ['\\', 'n']
  else if c = '\x0c' then ['\\', 'f']
  else if c = '\r' then ['\\', 'r']
  else if c.toNat < 0x20 ∨ c = '\x7f' then
    ['\\', 'u', '0', '0', (Nat.digitChar (c.toNat / 16)).toUpper,
      (Nat.digitChar (c.toNat % 16)).toUpper]
  else [c]

/-- The characters of a basic string of several lines, after `run` unescaped quotes. The end of a
line stands for itself, and so does a quote, unless it is the third in a row. -/
def escapeLines (run : Nat) : List Char → List Char
  | [] => []
  | c :: r =>
    if c = '"' then
      if run = 2 then escapeChar c ++ escapeLines 0 r else c :: escapeLines (run + 1) r
    else if c = '\n' then c :: escapeLines 0 r
    else escapeChar c ++ escapeLines 0 r

/-- The characters between the quotes. An end of a line right after the opening quotes does not
count, so one is put in front where there are several lines. -/
def inside (cs : List Char) : Quoting → List Char
  | basic => cs.flatMap escapeChar
  | literal => cs
  | basicLines => (if cs.contains '\n' then ['\n'] else []) ++ escapeLines 0 cs
  | literalLines => (if cs.contains '\n' then ['\n'] else []) ++ cs

end Quoting

def quote (cs : List Char) : List Char :=
  let q := Quoting.choose cs
  q.quotes ++ q.inside cs ++ q.quotes

end CompactionLeasing.Toml

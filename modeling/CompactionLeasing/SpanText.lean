import CompactionLeasing.Text.Blank
import CompactionLeasing.Text.Decimal
import CompactionLeasing.Text.Quoted
import CompactionLeasing.Time

/-!
# Spans as text

A span is written as a whole number and a unit, such as `250ms`, `30s`, `5m` or `1h`. Blanks may
stand around the text and between number and unit, and one `+` may precede the digits.
-/

namespace CompactionLeasing

/-- Why a text denotes no span. Each cause keeps the text without the blanks around it. -/
inductive SpanTextError where
  /-- The text does not end in a unit. -/
  | missingUnit (text : String)
  /-- What precedes the unit is no whole number below `2 ^ 64`. -/
  | malformed (text : String)
  /-- The span has `2 ^ 64` seconds or more. -/
  | tooLarge (text : String)
deriving DecidableEq

def SpanTextError.message : SpanTextError → String
  | missingUnit text =>
    "invalid duration " ++ Text.quoted text ++ ": expected a ms, s, m or h suffix"
  | malformed text => "invalid duration " ++ Text.quoted text
  | tooLarge text => "duration " ++ Text.quoted text ++ " is too large"

inductive SpanUnit where
  | millisecond
  | second
  | minute
  | hour
deriving DecidableEq

namespace SpanUnit

def suffix : SpanUnit → List Char
  | millisecond => ['m', 's']
  | second => ['s']
  | minute => ['m']
  | hour => ['h']

def nanos : SpanUnit → Nat
  | millisecond => 1000000
  | second => 1000000000
  | minute => 60 * 1000000000
  | hour => 3600 * 1000000000

/-- Splits a text into what precedes its unit and the unit. The longest unit that fits is taken. -/
def split? (cs : List Char) : Option (List Char × SpanUnit) :=
  match cs.reverse with
  | 's' :: 'm' :: r => some (r.reverse, millisecond)
  | 's' :: r => some (r.reverse, second)
  | 'm' :: r => some (r.reverse, minute)
  | 'h' :: r => some (r.reverse, hour)
  | _ => none

end SpanUnit

namespace Span

/-- The number in front of a unit: one optional `+` and digits that denote a number below
`2 ^ 64`, with blanks around them. -/
def amount? (cs : List Char) : Option Nat :=
  let digits := match Text.trim cs with
    | '+' :: r => r
    | r => r
  match Text.ofDigits? digits with
  | some n => if n < 0x10000000000000000 then some n else none
  | none => none

def ofText (s : String) : Except SpanTextError Span :=
  let cs := Text.trim s.toList
  match SpanUnit.split? cs with
  | none => .error (.missingUnit (String.ofList cs))
  | some (digits, unit) =>
    match amount? digits with
    | none => .error (.malformed (String.ofList cs))
    | some n =>
      match ofNanos? (n * unit.nanos) with
      | none => .error (.tooLarge (String.ofList cs))
      | some d => .ok d

end Span

end CompactionLeasing

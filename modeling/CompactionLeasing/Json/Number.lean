import CompactionLeasing.Text.Decimal
import CompactionLeasing.Text.FloatRange

/-!
# Numbers in JSON

Only whole numbers matter to the records kept in the store, so a number is kept as the whole number
it is, or as the reason why it is none.
-/

namespace CompactionLeasing.Json

inductive Number where
  /-- A whole number of 64 bits without sign, fraction and exponent. -/
  | natural (n : Nat)
  /-- Any other number that has a double. -/
  | other
  /-- A number beyond every finite double. -/
  | outOfRange
deriving DecidableEq

namespace Number

/-- The characters of which number literals consist. -/
def isLiteralChar (c : Char) : Bool :=
  c.isDigit || c == '-' || c == '+' || c == '.' || c == 'e' || c == 'E'

/-- The exponent that the end of a literal denotes, after its mark and sign. -/
def exponent? (sign : Int) (cs : List Char) : Option Int :=
  (Text.ofDigits? cs).map (sign * ·)

/-- The parts of the end of a literal, from the point on: the digits after the point, and the
exponent if there is one. -/
def tail? (cs : List Char) : Option (List Char × Option Int) :=
  let frac? : Option (List Char × List Char) := match cs with
    | '.' :: r =>
      let ds := r.takeWhile Char.isDigit
      if ds.isEmpty then none else some (ds, r.dropWhile Char.isDigit)
    | _ => some ([], cs)
  match frac? with
  | none => none
  | some (frac, []) => some (frac, none)
  | some (frac, mark :: r) =>
    if mark = 'e' || mark = 'E' then
      let exp? := match r with
        | '+' :: r => exponent? 1 r
        | '-' :: r => exponent? (-1) r
        | _ => exponent? 1 r
      exp?.map fun e => (frac, some e)
    else none

/-- The digits that are kept after those of `n`, and how many are dropped: digits are kept up to the
first one with which the number would not fit into 64 bits. -/
def keepDigits (n : Nat) : List Char → Nat × Nat
  | [] => (n, 0)
  | c :: r =>
    let next := n * 10 + (c.toNat - '0'.toNat)
    if next < UInt64.size then keepDigits next r else (n, (c :: r).length)

/-- Whether the digits before and after the point, with the exponent, denote a number beyond every
finite double. What is dropped before the point raises the exponent, and what is kept after it lowers
the exponent. -/
def isOutOfRange (int frac : List Char) (exp : Int) : Bool :=
  let (n, dropped) := keepDigits 0 int
  let (n, droppedAfter) := keepDigits n frac
  Text.exceedsFloatFactored n (exp + dropped - (frac.length - droppedAfter : Nat))

/-- The number that a literal denotes. A literal has no leading zero, no leading `+`, and digits on
both sides of its point. -/
def ofLiteral? (cs : List Char) : Option Number :=
  let (negative, cs) := match cs with
    | '-' :: r => (true, r)
    | _ => (false, cs)
  let int := cs.takeWhile Char.isDigit
  if int.isEmpty || (int.head? = some '0' && int.length ≠ 1) then none
  else
    match tail? (cs.dropWhile Char.isDigit) with
    | none => none
    | some (frac, exp) =>
      let whole := (Text.digitsFrom? 0 int).getD 0
      if frac.isEmpty && exp.isNone && whole < UInt64.size then
        some (if negative then other else natural whole)
      else if isOutOfRange int frac (exp.getD 0) then some outOfRange
      else some other

/-- A literal that denotes the number. The kinds that keep no value have one literal each. -/
def literal : Number → List Char
  | natural n => Text.decimal n
  | other => ['-', '0']
  | outOfRange => ['1', 'e', '9', '9', '9']

end Number

end CompactionLeasing.Json

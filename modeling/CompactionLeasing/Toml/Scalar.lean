import CompactionLeasing.Text.Decimal
import CompactionLeasing.Text.FloatRange
import CompactionLeasing.Text.Hexadecimal

/-!
# Unquoted values in TOML

Truth values, whole numbers, numbers with a fraction, dates and times. Of numbers with a fraction and
of dates and times only the kind is kept.
-/

namespace CompactionLeasing.Toml

inductive Scalar where
  | boolean (b : Bool)
  | integer (n : Int)
  | real
  | moment
deriving DecidableEq

namespace Scalar

/-- The digits of a numeral, in which a single underscore may stand between two digits. -/
def digits? (isDigit : Char → Bool) : List Char → Option (List Char)
  | [] => none
  | [c] => if isDigit c then some [c] else none
  | c :: '_' :: r => if isDigit c then (digits? isDigit r).map (c :: ·) else none
  | c :: r => if isDigit c then (digits? isDigit r).map (c :: ·) else none

/-- The digits of a decimal numeral without leading zeros. -/
def whole? (cs : List Char) : Option (List Char) :=
  match digits? Char.isDigit cs with
  | none => none
  | some ds => if ds.head? = some '0' ∧ ds.length ≠ 1 then none else some ds

/-- Takes a sign off; the first part says whether it was a minus. -/
def sign : List Char → Bool × List Char
  | '-' :: r => (true, r)
  | '+' :: r => (false, r)
  | r => (false, r)

/-- A whole number, if it fits in 64 signed bits. -/
def ofInt? (n : Int) : Option Scalar :=
  if -0x8000000000000000 ≤ n ∧ n < 0x8000000000000000 then some (integer n) else none

def decimal? (cs : List Char) : Option Scalar :=
  let (negative, r) := sign cs
  match whole? r with
  | none => none
  | some ds =>
    match Text.digitsFrom? 0 ds with
    | none => none
    | some n => ofInt? (if negative then -n else n)

/-- The number that digits of a base denote. -/
def ofBase? (base : Nat) (cs : List Char) : Option Scalar :=
  match digits? (fun c => (Text.hexDigit? c).any (· < base)) cs with
  | none => none
  | some ds => ofInt? (ds.foldl (fun n c => n * base + (Text.hexDigit? c).getD 0) 0 : Nat)

/-- Whole numbers; those in another base than ten have a mark in front. -/
def integer? : List Char → Option Scalar
  | '0' :: 'x' :: r => ofBase? 16 r
  | '0' :: 'o' :: r => ofBase? 8 r
  | '0' :: 'b' :: r => ofBase? 2 r
  | r => decimal? r

def isExponentMark (c : Char) : Bool := c == 'e' || c == 'E'

def exponent? (cs : List Char) : Option Int :=
  let (negative, r) := sign cs
  match digits? Char.isDigit r with
  | none => none
  | some ds => (Text.digitsFrom? 0 ds).map fun n => if negative then -n else n

def fraction? : List Char → Option (List Char)
  | '.' :: r => digits? Char.isDigit r
  | _ => none

/-- A number with a fraction, an exponent or both. A positive one must not exceed every finite
double. -/
def fractional? (cs : List Char) : Option Scalar :=
  let (negative, r) := sign cs
  let mantissa := r.takeWhile (!isExponentMark ·)
  let frac := mantissa.dropWhile (· ≠ '.')
  let exp? := match r.dropWhile (!isExponentMark ·) with
    | [] => some 0
    | _ :: r => exponent? r
  match whole? (mantissa.takeWhile (· ≠ '.')), if frac.isEmpty then some [] else fraction? frac,
      exp? with
  | some int, some frac, some exp =>
    let digits := (Text.digitsFrom? 0 (int ++ frac)).getD 0
    if !negative && Text.exceedsFloat digits (exp - frac.length) then none else some real
  | _, _, _ => none

/-- Infinity and what is no number. -/
def isSpecial (cs : List Char) : Bool :=
  let r := (sign cs).2
  r = ['i', 'n', 'f'] || r = ['n', 'a', 'n']

/-- The number that two digits denote, if it is in a range. -/
def pair? (low high : Nat) (a b : Char) : Option Nat :=
  match Text.ofDigits? [a, b] with
  | none => none
  | some n => if low ≤ n ∧ n ≤ high then some n else none

/-- How many days a month has. -/
def daysIn (year month : Nat) : Nat :=
  if month = 2 then
    if year % 4 = 0 ∧ (year % 100 ≠ 0 ∨ year % 400 = 0) then 29 else 28
  else if month = 4 ∨ month = 6 ∨ month = 9 ∨ month = 11 then 30
  else 31

/-- Takes a date off, and gives what follows it. -/
def date? : List Char → Option (List Char)
  | y :: y' :: y'' :: y''' :: '-' :: m :: m' :: '-' :: d :: d' :: r =>
    match Text.ofDigits? [y, y', y'', y'''], pair? 1 12 m m' with
    | some year, some month => (pair? 1 (daysIn year month) d d').map fun _ => r
    | _, _ => none
  | _ => none

/-- Takes a fraction of a second off. -/
def dropFraction : List Char → List Char
  | '.' :: c :: r => if c.isDigit then r.dropWhile Char.isDigit else '.' :: c :: r
  | r => r

/-- Takes a time of day off, and gives what follows it. A minute may have a leap second. -/
def time? : List Char → Option (List Char)
  | h :: h' :: ':' :: m :: m' :: ':' :: s :: s' :: r =>
    match pair? 0 23 h h', pair? 0 59 m m', pair? 0 60 s s' with
    | some _, some _, some _ => some (dropFraction r)
    | _, _, _ => none
  | _ => none

/-- Whether the text is an offset from universal time, or empty. -/
def isOffset : List Char → Bool
  | [] => true
  | ['Z'] | ['z'] => true
  | [s, h, h', ':', m, m'] =>
    (s == '+' || s == '-') && (pair? 0 23 h h').isSome && (pair? 0 59 m m').isSome
  | _ => false

def isDate (cs : List Char) : Bool := date? cs = some []

/-- Whether the text is a date, a time, or a date with a time. -/
def isMoment (cs : List Char) : Bool :=
  match date? cs with
  | some [] => true
  | some (c :: r) => (c == 'T' || c == 't' || c == ' ') && (time? r).any isOffset
  | none => time? cs = some []

def ofChars? (cs : List Char) : Option Scalar :=
  if cs = ['t', 'r', 'u', 'e'] then some (boolean true)
  else if cs = ['f', 'a', 'l', 's', 'e'] then some (boolean false)
  else if isMoment cs then some moment
  else if isSpecial cs then some real
  else
    match integer? cs with
    | some n => some n
    | none => if cs.any fun c => c = '.' || isExponentMark c then fractional? cs else none

end Scalar

end CompactionLeasing.Toml

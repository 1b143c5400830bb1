import CompactionLeasing.Toml.Token
import CompactionLeasing.Toml.Value

/-!
# Statements of TOML

A document is a row of statements, one a line: a header opens a table, and an assignment gives a value
to a key. Only arrays and strings may go over several lines.
-/

namespace CompactionLeasing.Toml

inductive Statement where
  /-- The header of a table. -/
  | table (key : Key)
  /-- The header of one more row. -/
  | row (key : Key)
  | assign (key : Key) (v : Value)

inductive Frame where
  /-- An assignment that is a statement. -/
  | statement (key : Key)
  /-- An array; its finished items stand in reverse order. -/
  | array (items : List Value)
  /-- An inline table; its finished pairs stand in reverse order. -/
  | inline (pairs : List (Key × Value))
  /-- An inline table, and the key whose value is being read. -/
  | pair (pairs : List (Key × Value)) (key : Key)

/-- What a key is read for. -/
inductive KeyUse where
  | table
  | row
  | assign
deriving DecidableEq

/-- What may come next. -/
inductive Expect where
  /-- A statement, at the beginning of a line. -/
  | statement
  | header
  /-- A part of a key; those that have been read stand in reverse order. -/
  | part (use : KeyUse) (parts : List String)
  /-- A dot, or what ends the key. -/
  | keyEnd (use : KeyUse) (parts : List String)
  /-- The second bracket that ends the header of a row. -/
  | rowEnd (key : Key)
  | value
  /-- An item of an array, or its end. -/
  | item
  /-- The first pair of an inline table, or its end. -/
  | firstPair
  /-- More of an unquoted value. -/
  | scalar (cs : List Char)
  /-- The time that belongs to a date, directly after one space. -/
  | time (date : List Char)
  /-- A comma, or the end of the innermost array or inline table. -/
  | more
  | lineEnd

/-- What has been read of a document: the statements, in reverse order, what is open, innermost first,
and what may come next. -/
structure Reading where
  statements : List Statement
  stack : List Frame
  expect : Expect

namespace Reading

/-- Arrays and inline tables are nested less than this deep, and keys have fewer parts. -/
def limit : Nat := 80

def expecting (p : Reading) (e : Expect) : Reading := { p with expect := e }

/-- Hands a finished value to what is open. -/
def deliver (p : Reading) (v : Value) : Option Reading :=
  match p.stack with
  | [.statement key] => some ⟨.assign key v :: p.statements, [], .lineEnd⟩
  | .array vs :: s => some ⟨p.statements, .array (v :: vs) :: s, .more⟩
  | .pair ps key :: s => some ⟨p.statements, .inline ((key, v) :: ps) :: s, .more⟩
  | _ => none

/-- Opens an array or inline table. -/
def descend (p : Reading) (f : Frame) (e : Expect) : Option Reading :=
  if p.stack.length < limit then some ⟨p.statements, f :: p.stack, e⟩ else none

/-- Whether an array is the innermost that is open. -/
def inArray (p : Reading) : Bool :=
  match p.stack with
  | .array _ :: _ => true
  | _ => false

/-- Reads the mark that ends the innermost array or inline table. -/
def close (p : Reading) (t : Token) : Option Reading :=
  match p.stack, t with
  | .array vs :: s, .closeBracket => deliver { p with stack := s } (.array vs.reverse)
  | .inline ps :: s, .closeBrace =>
    match Fields.ofPairs? ps.reverse with
    | none => none
    | some fs => deliver { p with stack := s } (.table .inline fs)
  | _, _ => none

def part? : Token → Option String
  | .word cs => if cs.all fun c => c.isAlphanum || c = '-' || c = '_' then some (.ofList cs) else none
  | .text false cs => some (.ofList cs)
  | _ => none

def readPart (p : Reading) (use : KeyUse) (parts : List String) (t : Token) : Option Reading :=
  (part? t).map fun s => p.expecting (.keyEnd use (s :: parts))

def beginValue (p : Reading) (key : Key) : Option Reading :=
  match p.stack with
  | [] => some ⟨p.statements, [.statement key], .value⟩
  | .inline ps :: s => some ⟨p.statements, .pair ps key :: s, .value⟩
  | _ => none

def stepKey (p : Reading) (use : KeyUse) (parts : List String) (t : Token) : Option Reading :=
  match use, t with
  | _, .gap _ => some p
  | _, .dot => some (p.expecting (.part use parts))
  | .assign, .equals => if parts.length < limit then p.beginValue parts.reverse else none
  | .table, .closeBracket =>
    if parts.length < limit then
      some ⟨.table parts.reverse :: p.statements, p.stack, .lineEnd⟩
    else none
  | .row, .closeBracket =>
    if parts.length < limit then some (p.expecting (.rowEnd parts.reverse)) else none
  | _, _ => none

def stepValue (p : Reading) (t : Token) : Option Reading :=
  match t with
  | .gap _ => some p
  | .newline => if p.inArray then some p else none
  | .text _ cs => p.deliver (.text (.ofList cs))
  | .word cs => some (p.expecting (.scalar cs))
  | .openBracket => p.descend (.array []) .item
  | .openBrace => p.descend (.inline []) .firstPair
  | _ => none

def stepAfter (p : Reading) (t : Token) : Option Reading :=
  match p.expect, t with
  | _, .gap _ => some p
  | .lineEnd, .newline => some (p.expecting .statement)
  | .more, .newline => if p.inArray then some p else none
  | .more, .comma => some (p.expecting (if p.inArray then .item else .part .assign []))
  | .more, t => p.close t
  | _, _ => none

def endScalar (p : Reading) (cs : List Char) (t : Token) : Option Reading :=
  match Scalar.ofChars? cs with
  | none => none
  | some v =>
    match p.deliver (.scalar v) with
    | none => none
    | some p => p.stepAfter t

def step (p : Reading) (t : Token) : Option Reading :=
  match p.expect, t with
  | .statement, .gap _ => some p
  | .statement, .newline => some p
  | .statement, .openBracket => some (p.expecting .header)
  | .statement, t => p.readPart .assign [] t
  | .header, .openBracket => some (p.expecting (.part .row []))
  | .header, .gap _ => some (p.expecting (.part .table []))
  | .header, t => p.readPart .table [] t
  | .part _ _, .gap _ => some p
  | .part use parts, t => p.readPart use parts t
  | .keyEnd use parts, t => p.stepKey use parts t
  | .rowEnd key, .closeBracket => some ⟨.row key :: p.statements, p.stack, .lineEnd⟩
  | .rowEnd _, _ => none
  | .value, t => p.stepValue t
  | .item, .closeBracket => p.close .closeBracket
  | .item, t => p.stepValue t
  | .firstPair, .closeBrace => p.close .closeBrace
  | .firstPair, .gap _ => some p
  | .firstPair, t => p.readPart .assign [] t
  | .scalar cs, .word w => some (p.expecting (.scalar (cs ++ w)))
  | .scalar cs, .dot => some (p.expecting (.scalar (cs ++ ['.'])))
  | .scalar cs, t =>
    if t = .gap [' '] ∧ Scalar.isDate cs then some (p.expecting (.time cs)) else p.endScalar cs t
  | .time date, .word w => some (p.expecting (.scalar (date ++ ' ' :: w)))
  | .time date, t => p.endScalar date t
  | .more, t => p.stepAfter t
  | .lineEnd, t => p.stepAfter t

def run (p : Reading) : List Token → Option Reading
  | [] => some p
  | t :: ts =>
    match p.step t with
    | none => none
    | some p => run p ts

end Reading

namespace Statement

/-- The statements that a row of tokens consists of. The last line needs no end. -/
def ofTokens? (ts : List Token) : Option (List Statement) :=
  match Reading.run ⟨[], [], .statement⟩ (ts ++ [.newline]) with
  | some ⟨statements, _, .statement⟩ => some statements.reverse
  | _ => none

end Statement

end CompactionLeasing.Toml

import CompactionLeasing.Json.Token

/-!
# JSON values

Values, their tokens, and the reading of a row of tokens as one value. Reading keeps the order of
fields and does not merge fields of one name: what repeated and unknown fields mean is for the
record that is read to say.
-/

namespace CompactionLeasing.Json

inductive Value where
  | null
  | bool (b : Bool)
  | number (n : Number)
  /-- A string; `none` when it spells no text. -/
  | text (t : Option String)
  | array (items : List Value)
  | object (fields : List (Option String × Value))

namespace Value

mutual

def tokens : Value → List Token
  | null => [.null]
  | bool b => [.bool b]
  | number n => [.number n]
  | text t => [.text t]
  | array [] => [.openArray, .closeArray]
  | array (v :: vs) => .openArray :: v.tokens ++ tokensOfItems vs
  | object [] => [.openObject, .closeObject]
  | object ((k, v) :: fs) => .openObject :: .text k :: .colon :: v.tokens ++ tokensOfFields fs

/-- The tokens after the first item of an array. -/
def tokensOfItems : List Value → List Token
  | [] => [.closeArray]
  | v :: vs => .comma :: v.tokens ++ tokensOfItems vs

/-- The tokens after the first field of an object. -/
def tokensOfFields : List (Option String × Value) → List Token
  | [] => [.closeObject]
  | (k, v) :: fs => .comma :: .text k :: .colon :: v.tokens ++ tokensOfFields fs

end

/-- The value as it is written, without spaces. -/
def render (v : Value) : String := String.ofList (v.tokens.flatMap Token.render)

mutual

/-- Whether every string in the value spells a text, no number is out of range, and arrays and
objects are nested at most `room` deep. -/
def isSound (room : Nat) : Value → Bool
  | null => true
  | bool _ => true
  | number n => n != .outOfRange
  | text t => t.isSome
  | array vs => 0 < room && areSound (room - 1) vs
  | object fs => 0 < room && fieldsAreSound (room - 1) fs

def areSound (room : Nat) : List Value → Bool
  | [] => true
  | v :: vs => v.isSound room && areSound room vs

def fieldsAreSound (room : Nat) : List (Option String × Value) → Bool
  | [] => true
  | (k, v) :: fs => k.isSome && v.isSound room && fieldsAreSound room fs

end

end Value

/-- An array or object whose end has not been read yet. Finished items and fields stand in reverse
order. -/
inductive Frame where
  | array (items : List Value)
  | object (fields : List (Option String × Value))
  /-- An object and the name of the field whose value is being read. -/
  | field (fields : List (Option String × Value)) (key : Option String)

/-- What may come next. -/
inductive Expect where
  | value
  /-- The first item of an array, or its end. -/
  | firstItem
  /-- The first field of an object, or its end. -/
  | firstField
  /-- The name of a field. -/
  | key
  /-- The colon after the name of a field. -/
  | colon (key : Option String)
  /-- A comma, or the end of the innermost array or object. -/
  | more
  /-- Nothing: the value is complete. -/
  | nothing (v : Value)

/-- What has been read of a value: the arrays and objects that are open, innermost first, and what may
come next. -/
structure Reading where
  stack : List Frame
  expect : Expect

namespace Reading

/-- Hands a complete value to the innermost open array or field. -/
def deliver (v : Value) : List Frame → Option Reading
  | [] => some ⟨[], .nothing v⟩
  | .array vs :: s => some ⟨.array (v :: vs) :: s, .more⟩
  | .field fs k :: s => some ⟨.object ((k, v) :: fs) :: s, .more⟩
  | .object _ :: _ => none

def beginValue (s : List Frame) : Token → Option Reading
  | .null => deliver .null s
  | .bool b => deliver (.bool b) s
  | .number n => deliver (.number n) s
  | .text t => deliver (.text t) s
  | .openArray => some ⟨.array [] :: s, .firstItem⟩
  | .openObject => some ⟨.object [] :: s, .firstField⟩
  | _ => none

/-- Reads the token that ends the innermost array or object. -/
def close : List Frame → Token → Option Reading
  | .array vs :: s, .closeArray => deliver (.array vs.reverse) s
  | .object fs :: s, .closeObject => deliver (.object fs.reverse) s
  | _, _ => none

def step (p : Reading) (t : Token) : Option Reading :=
  match p.expect with
  | .value => beginValue p.stack t
  | .firstItem => if t = .closeArray then close p.stack t else beginValue p.stack t
  | .firstField =>
    match t with
    | .text k => some ⟨p.stack, .colon k⟩
    | _ => close p.stack t
  | .key =>
    match t with
    | .text k => some ⟨p.stack, .colon k⟩
    | _ => none
  | .colon k =>
    match t, p.stack with
    | .colon, .object fs :: s => some ⟨.field fs k :: s, .value⟩
    | _, _ => none
  | .more =>
    match t, p.stack with
    | .comma, .array _ :: _ => some ⟨p.stack, .value⟩
    | .comma, .object _ :: _ => some ⟨p.stack, .key⟩
    | _, _ => close p.stack t
  | .nothing _ => none

def run (p : Reading) : List Token → Option Reading
  | [] => some p
  | t :: ts =>
    match p.step t with
    | none => none
    | some p => run p ts

/-- The value that was read, once it is complete. -/
def result? (p : Reading) : Option Value :=
  match p.expect with
  | .nothing v => some v
  | _ => none

end Reading

namespace Value

def ofTokens? (ts : List Token) : Option Value :=
  match Reading.run ⟨[], .value⟩ ts with
  | none => none
  | some p => p.result?

def ofText? (s : String) : Option Value :=
  match Token.ofText? s.toList with
  | none => none
  | some ts => ofTokens? ts

end Value

end CompactionLeasing.Json

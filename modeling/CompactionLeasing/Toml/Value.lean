import CompactionLeasing.Toml.Scalar

/-!
# TOML values

Values, and how a table grows. A table remembers how it came to be, because that decides what may
still be added to it.
-/

namespace CompactionLeasing.Toml

abbrev Key := List String

/-- How a table came to be. -/
inductive Origin where
  /-- Written as a value; nothing can be added. -/
  | inline
  /-- Named on the way to a table in a header. -/
  | implied
  /-- Named on the way to a value in a dotted key. -/
  | dotted
  /-- Named by a header. -/
  | declared
deriving DecidableEq

inductive Value where
  | text (s : String)
  | scalar (v : Scalar)
  | array (items : List Value)
  | table (origin : Origin) (fields : List (String × Value))
  /-- The rows of a table that is declared row by row. -/
  | rows (rows : List (List (String × Value)))
deriving Inhabited

abbrev Fields := List (String × Value)

namespace Fields

def get? (fs : Fields) (name : String) : Option Value := fs.lookup name

/-- Sets a field. A new one comes last. -/
def set (name : String) (v : Value) : Fields → Fields
  | [] => [(name, v)]
  | (k, w) :: r => if k = name then (name, v) :: r else (k, w) :: set name v r

/-- Changes the table that a key leads to, where tables on the way are made if they are missing. A
key that leads through rows leads to the last of them. A dotted key does not lead into declared
tables, and no key leads into inline ones. -/
def alter (viaDots : Bool) (change : Origin → Fields → Option Fields) :
    Key → Origin → Fields → Option Fields
  | [], origin, fs => change origin fs
  | k :: ks, _, fs =>
    match fs.get? k with
    | none =>
      let origin := if viaDots then Origin.dotted else .implied
      (alter viaDots change ks origin []).map fun c => fs.set k (.table origin c)
    | some (.table origin c) =>
      if origin = .inline ∨ (viaDots ∧ origin = .declared) then none
      else (alter viaDots change ks origin c).map fun c => fs.set k (.table origin c)
    | some (.rows rs) =>
      match rs.getLast? with
      | none => none
      | some c =>
        (alter viaDots change ks .declared c).map fun c => fs.set k (.rows (rs.dropLast ++ [c]))
    | some _ => none

/-- Adds a field that a table does not have yet. -/
def add? (name : String) (v : Value) (fs : Fields) : Option Fields :=
  if (fs.get? name).isSome then none else some (fs.set name v)

/-- Gives a value to a key. A key of several parts ends in a table that dotted keys made. -/
def assign? (key : Key) (v : Value) (fs : Fields) : Option Fields :=
  match key.getLast? with
  | none => none
  | some name =>
    alter true
      (fun origin fs =>
        if key.length = 1 ∨ origin = .dotted then fs.add? name v else none)
      key.dropLast .declared fs

/-- Declares a table, which may have been implied before. -/
def declare? (key : Key) (fs : Fields) : Option Fields :=
  match key.getLast? with
  | none => none
  | some name =>
    alter false
      (fun _ fs =>
        match fs.get? name with
        | none => some (fs.set name (.table .declared []))
        | some (.table .implied c) => some (fs.set name (.table .declared c))
        | some _ => none)
      key.dropLast .declared fs

/-- Declares one more row. -/
def addRow? (key : Key) (fs : Fields) : Option Fields :=
  match key.getLast? with
  | none => none
  | some name =>
    alter false
      (fun _ fs =>
        match fs.get? name with
        | none => some (fs.set name (.rows [[]]))
        | some (.rows rs) => some (fs.set name (.rows (rs ++ [[]])))
        | some _ => none)
      key.dropLast .declared fs

/-- Gives a value to a key within the table that a header has declared. -/
def assignIn? (header key : Key) (v : Value) (fs : Fields) : Option Fields :=
  alter false (fun _ fs => fs.assign? key v) header .declared fs

/-- The table of keys with their values, if they can stand in one. -/
def ofPairs? (pairs : List (Key × Value)) : Option Fields :=
  pairs.foldlM (fun fs p => assign? p.1 p.2 fs) []

end Fields

end CompactionLeasing.Toml

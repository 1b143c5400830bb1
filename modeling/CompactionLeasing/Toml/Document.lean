import CompactionLeasing.Toml.Statement

/-!
# TOML documents

The table that the statements of a document build.
-/

namespace CompactionLeasing.Toml

/-- What the statements so far have built: all fields, and the header under which the next assignments
stand. -/
structure Document where
  fields : Fields
  header : Key

namespace Document

def execute? (d : Document) : Statement → Option Document
  | .table key => (d.fields.declare? key).map fun fs => ⟨fs, key⟩
  | .row key => (d.fields.addRow? key).map fun fs => ⟨fs, key⟩
  | .assign key v => (d.fields.assignIn? d.header key v).map fun fs => ⟨fs, d.header⟩

def ofStatements? (ss : List Statement) : Option Document := ss.foldlM execute? ⟨[], []⟩

/-- Drops the byte order mark with which a text may begin. -/
def dropMark : List Char → List Char
  | '\ufeff' :: r => r
  | r => r

def ofText? (s : String) : Option Fields :=
  match Token.ofChars? (dropMark s.toList) with
  | none => none
  | some ts =>
    match Statement.ofTokens? ts with
    | none => none
    | some ss => (ofStatements? ss).map Document.fields

end Document

end CompactionLeasing.Toml

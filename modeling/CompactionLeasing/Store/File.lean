import CompactionLeasing.Store.Basic

/-!
# Store files

What may be found in the place of the file that keeps the store, and which of it opens.
-/

namespace CompactionLeasing

inductive StoreFile where
  /-- Nothing is there, or a file without content. -/
  | vacant
  /-- A directory, or a file with some other content. -/
  | foreign
  /-- A store whose jobs table holds values of another kind. -/
  | mistyped
  | store (contents : Store)
deriving DecidableEq

namespace StoreFile

/-- Opens the file. Where nothing is, a new store begins. -/
def opened : StoreFile → Except StoreError Store
  | vacant => .ok .empty
  | foreign => .error .unopenable
  | mistyped => .error .table
  | store s => .ok s

end StoreFile

end CompactionLeasing

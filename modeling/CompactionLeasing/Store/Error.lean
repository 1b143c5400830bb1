import CompactionLeasing.Tenant
import CompactionLeasing.Text.Quoted

/-!
# Errors of the store
-/

namespace CompactionLeasing

/-- Why the store refuses a call. -/
inductive StoreError where
  | unopenable
  | transaction
  /-- A table of the file holds values of another kind. -/
  | table
  | read (cause : String)
  | write (cause : String)
  | serialize (cause : String)
  | deserialize
  | invalidTenant (tenant : TenantId)
deriving DecidableEq

namespace StoreError

/-- The cause of `serialize` when a record holds a time that cannot be written. -/
def beforeEpoch : String := "SystemTime must be later than UNIX_EPOCH"

/-- The wording of the error; some errors have no wording of their own. -/
def message? : StoreError → Option String
  | unopenable | transaction | table | deserialize => none
  | read cause => some ("read error: " ++ cause)
  | write cause => some ("write error: " ++ cause)
  | serialize cause => some ("serialization error: " ++ cause)
  | invalidTenant tenant => some ("invalid tenant id: " ++ Text.quoted tenant)

end StoreError

end CompactionLeasing

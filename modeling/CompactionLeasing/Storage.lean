import CompactionLeasing.Store.Basic

/-!
# Storage with outages

The job store as it is reached by the scheduler. Calls may fail before they touch the store; which
ones do is part of the state.
-/

namespace CompactionLeasing

/-- The calls that fail at present. -/
structure Outages where
  creation : List TenantId
  deletion : List TenantId
  writing : List TenantId
  recovery : Bool
deriving DecidableEq

namespace Outages

def none : Outages := ⟨[], [], [], false⟩

end Outages

structure Storage where
  store : Store
  outages : Outages
deriving DecidableEq

namespace Storage

def createTenant (s : Storage) (tenant : TenantId) (now : Instant) : Except StoreError Storage :=
  if s.outages.creation.contains tenant then .error (.write "init failed")
  else (s.store.putTenant tenant now).map fun store => { s with store := store }

def deleteTenant (s : Storage) (tenant : TenantId) : Except StoreError Storage :=
  if s.outages.deletion.contains tenant then .error (.write "delete failed")
  else (s.store.removeTenant tenant).map fun r => { s with store := r.2 }

def writeBatch (s : Storage) (tenant : TenantId) (batch : Batch) : Except StoreError Storage :=
  if s.outages.writing.contains tenant then .error (.write "disk full")
  else (s.store.writeBatch tenant batch).map fun store => { s with store := store }

def recoverAll (s : Storage) : Except StoreError (List (TenantId × RecoveredJobs)) :=
  if s.outages.recovery then .error (.read "recover failed") else s.store.recoverAll

end Storage

end CompactionLeasing

import CompactionLeasing.Scheduler.Basic

/-!
# Discovery of tenants

A pass reconciles the scheduler with the tenants that the bucket lists. Tenants that are new get
storage and a tracker. Tenants that are gone lose both; their trackers are retired first, so that
nobody who still holds one can write to storage that has been deleted.
-/

namespace CompactionLeasing

/-- Why discovery ended without success. -/
inductive DiscoveryError where
  | unlisted (cause : String)
  | shutdown
deriving DecidableEq

def DiscoveryError.message : DiscoveryError → String
  | unlisted cause => "tenant discovery failed: " ++ cause
  | shutdown => "shutdown requested"

/-- How a pass asks the storage to prepare and to delete tenants. -/
structure StorageAccess (m : Type → Type) where
  create : Storage → TenantId → Instant → m (Except StoreError Storage)
  delete : Storage → TenantId → m (Except StoreError Storage)

/-- The storage itself answers. -/
def StorageAccess.direct : StorageAccess Id := ⟨Storage.createTenant, Storage.deleteTenant⟩

namespace Scheduler

/-- The admitted ones of the listed tenants, sorted and without repetition. -/
def admitted (s : Scheduler) (listed : List TenantId) : Std.ExtTreeSet TenantId :=
  .ofList (listed.filter s.admission.admits)

/-- Makes a tracker for a new tenant. -/
def enlist (s : Scheduler) (tenant : TenantId) : Scheduler :=
  let (h, s) := s.enroll tenant .storage s.roster.signal
  let s := s.register tenant h
  { s with known := s.known.insert tenant }

/-- Forgets a tenant whose storage has been deleted. -/
def forget (s : Scheduler) (tenant : TenantId) (storage : Storage) : Scheduler :=
  { s with
    storage := storage
    known := s.known.erase tenant
    metrics := s.metrics.remove tenant }

section Access
variable {m : Type → Type} [Monad m] (ask : StorageAccess m)

/-- Takes up a tenant, unless its storage cannot be prepared. -/
def takeUpWith (s : Scheduler) (now : Instant) (tenant : TenantId) : m Scheduler :=
  if s.known.contains tenant then pure s
  else do
    let r ← ask.create s.storage tenant now
    match r with
    | .error _ => pure s
    | .ok storage => pure ({ s with storage := storage }.enlist tenant)

/-- Gives a tenant up. If its storage cannot be deleted, its tracker is put back. -/
def giveUpWith (s : Scheduler) (tenant : TenantId) : m Scheduler := do
  let (h, s) := s.unregister tenant
  let s := match h with
    | some h => s.retire h
    | none => s
  let r ← ask.delete s.storage tenant
  match r with
  | .error _ =>
    match h with
    | some h => pure ((s.reinstate h).register tenant h)
    | none => pure s
  | .ok storage => pure (s.forget tenant storage)

/-- Reconciles the scheduler with the listed tenants. -/
def reconcileWith (s : Scheduler) (now : Instant) (listed : List TenantId) : m Scheduler := do
  let seen := s.admitted listed
  let s ← seen.toList.foldlM (takeUpWith ask · now) s
  (s.known.toList.filter fun t => !seen.contains t).foldlM (giveUpWith ask) s

end Access

def takeUp (s : Scheduler) (now : Instant) (tenant : TenantId) : Scheduler :=
  (s.takeUpWith .direct now tenant).run

def giveUp (s : Scheduler) (tenant : TenantId) : Scheduler := (s.giveUpWith .direct tenant).run

def reconcile (s : Scheduler) (now : Instant) (listed : List TenantId) : Scheduler :=
  (s.reconcileWith .direct now listed).run

theorem takeUp_eq (s : Scheduler) (now : Instant) (tenant : TenantId) : s.takeUp now tenant =
    if s.known.contains tenant then s
    else
      match s.storage.createTenant tenant now with
      | .error _ => s
      | .ok storage => { s with storage := storage }.enlist tenant := by
  unfold takeUp takeUpWith
  split <;> rfl

theorem giveUp_eq (s : Scheduler) (tenant : TenantId) : s.giveUp tenant =
    let (h, s) := s.unregister tenant
    let s := match h with
      | some h => s.retire h
      | none => s
    match s.storage.deleteTenant tenant with
    | .error _ =>
      match h with
      | some h => (s.reinstate h).register tenant h
      | none => s
    | .ok storage => s.forget tenant storage := rfl

theorem reconcile_eq_foldl (s : Scheduler) (now : Instant) (listed : List TenantId) : s.reconcile now listed =
    let seen := s.admitted listed
    let s := seen.toList.foldl (takeUp · now) s
    (s.known.toList.filter fun t => !seen.contains t).foldl giveUp s := by
  unfold reconcile reconcileWith
  simp only [Id.run_bind, List.idRun_foldlM]
  rfl

/-- One pass, given what listing the bucket led to. -/
def discover (s : Scheduler) (now : Instant) (listing : Except String (List TenantId)) :
    Except DiscoveryError Unit × Scheduler :=
  match listing with
  | .error cause => (.error (.unlisted cause), s)
  | .ok listed => (.ok (), s.reconcile now listed)

end Scheduler

end CompactionLeasing

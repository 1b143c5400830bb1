import CompactionLeasing.Proofs.Store.Rows
import CompactionLeasing.Proofs.Tracker.Mirrors

/-!
# A tracker and its store

A tracker that keeps its jobs in the store, through any run: requests at any times, with writes that fail
now and then, while others write the rows of other tenants (`Run.callOther`). After each step the rows of
the tenant are the jobs of the tracker, so a tracker that is rebuilt from them is the same.
-/

namespace CompactionLeasing

namespace Tracker

/-- Makes a batch of a tenant durable in a store, unless a fault keeps it from doing so. -/
def writeTo (tenant : TenantId) (s : Store) (fault : Option StoreError) (b : Batch) :
    Except StoreError Store :=
  match fault with
  | some err => .error err
  | none => s.writeBatch tenant b

/-- The store and the tracker of a tenant in the course of a run, in which no one else writes its rows. -/
inductive Run (tenant : TenantId) : Store → Tracker → Prop
  /-- The tenant has no rows yet. -/
  | fresh (s : Store) (hrows : ∀ id, s.jobs[jobKey tenant id]? = none) : Run tenant s empty
  /-- The tracker is rebuilt from the rows of the tenant. -/
  | rebuilt (s : Store) (jobs : List Job) (t : Tracker) (hown : Store.OwnRows s.jobs tenant)
      (hj : s.tenantJobs tenant = .ok jobs) (hid : ∀ c, .compaction c ∈ jobs → c.id ≠ planId) :
      Run tenant s (t.recover (.ofJobs jobs))
  | call {s : Store} {t : Tracker} (h : Run tenant s t) (now : Instant) (r : Request)
      (fault : Option StoreError) :
      Run tenant (t.serve now r s (writeTo tenant s fault)).store
        (t.serve now r s (writeTo tenant s fault)).tracker
  | elsewhere {s : Store} {t : Tracker} (h : Run tenant s t) (s' : Store)
      (hrows : ∀ id, s'.jobs[jobKey tenant id]? = s.jobs[jobKey tenant id]?) : Run tenant s' t

/-- The rows of the tenant mirror its tracker. -/
structure Durable (tenant : TenantId) (s : Store) (t : Tracker) : Prop where
  consistent : t.Consistent
  own : Store.OwnRows s.jobs tenant
  mirrors : Mirrors (Store.tableOf s.jobs tenant) t

namespace Durable
variable {tenant : TenantId} {s s' : Store} {t : Tracker}

theorem serve (h : Durable tenant s t) (now : Instant) (r : Request) (fault : Option StoreError) :
    Durable tenant (t.serve now r s (writeTo tenant s fault)).store
      (t.serve now r s (writeTo tenant s fault)).tracker := by
  have hs := h.consistent.settled now r s (writeTo tenant s fault)
  generalize t.serve now r s (writeTo tenant s fault) = e at hs ⊢
  cases hs with
  | refused | overflow | failed => exact h
  | committed b e store' _ hs hw =>
    cases fault with
    | some err => cases hw
    | none =>
      obtain ⟨-, hc⟩ := Store.writeBatch_ok hw
      have ho := hs.outcome h.consistent
      exact ⟨ho.consistent, hc.own h.own, hc.table ▸ ho.mirrors h.consistent h.mirrors⟩

theorem elsewhere (h : Durable tenant s t)
    (hrows : ∀ id, s'.jobs[jobKey tenant id]? = s.jobs[jobKey tenant id]?) :
    Durable tenant s' t := by
  refine ⟨h.consistent, fun id text ht => h.own id text (hrows id ▸ ht), ?_⟩
  have ht : Store.tableOf s'.jobs tenant = Store.tableOf s.jobs tenant := by
    funext id
    rw [Store.tableOf, hrows]; rfl
  exact ht ▸ h.mirrors

theorem rebuilt (hv : tenant.isValid = true) {jobs : List Job} (hown : Store.OwnRows s.jobs tenant)
    (hj : s.tenantJobs tenant = .ok jobs) (hid : ∀ c, .compaction c ∈ jobs → c.id ≠ planId) (t : Tracker) :
    Durable tenant s (t.recover (.ofJobs jobs)) := by
  -- What was listed is what is in the table, so the names are distinct.
  obtain ⟨jobs', hj', hn, ht⟩ := Store.tenantJobs_eq hv hown
  obtain rfl : jobs' = jobs := Except.ok.inj (hj'.symm.trans hj)
  have hnamed : ∀ job ∈ jobs', job.IsNamed := by
    intro job hm
    cases job with
    | plan s => exact Job.isNamed_plan s
    | compaction c => exact Job.isNamed_compaction (hid c hm)
  have hr := t.tracks_recover (RecoveredJobs.apart_ofJobs hn hnamed)
  exact ⟨hr.consistent, hown, ht ▸ Mirrors.recover hn hnamed t⟩

end Durable

namespace Run
variable {tenant : TenantId} {s : Store} {t : Tracker}

theorem durable (hv : tenant.isValid = true) (h : Run tenant s t) : Durable tenant s t := by
  induction h with
  | fresh s hrows =>
    refine ⟨consistent_empty, fun id text ht => ?_, fun id _ => ?_, fun c hc => by cases hc⟩
    · rw [hrows] at ht; cases ht
    · rw [Store.tableOf, hrows, tracks_empty.job?]; rfl
  | rebuilt s jobs t hown hj hid => exact .rebuilt hv hown hj hid t
  | call _ now r fault ih => exact ih.serve now r fault
  | elsewhere _ s' hrows ih => exact ih.elsewhere hrows

/-- At each time the store lists the jobs of the tracker, with a complete plan job if there is the time of
one; and a tracker that is rebuilt from this list is the same. -/
theorem rebuilds (hv : tenant.isValid = true) (h : Run tenant s t) :
    ∃ jobs, s.tenantJobs tenant = .ok jobs ∧ t.IsListedBy jobs ∧
      ∀ t₀ : Tracker, t.Same (t₀.recover (.ofJobs jobs)) := by
  have hd := h.durable hv
  obtain ⟨jobs, hj, hn, ht⟩ := Store.tenantJobs_eq hv hd.own
  have hm : Mirrors (.of jobs) t := ht ▸ hd.mirrors
  exact ⟨jobs, hj, hm.isListedBy hd.consistent hn,
    fun t₀ => (hm.tracks_recover hd.consistent hn t₀).same hd.consistent⟩

/-- The run of a tenant goes on while the tracker of another makes its jobs durable in the same store. -/
theorem callOther {tenant' : TenantId} {t' : Tracker} (hv : tenant.isValid = true)
    (hv' : tenant'.isValid = true) (hne : tenant ≠ tenant') (h : Run tenant s t) (now : Instant)
    (r : Request) (fault : Option StoreError)
    (hc : t'.Consistent) : Run tenant (t'.serve now r s (writeTo tenant' s fault)).store t := by
  have hs := hc.settled now r s (writeTo tenant' s fault)
  generalize t'.serve now r s (writeTo tenant' s fault) = e at hs ⊢
  cases hs with
  | refused | overflow | failed => exact h
  | committed b e store' _ _ hw =>
    cases fault with
    | some err => cases hw
    | none => exact h.elsewhere store' (Store.writeBatch_other hv' hv hne hw)

/-- The answer and the state after a request of tenant `a` at the epoch. -/
def askA (t : Tracker) (s : Store) (r : Request) (fault : Option StoreError) :
    Settlement StoreError Store Reply :=
  t.serve .epoch r s (writeTo "a" s fault)

/-- A plan job is created, leased at the second attempt and completed with one job to do: the tenant has two
rows, and a new tracker is rebuilt from them. -/
theorem rebuilds_planned :
    let created := askA empty .empty (.maintain ⟨.ofSeconds 60, .ofSeconds 60, .ofSeconds 60⟩ true) none
    let failed := askA created.tracker created.store .lease (some .transaction)
    let leased := askA failed.tracker failed.store .lease none
    let planned := askA leased.tracker leased.store (.completePlan 1 [⟨"j", ⟨["x", "y"], false⟩⟩]) none
    TenantId.isValid "a" = true ∧ Run "a" planned.store planned.tracker ∧
      planned.tracker.planTime = some .epoch ∧
      planned.tracker.pending.map Job.id = ["j"] ∧
      ∃ jobs, planned.store.tenantJobs "a" = .ok jobs ∧ planned.tracker.IsListedBy jobs ∧
        ∀ t₀ : Tracker, planned.tracker.Same (t₀.recover (.ofJobs jobs)) := by
  intro created failed leased planned
  have hv : TenantId.isValid "a" = true := by decide +kernel
  have hrun : Run "a" planned.store planned.tracker :=
    (fresh .empty fun id => rfl).call .epoch _ none |>.call .epoch .lease (some .transaction)
      |>.call .epoch .lease none |>.call .epoch _ none
  exact ⟨hv, hrun, by decide +kernel, by decide +kernel, rebuilds hv hrun⟩

end Run

end Tracker

end CompactionLeasing

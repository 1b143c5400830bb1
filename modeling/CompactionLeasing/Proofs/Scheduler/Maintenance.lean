import CompactionLeasing.Proofs.Scheduler.Separate
import Mathlib.Data.List.Perm.Basic

/-!
# A maintenance pass

A pass puts one request to every registered tracker. Where the trackers are apart it does to each of them what the
request alone does, in whatever order they are visited: `Scheduler.maintains_separately`.
-/

namespace CompactionLeasing

namespace MaintenanceSummary

/-- The summary with one more verdict. -/
def note (sum : MaintenanceSummary) : Option (Verdict StoreError Reply) → MaintenanceSummary
  | some (.done (.flag true)) => { sum with transitioned := sum.transitioned + 1 }
  | some (.failed _) => { sum with failed := sum.failed + 1 }
  | _ => sum

def isRefill : Option (Verdict StoreError Reply) → Bool
  | some (.done (.flag true)) => true
  | _ => false

def isFailure : Option (Verdict StoreError Reply) → Bool
  | some (.failed _) => true
  | _ => false

theorem isRefill_iff {v : Option (Verdict StoreError Reply)} : isRefill v = true ↔ v = some (.done (.flag true)) := by
  unfold isRefill
  split <;> simp_all

theorem foldl_note (sum : MaintenanceSummary) (vs : List (Option (Verdict StoreError Reply))) :
    vs.foldl note sum =
      ⟨sum.tenants, sum.transitioned + vs.countP isRefill, sum.failed + vs.countP isFailure⟩ := by
  induction vs generalizing sum with
  | nil => rfl
  | cons v vs ih =>
    rw [List.foldl_cons, ih, List.countP_cons, List.countP_cons]
    unfold note
    split <;> simp [isRefill, isFailure, Nat.add_comm, Nat.add_left_comm]

end MaintenanceSummary

theorem Tracker.isEmpty_pending {t : Tracker} (h : t.Consistent) : t.pending.isEmpty = !t.hasPending := by
  have hp := hasPending_iff h.sound
  cases hpending : t.pending <;> simp_all

/-- Maintenance answers whether pending, which was empty, no longer is. -/
theorem Tracker.refills_maintain {ε σ : Type} (t : Tracker) (policy : MaintenancePolicy) (force : Bool)
    (now : Instant) (store : σ) (write : Batch → Except ε σ) :
    (t.serve now (.maintain policy force) store write).verdict = .done (.flag true) ↔
      t.hasPending = false ∧ (t.serve now (.maintain policy force) store write).tracker.hasPending = true := by
  rw [serve, propose, maintain_eq]
  split
  · simp [Proposal.map, Proposal.settle]
  · cases t.wantsPlan? policy force now with
    | none => simp [Proposal.map, Proposal.settle]
    | some wanted =>
      dsimp only
      split
      · simp [Proposal.map, Proposal.settle]
      · simp only [Proposal.map, Proposal.settle]
        split <;> simp

namespace Scheduler
variable {s s' : Scheduler} {m : Member} {h n : Handle} {e e' : TenantId × Handle}
  {order order' : List (TenantId × Handle)} {now : Instant} {r : Request} {policy : MaintenancePolicy} {force : Bool}

/-! ### One request to many trackers -/

/-- The request is put to the trackers, one after the other. -/
def callEach (s : Scheduler) (now : Instant) (r : Request) (order : List (TenantId × Handle)) : Scheduler :=
  order.foldl (fun s e => (s.call e.2 now r).2) s

/-- The trackers are apart from each other. -/
def Apart (s : Scheduler) (order : List (TenantId × Handle)) : Prop :=
  order.Pairwise fun e e' => ∃ m m', s.members[e.2]? = some m ∧ s.members[e'.2]? = some m' ∧ m.Apart m'

/-- A call leaves every tracker with its tenant and its tally. -/
theorem exists_member_call (s : Scheduler) (h n : Handle) (now : Instant) (r : Request) {m' : Member}
    (hm : (s.call h now r).2.members[n]? = some m') :
    ∃ m, s.members[n]? = some m ∧ m'.tenant = m.tenant ∧ m'.tally = m.tally := by
  rw [members_call] at hm
  split_ifs at hm
  · obtain ⟨m, hm', rfl⟩ := Option.map_eq_some_iff.1 hm
    exact ⟨m, hm', rfl, rfl⟩
  · exact ⟨m', hm, rfl, rfl⟩

theorem member_call (hm : s.members[n]? = some m) (h : Handle) (now : Instant) (r : Request) :
    ∃ t, (s.call h now r).2.members[n]? = some { m with tracker := t } := by
  rw [members_call, hm]
  split_ifs
  · exact ⟨_, rfl⟩
  · exact ⟨m.tracker, rfl⟩

namespace Apart

theorem call (ha : s.Apart order) (h : Handle) (now : Instant) (r : Request) : (s.call h now r).2.Apart order := by
  refine ha.imp ?_
  rintro e e' ⟨m, m', hm, hm', hap⟩
  obtain ⟨t, ht⟩ := member_call hm h now r
  obtain ⟨t', ht'⟩ := member_call hm' h now r
  exact ⟨_, _, ht, ht', hap.valid, hap.valid', hap.tenant, hap.tally⟩

theorem perm (ha : s.Apart order) (hp : order.Perm order') : s.Apart order' :=
  List.Pairwise.perm ha hp fun ⟨m, m', hm, hm', hap⟩ => ⟨m', m, hm', hm, hap.symm⟩

theorem tail (ha : s.Apart (e :: order)) : s.Apart order := List.Pairwise.of_cons ha

theorem head (ha : s.Apart (e :: order)) (he : e' ∈ order) :
    ∃ m m', s.members[e.2]? = some m ∧ s.members[e'.2]? = some m' ∧ m.Apart m' :=
  (List.pairwise_cons.1 ha).1 e' he

theorem apart_head (ha : s.Apart (e :: order)) (he : e' ∈ order) {m' : Member} (hm : s.members[e.2]? = some m)
    (hm' : s.members[e'.2]? = some m') : m.Apart m' := by
  obtain ⟨m₁, m₁', hm₁, hm₁', hap⟩ := ha.head he
  cases hm.symm.trans hm₁
  cases hm'.symm.trans hm₁'
  exact hap

/-- In whatever order the trackers are called, it comes to the same. -/
theorem callEach_perm (ha : s.Apart order) (hp : order.Perm order') (now : Instant) (r : Request) :
    s.callEach now r order = s.callEach now r order' := by
  induction hp generalizing s with
  | nil => rfl
  | cons e _ ih => exact ih (ha.tail.call e.2 now r)
  | swap e e' order =>
    obtain ⟨m, m', hm, hm', hap⟩ := ha.head (List.mem_cons_self ..)
    exact congrArg (callEach · now r order) (call_comm hm hm' hap now now r r)
  | trans hp _ ih ih' => exact (ih ha).trans (ih' (ha.perm hp))

end Apart

/-- What belongs to none of the trackers is as it was. -/
structure Untouched (s : Scheduler) (order : List (TenantId × Handle)) (s' : Scheduler) : Prop where
  members : ∀ n, n ∉ order.map Prod.snd → s'.members[n]? = s.members[n]?
  tallies : ∀ i, (∀ e ∈ order, ∀ m, s.members[e.2]? = some m → m.tally ≠ i) →
    s'.metrics.tallies[i]? = s.metrics.tallies[i]?
  rows : ∀ key, (∀ e ∈ order, ∀ m, s.members[e.2]? = some m → ∀ id, key ≠ jobKey m.tenant id) →
    s'.storage.store.jobs[key]? = s.storage.store.jobs[key]?
  tenants : s'.storage.store.tenants = s.storage.store.tenants
  outages : s'.storage.outages = s.storage.outages
  byTenant : s'.metrics.byTenant = s.metrics.byTenant
  roster : s'.roster = s.roster
  known : s'.known = s.known
  admission : s'.admission = s.admission
  maxLeases : s'.maxLeases = s.maxLeases

theorem untouched_call (s : Scheduler) (e : TenantId × Handle) (now : Instant) (r : Request) :
    Untouched s [e] (s.call e.2 now r).2 := by
  cases hm : s.members[e.2]? with
  | none =>
    simp only [call, hm]
    exact ⟨fun _ _ => rfl, fun _ _ => rfl, fun _ _ => rfl, rfl, rfl, rfl, rfl, rfl, rfl, rfl⟩
  | some m =>
    have hstore := m.answer_differs s.storage now r
    refine ⟨fun n hn => ?_, fun i hi => ?_, fun key hk => ?_, ?_, ?_, ?_, ?_, ?_, ?_, ?_⟩
    · rw [members_call, if_neg fun heq => hn (by simp [heq])]
    · rw [call_eq hm]
      exact Array.getElem?_modify.trans (if_neg (hi e (List.mem_singleton_self e) m hm))
    · rw [call_eq hm]
      exact hstore.rows key (hk e (List.mem_singleton_self e) m hm)
    · rw [call_eq hm]
      exact hstore.tenants
    · rw [call_eq hm]
      exact hstore.outages
    · rw [call_eq hm]
      rfl
    all_goals rw [call_eq hm]

namespace Untouched

theorem refl (s : Scheduler) : Untouched s [] s :=
  ⟨fun _ _ => rfl, fun _ _ => rfl, fun _ _ => rfl, rfl, rfl, rfl, rfl, rfl, rfl, rfl⟩

theorem cons (h : Untouched (s.call e.2 now r).2 order s') : Untouched s (e :: order) s' := by
  have hcall := s.untouched_call e now r
  refine ⟨fun n hn => ?_, fun i hi => ?_, fun key hk => ?_, h.tenants.trans hcall.tenants,
    h.outages.trans hcall.outages, h.byTenant.trans hcall.byTenant, h.roster.trans hcall.roster,
    h.known.trans hcall.known, h.admission.trans hcall.admission, h.maxLeases.trans hcall.maxLeases⟩
  · rw [List.map_cons, List.mem_cons, not_or] at hn
    rw [h.members n hn.2, hcall.members n (by simpa using hn.1)]
  · rw [List.forall_mem_cons] at hi
    rw [h.tallies i ?_, hcall.tallies i (List.forall_mem_singleton.2 hi.1)]
    intro e' he' m' hm'
    obtain ⟨m, hm, -, htally⟩ := s.exists_member_call e.2 e'.2 now r hm'
    exact htally ▸ hi.2 e' he' m hm
  · rw [List.forall_mem_cons] at hk
    rw [h.rows key ?_, hcall.rows key (List.forall_mem_singleton.2 hk.1)]
    intro e' he' m' hm'
    obtain ⟨m, hm, htenant, -⟩ := s.exists_member_call e.2 e'.2 now r hm'
    exact htenant ▸ hk.2 e' he' m hm

end Untouched

theorem untouched_callEach (s : Scheduler) (now : Instant) (r : Request) (order : List (TenantId × Handle)) :
    Untouched s order (s.callEach now r order) := by
  induction order generalizing s with
  | nil => exact .refl s
  | cons e order ih => exact .cons (ih (s.call e.2 now r).2)

namespace Apart

/-- The others leave alone what belongs to the first tracker. -/
theorem keeps_first (ha : s.Apart (e :: order)) (hm : s.members[e.2]? = some m) (hu : Untouched s order s') :
    s'.members[e.2]? = s.members[e.2]? ∧ s'.metrics.tallies[m.tally]? = s.metrics.tallies[m.tally]? ∧
      Storage.Alike m.tenant s'.storage s.storage := by
  refine ⟨hu.members _ fun hmem => ?_, hu.tallies _ fun e' he' m' hm' => ?_, hu.outages,
    fun id => hu.rows _ fun e' he' m' hm' id' => ?_⟩
  · obtain ⟨e', he', heq⟩ := List.mem_map.1 hmem
    exact (ha.apart_head he' hm (heq ▸ hm)).tenant rfl
  · exact (ha.apart_head he' hm hm').tally.symm
  · exact (ha.apart_head he' hm hm').jobKey_ne id id'

/-- To each of the trackers is done what the request to it alone does. -/
theorem callEach_alone (ha : s.Apart order) (he : e ∈ order) (hm : s.members[e.2]? = some m) (now : Instant)
    (r : Request) :
    (s.callEach now r order).members[e.2]? = (s.call e.2 now r).2.members[e.2]? ∧
      (s.callEach now r order).metrics.tallies[m.tally]? = (s.call e.2 now r).2.metrics.tallies[m.tally]? ∧
      ∀ id, (s.callEach now r order).storage.store.jobs[jobKey m.tenant id]? =
        (s.call e.2 now r).2.storage.store.jobs[jobKey m.tenant id]? := by
  -- It can be the first one.
  have hp := List.perm_cons_erase he
  have hfirst : s.callEach now r order = (s.call e.2 now r).2.callEach now r (order.erase e) :=
    ha.callEach_perm hp now r
  obtain ⟨t, ht⟩ := member_call hm e.2 now r
  obtain ⟨hmember, htally, halike⟩ := ((ha.perm hp).call e.2 now r).keeps_first ht
    (untouched_callEach _ now r (order.erase e))
  rw [hfirst]
  exact ⟨hmember, htally, halike.rows⟩

end Apart

/-! ### Passes -/

/-- How each of the trackers would answer if it alone were called. -/
def verdicts (s : Scheduler) (now : Instant) (r : Request) (order : List (TenantId × Handle)) :
    List (Option (Verdict StoreError Reply)) :=
  order.map fun e => (s.call e.2 now r).1

/-- A pass that visits the trackers in this order. -/
def pass (s : Scheduler) (policy : MaintenancePolicy) (force : Bool) (now : Instant)
    (order : List (TenantId × Handle)) : Verdict Empty MaintenanceSummary × Scheduler :=
  s.maintainFrom policy force now ⟨s.registered.length, 0, 0⟩ order

theorem maintainFrom_cons {sum : MaintenanceSummary}
    (hfits : (s.call e.2 now (.maintain policy force)).1 ≠ some .overflow) :
    s.maintainFrom policy force now sum (e :: order) =
      (s.call e.2 now (.maintain policy force)).2.maintainFrom policy force now
        (sum.note (s.call e.2 now (.maintain policy force)).1) order := by
  rw [maintainFrom.eq_def]
  dsimp only
  generalize s.call e.2 now (.maintain policy force) = answer at hfits ⊢
  obtain ⟨v, s'⟩ := answer
  split
  · rename_i heq
    cases heq
    rfl
  · rename_i heq
    cases heq
    rfl
  · rename_i heq
    cases heq
    exact absurd rfl hfits
  · rename_i hrefill hfailure hoverflow heq
    cases heq
    unfold MaintenanceSummary.note
    split
    · rename_i hv
      exact (hrefill hv).elim
    · rename_i hv
      exact (hfailure _ hv).elim
    · rfl

theorem Apart.maintainFrom_eq (ha : s.Apart order)
    (hfits : ∀ e ∈ order, (s.call e.2 now (.maintain policy force)).1 ≠ some .overflow) (sum : MaintenanceSummary) :
    s.maintainFrom policy force now sum order =
      (.done ((s.verdicts now (.maintain policy force) order).foldl MaintenanceSummary.note sum),
        s.callEach now (.maintain policy force) order) := by
  induction order generalizing s sum with
  | nil => rfl
  | cons e order ih =>
    have hverdict : ∀ e' ∈ order,
        ((s.call e.2 now (.maintain policy force)).2.call e'.2 now (.maintain policy force)).1 =
          (s.call e'.2 now (.maintain policy force)).1 := by
      intro e' he'
      obtain ⟨m, m', hm, hm', hap⟩ := ha.head he'
      exact verdict_call_apart hm hm' hap now now _ _
    rw [List.forall_mem_cons] at hfits
    rw [maintainFrom_cons hfits.1, ih (ha.tail.call ..) fun e' he' => hverdict e' he' ▸ hfits.2 e' he',
      verdicts, verdicts, List.map_cons, List.foldl_cons, List.map_congr_left hverdict]
    rfl

/-! ### Verdicts -/

/-- Whether the batch that the tracker would write cannot be made durable. -/
def writeFails (s : Scheduler) (now : Instant) (r : Request) (h : Handle) : Bool :=
  match s.members[h]? with
  | none => false
  | some m =>
    match m.tracker.propose now r with
    | .persist b _ => !(writeFor m s.storage b).isOk
    | _ => false

theorem isFailure_call (s : Scheduler) (h : Handle) (now : Instant) (r : Request) :
    MaintenanceSummary.isFailure (s.call h now r).1 = s.writeFails now r h := by
  cases hm : s.members[h]? with
  | none => simp only [call, writeFails, hm, MaintenanceSummary.isFailure]
  | some m =>
    rw [call_eq hm]
    simp only [writeFails, hm, Member.answer, Tracker.serve]
    cases m.tracker.propose now r with
    | settled a => rfl
    | overflow => rfl
    | persist b e =>
      simp only [Proposal.settle]
      cases writeFor m s.storage b <;> rfl

theorem answer_of_writeFails (hm : s.members[h]? = some m) (hf : s.writeFails now r h = true) :
    ∃ err, m.answer s.storage now r = ⟨.failed err, m.tracker, s.storage, [.persistFailed], false⟩ := by
  simp only [writeFails, hm] at hf
  rw [Member.answer, Tracker.serve]
  cases hp : m.tracker.propose now r with
  | settled a => simp [hp] at hf
  | overflow => simp [hp] at hf
  | persist b e =>
    cases hw : writeFor m s.storage b with
    | ok storage => simp [hp, hw, Except.isOk, Except.toBool] at hf
    | error err => exact ⟨err, by simp [Proposal.settle, hw]⟩

/-- If its write fails, a tracker and the storage stay as they are; the failure is counted. -/
theorem call_of_writeFails (hm : s.members[h]? = some m) (hf : s.writeFails now r h = true) :
    (s.call h now r).2 = { s with metrics := s.metrics.record m.tally [.persistFailed] } := by
  obtain ⟨err, hanswer⟩ := answer_of_writeFails hm hf
  have hsame : s.members.modify h (fun m' => { m' with tracker := m.tracker }) = s.members := modify_self hm
  rw [call_eq hm, hanswer]
  simp [hsame]

theorem isRefill_call (hm : s.members[h]? = some m) (hc : m.tracker.Consistent) :
    MaintenanceSummary.isRefill (s.call h now (.maintain policy force)).1 =
      ((s.pendingOf h).isEmpty && !((s.call h now (.maintain policy force)).2.pendingOf h).isEmpty) := by
  have hafter : (s.call h now (.maintain policy force)).2.members[h]? =
      some { m with tracker := (m.answer s.storage now (.maintain policy force)).tracker } := by
    rw [members_call, if_pos rfl, hm]
    rfl
  have hrefill := m.tracker.refills_maintain policy force now s.storage (writeFor m s.storage)
  rw [pendingOf_eq hm, pendingOf_eq hafter, Tracker.isEmpty_pending hc, Tracker.isEmpty_pending (hc.serve ..),
    Bool.eq_iff_iff, call_eq hm, MaintenanceSummary.isRefill_iff, Bool.and_eq_true, Bool.not_not, Bool.not_eq_true',
    ← hrefill, Option.some.injEq]

theorem overflow_call (hm : s.members[h]? = some m) :
    (s.call h now r).1 = some .overflow ↔ m.tracker.propose now r = .overflow := by
  rw [call_eq hm, Option.some.injEq, Member.answer, Tracker.serve]
  cases m.tracker.propose now r with
  | settled a => simp [Proposal.settle]
  | overflow => simp [Proposal.settle]
  | persist b e =>
    rw [Proposal.settle]
    cases writeFor m s.storage b <;> simp

/-! ### All trackers -/

/-- The registered trackers are consistent, as they are where they agree with their rows, and are of different valid
tenants. Each has a tally of its own. -/
structure Separate (s : Scheduler) : Prop where
  member : ∀ e ∈ s.registered, ∃ m, s.members[e.2]? = some m ∧ m.tenant.isValid = true ∧ m.tracker.Consistent
  apart : s.registered.Pairwise fun e e' => ∀ m m', s.members[e.2]? = some m → s.members[e'.2]? = some m' →
    m.tenant ≠ m'.tenant ∧ m.tally ≠ m'.tally

theorem Separate.apart_registered (hs : s.Separate) : s.Apart s.registered := by
  refine hs.apart.imp_of_mem fun {e e'} he he' h => ?_
  obtain ⟨m, hm, hvalid, -⟩ := hs.member e he
  obtain ⟨m', hm', hvalid', -⟩ := hs.member e' he'
  obtain ⟨htenant, htally⟩ := h m m' hm hm'
  exact ⟨m, m', hm, hm', hvalid, hvalid', htenant, htally⟩

/-- What the others do is as if the tracker were not there whose write fails. -/
theorem Apart.callEach_of_writeFails (ha : s.Apart order) (he : e ∈ order) (hm : s.members[e.2]? = some m)
    (hf : s.writeFails now r e.2 = true) :
    s.callEach now r order =
      { s.callEach now r (order.erase e) with
        metrics := (s.callEach now r (order.erase e)).metrics.record m.tally [.persistFailed] } := by
  have hp := List.perm_cons_erase he
  -- It can be the last one.
  have hlast : order.Perm (order.erase e ++ [e]) := hp.trans (List.perm_append_singleton ..).symm
  obtain ⟨hmember, -, halike⟩ := (ha.perm hp).keeps_first hm (s.untouched_callEach now r (order.erase e))
  have hm' := hmember.trans hm
  have hf' : (s.callEach now r (order.erase e)).writeFails now r e.2 = true := by
    rw [← isFailure_call, call_eq hm', (Member.answer_congr halike now r).1]
    rw [← isFailure_call, call_eq hm] at hf
    exact hf
  rw [ha.callEach_perm hlast, callEach, List.foldl_append]
  exact call_of_writeFails hm' hf'

/-- Where no tracker has a time that leaves the range, a pass does to each tracker, its tally and its rows what
maintenance of this tracker alone does, and to nothing else anything but giving signals. It comes to the same in
whatever order the trackers are visited. A tracker whose write fails concerns no other one, and of itself only the
tally. The summary counts all trackers, those whose pending was empty and no longer is, and those whose write failed. -/
theorem maintains_separately (s : Scheduler) (hs : s.Separate) (policy : MaintenancePolicy) (force : Bool)
    (now : Instant)
    (hfits : ∀ e ∈ s.registered, ∀ m, s.members[e.2]? = some m →
      m.tracker.propose now (.maintain policy force) ≠ .overflow) :
    ∃ sum s', s.maintainAll policy force now =
        (.done sum, if 0 < sum.transitioned then s'.give s'.roster.signal else s') ∧
      (∀ order : List (TenantId × Handle), order.Perm s.registered →
        s.pass policy force now order = (.done sum, s')) ∧
      (∀ e ∈ s.registered, ∀ m, s.members[e.2]? = some m →
        let alone := (s.call e.2 now (.maintain policy force)).2
        s'.members[e.2]? = alone.members[e.2]? ∧
          s'.metrics.tallies[m.tally]? = alone.metrics.tallies[m.tally]? ∧
          ∀ id, s'.storage.store.jobs[jobKey m.tenant id]? = alone.storage.store.jobs[jobKey m.tenant id]?) ∧
      Untouched s s.registered s' ∧
      (∀ e ∈ s.registered, ∀ m, s.members[e.2]? = some m → s.writeFails now (.maintain policy force) e.2 = true →
        let without := (s.pass policy force now (s.registered.erase e)).2
        s'.members[e.2]? = some m ∧
          (∀ id, s'.storage.store.jobs[jobKey m.tenant id]? = s.storage.store.jobs[jobKey m.tenant id]?) ∧
          s' = { without with metrics := without.metrics.record m.tally [.persistFailed] }) ∧
      sum.tenants = s.registered.length ∧
      sum.transitioned =
        s.registered.countP (fun e => (s.pendingOf e.2).isEmpty && !(s'.pendingOf e.2).isEmpty) ∧
      sum.failed = s.registered.countP fun e => s.writeFails now (.maintain policy force) e.2 := by
  have ha := hs.apart_registered
  have hverdicts : ∀ e ∈ s.registered, (s.call e.2 now (.maintain policy force)).1 ≠ some .overflow := by
    intro e he
    obtain ⟨m, hm, -⟩ := hs.member e he
    exact fun hover => hfits e he m hm ((overflow_call hm).1 hover)
  have hpass : ∀ order : List (TenantId × Handle), order.Perm s.registered →
      s.pass policy force now order =
        (.done ⟨s.registered.length,
          (s.verdicts now (.maintain policy force) s.registered).countP MaintenanceSummary.isRefill,
          (s.verdicts now (.maintain policy force) s.registered).countP MaintenanceSummary.isFailure⟩,
        s.callEach now (.maintain policy force) s.registered) := by
    intro order hp
    have ha' := ha.perm hp.symm
    rw [pass, ha'.maintainFrom_eq (fun e he => hverdicts e (hp.mem_iff.1 he)), MaintenanceSummary.foldl_note,
      ha'.callEach_perm hp, verdicts, (hp.map _).countP_eq, (hp.map _).countP_eq, Nat.zero_add, Nat.zero_add]
    rfl
  have halone := fun e he m hm => ha.callEach_alone (e := e) (m := m) he hm now (.maintain policy force)
  refine ⟨_, _, ?_, hpass, halone, s.untouched_callEach .., fun e he m hm hf => ?_, rfl, ?_, ?_⟩
  · have hall := hpass s.registered (.refl _)
    rw [pass] at hall
    rw [maintainAll, hall]
  · have herase : (s.pass policy force now (s.registered.erase e)).2 =
        s.callEach now (.maintain policy force) (s.registered.erase e) := by
      rw [pass, (ha.perm (List.perm_cons_erase he)).tail.maintainFrom_eq fun e' he' =>
        hverdicts e' (List.mem_of_mem_erase he')]
    obtain ⟨hmember, -, hrows⟩ := halone e he m hm
    rw [call_of_writeFails hm hf] at hmember hrows
    refine ⟨hmember.trans hm, hrows, ?_⟩
    rw [herase]
    exact ha.callEach_of_writeFails he hm hf
  · refine List.countP_map.trans (List.countP_congr fun e he => ?_)
    obtain ⟨m, hm, -, hc⟩ := hs.member e he
    have hpending : (s.callEach now (.maintain policy force) s.registered).pendingOf e.2 =
        (s.call e.2 now (.maintain policy force)).2.pendingOf e.2 := by
      rw [pendingOf, pendingOf, (halone e he m hm).1]
    rw [hpending, ← isRefill_call hm hc]
    rfl
  · refine List.countP_map.trans (List.countP_congr fun e _ => ?_)
    rw [← isFailure_call]
    rfl

/-- Three tenants without jobs. Nothing can be written for `b` at present, and `c` is being deleted. -/
def halted : Scheduler :=
  [.enroll "a" .storage, .register "a" 0, .enroll "b" .storage, .register "b" 1, .enroll "c" .storage, .register "c" 2,
    .retire 2].foldl move (start ⟨.empty, ⟨[], [], ["b"], false⟩⟩ .all 0)

theorem maintains_separately_halted :
    let policy : MaintenancePolicy := ⟨.ofSeconds 60, .ofSeconds 60, .ofSeconds 60⟩
    halted.Separate ∧ (∀ e ∈ halted.registered, ∀ m, halted.members[e.2]? = some m →
      m.tracker.propose .epoch (.maintain policy false) ≠ .overflow) ∧
      ∃ s', (∀ order : List (TenantId × Handle), order.Perm halted.registered →
          halted.pass policy false .epoch order = (.done ⟨3, 1, 1⟩, s')) ∧
        s'.storage.store.jobs.keys = ["a/__plan__"] := by
  intro policy
  have hregistered : halted.registered = [("a", 0), ("b", 1), ("c", 2)] := by decide +kernel
  have hmembers : halted.members =
      #[⟨"a", 0, .empty, 0, 0, .storage⟩, ⟨"b", 0, .empty, 1, 0, .storage⟩,
        ⟨"c", 0, Tracker.empty.retire, 2, 0, .storage⟩] := rfl
  have hempty := Tracker.consistent_empty
  have hretired : Tracker.empty.retire.Consistent :=
    ⟨hempty.sound, hempty.slots, hempty.status, hempty.named, hempty.complete, hempty.planLeased, hempty.planTime⟩
  have hs : halted.Separate := by
    constructor
    · rw [hregistered, hmembers, List.forall_mem_cons, List.forall_mem_cons, List.forall_mem_singleton]
      exact ⟨⟨_, rfl, by decide, hempty⟩, ⟨_, rfl, by decide, hempty⟩, _, rfl, by decide, hretired⟩
    · simp [hregistered, hmembers]
  have hfits : ∀ e ∈ halted.registered, ∀ m, halted.members[e.2]? = some m →
      m.tracker.propose .epoch (.maintain policy false) ≠ .overflow := by
    have hverdicts : ∀ e ∈ [("a", 0), ("b", 1), ("c", 2)],
        (halted.call e.2 .epoch (.maintain policy false)).1 ≠ some .overflow := by
      decide +kernel
    intro e he m hm hover
    exact hverdicts e (hregistered ▸ he) ((overflow_call hm).2 hover)
  obtain ⟨sum, s', -, hpass, -⟩ := maintains_separately halted hs policy false .epoch hfits
  have hsum : (halted.pass policy false .epoch halted.registered).1 = .done ⟨3, 1, 1⟩ := by decide +kernel
  have hkeys : (halted.pass policy false .epoch halted.registered).2.storage.store.jobs.keys = ["a/__plan__"] := by
    decide +kernel
  rw [hpass _ (.refl _)] at hsum hkeys
  cases hsum
  exact ⟨hs, hfits, s', hpass, hkeys⟩

end Scheduler

end CompactionLeasing

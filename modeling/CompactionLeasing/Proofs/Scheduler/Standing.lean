import CompactionLeasing.Proofs.Scheduler.Moves
import CompactionLeasing.Proofs.Store.Recorded
import CompactionLeasing.Proofs.Tracker.Serves
import CompactionLeasing.Scheduler.Recovery

/-!
# Trackers and their tenants

`standing?` tells of each tracker there ever was for which tenant it was made, and whether it is retired. Calls
do not change it, and a retired tracker stays as it is, whatever it is asked.
-/

namespace CompactionLeasing

namespace Scheduler

/-- The tenant of a tracker, and whether the tracker is retired. -/
def standing? (s : Scheduler) (h : Handle) : Option (TenantId × Bool) :=
  s.members[h]?.map fun m => (m.tenant, m.tracker.retired)

variable {s s' : Scheduler} {m : Member} {n : Handle} {tenant : TenantId}

/-! ### Calls -/

theorem members_call (s : Scheduler) (h n : Handle) (now : Instant) (r : Request) :
    (s.call h now r).2.members[n]? =
      if h = n then s.members[n]?.map fun m =>
        { m with tracker := (m.tracker.serve now r s.storage (writeFor m s.storage)).tracker }
      else s.members[n]? := by
  cases hm : s.members[h]? with
  | none =>
    simp only [call, hm]
    split_ifs with hn
    · rw [← hn, hm]; rfl
    · rfl
  | some m =>
    have hmodify : (s.call h now r).2.members = s.members.modify h fun n =>
        { n with tracker := (m.tracker.serve now r s.storage (writeFor m s.storage)).tracker } := by
      simp only [call, hm]
      split <;> rfl
    rw [hmodify, Array.getElem?_modify]
    split_ifs with hn
    · rw [← hn, hm, Option.map_some, Option.map_some]
    · rfl

theorem standing?_call (s : Scheduler) (h n : Handle) (now : Instant) (r : Request) :
    (s.call h now r).2.standing? n = s.standing? n := by
  rw [standing?, members_call, standing?]
  split_ifs
  · rw [Option.map_map]
    congr 1
    funext m
    simp [Tracker.retired_serve]
  · rfl

theorem members_call_of_retired (hm : s.members[n]? = some m) (hr : m.tracker.retired = true) (h : Handle)
    (now : Instant) (r : Request) : (s.call h now r).2.members[n]? = some m := by
  rw [members_call, hm, Option.map_some, Tracker.serve_of_retired hr]
  split_ifs <;> rfl

theorem size_call (s : Scheduler) (h : Handle) (now : Instant) (r : Request) :
    (s.call h now r).2.members.size = s.members.size := by
  cases hm : s.members[h]? with
  | none => simp only [call, hm]
  | some m =>
    simp only [call, hm]
    split <;> exact Array.size_modify

theorem known_call (s : Scheduler) (h : Handle) (now : Instant) (r : Request) :
    (s.call h now r).2.known = s.known := by
  cases hm : s.members[h]? with
  | none => simp only [call, hm]
  | some m => simp only [call, hm]; split <;> rfl

/-- A call leaves the storage as it is, or writes one batch for the tenant of a tracker that is not retired. -/
theorem storage_call (s : Scheduler) (h : Handle) (now : Instant) (r : Request) :
    (s.call h now r).2.storage = s.storage ∨ ∃ tenant b, s.standing? h = some (tenant, false) ∧
      s.storage.store.writeBatch tenant b = .ok (s.call h now r).2.storage.store := by
  cases hm : s.members[h]? with
  | none =>
    refine .inl ?_
    simp only [call, hm]
  | some m =>
    have hstorage : (s.call h now r).2.storage =
        (m.tracker.serve now r s.storage (writeFor m s.storage)).store := by
      simp only [call, hm]
      split <;> rfl
    rw [hstorage]
    rcases m.tracker.store_serve now r s.storage (writeFor m s.storage) with hs | ⟨hr, b, hw⟩
    · exact .inl hs
    · rw [writeFor] at hw
      split at hw
      · refine .inr ⟨m.tenant, b, ?_, Storage.writeBatch_ok hw⟩
        rw [standing?, hm, Option.map_some, hr]
      · exact .inl (Except.ok.inj hw).symm

/-! ### Trackers that are made, retired and reinstated -/

theorem standing?_enroll (s : Scheduler) (tenant : TenantId) (outlet : Outlet) (signal : Signal) (n : Handle) :
    (s.enroll tenant outlet signal).2.standing? n =
      if n = s.members.size then some (tenant, false) else s.standing? n := by
  rw [standing?, enroll, Array.getElem?_push]
  split_ifs <;> rfl

/-- A tracker is retired or reinstated, which concerns no other one. -/
theorem standing?_modifyMember (s : Scheduler) (h n : Handle) {f : Member → Member} {b : Bool}
    (hf : ∀ m, (f m).tenant = m.tenant ∧ (f m).tracker.retired = b) :
    (s.modifyMember h f).standing? n =
      if h = n then (s.standing? n).map fun e => (e.1, b) else s.standing? n := by
  rw [standing?, getElem?_modifyMember, standing?]
  split_ifs
  · rw [Option.map_map, Option.map_map]
    congr 1
    funext m
    exact Prod.ext (hf m).1 (hf m).2
  · rfl

theorem standing?_retire (s : Scheduler) (h n : Handle) :
    (s.retire h).standing? n = if h = n then (s.standing? n).map fun e => (e.1, true) else s.standing? n :=
  standing?_modifyMember s h n fun _ => ⟨rfl, rfl⟩

theorem standing?_reinstate (s : Scheduler) (h n : Handle) :
    (s.reinstate h).standing? n = if h = n then (s.standing? n).map fun e => (e.1, false) else s.standing? n :=
  standing?_modifyMember s h n fun _ => ⟨rfl, rfl⟩

theorem standing?_rebuild (s : Scheduler) (h n : Handle) (jobs : RecoveredJobs) :
    (s.rebuild h jobs).standing? n = s.standing? n := by
  rw [rebuild]
  split
  · rfl
  · rename_i m hm
    rw [standing?, Array.getElem?_modify, standing?]
    split_ifs with hn
    · rw [← hn, hm, Option.map_some, Option.map_some, Option.map_some, Tracker.retired_recover]
    · rfl

/-- What becomes of the tracker of a recovered tenant, and of the others. -/
theorem recoverTenant_eq (s : Scheduler) (r : TenantId × RecoveredJobs) :
    (∀ n, (s.recoverTenant .storage r).standing? n =
        if n = s.members.size then some (r.1, false) else s.standing? n) ∧
      (∀ t : TenantId, (s.recoverTenant .storage r).roster.trackers[t]? =
        if t = r.1 then some s.members.size else s.roster.trackers[t]?) ∧
      (s.recoverTenant .storage r).storage = s.storage ∧ (s.recoverTenant .storage r).known = s.known := by
  have hrebuild : ∀ (s : Scheduler) (h : Handle) (jobs : RecoveredJobs), (s.rebuild h jobs).roster = s.roster ∧
      (s.rebuild h jobs).storage = s.storage ∧ (s.rebuild h jobs).known = s.known := by
    intro s h jobs
    rw [rebuild]
    split <;> exact ⟨rfl, rfl, rfl⟩
  obtain ⟨hroster, hstorage, hknown⟩ := hrebuild (s.enroll r.1 .storage s.roster.signal).2 s.members.size r.2
  refine ⟨fun n => ?_, fun t => ?_, hstorage, hknown⟩
  · exact (standing?_rebuild ..).trans (standing?_enroll ..)
  · have hinsert : (s.recoverTenant .storage r).roster.trackers =
        ((s.enroll r.1 .storage s.roster.signal).2.rebuild s.members.size r.2).roster.trackers.insert r.1
          s.members.size := rfl
    rw [hinsert, hroster]
    exact Table.getElem?_insert ..

end Scheduler

end CompactionLeasing

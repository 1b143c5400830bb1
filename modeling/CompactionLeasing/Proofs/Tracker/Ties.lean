import CompactionLeasing.Proofs.Tracker.Lineup
import CompactionLeasing.Proofs.Tracker.Mirrors

/-!
# Jobs that tie when a tracker is rebuilt

Available jobs are sorted by order and leased ones by the time of the lease. Jobs that tie stay in the sequence in which
they are given, which shows in the rebuilt tracker. `recover_reordered`: it does not matter in which order the jobs are
given exactly if none of them tie.
-/

namespace CompactionLeasing

namespace RecoveredJobs
variable {r r' : RecoveredJobs}

/-- The same jobs, but the compaction jobs in an order of their own. -/
structure Reorders (r' r : RecoveredJobs) : Prop where
  compaction : r'.compaction.Perm r.compaction
  plan : r'.plan = r.plan

/-- Available jobs of one order, and leased jobs of one time, stand in the same sequence. -/
structure SameTies (r' r : RecoveredJobs) : Prop where
  orders : ∀ o, ((r'.withStatus .available).filter fun c => c.order = o) =
    (r.withStatus .available).filter fun c => c.order = o
  times : ∀ time, ((r'.withStatus .leased).filter fun c => c.state.since = time) =
    (r.withStatus .leased).filter fun c => c.state.since = time

/-- No two available jobs have the same order, and no two leased jobs the same time. -/
structure Untied (r : RecoveredJobs) : Prop where
  orders : ((r.withStatus .available).map fun c => c.order).Nodup
  times : ((r.withStatus .leased).map fun c => c.state.since).Nodup

namespace Reorders

theorem withStatus (h : r'.Reorders r) (status : JobStatus) : (r'.withStatus status).Perm (r.withStatus status) :=
  h.compaction.filter _

theorem planWithStatus (h : r'.Reorders r) (status : JobStatus) : r'.planWithStatus status = r.planWithStatus status := by
  unfold RecoveredJobs.planWithStatus
  rw [h.plan]

theorem apart (h : r'.Reorders r) (hr : r.Apart) : r'.Apart :=
  ⟨(h.compaction.map _).nodup_iff.2 hr.nodup, fun c hc => hr.named c (h.compaction.mem_iff.1 hc)⟩

theorem of_tracked (h : r'.Reorders r) (hr : r.Apart) : JobTable.of r'.tracked = JobTable.of r.tracked := by
  refine JobTable.of_perm ?_ (h.apart hr).nodup_tracked
  unfold tracked
  rw [h.planWithStatus, h.planWithStatus]
  exact (h.compaction.map _).append_right _

theorem reverse (r : RecoveredJobs) : Reorders ⟨r.compaction.reverse, r.plan⟩ r := ⟨List.reverse_perm _, rfl⟩

end Reorders

theorem Apart.nodup_withStatus (h : r.Apart) (status : JobStatus) : (r.withStatus status).Nodup :=
  (List.Nodup.of_map _ h.nodup).filter _

theorem Apart.untied_iff (h : r.Apart) : (∀ r', Reorders r' r → r'.SameTies r) ↔ r.Untied := by
  constructor
  · intro hall
    obtain ⟨horders, htimes⟩ := hall _ (.reverse r)
    have hreverse : ∀ status, withStatus ⟨r.compaction.reverse, r.plan⟩ status = (r.withStatus status).reverse :=
      fun status => List.filter_reverse ..
    rw [hreverse] at horders htimes
    exact ⟨Sorting.nodup_of_reverse _ (h.nodup_withStatus _) horders,
      Sorting.nodup_of_reverse _ (h.nodup_withStatus _) htimes⟩
  · rintro ⟨horders, htimes⟩ r' hr
    exact ⟨Sorting.filter_eq_of_perm _ (hr.withStatus _) horders, Sorting.filter_eq_of_perm _ (hr.withStatus _) htimes⟩

end RecoveredJobs

namespace Tracker
open RecoveredJobs
variable {t t' : Tracker} {r r' : RecoveredJobs} {k : Queue}

theorem compaction_injective : Function.Injective Job.compaction := fun _ _ h => Job.compaction.inj h

theorem availableOf_eq_iff : availableOf r' = availableOf r ↔
    ∀ o, ((r'.withStatus .available).filter fun c => c.order = o) = (r.withStatus .available).filter fun c => c.order = o := by
  unfold availableOf
  rw [(List.map_injective_iff.2 compaction_injective).eq_iff]
  refine Sorting.mergeSort_eq_iff (fun c : CompactionJob => c.order) order_trans order_total fun a b => ?_
  rw [decide_eq_true_iff, decide_eq_true_iff]
  exact ⟨fun h => ⟨h ▸ UInt32.le_refl _, h ▸ UInt32.le_refl _⟩, fun h => UInt32.le_antisymm h.1 h.2⟩

theorem since_trans (a b c : Job) (hab : decide (a.state.since ≤ b.state.since) = true)
    (hbc : decide (b.state.since ≤ c.state.since) = true) : decide (a.state.since ≤ c.state.since) = true :=
  decide_eq_true (Int.le_trans (of_decide_eq_true hab) (of_decide_eq_true hbc))

theorem since_total (a b : Job) : (decide (a.state.since ≤ b.state.since) || decide (b.state.since ≤ a.state.since)) = true := by
  rw [Bool.or_eq_true, decide_eq_true_eq, decide_eq_true_eq]
  exact Int.le_total _ _

/-- The plan job, if it is leased, is given after all others in either case. -/
theorem leasedOf_eq_iff (h : r'.plan = r.plan) : leasedOf r' = leasedOf r ↔
    ∀ time, ((r'.withStatus .leased).filter fun c => c.state.since = time) =
      (r.withStatus .leased).filter fun c => c.state.since = time := by
  have hplan : r'.planWithStatus .leased = r.planWithStatus .leased := by
    unfold planWithStatus
    rw [h]
  unfold leasedOf
  rw [hplan, Sorting.mergeSort_eq_iff (fun job : Job => job.state.since) since_trans since_total]
  · refine forall_congr' fun time => ?_
    rw [List.filter_append, List.filter_append, List.append_left_inj, List.filter_map, List.filter_map,
      (List.map_injective_iff.2 compaction_injective).eq_iff]
    rfl
  · intro a b
    rw [decide_eq_true_iff, decide_eq_true_iff]
    refine ⟨fun hab => ?_, fun hab => Instant.ext_nanos (Int.le_antisymm hab.1 hab.2)⟩
    rw [hab]
    exact ⟨Int.le_refl _, Int.le_refl _⟩

/-! ### The rebuilt queues -/

theorem pending_recover (t : Tracker) (r : RecoveredJobs) :
    (t.recover r).pending = availableOf r ++ r.planWithStatus .available := by
  obtain ⟨hlined, hcame⟩ := t.recover_lined r
  refine SameLevels.eq (fun o => (hcame o).trans ?_) (List.pairwise_map.2 (hlined.ordered .pending)) ?_
  · exact ((sameLevels_mergeSort _).append (fun _ => rfl) o).symm
  · refine List.pairwise_append.2 ⟨pairwise_mergeSort _, ?_, fun a ha b hb o ho => ?_⟩
    · unfold planWithStatus
      split
      · split
        · exact List.pairwise_singleton ..
        · exact .nil
      · exact .nil
    · obtain ⟨s, -, -, rfl⟩ := mem_planWithStatus.1 hb
      cases ho

theorem active_recover (t : Tracker) (r : RecoveredJobs) : (t.recover r).active = leasedOf r := by
  obtain ⟨new, hnew, h⟩ := t.recover_rearranged r
  have hleased : (new.map Prod.snd).filter (fun job => job.state.status = .leased) = leasedOf r := by
    rw [hnew, List.filter_append, List.filter_eq_nil_iff.2, List.filter_eq_self.2, List.nil_append]
    · exact fun job hj => decide_eq_true (status_leasedOf r job hj)
    · intro job hj
      have hstatus : job.state.status = .available := by
        rcases List.mem_append.1 hj with hj | hj
        · exact status_availableOf r job hj
        · exact (fits_plan (k := .pending) hj).1
      rw [hstatus]
      exact nofun
  have hsorted : (leasedOf r).Pairwise fun a b => a.Ahead .active b :=
    (List.pairwise_mergeSort since_trans since_total _).imp fun hab => of_decide_eq_true hab
  rw [← hleased, List.filter_map] at hsorted
  have hlist := h.lists .active
  rw [Queues.toList_empty, List.filter_nil] at hlist
  unfold active Queues.items
  rw [hlist.eq_append (List.pairwise_map.1 hsorted), List.nil_append, ← hleased, List.filter_map]
  rfl

/-! ### The rebuilt tracker -/

theorem foldl_insert_perm {xs ys : List CompactionJob} (h : ys.Perm xs) (hn : (xs.map (·.id)).Nodup)
    (m : Std.ExtTreeMap JobId CompactionJob) :
    ys.foldl (fun m c => m.insert c.id c) m = xs.foldl (fun m c => m.insert c.id c) m := by
  refine (h.symm.foldl_eq' (fun c hc c' hc' m => ?_) m).symm
  by_cases hid : c.id = c'.id
  · rw [List.inj_on_of_nodup_map hn hc hc' hid]
  · refine Std.ExtTreeMap.ext_getElem? fun id => ?_
    rw [Table.getElem?_insert, Table.getElem?_insert, Table.getElem?_insert, Table.getElem?_insert]
    split_ifs with h₁ h₂
    · exact absurd (h₂.symm.trans h₁) hid
    · rfl
    · rfl
    · rfl

/-- If the jobs that tie stand in the same sequence, the same tracker is rebuilt, down to the slots. -/
theorem recover_eq (t : Tracker) (h : r'.Reorders r) (hr : r.Apart) (hs : r'.SameTies r) : t.recover r' = t.recover r := by
  have havailable : availableOf r' = availableOf r := availableOf_eq_iff.2 hs.orders
  have hleased : leasedOf r' = leasedOf r := (leasedOf_eq_iff h.plan).2 hs.times
  have hcomplete := foldl_insert_perm (h.withStatus .complete) (hr.nodup.sublist (List.filter_sublist.map _)) ∅
  unfold availableOf at havailable
  unfold leasedOf at hleased
  rw [h.planWithStatus] at hleased
  unfold recover
  simp only [havailable, hleased, hcomplete, h.planWithStatus]

/-- A queue of a consistent tracker is given by the names of its jobs. -/
theorem Consistent.items_eq (h : t.Consistent) (k : Queue) :
    ((t.queues.items k).map Job.id).filterMap t.job? = t.queues.items k := by
  rw [List.filterMap_map, List.filterMap_congr (g := some), List.filterMap_some]
  exact fun job hj => (h.mem_items.1 hj).1

theorem view_recover_iff (t : Tracker) (h : r'.Reorders r) (hr : r.Apart) :
    (t.recover r').view = (t.recover r).view ↔ r'.SameTies r := by
  constructor
  · intro hview
    have ht := t.tracks_recover hr
    have ht' := t.tracks_recover (h.apart hr)
    have hjob : (t.recover r').job? = (t.recover r).job? := by
      funext id
      rw [ht.job?, ht'.job?, h.of_tracked hr]
    have hitems : ∀ k, ((t.recover r').queues.items k).map Job.id = ((t.recover r).queues.items k).map Job.id →
        (t.recover r').queues.items k = (t.recover r).queues.items k := by
      intro k hids
      rw [← ht'.consistent.items_eq, ← ht.consistent.items_eq k, hids, hjob]
    have hpending : (t.recover r').pending = (t.recover r).pending := hitems .pending (congrArg TrackerView.pending hview)
    have hactive : (t.recover r').active = (t.recover r).active := hitems .active (congrArg TrackerView.active hview)
    rw [pending_recover, pending_recover, h.planWithStatus, List.append_left_inj] at hpending
    rw [active_recover, active_recover] at hactive
    exact ⟨availableOf_eq_iff.1 hpending, (leasedOf_eq_iff h.plan).1 hactive⟩
  · intro hs
    rw [t.recover_eq h hr hs]

/-- For every order in which the durable jobs of a tenant may be given: what can be seen of the rebuilt tracker is the
same just if the jobs that tie stand in the same sequence, and then the trackers are equal in all that follows. The order
does not matter at all just if no jobs tie. -/
theorem recover_reordered (t : Tracker) (r : RecoveredJobs) (hr : r.Apart) :
    (∀ r', Reorders r' r → ((t.recover r').view = (t.recover r).view ↔ r'.SameTies r)) ∧
      (∀ r', Reorders r' r → r'.SameTies r → t.recover r' = t.recover r) ∧
      ((∀ r', Reorders r' r → (t.recover r').view = (t.recover r).view) ↔ r.Untied) := by
  refine ⟨fun r' h => t.view_recover_iff h hr, fun r' h => t.recover_eq h hr, ?_⟩
  rw [← hr.untied_iff]
  exact forall_congr' fun r' => forall_congr' fun h => t.view_recover_iff h hr

/-- Two available jobs of different orders, and a job that was leased together with the plan job. -/
theorem recover_reordered_untied :
    let leased : JobState := ⟨.leased, .epoch, 1, .epoch⟩
    let a : CompactionJob := ⟨"a", ⟨[], false⟩, 1, .fresh .epoch⟩
    let b : CompactionJob := ⟨"b", ⟨[], false⟩, 2, .fresh .epoch⟩
    let c : CompactionJob := ⟨"c", ⟨[], false⟩, 1, leased⟩
    let r : RecoveredJobs := ⟨[a, b, c], some leased⟩
    let r' : RecoveredJobs := ⟨[c, b, a], some leased⟩
    r.Apart ∧ r.Untied ∧ r'.Reorders r ∧ (empty.recover r').view = (empty.recover r).view ∧
      (empty.recover r').view = ⟨["a", "b"], ["c", planId], [], true, none⟩ := by
  intro leased a b c r r'
  have hr : r.Apart := ⟨by decide, by decide⟩
  have hu : r.Untied := ⟨by decide, by decide⟩
  have h : r'.Reorders r := ⟨by decide, rfl⟩
  have hview := (recover_reordered empty r hr).2.2.2 hu r' h
  refine ⟨hr, hu, h, hview, ?_⟩
  rw [hview, recover_of_pairwise empty (by decide) (by decide)]
  decide +kernel

/-- Two jobs of the same order stand in the sequence in which they were given. -/
theorem recover_swapped :
    let a : CompactionJob := ⟨"a", ⟨[], false⟩, 1, .fresh .epoch⟩
    let b : CompactionJob := ⟨"b", ⟨[], false⟩, 1, .fresh .epoch⟩
    let r : RecoveredJobs := ⟨[a, b], none⟩
    let r' : RecoveredJobs := ⟨[b, a], none⟩
    r.Apart ∧ r'.Reorders r ∧ (empty.recover r).view = ⟨["a", "b"], [], [], false, none⟩ ∧
      (empty.recover r').view = ⟨["b", "a"], [], [], false, none⟩ := by
  intro a b r r'
  refine ⟨⟨by decide, by decide⟩, ⟨List.Perm.swap .., rfl⟩, ?_, ?_⟩
  · rw [recover_of_pairwise empty (by decide) (by decide)]
    decide +kernel
  · rw [recover_of_pairwise empty (by decide) (by decide)]
    decide +kernel

end Tracker

end CompactionLeasing

import CompactionLeasing.Proofs.Scheduler.Rounds
import CompactionLeasing.Proofs.Store.Holdings
import Mathlib.Data.Int.CardIntervalMod

/-!
# Leasing in rotation

Searches for a lease that follow one upon the other. `Ready` is what the trackers need so that each search with work
left grants a lease: then the searches hand out all that is pending (`Ready.handsOut`), and while every tenant has
pending work the leases go round evenly (`Ready.length_grantsTo`).
-/

namespace CompactionLeasing

namespace Scheduler
variable {s s' : Scheduler} {now : Instant} {h : Handle} {tenant : TenantId} {e : TenantId × Handle}
  {times times' : List Instant} {m : Member} {t : Tracker} {old job : Job}

/-! ### Searches one after the other -/

def after (s : Scheduler) (times : List Instant) : Scheduler := times.foldl (fun s now => (s.leaseAny now).2) s

def answers (s : Scheduler) : List Instant → List (Verdict Empty (Option (TenantId × Job)))
  | [] => []
  | now :: times => (s.leaseAny now).1 :: (s.leaseAny now).2.answers times

/-- The leases that are granted. -/
def grants (s : Scheduler) (times : List Instant) : List (TenantId × Job) :=
  (s.answers times).filterMap fun
    | .done g => g
    | _ => none

def grantsTo (s : Scheduler) (times : List Instant) (tenant : TenantId) : List Job :=
  ((s.grants times).filter fun g => g.1 = tenant).map Prod.snd

def pendingOf (s : Scheduler) (h : Handle) : List Job := (s.members[h]?).elim [] fun m => m.tracker.pending

/-- How many jobs the registered trackers have pending. -/
def totalPending (s : Scheduler) : Nat := (s.registered.map fun e => (s.pendingOf e.2).length).sum

theorem answers_append (s : Scheduler) (times times' : List Instant) :
    s.answers (times ++ times') = s.answers times ++ (s.after times).answers times' := by
  induction times generalizing s with
  | nil => rfl
  | cons now times ih => exact congrArg (List.cons _) (ih _)

theorem grants_append (s : Scheduler) (times times' : List Instant) :
    s.grants (times ++ times') = s.grants times ++ (s.after times).grants times' := by
  rw [grants, answers_append, List.filterMap_append]
  rfl

theorem grantsTo_append (s : Scheduler) (times times' : List Instant) (tenant : TenantId) :
    s.grantsTo (times ++ times') tenant = s.grantsTo times tenant ++ (s.after times).grantsTo times' tenant := by
  rw [grantsTo, grants_append, List.filter_append, List.map_append]
  rfl

theorem registered_after (s : Scheduler) (times : List Instant) : (s.after times).registered = s.registered :=
  List.foldlRecOn (motive := fun s' : Scheduler => s'.registered = s.registered) _ _ rfl
    fun s' ih now _ => (s'.registered_leaseAny now).trans ih

theorem InLine.after (hs : s.InLine) (times : List Instant) : (s.after times).InLine :=
  List.foldlRecOn _ _ hs fun s' ih now _ => ih.leads (.leaseAny s' now)

/-- Until the cursor wraps around, it counts the searches. -/
theorem cursor_after (hr : s.registered ≠ []) (hc : s.roster.cursor.toNat + times.length < 2 ^ 64) :
    (s.after times).roster.cursor.toNat = s.roster.cursor.toNat + times.length := by
  induction times generalizing s with
  | nil => rfl
  | cons now times ih =>
    have hnext : (s.leaseAny now).2.roster.cursor.toNat = s.roster.cursor.toNat + 1 := by
      rw [List.length_cons] at hc
      rw [cursor_leaseAny hr, UInt64.toNat_add, UInt64.toNat_one]
      omega
    rw [List.length_cons] at hc ⊢
    have hrest := @ih (s.leaseAny now).2 (by rwa [registered_leaseAny]) (by omega)
    rw [hnext] at hrest
    exact hrest.trans (by omega)

theorem rota_after (hr : s.registered ≠ []) (hc : s.roster.cursor.toNat + times.length < 2 ^ 64) :
    (s.after times).rota = s.rota.rotate times.length := by
  rw [rota, registered_after, cursor_after hr hc, rota, List.rotate_rotate]

/-! ### Trackers that are ready -/

/-- The tracker is not retired, and its persister makes a lease of any of its pending jobs durable. -/
structure Works (storage : Storage) (times : List Instant) (m : Member) : Prop where
  current : m.tracker.retired = false
  epochs : ∀ job ∈ m.tracker.pending, job.state.epoch < 0xffffffffffffffff
  durable : ∀ old ∈ m.tracker.pending, ∀ now ∈ times, ∀ job, old.lease? now = some job →
    ∃ storage', writeFor m storage ⟨[job], []⟩ = .ok storage'

def Ready (s : Scheduler) (times : List Instant) : Prop :=
  ∀ e ∈ s.registered, ∀ m, s.members[e.2]? = some m → Works s.storage times m

theorem works_iff {storage : Storage} : Works storage times m ↔ m.tracker.retired = false ∧
    (∀ job ∈ m.tracker.pending, job.state.epoch < 0xffffffffffffffff) ∧
      ∀ old ∈ m.tracker.pending, ∀ now ∈ times,
        ((old.lease? now).all fun job => (writeFor m storage ⟨[job], []⟩).isOk) = true := by
  have hok : ∀ x : Except StoreError Storage, x.isOk = true ↔ ∃ storage', x = .ok storage' := by
    intro x
    cases x <;> simp [Except.isOk, Except.toBool]
  simp only [Option.all_eq_true, hok]
  exact ⟨fun ⟨hc, he, hd⟩ => ⟨hc, he, hd⟩, fun ⟨hc, he, hd⟩ => ⟨hc, he, hd⟩⟩

instance {storage : Storage} : Decidable (Works storage times m) := decidable_of_iff _ works_iff.symm

instance : Decidable (s.Ready times) :=
  decidable_of_iff (∀ e ∈ s.registered, ((s.members[e.2]?).all fun m => Works s.storage times m) = true) <| by
    simp only [Ready, Option.all_eq_true, decide_eq_true_eq]

theorem outages_writeFor {storage storage' : Storage} {b : Batch} (hw : writeFor m storage b = .ok storage') :
    storage'.outages = storage.outages := by
  unfold writeFor at hw
  split at hw
  · rw [Storage.writeBatch] at hw
    split_ifs at hw
    cases hb : storage.store.writeBatch m.tenant b with
    | error err => rw [hb] at hw; cases hw
    | ok store => rw [hb] at hw; cases hw; rfl
  · cases hw; rfl

/-- Whether a batch is made durable does not depend on what the store holds. -/
theorem writeFor_ok {m' : Member} {storage storage₁ storage' : Storage} {b : Batch} (ht : m'.tenant = m.tenant)
    (ho : m'.outlet = m.outlet) (hs : storage'.outages = storage.outages) (hw : writeFor m storage b = .ok storage₁) :
    ∃ storage₂, writeFor m' storage' b = .ok storage₂ := by
  unfold writeFor at hw ⊢
  rw [ho, ht]
  cases hout : m.outlet with
  | nowhere => exact ⟨storage', rfl⟩
  | storage =>
    simp only [hout] at hw ⊢
    have hstore := Storage.writeBatch_ok hw
    have hvalid := Store.isValid_of_writeBatch hstore
    rw [Storage.writeBatch] at hw ⊢
    rw [hs]
    split_ifs at hw ⊢
    have hdated : ∀ job ∈ b.writes, job.IsDated := by
      by_contra hn
      rw [(Store.writeBatch_cases hvalid storage.store b).2 hn] at hstore
      cases hstore
    obtain ⟨store, hstore'⟩ := (Store.writeBatch_cases hvalid storage'.store b).1 hdated
    exact ⟨_, by rw [hstore']; rfl⟩

theorem pendingOf_eq (hm : s.members[h]? = some m) : s.pendingOf h = m.tracker.pending := by
  rw [pendingOf, hm]
  rfl

namespace Grant

theorem pendingOf (hg : s.Grant now h m t old job s') (n : Handle) :
    s'.pendingOf n = if n = h then t.pending else s.pendingOf n := by
  unfold Scheduler.pendingOf
  rw [hg.members]
  split_ifs <;> rfl

theorem pendingOf_self (hg : s.Grant now h m t old job s') : s.pendingOf h = old :: s'.pendingOf h := by
  rw [hg.pendingOf, if_pos rfl, pendingOf_eq hg.member, hg.front]

/-- One pending job fewer is left. -/
theorem totalPending (hg : s.Grant now h m t old job s') (hr : s'.registered = s.registered)
    (hn : (s.registered.map Prod.snd).Nodup) (he : (tenant, h) ∈ s.registered) :
    s.totalPending = s'.totalPending + 1 := by
  unfold Scheduler.totalPending
  rw [hr]
  obtain ⟨before, behind, hsplit⟩ := List.append_of_mem he
  rw [hsplit] at hn ⊢
  rw [List.map_append, List.map_cons, List.nodup_append, List.nodup_cons] at hn
  obtain ⟨-, ⟨hbehind, -⟩, hbefore⟩ := hn
  -- No other entry of the roster has this tracker, so the sum changes in one place only.
  have hsame : ∀ e ∈ before ++ behind, (s'.pendingOf e.2).length = (s.pendingOf e.2).length := by
    intro e hm
    rw [hg.pendingOf, if_neg]
    rintro rfl
    rcases List.mem_append.1 hm with hm | hm
    · exact hbefore _ (List.mem_map_of_mem hm) _ List.mem_cons_self rfl
    · exact hbehind (List.mem_map.2 ⟨e, hm, rfl⟩)
  obtain ⟨hbefore, hbehind⟩ := List.forall_mem_append.1 hsame
  simp only [List.map_append, List.map_cons, List.sum_append, List.sum_cons, hg.pendingOf_self,
    List.length_cons, List.map_congr_left hbefore, List.map_congr_left hbehind]
  omega

end Grant

namespace Ready

theorem mono (hr : s.Ready times) (ht : ∀ now ∈ times', now ∈ times) : s.Ready times' := by
  intro e he m hm
  obtain ⟨hc, hep, hd⟩ := hr e he m hm
  exact ⟨hc, hep, fun old ho now hn => hd old ho now (ht now hn)⟩

theorem of_still (hr : s.Ready times) (hs : Still s s') (hreg : s'.registered = s.registered) : s'.Ready times := by
  intro e he m hm
  rw [hs.storage]
  exact hr e (hreg ▸ he) m (hs.members ▸ hm)

theorem of_grant (hr : s.Ready times) (hg : s.Grant now h m t old job s') (hreg : s'.registered = s.registered) :
    s'.Ready times := by
  intro e he m' hm'
  have hout := outages_writeFor hg.durable
  rw [hg.members] at hm'
  split_ifs at hm' with heq
  · cases hm'
    obtain ⟨-, hepochs, hdurable⟩ := hr e (hreg ▸ he) m (heq ▸ hg.member)
    rw [hg.front] at hepochs hdurable
    refine ⟨hg.stays, fun job hj => hepochs job (List.mem_cons_of_mem _ hj), fun old hold now hnow job hl => ?_⟩
    obtain ⟨storage₁, hw⟩ := hdurable old (List.mem_cons_of_mem _ hold) now hnow job hl
    exact writeFor_ok rfl rfl hout hw
  · obtain ⟨hcurrent, hepochs, hdurable⟩ := hr e (hreg ▸ he) m' hm'
    refine ⟨hcurrent, hepochs, fun old hold now hnow job hl => ?_⟩
    obtain ⟨storage₁, hw⟩ := hdurable old hold now hnow job hl
    exact writeFor_ok rfl rfl hout hw

/-- A tracker that is ready has a lease to grant exactly if it has a job pending. -/
theorem passes_iff (hr : s.Ready times) (he : e ∈ s.registered) (hn : now ∈ times) :
    s.Passes now e.2 ↔ s.pendingOf e.2 = [] := by
  constructor
  · intro hp
    cases hm : s.members[e.2]? with
    | none => rw [Scheduler.pendingOf, hm]; rfl
    | some m =>
      obtain ⟨hcurrent, -, hdurable⟩ := hr e he m hm
      rw [pendingOf_eq hm]
      rcases hp m hm with hretired | hnone | ⟨old, rest, job, err, hpending, hl, hw⟩
      · rw [hcurrent] at hretired
        cases hretired
      · exact hnone
      · obtain ⟨storage', hok⟩ := hdurable old (hpending ▸ List.mem_cons_self) now hn job hl
        rw [hok] at hw
        cases hw
  · intro hp m hm
    rw [pendingOf_eq hm] at hp
    exact .inr (.inl hp)

theorem not_spent (hr : s.Ready times) (he : e ∈ s.registered) : ¬ s.Spent now e.2 := by
  rintro ⟨m, old, rest, hm, -, hp, hl⟩
  have hepoch := (hr e he m hm).epochs old (hp ▸ List.mem_cons_self)
  have hsome : old.lease? now = some _ := Job.lease?_eq_some.2 ⟨UInt64.ne_of_lt hepoch, rfl⟩
  rw [hl] at hsome
  cases hsome

/-- A search finds nothing pending, or it comes to a tracker that has something pending, and leases it. -/
theorem search (hr : s.Ready times) (hs : s.InLine) (hn : now ∈ times) :
    ((s.leaseAny now).1 = .done none ∧ (∀ e ∈ s.registered, s.pendingOf e.2 = []) ∧ Still s (s.leaseAny now).2) ∨
      ∃ passed tenant h later m t old job, s.rota = passed ++ (tenant, h) :: later ∧
        (∀ e ∈ passed, s.pendingOf e.2 = []) ∧ s.Grant now h m t old job (s.leaseAny now).2 ∧
        (s.leaseAny now).1 = .done (some (tenant, job)) := by
  obtain ⟨asked, hround, -⟩ := round_leaseAny hs now
  generalize (s.leaseAny now).1 = v at hround ⊢
  generalize (s.leaseAny now).2 = s' at hround ⊢
  generalize horder : s.rota = order at hround
  have hmem : ∀ e ∈ order, e ∈ s.registered := fun e he => mem_rota.1 (horder ▸ he)
  have hempty : ∀ e ∈ order, s.Passes now e.2 → s.pendingOf e.2 = [] :=
    fun e he => (hr.passes_iff (hmem e he) hn).1
  cases hround with
  | nobody hp hstill =>
    refine .inl ⟨rfl, fun e he => ?_, hstill⟩
    have he' := mem_rota.2 he
    rw [horder] at he'
    exact hempty e he' (hp e he')
  | granted passed later hp hg =>
    exact .inr ⟨_, _, _, _, _, _, _, _, rfl, fun e he => hempty e (List.mem_append_left _ he) (hp e he), hg, rfl⟩
  | spent passed later hp he hstill => exact absurd he (hr.not_spent (hmem _ (List.mem_append_right _ List.mem_cons_self)))

theorem next (hr : s.Ready times) (hs : s.InLine) (hn : now ∈ times) : (s.leaseAny now).2.Ready times := by
  rcases hr.search hs hn with ⟨-, -, hstill⟩ | ⟨_, _, _, _, _, _, _, _, -, -, hg, -⟩
  · exact hr.of_still hstill (s.registered_leaseAny now)
  · exact hr.of_grant hg (s.registered_leaseAny now)

theorem after (hr : s.Ready times') (hs : s.InLine) (ht : ∀ now ∈ times, now ∈ times') :
    (s.after times).Ready times' :=
  (List.foldlRecOn (motive := fun s : Scheduler => s.Ready times' ∧ s.InLine) _ _ ⟨hr, hs⟩
    fun s ih now hm => ⟨ih.1.next ih.2 (ht now hm), ih.2.leads (.leaseAny s now)⟩).1

end Ready

/-! ### All work is handed out -/

/-- Searches at some times lease all that is pending, and nothing else. -/
structure HandsOut (s : Scheduler) (times : List Instant) : Prop where
  answers : s.answers times = (s.grants times).map fun g => .done (some g)
  tenants : ∀ g ∈ s.grants times, g.1 ∈ s.registered.map Prod.fst
  /-- A tenant's jobs are leased one by one in the order in which they are pending. -/
  jobs : ∀ e ∈ s.registered, List.Forall₂ (fun old job => ∃ now ∈ times, old.lease? now = some job)
    (s.pendingOf e.2) (s.grantsTo times e.1)
  rest : ∀ e ∈ s.registered, (s.after times).pendingOf e.2 = []

theorem totalPending_eq_zero : s.totalPending = 0 ↔ ∀ e ∈ s.registered, s.pendingOf e.2 = [] := by
  simp only [totalPending, List.sum_eq_zero_iff_forall_eq_nat, List.forall_mem_map, List.length_eq_zero_iff]

/-- A tenant has one tracker on the roster. -/
theorem handle_unique {h' : Handle} (he : (tenant, h) ∈ s.registered) (he' : (tenant, h') ∈ s.registered) : h = h' := by
  have hget := Std.ExtTreeMap.mem_toList_iff_getElem?_eq_some.1 he
  rw [Std.ExtTreeMap.mem_toList_iff_getElem?_eq_some.1 he'] at hget
  exact (Option.some.inj hget).symm

theorem grants_cons {g : TenantId × Job} (hv : (s.leaseAny now).1 = .done (some g)) (times : List Instant) :
    s.grants (now :: times) = g :: (s.leaseAny now).2.grants times := by
  rw [grants, answers, hv]
  rfl

theorem grantsTo_cons {g : TenantId × Job} (hv : (s.leaseAny now).1 = .done (some g)) (times : List Instant)
    (tenant : TenantId) : s.grantsTo (now :: times) tenant =
      if g.1 = tenant then g.2 :: (s.leaseAny now).2.grantsTo times tenant
      else (s.leaseAny now).2.grantsTo times tenant := by
  rw [grantsTo, grants_cons hv, List.filter_cons]
  simp only [decide_eq_true_eq]
  split_ifs <;> rfl

/-- As many searches as there are jobs pending hand them all out. -/
theorem Ready.handsOut (hr : s.Ready times) (hs : s.InLine) (hn : (s.registered.map Prod.snd).Nodup)
    (ht : s.totalPending = times.length) : s.HandsOut times := by
  induction times generalizing s with
  | nil =>
    have hempty := totalPending_eq_zero.1 ht
    refine ⟨rfl, fun g hg => absurd hg List.not_mem_nil, fun e he => ?_, hempty⟩
    rw [hempty e he]
    exact .nil
  | cons now times ih =>
    rcases hr.search hs List.mem_cons_self with ⟨-, hempty, -⟩ | ⟨passed, tenant, h, later, m, t, old, job, hrota, -, hg, hv⟩
    · rw [totalPending_eq_zero.2 hempty] at ht
      cases ht
    have hreg := s.registered_leaseAny now
    have hmem : (tenant, h) ∈ s.registered :=
      mem_rota.1 (hrota ▸ List.mem_append_right _ List.mem_cons_self)
    have hready := (hr.next hs List.mem_cons_self).mono fun _ => List.mem_cons_of_mem now
    have htotal := hg.totalPending hreg hn hmem
    rw [ht, List.length_cons] at htotal
    obtain ⟨hanswers, htenants, hjobs, hrest⟩ :=
      ih hready (hs.leads (.leaseAny s now)) (hreg ▸ hn) (Nat.succ.inj htotal).symm
    rw [hreg] at htenants hjobs hrest
    refine ⟨?_, ?_, fun e he => ?_, hrest⟩
    · rw [Scheduler.answers, grants_cons hv, hanswers, hv]
      rfl
    · rw [grants_cons hv]
      exact List.forall_mem_cons.2 ⟨List.mem_map_of_mem hmem, htenants⟩
    · have hlater : List.Forall₂ (fun old job => ∃ time ∈ now :: times, Job.lease? old time = some job)
          _ _ :=
        (hjobs e he).imp fun _ _ ⟨time, htime, hl⟩ => ⟨time, List.mem_cons_of_mem now htime, hl⟩
      rw [grantsTo_cons hv]
      split_ifs with hsame
      · obtain ⟨tenant, h'⟩ := e
        subst hsame
        obtain rfl := handle_unique hmem he
        rw [hg.pendingOf_self]
        exact .cons ⟨now, List.mem_cons_self, hg.lease⟩ hlater
      · have hother : e.2 ≠ h := fun heq => hsame (congrArg Prod.fst (List.inj_on_of_nodup_map hn hmem he heq.symm))
        rw [hg.pendingOf, if_neg hother] at hlater
        exact hlater

/-- A search grants nothing where nothing is pending. -/
theorem leaseAny_of_empty (hs : s.InLine) (hp : ∀ e ∈ s.registered, s.pendingOf e.2 = []) (now : Instant) :
    (s.leaseAny now).1 = .done none := by
  obtain ⟨asked, hsearch⟩ := hs.searches now
  refine hsearch.nothing.2 fun e he m hm => .inr (.inl ?_)
  rw [← pendingOf_eq hm]
  exact hp e he

/-! ### Leases go round -/

/-- Every tenant has pending work before each of the searches. -/
def Busy (s : Scheduler) (times : List Instant) : Prop :=
  ∀ k < times.length, ∀ e ∈ s.registered, (s.after (times.take k)).pendingOf e.2 ≠ []

theorem Busy.of_append (hb : s.Busy (times ++ times')) : s.Busy times := by
  intro k hk
  have hk' : k < (times ++ times').length := by
    rw [List.length_append]
    omega
  have htake := hb k hk'
  rwa [List.take_append_of_le_length (Nat.le_of_lt hk)] at htake

/-- A search that finds every tenant busy leases a job of the first tracker that it asks. -/
theorem Ready.head_rota (hr : s.Ready times) (hs : s.InLine) (hn : now ∈ times) (hrn : s.registered ≠ [])
    (hb : ∀ e ∈ s.registered, s.pendingOf e.2 ≠ []) : ∃ tenant h job, s.rota.head? = some (tenant, h) ∧
      (s.leaseAny now).1 = .done (some (tenant, job)) := by
  rcases hr.search hs hn with ⟨-, hempty, -⟩ | ⟨passed, tenant, h, later, m, t, old, job, hrota, hpassed, -, hv⟩
  · obtain ⟨e, he⟩ := List.exists_mem_of_ne_nil _ hrn
    exact absurd (hempty e he) (hb e he)
  · cases passed with
    | nil => exact ⟨tenant, h, job, by rw [hrota]; rfl, hv⟩
    | cons e passed =>
      have he : e ∈ s.registered := mem_rota.1 (hrota ▸ List.mem_cons_self)
      exact absurd (hpassed e List.mem_cons_self) (hb e he)

/-- Among busy tenants, the one that stands at `p` on the rota is served at each search whose number is `p` modulo the
number of tenants. -/
theorem Ready.length_grantsTo {p : Nat} (hr : s.Ready times) (hs : s.InLine) (hb : s.Busy times)
    (hc : s.roster.cursor.toNat + times.length ≤ 2 ^ 64) (hp : s.rota[p]? = some e) :
    (s.grantsTo times e.1).length = times.length.count (· ≡ p [MOD s.registered.length]) := by
  induction times using List.reverseRecOn with
  | nil => rfl
  | append_singleton times now ih =>
    rw [List.length_append, List.length_singleton] at hc ⊢
    have hrn : s.registered ≠ [] := by
      intro hnil
      simp [rota, hnil] at hp
    have hplt : p < s.registered.length := by
      rw [← length_rota]
      exact (List.getElem?_eq_some_iff.1 hp).1
    have hbusy := hb times.length (by simp)
    rw [List.take_left] at hbusy
    have hready : (s.after times).Ready (times ++ [now]) := hr.after hs fun _ => List.mem_append_left _
    obtain ⟨tenant, h, job, hhead, hv⟩ := hready.head_rota (hs.after times) (List.mem_append_right _ List.mem_cons_self)
      (by rwa [registered_after]) (by rwa [registered_after])
    rw [rota_after hrn (by omega), List.head?_eq_getElem?, List.getElem?_rotate (by rw [length_rota]; omega),
      length_rota, Nat.zero_add] at hhead
    -- The tenant that is served is the one at the place that the number of the search gives.
    have hturn : tenant = e.1 ↔ times.length ≡ p [MOD s.registered.length] := by
      rw [Nat.ModEq, Nat.mod_eq_of_lt hplt]
      exact tenant_rota hhead hp
    rw [grantsTo_append, grantsTo_cons hv, List.length_append,
      ih (hr.mono fun _ => List.mem_append_left _) hb.of_append (by omega), Nat.count_succ]
    simp only [hturn]
    split_ifs <;> rfl

/-- No tenant is served more than once more than another one. -/
theorem Ready.fair (hr : s.Ready times) (hs : s.InLine) (hb : s.Busy times)
    (hc : s.roster.cursor.toNat + times.length ≤ 2 ^ 64) {e' : TenantId × Handle} (he : e ∈ s.registered)
    (he' : e' ∈ s.registered) : (s.grantsTo times e.1).length ≤ (s.grantsTo times e'.1).length + 1 := by
  obtain ⟨p, hp⟩ := List.mem_iff_getElem?.1 (mem_rota.2 he)
  obtain ⟨p', hp'⟩ := List.mem_iff_getElem?.1 (mem_rota.2 he')
  have hpos : 0 < s.registered.length := List.length_pos_of_mem he
  rw [hr.length_grantsTo hs hb hc hp, hr.length_grantsTo hs hb hc hp', Nat.count_modEq_card _ hpos,
    Nat.count_modEq_card _ hpos]
  split_ifs <;> omega

/-- In every state that the scheduler can reach: a search goes round the trackers from where the cursor points and ends
at the first lease; as many searches as there are jobs pending hand them all out, and the next one finds nothing; and
while all tenants are busy and the cursor does not wrap around, none gets ahead of another by more than one lease. -/
theorem leases_in_rotation {storage : Storage} {admission : Admission} {maxLeases : UInt64}
    (hs : Leads (start storage admission maxLeases) s) :
    (s.registered.Pairwise fun e e' => e.1 < e'.1) ∧
    (∀ now, ∃ asked, s.Searches now asked) ∧
    (∀ times last, s.Ready times → (s.registered.map Prod.snd).Nodup → s.totalPending = times.length →
      s.HandsOut times ∧ s.answers (times ++ [last]) = s.answers times ++ [.done none]) ∧
    ∀ times, s.Ready times → s.Busy times → s.roster.cursor.toNat + times.length ≤ 2 ^ 64 →
      ∀ e ∈ s.registered, ∀ e' ∈ s.registered,
        (s.grantsTo times e.1).length ≤ (s.grantsTo times e'.1).length + 1 := by
  have hline : s.InLine := InLine.leads (Every.start storage admission maxLeases) hs
  refine ⟨Table.pairwise_toList _, fun now => hline.searches now, fun times last hr hn ht => ?_,
    fun times hr hb hc e he e' he' => hr.fair hline hb hc he he'⟩
  have hhands := hr.handsOut hline hn ht
  refine ⟨hhands, ?_⟩
  have hempty := hhands.rest
  rw [← s.registered_after times] at hempty
  rw [answers_append, answers, leaseAny_of_empty (hline.after times) hempty last]
  rfl

/-- Two tenants, of which `a` has two jobs pending and `b` has one. -/
def shared : Scheduler :=
  let job (id : JobId) (order : UInt32) : CompactionJob := ⟨id, ⟨[], false⟩, order, .fresh .epoch⟩
  [.enroll "a" .nowhere, .rebuild 0 ⟨[job "x" 1, job "y" 2], none⟩, .register "a" 0, .enroll "b" .storage,
    .rebuild 1 ⟨[job "z" 1], none⟩, .register "b" 1].foldl move (start ⟨.empty, .none⟩ .all 0)

theorem leases_in_rotation_shared :
    let times : List Instant := [.epoch, .epoch, .epoch]
    Leads (start ⟨.empty, .none⟩ .all 0) shared ∧ shared.Ready times ∧ (shared.registered.map Prod.snd).Nodup ∧
      shared.totalPending = times.length ∧ shared.HandsOut times ∧
      shared.answers (times ++ [.epoch]) = shared.answers times ++ [.done none] ∧
      ((shared.grants times).map fun g => (g.1, g.2.id)) = [("a", "x"), ("b", "z"), ("a", "y")] ∧
      shared.Busy (times.take 2) ∧
      (shared.grantsTo (times.take 2) "a").length ≤ (shared.grantsTo (times.take 2) "b").length + 1 := by
  intro times
  have hs : Leads (start ⟨.empty, .none⟩ .all 0) shared := ⟨_, rfl⟩
  obtain ⟨hr, hregistered, hpending, hgrants⟩ : shared.Ready times ∧ shared.registered = [("a", 0), ("b", 1)] ∧
      [0, 1].map (fun h => ((shared.pendingOf h).length, ((shared.after [.epoch]).pendingOf h).length)) =
        [(2, 1), (1, 1)] ∧
      ((shared.grants times).map fun g => (g.1, g.2.id)) = [("a", "x"), ("b", "z"), ("a", "y")] := by
    -- The jobs are given in order, so nothing has to be sorted.
    have ha := fun t : Tracker => t.recover_of_pairwise
      (r := ⟨[⟨"x", ⟨[], false⟩, 1, .fresh .epoch⟩, ⟨"y", ⟨[], false⟩, 2, .fresh .epoch⟩], none⟩) (by decide) (by decide)
    have hb := fun t : Tracker => t.recover_of_pairwise
      (r := ⟨[⟨"z", ⟨[], false⟩, 1, .fresh .epoch⟩], none⟩) (by decide) (by decide)
    simp only [shared, List.foldl_cons, List.foldl_nil, move, rebuild, ha, hb]
    decide +kernel
  have hn : (shared.registered.map Prod.snd).Nodup := by rw [hregistered]; decide
  simp only [List.map_cons, List.map_nil, List.cons.injEq, Prod.mk.injEq, and_true] at hpending
  obtain ⟨⟨ha, ha'⟩, hb, hb'⟩ := hpending
  have ht : shared.totalPending = times.length := by
    simp [totalPending, hregistered, ha, hb, times]
  have hbusy : shared.Busy (times.take 2) := by
    intro k hk
    have hk : k = 0 ∨ k = 1 := by
      have : k < 2 := hk
      omega
    rw [hregistered, List.forall_mem_cons, List.forall_mem_singleton]
    rcases hk with rfl | rfl
    · exact ⟨List.ne_nil_of_length_eq_add_one ha, List.ne_nil_of_length_eq_add_one hb⟩
    · exact ⟨List.ne_nil_of_length_eq_add_one ha', List.ne_nil_of_length_eq_add_one hb'⟩
  have hc : shared.roster.cursor.toNat + (times.take 2).length ≤ 2 ^ 64 := by decide +kernel
  obtain ⟨-, -, hdrain, hfair⟩ := leases_in_rotation hs
  obtain ⟨hhands, hlast⟩ := hdrain times .epoch hr hn ht
  refine ⟨hs, hr, hn, ht, hhands, hlast, hgrants, hbusy, ?_⟩
  refine hfair _ (hr.mono fun _ => List.mem_of_mem_take) hbusy hc ("a", 0) ?_ ("b", 1) ?_
  · simp [hregistered]
  · simp [hregistered]

end Scheduler

end CompactionLeasing

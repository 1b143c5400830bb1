import CompactionLeasing.Proofs.Scheduler.Standing
import CompactionLeasing.Proofs.Tracker.Lineup
import Mathlib.Data.List.Rotate

/-!
# One search for a lease

A search asks the registered trackers in the order of their tenants, beginning where the cursor points and going
round (`rota`). `Round` says how far it gets: trackers that have no lease to grant are passed, and leave everything as
it is but the tallies; the first other one ends the search.
-/

namespace CompactionLeasing

namespace Scheduler
variable {s s' s'' : Scheduler} {now : Instant} {h : Handle} {tenant : TenantId} {e : TenantId × Handle}
  {order asked : List (TenantId × Handle)}

/-- The queues of every tracker there ever was are in order. -/
abbrev InLine (s : Scheduler) : Prop := s.Every fun t => Lined t.queues

theorem InLine.move (hs : s.InLine) (m : Move) : (s.move m).InLine :=
  Every.move hs m lined_empty (fun _ now r _ _ store write ht => ht.serve now r store write)
    (fun _ jobs _ t => (t.recover_lined jobs).1) fun _ ht => ⟨ht, ht⟩

theorem InLine.leads (hs : s.InLine) (hl : Leads s s') : s'.InLine := by
  obtain ⟨moves, rfl⟩ := hl
  exact List.foldlRecOn _ _ hs fun _ ih m _ => ih.move m

/-! ### One tracker -/

/-- No tracker has changed, and nothing has been written. -/
structure Still (s s' : Scheduler) : Prop where
  members : s'.members = s.members
  storage : s'.storage = s.storage

theorem Still.symm (h : Still s s') : Still s' s := ⟨h.members.symm, h.storage.symm⟩

theorem Still.trans (h : Still s s') (h' : Still s' s'') : Still s s'' :=
  ⟨h'.members.trans h.members, h'.storage.trans h.storage⟩

/-- The tracker has nothing pending or is retired, or its persister fails. -/
def Passes (s : Scheduler) (now : Instant) (h : Handle) : Prop :=
  ∀ m, s.members[h]? = some m → m.tracker.retired = true ∨ m.tracker.pending = [] ∨
    ∃ old rest job err, m.tracker.pending = old :: rest ∧ old.lease? now = some job ∧
      writeFor m s.storage ⟨[job], []⟩ = .error err

/-- The tracker `m`, which becomes `t`, leases its first pending job `old` as `job`. Nothing is written but this lease,
and no other tracker changes. -/
structure Grant (s : Scheduler) (now : Instant) (h : Handle) (m : Member) (t : Tracker) (old job : Job) (s' : Scheduler) :
    Prop where
  member : s.members[h]? = some m
  current : m.tracker.retired = false
  front : m.tracker.pending = old :: t.pending
  lease : old.lease? now = some job
  durable : writeFor m s.storage ⟨[job], []⟩ = .ok s'.storage
  leased : job ∈ t.active
  stays : t.retired = false
  members : ∀ n, s'.members[n]? = if n = h then some { m with tracker := t } else s.members[n]?

/-- The epochs of the tracker's first pending job are used up. -/
def Spent (s : Scheduler) (now : Instant) (h : Handle) : Prop :=
  ∃ m old rest, s.members[h]? = some m ∧ m.tracker.retired = false ∧ m.tracker.pending = old :: rest ∧
    old.lease? now = none

theorem Passes.still (hp : s.Passes now h) (hs : Still s s') : s'.Passes now h := by
  intro m hm
  rw [hs.storage]
  exact hp m (hs.members ▸ hm)

theorem Spent.still (he : s.Spent now h) (hs : Still s s') : s'.Spent now h := by
  obtain ⟨m, old, rest, hm, he⟩ := he
  exact ⟨m, old, rest, hs.members ▸ hm, he⟩

theorem Spent.not_passes (hs : s.Spent now h) : ¬ s.Passes now h := by
  obtain ⟨m, old, rest, hm, hr, hp, hl⟩ := hs
  intro hpass
  rcases hpass m hm with hr' | hp' | ⟨old', rest', job, err, hp', hl', -⟩
  · simp [hr] at hr'
  · simp [hp] at hp'
  · rw [hp] at hp'
    cases hp'
    simp [hl] at hl'

namespace Grant
variable {m : Member} {t : Tracker} {old job : Job}

theorem of_still (hs : Still s s') (hg : s'.Grant now h m t old job s'') : s.Grant now h m t old job s'' :=
  ⟨hs.members ▸ hg.member, hg.current, hg.front, hg.lease, hs.storage ▸ hg.durable, hg.leased, hg.stays,
    hs.members ▸ hg.members⟩

theorem not_passes (hg : s.Grant now h m t old job s') : ¬ s.Passes now h := by
  intro hpass
  rcases hpass m hg.member with hr | hp | ⟨old', rest, job', err, hp, hl, hw⟩
  · simp [hg.current] at hr
  · simp [hg.front] at hp
  · rw [hg.front] at hp
    cases hp
    rw [hg.lease] at hl
    cases hl
    simp [hg.durable] at hw

end Grant

/-- How a tracker fares that is asked for a lease, as the search sees it. -/
inductive Ask (s : Scheduler) (now : Instant) (h : Handle) :
    Option (Verdict StoreError Reply) × Scheduler → Prop
  | passes {s' : Scheduler} {v : Option (Verdict StoreError Reply)} (hp : s.Passes now h) (hs : Still s s')
      (hv : v = none ∨ v = some (.done (.job none)) ∨ ∃ err, v = some (.failed err)) : Ask s now h (v, s')
  | grants {s' : Scheduler} {m : Member} {t : Tracker} {old job : Job} (hg : s.Grant now h m t old job s') :
      Ask s now h (some (.done (.job (some job))), s')
  | spent {s' : Scheduler} (hp : s.Spent now h) (hs : Still s s') : Ask s now h (some .overflow, s')

/-- The tracker stays as it is. -/
theorem modify_self {ms : Array Member} {m : Member} (hm : ms[h]? = some m) :
    ms.modify h (fun n => { n with tracker := m.tracker }) = ms := by
  refine Array.ext_getElem? fun n => ?_
  rw [Array.getElem?_modify]
  split_ifs with hn
  · rw [← hn, hm]
    rfl
  · rfl

theorem ask_lease (hs : s.InLine) (now : Instant) (h : Handle) : s.Ask now h (s.call h now .lease) := by
  cases hm : s.members[h]? with
  | none =>
    simp only [call, hm]
    refine .passes (fun m hm' => ?_) ⟨rfl, rfl⟩ (.inl rfl)
    rw [hm] at hm'
    cases hm'
  | some m =>
    simp only [call, hm]
    have hstill : ∀ (metrics : Metrics), Still s { s with
        members := s.members.modify h fun n => { n with tracker := m.tracker }
        metrics := metrics } := fun metrics => ⟨modify_self hm, rfl⟩
    have hasked := (hs h m hm).asked now s.storage (writeFor m s.storage)
    generalize m.tracker.serve now .lease s.storage (writeFor m s.storage) = r at hasked ⊢
    cases hasked with
    | refused hr =>
      refine .passes (fun m' hm' => ?_) (hstill _) (.inr (.inl rfl))
      cases hm.symm.trans hm'
      exact hr.imp_right .inl
    | spent hr hp hl => exact .spent ⟨m, _, _, hm, hr, hp, hl⟩ (hstill _)
    | failed hr hp hl hw =>
      refine .passes (fun m' hm' => ?_) (hstill _) (.inr (.inr ⟨_, rfl⟩))
      cases hm.symm.trans hm'
      exact .inr (.inr ⟨_, _, _, _, hp, hl, hw⟩)
    | granted events hr hr' hp hl hw ha =>
      refine .grants ⟨hm, hr, hp, hl, hw, ha, hr', fun n => ?_⟩
      rw [if_neg Bool.false_ne_true]
      simp only [Array.getElem?_modify, eq_comm (a := n)]
      split_ifs with hn
      · rw [← hn, hm]
        rfl
      · rfl

/-! ### All trackers -/

/-- How far a search gets that goes through the trackers of `order`: it asks those of `asked`. -/
inductive Round (s : Scheduler) (now : Instant) :
    List (TenantId × Handle) → List (TenantId × Handle) → Verdict Empty (Option (TenantId × Job)) → Scheduler → Prop
  | nobody {order : List (TenantId × Handle)} {s' : Scheduler} (hp : ∀ e ∈ order, s.Passes now e.2) (hs : Still s s') : Round s now order order (.done none) s'
  | granted (passed later : List (TenantId × Handle)) {tenant : TenantId} {h : Handle} {m : Member} {t : Tracker}
      {old job : Job} {s' : Scheduler} (hp : ∀ e ∈ passed, s.Passes now e.2) (hg : s.Grant now h m t old job s') :
      Round s now (passed ++ (tenant, h) :: later) (passed ++ [(tenant, h)]) (.done (some (tenant, job))) s'
  | spent (passed later : List (TenantId × Handle)) {e : TenantId × Handle} {s' : Scheduler}
      (hp : ∀ e ∈ passed, s.Passes now e.2) (he : s.Spent now e.2) (hs : Still s s') : Round s now (passed ++ e :: later) (passed ++ [e]) .overflow s'

namespace Round
variable {v : Verdict Empty (Option (TenantId × Job))}

theorem of_still (hs : Still s s') (hr : Round s' now order asked v s'') : Round s now order asked v s'' := by
  cases hr with
  | nobody hp hs' => exact .nobody (fun e he => (hp e he).still hs.symm) (hs.trans hs')
  | granted passed later hp hg => exact .granted passed later (fun e he => (hp e he).still hs.symm) (hg.of_still hs)
  | spent passed later hp he hs' => exact .spent passed later (fun e he => (hp e he).still hs.symm) (he.still hs.symm) (hs.trans hs')

/-- A tracker that is passed comes before the others. -/
theorem cons (hp : s.Passes now e.2) (hr : Round s now order asked v s') : Round s now (e :: order) (e :: asked) v s' := by
  cases hr with
  | nobody hp' hs => exact .nobody (List.forall_mem_cons.2 ⟨hp, hp'⟩) hs
  | granted passed later hp' hg => exact .granted (e :: passed) later (List.forall_mem_cons.2 ⟨hp, hp'⟩) hg
  | spent passed later hp' he hs => exact .spent (e :: passed) later (List.forall_mem_cons.2 ⟨hp, hp'⟩) he hs

theorem prefix_order (hr : Round s now order asked v s') : asked <+: order := by
  cases hr with
  | nobody hp hs => exact List.prefix_rfl
  | granted passed later hp hg => exact ⟨_, List.append_cons .. |>.symm⟩
  | spent passed later hp he hs => exact ⟨_, List.append_cons .. |>.symm⟩

theorem done_none_iff (hr : Round s now order asked v s') : v = .done none ↔ ∀ e ∈ order, s.Passes now e.2 := by
  cases hr with
  | nobody hp hs => exact iff_of_true rfl hp
  | granted passed later hp hg =>
    exact iff_of_false nofun fun hall => hg.not_passes (hall _ (List.mem_append_right _ List.mem_cons_self))
  | spent passed later hp he hs =>
    exact iff_of_false nofun fun hall => he.not_passes (hall _ (List.mem_append_right _ List.mem_cons_self))

end Round

theorem round_leaseFrom (hs : s.InLine) (now : Instant) (order : List (TenantId × Handle)) :
    ∃ asked, Round s now order asked (s.leaseFrom now order).1 (s.leaseFrom now order).2 ∧
      (s.leaseFrom now order).2 = asked.foldl (fun s e => (s.call e.2 now .lease).2) s := by
  induction order generalizing s with
  | nil => exact ⟨[], .nobody (fun _ he => absurd he List.not_mem_nil) ⟨rfl, rfl⟩, rfl⟩
  | cons e order ih =>
    have hask := ask_lease hs now e.2
    have hline : (s.call e.2 now .lease).2.InLine := hs.move (.call e.2 now .lease)
    rw [leaseFrom]
    generalize hr : s.call e.2 now .lease = r at hask hline ⊢
    cases hask with
    | passes hp hstill hv =>
      obtain ⟨asked, hround, hfold⟩ := ih hline
      refine ⟨e :: asked, ?_⟩
      rw [List.foldl_cons, hr]
      have hcons := (hround.of_still hstill).cons hp
      rcases hv with rfl | rfl | ⟨err, rfl⟩ <;> exact ⟨hcons, hfold⟩
    | grants hg => exact ⟨[e], .granted [] order (fun _ he => absurd he List.not_mem_nil) hg, by simp [hr]⟩
    | spent he hstill => exact ⟨[e], .spent [] order (fun _ he => absurd he List.not_mem_nil) he hstill, by simp [hr]⟩

/-- The registered trackers as the next search goes through them. -/
def rota (s : Scheduler) : List (TenantId × Handle) := s.registered.rotate s.roster.cursor.toNat

/-- The rotation has gone on by one tracker, unless there is none. -/
def turned (s : Scheduler) : Scheduler :=
  if s.registered = [] then s else { s with roster := { s.roster with cursor := s.roster.cursor + 1 } }

theorem still_turned (s : Scheduler) : Still s s.turned := by
  unfold turned
  split <;> exact ⟨rfl, rfl⟩

theorem InLine.turned (hs : s.InLine) : s.turned.InLine := by
  intro n m hm
  rw [s.still_turned.members] at hm
  exact hs n m hm

theorem registered_turned (s : Scheduler) : s.turned.registered = s.registered := by
  unfold turned
  split <;> rfl

theorem leaseAny_eq (s : Scheduler) (now : Instant) : s.leaseAny now = s.turned.leaseFrom now s.rota := by
  unfold leaseAny turned rota
  by_cases hr : s.registered = []
  · rw [hr]; rfl
  · rw [if_neg (by simpa using hr), if_neg hr, List.rotate_eq_drop_append_take_mod]

theorem roster_leaseFrom (s : Scheduler) (now : Instant) (order : List (TenantId × Handle)) :
    (s.leaseFrom now order).2.roster = s.roster := by
  induction order generalizing s with
  | nil => rfl
  | cons e order ih =>
    have hroster := s.roster_call e.2 now .lease
    rw [leaseFrom]
    generalize s.call e.2 now .lease = r at hroster ⊢
    split <;> first | exact (ih _).trans hroster | exact hroster

theorem roster_leaseAny (s : Scheduler) (now : Instant) : (s.leaseAny now).2.roster = s.turned.roster := by
  rw [leaseAny_eq, roster_leaseFrom]

theorem registered_leaseAny (s : Scheduler) (now : Instant) : (s.leaseAny now).2.registered = s.registered := by
  rw [registered, roster_leaseAny]
  exact s.registered_turned

theorem cursor_leaseAny (hr : s.registered ≠ []) (now : Instant) :
    (s.leaseAny now).2.roster.cursor = s.roster.cursor + 1 := by
  rw [roster_leaseAny, turned, if_neg hr]

theorem mem_rota : e ∈ s.rota ↔ e ∈ s.registered := List.mem_rotate

theorem length_rota (s : Scheduler) : s.rota.length = s.registered.length := List.length_rotate ..

theorem nodup_rota (s : Scheduler) : (s.rota.map Prod.fst).Nodup := by
  rw [rota, List.map_rotate, List.nodup_rotate, List.Nodup, List.pairwise_map]
  exact (Table.pairwise_toList s.roster.trackers).imp ne_of_lt

/-- A tenant stands at one place on the rota. -/
theorem tenant_rota {p p' : Nat} {e' : TenantId × Handle} (hp : s.rota[p]? = some e) (hp' : s.rota[p']? = some e') :
    e.1 = e'.1 ↔ p = p' := by
  have htenant : (s.rota.map Prod.fst)[p]? = some e.1 := by rw [List.getElem?_map, hp]; rfl
  have htenant' : (s.rota.map Prod.fst)[p']? = some e'.1 := by rw [List.getElem?_map, hp']; rfl
  rw [← List.getElem?_inj (List.getElem?_eq_some_iff.1 htenant).1 s.nodup_rota, htenant, htenant', Option.some.injEq]

theorem round_leaseAny (hs : s.InLine) (now : Instant) : ∃ asked,
    Round s now s.rota asked (s.leaseAny now).1 (s.leaseAny now).2 ∧
      (s.leaseAny now).2 = asked.foldl (fun s e => (s.call e.2 now .lease).2) s.turned := by
  obtain ⟨asked, hround, hfold⟩ := round_leaseFrom (hs.turned) now s.rota
  rw [← leaseAny_eq] at hround hfold
  exact ⟨asked, hround.of_still s.still_turned, hfold⟩

/-- A search that asks the trackers of `asked`. -/
structure Searches (s : Scheduler) (now : Instant) (asked : List (TenantId × Handle)) : Prop where
  /-- They are asked in the order of the roster, beginning where the cursor points and going round. -/
  order : ∀ i < asked.length, asked[i]? = s.registered[(s.roster.cursor.toNat + i) % s.registered.length]?
  once : (asked.map Prod.fst).Nodup
  calls : (s.leaseAny now).2 = asked.foldl (fun s e => (s.call e.2 now .lease).2) s.turned
  round : Round s now s.rota asked (s.leaseAny now).1 (s.leaseAny now).2
  nothing : (s.leaseAny now).1 = .done none ↔ ∀ e ∈ s.registered, s.Passes now e.2
  registered : (s.leaseAny now).2.registered = s.registered
  cursor : s.registered ≠ [] → (s.leaseAny now).2.roster.cursor = s.roster.cursor + 1

theorem InLine.searches (hs : s.InLine) (now : Instant) : ∃ asked, s.Searches now asked := by
  obtain ⟨asked, hround, hcalls⟩ := round_leaseAny hs now
  have hasked := hround.prefix_order
  refine ⟨asked, fun i hi => ?_, ?_, hcalls, hround, ?_, s.registered_leaseAny now, fun hr => cursor_leaseAny hr now⟩
  · have hlength : i < s.registered.length := by
      rw [← length_rota]
      exact Nat.lt_of_lt_of_le hi hasked.length_le
    rw [List.getElem?_eq_getElem hi, ← List.prefix_iff_getElem?.1 hasked i hi, rota, List.getElem?_rotate hlength,
      Nat.add_comm]
  · exact s.nodup_rota.sublist (hasked.sublist.map Prod.fst)
  · rw [hround.done_none_iff]
    simp only [mem_rota]

end Scheduler

end CompactionLeasing

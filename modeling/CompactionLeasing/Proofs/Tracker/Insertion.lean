import CompactionLeasing.Proofs.Tracker.Consistent

/-!
# Stable insertion

Each queue has an order of its jobs, in which many may be level: `Job.Ahead`. A job enters behind all that stand
ahead of it and before the others (`Enters`), so those that are level stand in the order in which they came.
`Rearranged`: what becomes of both queues when some jobs leave and others enter, one after the other. Placing a
job, moving one and dropping one are cases of it, whatever the clock says.
-/

namespace CompactionLeasing

namespace Job
variable {a b c : Job} {k : Queue}

/-- The job may stand in front of the other one. In pending compaction jobs stand by their orders, and the plan job
behind all of them; in active jobs stand by the times of their leases. -/
def Ahead (a : Job) (k : Queue) (b : Job) : Prop :=
  match k with
  | .pending => ∀ o, b.order? = some o → ∃ o', a.order? = some o' ∧ o' ≤ o
  | .active => a.state.since ≤ b.state.since

instance (a : Job) (k : Queue) (b : Job) : Decidable (a.Ahead k b) :=
  match k with
  | .pending => decidable_of_iff (b.order?.all fun o => a.order?.any (· ≤ o)) <| by
      unfold Ahead
      cases a.order? <;> cases b.order? <;> simp
  | .active => inferInstanceAs (Decidable (a.state.since ≤ b.state.since))

theorem Ahead.trans (h : a.Ahead k b) (h' : b.Ahead k c) : a.Ahead k c := by
  cases k with
  | pending =>
    intro o ho
    obtain ⟨o', ho', hle⟩ := h' o ho
    obtain ⟨o'', ho'', hle'⟩ := h o' ho'
    exact ⟨o'', ho'', UInt32.le_trans hle' hle⟩
  | active => exact Int.le_trans h h'

theorem Ahead.of_not (h : ¬ a.Ahead k b) : b.Ahead k a := by
  cases k with
  | pending =>
    intro o ho
    by_contra hb
    refine h fun o' ho' => ⟨o, ho, ?_⟩
    rcases UInt32.le_total o o' with hle | hle
    · exact hle
    · exact absurd ⟨o', ho', hle⟩ hb
  | active => exact (Int.le_total _ _).resolve_left h

end Job

/-! ### Entries that enter a list -/

section Entries
variable {k : Queue} {e x : Slot × Job} {es es' es₁ new new' : List (Slot × Job)} {p : Slot × Job → Bool}

def InOrder (k : Queue) (es : List (Slot × Job)) : Prop := es.Pairwise fun x y => x.2.Ahead k y.2

/-- The entry goes behind all that stand ahead of it and before the others, which stay as they are. -/
def Enters (k : Queue) (e : Slot × Job) (es es' : List (Slot × Job)) : Prop :=
  ∃ xs ys, es = xs ++ ys ∧ es' = xs ++ e :: ys ∧ (∀ x ∈ xs, x.2.Ahead k e.2) ∧ ∀ y ∈ ys, ¬ y.2.Ahead k e.2

theorem Enters.mem (h : Enters k e es es') : x ∈ es' ↔ x = e ∨ x ∈ es := by
  obtain ⟨xs, ys, rfl, rfl, -⟩ := h
  simp only [List.mem_append, List.mem_cons]
  tauto

theorem Enters.inOrder (h : Enters k e es es') (hs : InOrder k es) : InOrder k es' := by
  obtain ⟨xs, ys, rfl, rfl, hx, hy⟩ := h
  obtain ⟨hxs, hys, hxy⟩ := List.pairwise_append.1 hs
  refine List.pairwise_append.2 ⟨hxs, List.pairwise_cons.2 ⟨fun y hm => .of_not (hy y hm), hys⟩, fun x hm y hm' => ?_⟩
  rcases List.mem_cons.1 hm' with rfl | hm'
  · exact hx x hm
  · exact hxy x hm y hm'

theorem Enters.filter (h : Enters k e es es') (hp : p e = true) : Enters k e (es.filter p) (es'.filter p) := by
  obtain ⟨xs, ys, rfl, rfl, hx, hy⟩ := h
  refine ⟨xs.filter p, ys.filter p, List.filter_append .., ?_, fun x hm => hx x (List.mem_of_mem_filter hm),
    fun y hm => hy y (List.mem_of_mem_filter hm)⟩
  rw [List.filter_append, List.filter_cons_of_pos hp]

/-- Entries that enter one after the other. -/
def EnterAll (k : Queue) : List (Slot × Job) → List (Slot × Job) → List (Slot × Job) → Prop
  | [], es, es' => es' = es
  | e :: new, es, es' => ∃ es₁, Enters k e es es₁ ∧ EnterAll k new es₁ es'

theorem enterAll_append : EnterAll k (new ++ new') es es' ↔ ∃ es₁, EnterAll k new es es₁ ∧ EnterAll k new' es₁ es' := by
  induction new generalizing es with
  | nil => exact ⟨fun h => ⟨es, rfl, h⟩, fun ⟨es₁, h, h'⟩ => h ▸ h'⟩
  | cons e new ih =>
    constructor
    · rintro ⟨es₁, he, h⟩
      obtain ⟨es₂, h, h'⟩ := ih.1 h
      exact ⟨es₂, ⟨es₁, he, h⟩, h'⟩
    · rintro ⟨es₂, ⟨es₁, he, h⟩, h'⟩
      exact ⟨es₁, he, ih.2 ⟨es₂, h, h'⟩⟩

theorem EnterAll.mem (h : EnterAll k new es es') : x ∈ es' ↔ x ∈ new ∨ x ∈ es := by
  induction new generalizing es with
  | nil => rw [show es' = es from h]; simp
  | cons e new ih =>
    obtain ⟨es₁, he, h⟩ := h
    rw [ih h, he.mem, List.mem_cons]
    tauto

theorem EnterAll.inOrder (h : EnterAll k new es es') (hs : InOrder k es) : InOrder k es' := by
  induction new generalizing es with
  | nil => rw [show es' = es from h]; exact hs
  | cons e new ih =>
    obtain ⟨es₁, he, h⟩ := h
    exact ih h (he.inOrder hs)

/-- Entries that come in order behind all others go to the back. -/
theorem EnterAll.eq_append (h : EnterAll k new es es') (hs : InOrder k (es ++ new)) : es' = es ++ new := by
  induction new generalizing es with
  | nil => rw [List.append_nil]; exact h
  | cons e new ih =>
    obtain ⟨es₁, ⟨xs, ys, rfl, rfl, -, hy⟩, h⟩ := h
    obtain rfl : ys = [] := by
      refine List.eq_nil_iff_forall_not_mem.2 fun y hm => hy y hm ?_
      exact (List.pairwise_append.1 hs).2.2 y (List.mem_append_right _ hm) e (List.mem_cons_self ..)
    rw [List.append_nil, List.append_cons] at hs ⊢
    exact ih h hs

theorem EnterAll.filter (h : EnterAll k new es es') (hp : ∀ e ∈ new, p e = true) :
    EnterAll k new (es.filter p) (es'.filter p) := by
  induction new generalizing es with
  | nil => rw [show es' = es from h]; rfl
  | cons e new ih =>
    obtain ⟨es₁, he, h⟩ := h
    obtain ⟨hpe, hp⟩ := List.forall_mem_cons.1 hp
    exact ⟨es₁.filter p, he.filter hpe, ih h hp⟩

/-- The jobs of an order; those of none are the plan job. -/
def level (o : Option UInt32) (jobs : List Job) : List Job := jobs.filter fun job => job.order? = o

/-- Among the jobs that are level with each other, those that enter come last. -/
theorem Enters.level_eq (h : Enters .pending e es es') (o : Option UInt32) :
    level o (es'.map Prod.snd) = level o (es.map Prod.snd) ++ level o [e.2] := by
  obtain ⟨xs, ys, rfl, rfl, -, hy⟩ := h
  simp only [level, List.map_append, List.map_cons, List.filter_append, List.filter_cons, List.filter_nil]
  split_ifs with ho
  · have hnone : (ys.map Prod.snd).filter (fun job => job.order? = o) = [] := by
      rw [List.filter_eq_nil_iff]
      intro j hj ho'
      obtain ⟨y, hm, rfl⟩ := List.mem_map.1 hj
      refine hy y hm fun o' he => ⟨o', ?_, UInt32.le_refl o'⟩
      rw [of_decide_eq_true ho', ← of_decide_eq_true ho, he]
    rw [hnone, List.append_nil]
  · simp

theorem EnterAll.level_eq (h : EnterAll .pending new es es') (o : Option UInt32) :
    level o (es'.map Prod.snd) = level o (es.map Prod.snd) ++ level o (new.map Prod.snd) := by
  induction new generalizing es with
  | nil => rw [show es' = es from h]; simp [level]
  | cons e new ih =>
    obtain ⟨es₁, he, h⟩ := h
    rw [ih h, he.level_eq, List.map_cons, List.append_assoc]
    unfold level
    rw [← List.filter_append, List.singleton_append]

end Entries

/-! ### Queues in order -/

structure Lined (q : Queues Job) : Prop where
  sound : q.Sound
  status : ∀ k, ∀ e ∈ q.toList k, e.2.state.status = k.status
  ordered : ∀ k, InOrder k (q.toList k)

theorem lined_empty : Lined .empty := by
  refine ⟨Queues.sound_empty, fun k e he => ?_, fun k => ?_⟩
  · simp at he
  · rw [Queues.toList_empty]
    exact .nil

/-- The entries of some slots leave; then others enter, each the queue of its status. -/
structure Rearranged (q q' : Queues Job) (gone : List Slot) (new : List (Slot × Job)) : Prop where
  sound : q'.Sound
  lists : ∀ k, EnterAll k (new.filter fun e => e.2.state.status = k.status)
    ((q.toList k).filter fun e => e.1 ∉ gone) (q'.toList k)

namespace Rearranged
variable {q q' q'' : Queues Job} {gone gone' : List Slot} {new new' : List (Slot × Job)}

theorem refl (hs : q.Sound) : Rearranged q q [] [] := ⟨hs, fun k => by simp [EnterAll]⟩

theorem lined (h : Rearranged q q' gone new) (hq : Lined q) : Lined q' := by
  refine ⟨h.sound, fun k e he => ?_, fun k => (h.lists k).inOrder ((hq.ordered k).filter _)⟩
  rcases (h.lists k).mem.1 he with he | he
  · simpa using (List.mem_filter.1 he).2
  · exact hq.status k e (List.mem_of_mem_filter he)

theorem trans (h : Rearranged q q' gone new) (h' : Rearranged q' q'' gone' new')
    (hd : ∀ e ∈ new, e.1 ∉ gone') : Rearranged q q'' (gone ++ gone') (new ++ new') := by
  refine ⟨h'.sound, fun k => ?_⟩
  rw [List.filter_append, enterAll_append]
  refine ⟨(q'.toList k).filter fun e => e.1 ∉ gone', ?_, h'.lists k⟩
  have hfilter : ((q.toList k).filter fun e => e.1 ∉ gone ++ gone') =
      ((q.toList k).filter fun e => e.1 ∉ gone).filter fun e => e.1 ∉ gone' := by
    rw [List.filter_filter]
    exact List.filter_congr fun e _ => by simp [Bool.and_comm]
  rw [hfilter]
  exact (h.lists k).filter fun e he => by simpa using hd e (List.mem_of_mem_filter he)

/-- A queue that nothing enters. -/
theorem items_of_status {k : Queue} {p : Job → Bool} (h : Rearranged q q' gone new)
    (hn : ∀ e ∈ new, e.2.state.status ≠ k.status) (hp : ∀ e ∈ q.toList k, p e.2 = true ↔ e.1 ∉ gone) :
    q'.items k = (q.items k).filter p := by
  have hnone : (new.filter fun e => e.2.state.status = k.status) = [] :=
    List.filter_eq_nil_iff.2 fun e he => by simpa using hn e he
  have hlist := h.lists k
  rw [hnone] at hlist
  unfold Queues.items
  rw [show q'.toList k = _ from hlist, List.filter_map]
  refine congrArg _ (List.filter_congr fun e he => ?_)
  rw [Function.comp_apply, Bool.eq_iff_iff, hp e he, decide_eq_true_iff]

end Rearranged

namespace Tracker
variable {t : Tracker} {k k₀ : Queue} {slot : Slot} {job old : Job}

theorem position?_eq (t : Tracker) (k : Queue) (job : Job) :
    t.position? k job = Queues.slotAfterLast (fun j => j.Ahead k job) (t.queues.toList k) := by
  have hall : ∀ es : List (Slot × Job), (es.takeWhile fun _ => false) = [] := by
    intro es
    cases es <;> rfl
  cases k with
  | active => rfl
  | pending =>
    unfold position?
    cases ho : job.order? with
    | none => simp [Queues.slotAfterLast, Job.Ahead, ho, hall]
    | some o =>
      have hsame : (fun j : Job => decide (j.Ahead .pending job)) = fun j => j.order?.any (· ≤ o) := by
        funext j
        cases hj : j.order? <;> simp [Job.Ahead, ho, hj]
      rw [hsame]

/-- The position of a job in a queue that is in order. -/
theorem position?_ahead (hs : InOrder k (t.queues.toList k)) (job : Job) :
    ∃ xs ys, t.queues.toList k = xs ++ ys ∧ t.position? k job = Queues.headSlot ys ∧
      (∀ x ∈ xs, x.2.Ahead k job) ∧ ∀ y ∈ ys, ¬ y.2.Ahead k job := by
  obtain ⟨xs, ys, hsplit, hslot, hlast, hys⟩ :=
    Queues.slotAfterLast_split (fun j => j.Ahead k job) (t.queues.toList k)
  refine ⟨xs, ys, hsplit, (t.position?_eq k job).trans hslot, fun x hx => ?_, fun y hy => by simpa using hys y hy⟩
  rcases List.eq_nil_or_concat xs with rfl | ⟨xs, z, rfl⟩
  · cases hx
  · have hz : z.2.Ahead k job := by simpa using hlast z (by simp)
    rw [hsplit, List.concat_eq_append] at hs
    rcases List.mem_append.1 (List.concat_eq_append ▸ hx) with hx | hx
    · exact ((List.pairwise_append.1 (List.pairwise_append.1 hs).1).2.2 x hx z (by simp)).trans hz
    · rw [List.mem_singleton.1 hx]
      exact hz

end Tracker

/-! ### Placing, moving and dropping a job -/

namespace Lined
variable {t : Tracker} {k k₀ : Queue} {slot : Slot} {job old : Job}

theorem filter_status {e : Slot × Job} (he : e.2.state.status = k.status) (k' : Queue) :
    [e].filter (fun e => e.2.state.status = k'.status) = if k' = k then [e] else [] := by
  rw [List.filter_singleton, he]
  cases k <;> cases k' <;> rfl

theorem place_slots (h : Lined t.queues) (hk : job.state.status = k.status) :
    ∃ slot, Rearranged t.queues (t.place k job).queues [] [(slot, job)] ∧
      (t.place k job).slots = t.slots.insert job.id slot := by
  obtain ⟨xs, ys, hs, hp, hx, hy⟩ := Tracker.position?_ahead (h.ordered k) job
  obtain ⟨-, hd⟩ := Queues.Denotes.insertBefore h.sound hs job
  have hq : (t.place k job).queues = (t.queues.insertBefore k (Queues.headSlot ys) job).2 := by rw [← hp]; rfl
  rw [hq]
  refine ⟨(t.queues.insertBefore k (Queues.headSlot ys) job).1, ⟨hd.sound, fun k' => ?_⟩, by rw [← hp]; rfl⟩
  rw [hd.linked.toList_eq, filter_status hk]
  by_cases hkk : k' = k
  · subst hkk
    rw [if_pos rfl, Function.update_self]
    exact ⟨_, ⟨xs, ys, by simp [hs], rfl, hx, hy⟩, rfl⟩
  · rw [if_neg hkk, Function.update_of_ne hkk]
    simp [EnterAll]

theorem place (h : Lined t.queues) (hk : job.state.status = k.status) :
    ∃ slot, Rearranged t.queues (t.place k job).queues [] [(slot, job)] := by
  obtain ⟨slot, hr, -⟩ := h.place_slots hk
  exact ⟨slot, hr⟩

theorem placeAll {jobs : List Job} (h : Lined t.queues) (hk : ∀ job ∈ jobs, job.state.status = k.status) :
    ∃ new, new.map Prod.snd = jobs ∧ Rearranged t.queues (t.placeAll k jobs).queues [] new := by
  induction jobs generalizing t with
  | nil => exact ⟨[], rfl, .refl h.sound⟩
  | cons job jobs ih =>
    obtain ⟨hkj, hk⟩ := List.forall_mem_cons.1 hk
    obtain ⟨slot, hplace⟩ := h.place hkj
    obtain ⟨new, hnew, hrest⟩ := ih (hplace.lined h) hk
    exact ⟨(slot, job) :: new, by rw [List.map_cons, hnew], hplace.trans hrest fun e _ => List.not_mem_nil⟩

theorem filter_slot (slot : Slot) (es : List (Slot × Job)) :
    (es.filter fun e => e.1 ∉ [slot]) = Queues.without slot es := by
  unfold Queues.without
  exact List.filter_congr fun e _ => by simp

/-- The first entry of a queue leaves. -/
theorem filter_head {es : List (Slot × Job)} (h : Lined t.queues) (hes : t.queues.toList k = (slot, job) :: es) :
    ((t.queues.toList k).filter fun e => e.1 ∉ [slot]) = es := by
  have hnodup := h.sound.nodup k
  rw [hes] at hnodup
  rw [filter_slot, hes, Queues.without_cons_self, Queues.without_eq_self (List.nodup_cons.1 hnodup).1]

/-- The job leaves its place and enters anew, even if it stays in its queue. -/
theorem replace (h : Lined t.queues) (he : (slot, old) ∈ t.queues.toList k₀) (hk : job.state.status = k.status) :
    Rearranged t.queues (t.replace slot k job).queues [slot] [(slot, job)] := by
  obtain ⟨xs, ys, hs, hp, hx, hy⟩ := Tracker.position?_ahead (h.ordered k) job
  have hm : (slot, job) ∈ Queues.replaced slot job (t.queues.toList k₀) := List.mem_map.2 ⟨_, he, if_pos rfl⟩
  have hs' : Queues.replaced slot job (t.queues.toList k) =
      Queues.replaced slot job xs ++ Queues.replaced slot job ys := by
    rw [hs, Queues.replaced, List.map_append]; rfl
  have hd := (Queues.Denotes.set h.sound slot job).moveBefore hm hs'
  have hp' : Queues.headSlot (Queues.replaced slot job ys) = t.position? k job :=
    (Queues.headSlot_map (Queues.slot_replaced slot job) ys).trans hp.symm
  rw [hp'] at hd
  simp only [Queues.without_replaced] at hd
  refine ⟨hd.sound, fun k' => ?_⟩
  unfold Tracker.replace
  rw [hd.linked.toList_eq, filter_status hk, filter_slot]
  by_cases hkk : k' = k
  · subst hkk
    rw [if_pos rfl, Function.update_self]
    refine ⟨_, ⟨Queues.without slot xs, Queues.without slot ys, ?_, rfl, fun x hm => ?_, fun y hm => ?_⟩, rfl⟩
    · rw [hs, Queues.without_append]
    · exact hx x (Queues.mem_without.1 hm).1
    · exact hy y (Queues.mem_without.1 hm).1
  · rw [if_neg hkk, Function.update_of_ne hkk]
    rfl

theorem forget_eq (h : Lined t.queues) (he : (slot, old) ∈ t.queues.toList k₀) : t.forget slot =
    { t with
      queues := (t.queues.remove slot).2
      slots := t.slots.erase old.id
      planLeased := if old.isPlan then false else t.planLeased } := by
  obtain ⟨hr, -⟩ := Queues.Denotes.remove h.sound he
  unfold Tracker.forget
  generalize t.queues.remove slot = r at *
  obtain ⟨_, q⟩ := r
  subst hr; rfl

theorem forget (h : Lined t.queues) (he : (slot, old) ∈ t.queues.toList k₀) :
    Rearranged t.queues (t.forget slot).queues [slot] [] := by
  obtain ⟨-, hd⟩ := Queues.Denotes.remove h.sound he
  rw [h.forget_eq he]
  refine ⟨hd.sound, fun k' => ?_⟩
  rw [hd.linked.toList_eq, filter_slot]
  rfl

end Lined

end CompactionLeasing

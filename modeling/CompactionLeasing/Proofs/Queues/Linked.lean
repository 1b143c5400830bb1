import CompactionLeasing.Queues
import Mathlib.Data.List.Nodup
import Mathlib.Data.List.TakeWhile
import Mathlib.Logic.Function.Basic

/-!
# Links and the lists they denote

`Linked q L`: the links of the arena `q` are those of the two lists `L` of slots and items, and the
ends of the queues are theirs. `Linked.unlink` and `Linked.link` take a node out of its list and put a
loose node into one; in between the node belongs to no list, so nothing here says that every node does.
-/

namespace CompactionLeasing.Queues

variable {α : Type} {q : Queues α} {L : Queue → List (Slot × α)} {k : Queue} {i j : Slot} {a : α}

def headSlot (es : List (Slot × α)) : Option Slot := es.head?.map (·.1)

def lastSlot (es : List (Slot × α)) : Option Slot := es.getLast?.map (·.1)

@[simp] theorem headSlot_nil : headSlot ([] : List (Slot × α)) = none := rfl

@[simp] theorem headSlot_cons (e : Slot × α) (es : List (Slot × α)) : headSlot (e :: es) = some e.1 := rfl

@[simp] theorem lastSlot_nil : lastSlot ([] : List (Slot × α)) = none := rfl

@[simp] theorem lastSlot_append (xs ys : List (Slot × α)) :
    lastSlot (xs ++ ys) = (lastSlot ys).or (lastSlot xs) := by
  simp only [lastSlot, List.getLast?_append]; cases ys.getLast? <;> rfl

@[simp] theorem lastSlot_cons (e : Slot × α) (es : List (Slot × α)) :
    lastSlot (e :: es) = (lastSlot es).or (some e.1) := by
  rw [← List.singleton_append, lastSlot_append]; rfl

theorem mem_of_headSlot {es : List (Slot × α)} (h : headSlot es = some i) : i ∈ es.map (·.1) := by
  obtain ⟨e, he, rfl⟩ := Option.map_eq_some_iff.1 h
  exact List.mem_map_of_mem (List.mem_of_head? he)

theorem mem_of_lastSlot {es : List (Slot × α)} (h : lastSlot es = some i) : i ∈ es.map (·.1) := by
  obtain ⟨e, he, rfl⟩ := Option.map_eq_some_iff.1 h
  exact List.mem_map_of_mem (List.mem_of_getLast? he)

/-- The slot in front of which an entry goes to follow the last one with `p` begins what has no more `p`. -/
theorem slotAfterLast_split (p : α → Bool) (es : List (Slot × α)) :
    ∃ xs ys, es = xs ++ ys ∧ slotAfterLast p es = headSlot ys ∧ (∀ x ∈ xs.getLast?, p x.2 = true) ∧
      ∀ y ∈ ys, p y.2 = false := by
  refine ⟨(es.reverse.dropWhile fun e => !p e.2).reverse, (es.reverse.takeWhile fun e => !p e.2).reverse, ?_, ?_,
    fun x hx => ?_, fun y hy => ?_⟩
  · rw [← List.reverse_append, List.takeWhile_append_dropWhile, List.reverse_reverse]
  · rw [headSlot, List.head?_reverse]; rfl
  · rw [List.getLast?_reverse] at hx
    have hfirst := List.head?_dropWhile_not (fun e => !p e.2) es.reverse
    rw [hx] at hfirst
    simpa using hfirst
  · rw [List.mem_reverse] at hy
    simpa using List.mem_takeWhile_imp hy

theorem len_eq_ends (q : Queues α) (k : Queue) : q.len k = (q.ends k).len := rfl

/-! ### Nodes and ends after a change -/

@[simp] theorem node?_modifyNode (q : Queues α) (i j : Slot) (f : Node α → Node α) :
    (q.modifyNode i f).node? j = if i = j then (q.node? j).map f else q.node? j := by
  simp only [node?, modifyNode, Array.getElem?_modify]
  split
  · cases q.nodes[j]? <;> rfl
  · rfl

@[simp] theorem node?_modifyEnds (q : Queues α) (k : Queue) (f : Ends → Ends) (j : Slot) :
    (q.modifyEnds k f).node? j = q.node? j := by
  cases k <;> rfl

@[simp] theorem ends_modifyNode (q : Queues α) (i : Slot) (f : Node α → Node α) (k : Queue) :
    (q.modifyNode i f).ends k = q.ends k := by
  cases k <;> rfl

/-- Sets what follows `p`; with nothing before it, the head of the queue. -/
def relinkNext (q : Queues α) (k : Queue) (p next : Option Slot) : Queues α :=
  match p with
  | some p => q.modifyNode p fun m => { m with next := next }
  | none => q.modifyEnds k fun e => { e with head := next }

/-- Sets what precedes `s`; with nothing after it, the tail of the queue. -/
def relinkPrev (q : Queues α) (k : Queue) (s prev : Option Slot) : Queues α :=
  match s with
  | some s => q.modifyNode s fun m => { m with prev := prev }
  | none => q.modifyEnds k fun e => { e with tail := prev }

def recount (q : Queues α) (k : Queue) (f : Nat → Nat) : Queues α :=
  q.modifyEnds k fun e => { e with len := f e.len }

@[simp] theorem node?_relinkNext (q : Queues α) (k : Queue) (p next : Option Slot) (j : Slot) :
    (q.relinkNext k p next).node? j =
      if p = some j then (q.node? j).map fun m => { m with next := next } else q.node? j := by
  cases p <;> simp [relinkNext]

@[simp] theorem node?_relinkPrev (q : Queues α) (k : Queue) (s prev : Option Slot) (j : Slot) :
    (q.relinkPrev k s prev).node? j =
      if s = some j then (q.node? j).map fun m => { m with prev := prev } else q.node? j := by
  cases s <;> simp [relinkPrev]

@[simp] theorem node?_recount (q : Queues α) (k : Queue) (f : Nat → Nat) (j : Slot) :
    (q.recount k f).node? j = q.node? j := by
  simp [recount]

@[simp] theorem ends_relinkNext (q : Queues α) (k k' : Queue) (p next : Option Slot) :
    (q.relinkNext k p next).ends k' =
      ⟨if p = none ∧ k = k' then next else (q.ends k').head, (q.ends k').tail, (q.ends k').len⟩ := by
  cases p <;> cases k <;> cases k' <;> rfl

@[simp] theorem ends_relinkPrev (q : Queues α) (k k' : Queue) (s prev : Option Slot) :
    (q.relinkPrev k s prev).ends k' =
      ⟨(q.ends k').head, if s = none ∧ k = k' then prev else (q.ends k').tail, (q.ends k').len⟩ := by
  cases s <;> cases k <;> cases k' <;> rfl

@[simp] theorem ends_recount (q : Queues α) (k k' : Queue) (f : Nat → Nat) : (q.recount k f).ends k' =
    ⟨(q.ends k').head, (q.ends k').tail, if k = k' then f (q.ends k').len else (q.ends k').len⟩ := by
  cases k <;> cases k' <;> rfl

theorem unlink_eq {n : Node α} (hn : q.node? i = some n) : q.unlink i =
    (((q.modifyNode i fun n =>
      { n with prev := none, next := none }).relinkNext n.queue n.prev n.next).relinkPrev
      n.queue n.next n.prev).recount n.queue (· - 1) := by
  simp only [unlink, hn]
  cases n.prev <;> cases n.next <;> rfl

theorem link_eq (before prev : Option Slot)
    (hp : prev = match before with | some b => q.prev? b | none => q.back? k) : q.link i k before =
    (((q.modifyNode i fun n => { n with queue := k, prev := prev, next := before }).relinkNext k prev
      (some i)).relinkPrev
      k before (some i)).recount k (· + 1) := by
  subst hp
  cases before with
  | none => simp only [link]; cases q.back? k <;> rfl
  | some b => simp only [link]; cases q.prev? b <;> rfl

/-! ### The lists -/

/-- The links of the arena are those of the lists. -/
structure Linked (q : Queues α) (L : Queue → List (Slot × α)) : Prop where
  /-- The neighbours of a node are its neighbours in its list. -/
  node : ∀ k xs i a ys, L k = xs ++ (i, a) :: ys → q.node? i = some ⟨a, k, lastSlot xs, headSlot ys⟩
  head : ∀ k, (q.ends k).head = headSlot (L k)
  tail : ∀ k, (q.ends k).tail = lastSlot (L k)
  len : ∀ k, (q.ends k).len = (L k).length
  nodup : ∀ k, ((L k).map (·.1)).Nodup

theorem append_eq_append_cons {xs ys xs' ys' : List (Slot × α)} {e : Slot × α}
    (h : xs ++ ys = xs' ++ e :: ys') :
    (∃ c, xs = xs' ++ e :: c ∧ ys' = c ++ ys) ∨ ∃ c, ys = c ++ e :: ys' ∧ xs' = xs ++ c := by
  rcases List.append_eq_append_iff.1 h with ⟨c, h₁, h₂⟩ | ⟨c, h₁, h₂⟩
  · exact .inr ⟨c, h₂, h₁⟩
  · cases c with
    | nil => exact .inr ⟨[], by simpa using h₂.symm, by simpa using h₁.symm⟩
    | cons d c =>
      obtain ⟨rfl, rfl⟩ := List.cons_eq_cons.1 h₂
      exact .inl ⟨c, h₁, rfl⟩

theorem ne_of_nodup {xs ys : List (Slot × α)} {e : Slot × α} (hnd : ((xs ++ e :: ys).map (·.1)).Nodup) :
    e.1 ∉ xs.map (·.1) ∧ e.1 ∉ ys.map (·.1) := by
  simp only [List.map_append, List.map_cons, List.nodup_append, List.nodup_cons] at hnd
  obtain ⟨-, ⟨hy, -⟩, hx⟩ := hnd
  exact ⟨fun h => hx _ h _ (List.mem_cons_self ..) rfl, hy⟩

theorem lastSlot_ne {es : List (Slot × α)} (h : i ∉ es.map (·.1)) : lastSlot es ≠ some i :=
  fun e => h (mem_of_lastSlot e)

theorem headSlot_ne {es : List (Slot × α)} (h : i ∉ es.map (·.1)) : headSlot es ≠ some i :=
  fun e => h (mem_of_headSlot e)

namespace Linked

theorem node_of_mem (h : Linked q L) (hi : (i, a) ∈ L k) :
    ∃ n, q.node? i = some n ∧ n.item = a ∧ n.queue = k := by
  obtain ⟨xs, ys, hs⟩ := List.append_of_mem hi
  exact ⟨_, h.node k xs i a ys hs, rfl, rfl⟩

theorem queue_eq (h : Linked q L) {k' : Queue} (hi : i ∈ (L k).map (·.1)) (hi' : i ∈ (L k').map (·.1)) :
    k = k' := by
  obtain ⟨⟨_, a⟩, he, rfl⟩ := List.mem_map.1 hi
  obtain ⟨⟨_, b⟩, he', rfl⟩ := List.mem_map.1 hi'
  obtain ⟨n, hn, -, rfl⟩ := h.node_of_mem he
  obtain ⟨n', hn', -, rfl⟩ := h.node_of_mem he'
  rw [hn] at hn'; cases hn'; rfl

theorem congr {q' : Queues α} (h : Linked q L) (hn : ∀ k, ∀ j ∈ (L k).map (·.1), q'.node? j = q.node? j)
    (he : ∀ k, q'.ends k = q.ends k) : Linked q' L :=
  ⟨fun k xs i a ys hs => (hn k i (by simp [hs])).trans (h.node k xs i a ys hs), fun k => he k ▸ h.head k,
    fun k => he k ▸ h.tail k, fun k => he k ▸ h.len k, h.nodup⟩

theorem ends_eq (h : Linked q L) (k : Queue) : q.ends k = ⟨headSlot (L k), lastSlot (L k), (L k).length⟩ := by
  rw [← h.head k, ← h.tail k, ← h.len k]

/-- A change of one list: its nodes and its ends are right, and those of the other list are as they were. -/
theorem update {q' : Queues α} {es : List (Slot × α)} (h : Linked q L)
    (hnode : ∀ xs j b ys, es = xs ++ (j, b) :: ys → q'.node? j = some ⟨b, k, lastSlot xs, headSlot ys⟩)
    (hother : ∀ k', k' ≠ k → ∀ j ∈ (L k').map (·.1), q'.node? j = q.node? j)
    (hends : q'.ends k = ⟨headSlot es, lastSlot es, es.length⟩)
    (hends' : ∀ k', k' ≠ k → q'.ends k' = q.ends k') (hnd : (es.map (·.1)).Nodup) :
    Linked q' (Function.update L k es) := by
  have hall : ∀ k', q'.ends k' = ⟨headSlot (Function.update L k es k'), lastSlot (Function.update L k es k'),
      (Function.update L k es k').length⟩ := by
    intro k'
    by_cases hk : k' = k
    · subst hk
      rw [Function.update_self, hends]
    · rw [Function.update_of_ne hk, hends' k' hk, h.ends_eq]
  refine ⟨fun k' xs j b ys hs => ?_, fun k' => ?_, fun k' => ?_, fun k' => ?_, fun k' => ?_⟩
  · by_cases hk : k' = k
    · subst hk
      rw [Function.update_self] at hs
      exact hnode xs j b ys hs
    · rw [Function.update_of_ne hk] at hs
      rw [hother k' hk j (by simp [hs]), h.node k' xs j b ys hs]
  · rw [hall]
  · rw [hall]
  · rw [hall]
  · by_cases hk : k' = k
    · subst hk
      rwa [Function.update_self]
    · rw [Function.update_of_ne hk]
      exact h.nodup k'

/-- Taking a node out of its list. -/
theorem unlink {xs ys : List (Slot × α)} (h : Linked q L) (hs : L k = xs ++ (i, a) :: ys) :
    Linked (q.unlink i) (Function.update L k (xs ++ ys)) := by
  have hnd := h.nodup k
  rw [hs] at hnd
  rw [unlink_eq (h.node k xs i a ys hs)]
  refine h.update (fun xs' j b ys' hs' => ?_) (fun k' hk j hj => ?_) ?_ (fun k' hk => ?_) ?_
  · simp only [node?_recount, node?_relinkPrev, node?_relinkNext, node?_modifyNode]
    -- A node that stays stands before the one that goes, or after it; in both cases only the nodes next
    -- to the one that goes are relinked.
    rcases append_eq_append_cons hs' with ⟨c, rfl, rfl⟩ | ⟨c, rfl, rfl⟩
    · rw [List.append_assoc, List.cons_append] at hnd hs
      have hj := (ne_of_nodup hnd).2
      simp only [List.map_append, List.map_cons, List.mem_append, List.mem_cons, not_or] at hj
      rw [if_neg (headSlot_ne hj.2.2), if_neg (Ne.symm hj.2.1), h.node k xs' j b _ hs]
      cases c with
      | nil => simp
      | cons d c => rw [if_neg (by rw [lastSlot_append]; simpa using lastSlot_ne hj.1)]; simp
    · have hs₂ : L k = (xs ++ (i, a) :: c) ++ (j, b) :: ys' := by rw [hs]; simp
      rw [← hs, hs₂] at hnd
      have hj := (ne_of_nodup hnd).1
      simp only [List.map_append, List.map_cons, List.mem_append, List.mem_cons, not_or] at hj
      rw [if_neg (lastSlot_ne hj.1), if_neg (Ne.symm hj.2.1), h.node k _ j b ys' hs₂]
      cases c with
      | nil => simp
      | cons d c => rw [if_neg (by simpa using headSlot_ne hj.2.2)]; simp
  · have hne : j ∉ (L k).map (·.1) := fun e => hk (h.queue_eq hj e)
    simp only [hs, List.map_append, List.map_cons, List.mem_append, List.mem_cons, not_or] at hne
    simp only [node?_recount, node?_relinkPrev, node?_relinkNext, node?_modifyNode]
    rw [if_neg (headSlot_ne hne.2.2), if_neg (lastSlot_ne hne.1), if_neg (Ne.symm hne.2.1)]
  · simp only [ends_recount, ends_relinkPrev, ends_relinkNext, ends_modifyNode, h.ends_eq, hs]
    cases xs <;> cases ys <;> simp
    omega
  · simp [Ne.symm hk]
  · exact hnd.sublist (((List.sublist_cons_self ..).append_left xs).map _)

/-- Putting a loose node into a list. -/
theorem link {xs ys : List (Slot × α)} {n : Node α} (h : Linked q L) (hs : L k = xs ++ ys)
    (hi : ∀ k', i ∉ (L k').map (·.1)) (hn : q.node? i = some n) :
    Linked (q.link i k (headSlot ys)) (Function.update L k (xs ++ (i, n.item) :: ys)) := by
  have hnd := h.nodup k
  have hp : lastSlot xs = match headSlot ys with | some b => q.prev? b | none => q.back? k := by
    cases ys with
    | nil => simpa [hs, back?] using (h.tail k).symm
    | cons e ys => simp [prev?, h.node k xs e.1 e.2 ys hs]
  have hik := hi k
  rw [hs] at hik
  simp only [List.map_append, List.mem_append, not_or] at hik
  rw [link_eq _ _ hp]
  refine h.update (fun xs' j b ys' hs' => ?_) (fun k' hk j hj => ?_) ?_ (fun k' hk => ?_) ?_
  · simp only [node?_recount, node?_relinkPrev, node?_relinkNext, node?_modifyNode]
    -- The node stands before the new one, is the new one, or stands after it.
    rcases append_eq_append_cons hs' with ⟨c, rfl, rfl⟩ | ⟨c, hc, rfl⟩
    · rw [List.append_assoc, List.cons_append] at hs
      rw [hs] at hnd
      have hj := (ne_of_nodup hnd).2
      simp only [List.map_append, List.map_cons, List.mem_append, List.mem_cons, not_or] at hj hik
      rw [if_neg (headSlot_ne hj.2), if_neg hik.1.2.1, h.node k xs' j b _ hs]
      cases c with
      | nil => simp
      | cons d c => rw [if_neg (by rw [lastSlot_append]; simpa using lastSlot_ne hj.1)]; simp
    · cases c with
      | nil =>
        obtain ⟨e, rfl⟩ := List.cons_eq_cons.1 hc
        cases e
        rw [if_neg (headSlot_ne hik.2), if_neg (lastSlot_ne hik.1), if_pos rfl, hn]
        simp
      | cons d c =>
        rw [List.cons_append, List.cons.injEq] at hc
        obtain ⟨rfl, rfl⟩ := hc
        rw [← List.append_assoc] at hs
        rw [hs] at hnd
        have hj := (ne_of_nodup hnd).1
        simp only [List.map_append, List.map_cons, List.mem_append, List.mem_cons, not_or] at hj hik
        rw [if_neg (lastSlot_ne hj.1), if_neg hik.2.2.1, h.node k _ j b ys' hs]
        cases c with
        | nil => simp
        | cons d c => rw [if_neg (by simpa using headSlot_ne hj.2)]; simp
  · have hij : i ≠ j := fun e => hi k' (e ▸ hj)
    have hne : j ∉ (L k).map (·.1) := fun e => hk (h.queue_eq hj e)
    simp only [hs, List.map_append, List.mem_append, not_or] at hne
    simp only [node?_recount, node?_relinkPrev, node?_relinkNext, node?_modifyNode]
    rw [if_neg (headSlot_ne hne.2), if_neg (lastSlot_ne hne.1), if_neg hij]
  · simp only [ends_recount, ends_relinkPrev, ends_relinkNext, ends_modifyNode, h.ends_eq, hs]
    cases xs <;> cases ys <;> simp
    omega
  · simp [Ne.symm hk]
  · rw [List.map_append, List.map_cons, List.nodup_middle, ← List.map_append, List.nodup_cons]
    exact ⟨by simpa [hs] using hi k, hs ▸ hnd⟩

end Linked

end CompactionLeasing.Queues

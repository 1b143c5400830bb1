import CompactionLeasing.Proofs.Queues.Linked
import Mathlib.Data.List.Perm.Subperm
import Mathlib.Data.List.Range

/-!
# The lists of a sound arena

`Sound q`: the links of the arena are those of the lists `q.toList`, every node is in one of the two,
and the free list has the vacant indices. All operations keep this (`Sound.insertBefore`,
`Sound.moveBefore`, `Sound.remove`, `Sound.set`), and each says what it makes of the lists.
-/

namespace CompactionLeasing.Queues

variable {α : Type} {q : Queues α} {L : Queue → List (Slot × α)} {k : Queue} {i j : Slot} {a : α}

/-- The arena holds the lists, and nothing else. -/
structure Denotes (q : Queues α) (L : Queue → List (Slot × α)) : Prop where
  linked : q.Linked L
  /-- Every node is in a list. -/
  listed : ∀ i, (q.get? i).isSome → ∃ k, i ∈ (L k).map (·.1)
  free : ∀ i, i ∈ q.free ↔ i < q.nodes.size ∧ q.get? i = none
  free_nodup : q.free.Nodup

/-- The arena holds the lists that are read from it. -/
def Sound (q : Queues α) : Prop := q.Denotes q.toList

/-! ### Reading the lists -/

theorem lt_of_get? (h : (q.get? i).isSome) : i < q.nodes.size := by
  by_contra hi
  simp [get?, node?, Array.getElem?_eq_none (Nat.le_of_not_lt hi)] at h

theorem Linked.walk_take (h : q.Linked L) {xs ys : List (Slot × α)} (hs : L k = xs ++ ys) (n : Nat) :
    q.walk n (headSlot ys) = ys.take n := by
  induction ys generalizing xs n with
  | nil => cases n <;> rfl
  | cons e ys ih =>
    cases n with
    | zero => rfl
    | succ n =>
      have hs' : L k = (xs ++ [e]) ++ ys := by simpa using hs
      rw [headSlot_cons, walk, h.node k xs e.1 e.2 ys hs, List.take_succ_cons, ← ih hs' n]

theorem Linked.length_le (h : q.Linked L) (k : Queue) : (L k).length ≤ q.nodes.size := by
  have hsub : (L k).map (·.1) ⊆ List.range q.nodes.size := by
    intro i hi
    obtain ⟨e, he, rfl⟩ := List.mem_map.1 hi
    obtain ⟨n, hn, -, -⟩ := h.node_of_mem he
    exact List.mem_range.2 (lt_of_get? (by simp [get?, hn]))
  simpa using (List.subperm_of_subset (h.nodup k) hsub).length_le

theorem Linked.toList_eq (h : q.Linked L) : q.toList = L := by
  funext k
  rw [toList, front?, h.head k]
  rw [h.walk_take (List.nil_append _).symm, List.take_of_length_le (h.length_le k)]

theorem Denotes.sound (h : q.Denotes L) : q.Sound := by
  rw [Sound, h.linked.toList_eq]; exact h

theorem sound_empty : (empty : Queues α).Sound := by
  refine Denotes.sound (L := fun _ => []) ⟨⟨?_, ?_, ?_, ?_, ?_⟩, ?_, ?_, ?_⟩
  · intro k xs i a ys hs; simp at hs
  · intro k; cases k <;> rfl
  · intro k; cases k <;> rfl
  · intro k; cases k <;> rfl
  · intro k; exact List.nodup_nil
  · intro i hi; simp [get?, node?, empty] at hi
  · intro i; simp [empty]
  · exact List.nodup_nil

@[simp] theorem toList_empty (k : Queue) : (empty : Queues α).toList k = [] := by
  cases k <;> rfl

namespace Sound

theorem mem_toList (h : q.Sound) : (i, a) ∈ q.toList k ↔ q.get? i = some a ∧ q.queueOf? i = some k := by
  constructor
  · intro hi
    obtain ⟨n, hn, rfl, rfl⟩ := h.linked.node_of_mem hi
    simp [get?, queueOf?, hn]
  · rintro ⟨ha, hk⟩
    obtain ⟨k', hk'⟩ := h.listed i (by simp [ha])
    obtain ⟨⟨_, b⟩, he, rfl⟩ := List.mem_map.1 hk'
    obtain ⟨n, hn, rfl, rfl⟩ := h.linked.node_of_mem he
    simp only [get?, queueOf?, hn, Option.map_some, Option.some.injEq] at ha hk
    subst ha; subst hk; exact he

theorem get?_eq_some (h : q.Sound) : q.get? i = some a ↔ ∃ k, (i, a) ∈ q.toList k := by
  constructor
  · intro ha
    obtain ⟨n, hn, rfl⟩ := Option.map_eq_some_iff.1 ha
    exact ⟨n.queue, h.mem_toList.2 ⟨ha, by simp [queueOf?, hn]⟩⟩
  · rintro ⟨k, hi⟩; exact (h.mem_toList.1 hi).1

theorem nodup (h : q.Sound) (k : Queue) : ((q.toList k).map (·.1)).Nodup := h.linked.nodup k

theorem len_eq (h : q.Sound) (k : Queue) : q.len k = (q.toList k).length := h.linked.len k

theorem isEmpty_iff (h : q.Sound) (k : Queue) : q.isEmpty k = true ↔ q.toList k = [] := by
  simp [isEmpty, h.len_eq]

theorem front?_eq (h : q.Sound) (k : Queue) : q.front? k = headSlot (q.toList k) := h.linked.head k

end Sound

/-! ### What linking keeps -/

@[simp] theorem get?_modifyEnds (q : Queues α) (k : Queue) (f : Ends → Ends) (j : Slot) :
    (q.modifyEnds k f).get? j = q.get? j := by
  simp [get?]

theorem get?_modifyNode (q : Queues α) (i j : Slot) (f : Node α → Node α) (hf : ∀ n, (f n).item = n.item) :
    (q.modifyNode i f).get? j = q.get? j := by
  simp only [get?, node?_modifyNode]
  split
  · cases q.node? j <;> simp [hf]
  · rfl

/-- Arenas with the same items in the same slots and the same vacant indices. -/
structure SameItems (q q' : Queues α) : Prop where
  items : ∀ j, q'.get? j = q.get? j
  size : q'.nodes.size = q.nodes.size
  free : q'.free = q.free

namespace SameItems
variable {q' q'' : Queues α}

theorem refl (q : Queues α) : SameItems q q := ⟨fun _ => rfl, rfl, rfl⟩

theorem trans (h : SameItems q q') (h' : SameItems q' q'') : SameItems q q'' :=
  ⟨fun j => (h'.items j).trans (h.items j), h'.size.trans h.size, h'.free.trans h.free⟩

theorem of_modifyNode (q : Queues α) (i : Slot) (f : Node α → Node α) (hf : ∀ n, (f n).item = n.item) :
    SameItems q (q.modifyNode i f) :=
  ⟨fun j => get?_modifyNode q i j f hf, by simp [modifyNode], rfl⟩

theorem of_modifyEnds (q : Queues α) (k : Queue) (f : Ends → Ends) : SameItems q (q.modifyEnds k f) :=
  ⟨fun j => get?_modifyEnds q k f j, by cases k <;> rfl, by cases k <;> rfl⟩

theorem of_relinkNext (q : Queues α) (k : Queue) (p next : Option Slot) :
    SameItems q (q.relinkNext k p next) := by
  cases p with
  | none => exact of_modifyEnds q k fun e => { e with head := next }
  | some p => exact of_modifyNode q p _ fun _ => rfl

theorem of_relinkPrev (q : Queues α) (k : Queue) (s prev : Option Slot) :
    SameItems q (q.relinkPrev k s prev) := by
  cases s with
  | none => exact of_modifyEnds q k fun e => { e with tail := prev }
  | some s => exact of_modifyNode q s _ fun _ => rfl

theorem of_unlink (q : Queues α) (i : Slot) : SameItems q (q.unlink i) := by
  cases hn : q.node? i with
  | none => simpa [unlink, hn] using refl q
  | some n =>
    rw [unlink_eq hn]
    refine trans ?_ (of_modifyEnds _ _ _)
    refine trans ?_ (of_relinkPrev _ _ _ _)
    refine trans ?_ (of_relinkNext _ _ _ _)
    exact of_modifyNode q i _ fun _ => rfl

theorem of_link (q : Queues α) (i : Slot) (k : Queue) (before : Option Slot) :
    SameItems q (q.link i k before) := by
  rw [link_eq before _ rfl]
  refine trans ?_ (of_modifyEnds _ _ _)
  refine trans ?_ (of_relinkPrev _ _ _ _)
  refine trans ?_ (of_relinkNext _ _ _ _)
  exact of_modifyNode q i _ fun _ => rfl

end SameItems

/-! ### Operations -/

def without (i : Slot) (es : List (Slot × α)) : List (Slot × α) := es.filter fun e => e.1 ≠ i

@[simp] theorem mem_without {es : List (Slot × α)} {e : Slot × α} :
    e ∈ without i es ↔ e ∈ es ∧ e.1 ≠ i := by
  simp [without]

@[simp] theorem without_append (xs ys : List (Slot × α)) :
    without i (xs ++ ys) = without i xs ++ without i ys := List.filter_append ..

@[simp] theorem without_cons_self (es : List (Slot × α)) : without i ((i, a) :: es) = without i es := by
  simp [without]

theorem without_eq_self {es : List (Slot × α)} (h : i ∉ es.map (·.1)) : without i es = es :=
  List.filter_eq_self.2 fun e he => by
    simpa using fun hi : e.1 = i => h (List.mem_map.2 ⟨e, he, hi⟩)

theorem headSlot_without {es : List (Slot × α)} (h : headSlot es ≠ some i) :
    headSlot (without i es) = headSlot es := by
  cases es with
  | nil => rfl
  | cons e es => simp [without, show e.1 ≠ i by simpa using h]

namespace Denotes

/-- What relinking makes of the lists, as long as every item is still in one of them. -/
theorem relinked {q' : Queues α} {L' : Queue → List (Slot × α)} (h : q.Denotes L) (hl : q'.Linked L')
    (hs : SameItems q q') (hm : ∀ i, (∃ k, i ∈ (L k).map (·.1)) → ∃ k, i ∈ (L' k).map (·.1)) :
    q'.Denotes L' := by
  refine ⟨hl, fun i hi => hm i (h.listed i (by rwa [hs.items i] at hi)), fun i => ?_, ?_⟩
  · rw [hs.free, hs.size, hs.items i]; exact h.free i
  · rw [hs.free]; exact h.free_nodup

end Denotes

/-- Taking a node out of its list leaves the lists without its slot. -/
theorem Linked.unlink_without (h : q.Linked L) (hi : (i, a) ∈ L k) :
    (q.unlink i).Linked fun k' => without i (L k') := by
  obtain ⟨xs, ys, hs⟩ := List.append_of_mem hi
  convert h.unlink hs using 1
  have hnd := h.nodup k
  rw [hs] at hnd
  obtain ⟨hx, hy⟩ := ne_of_nodup hnd
  funext k'
  by_cases hk : k' = k
  · subst hk
    rw [Function.update_self, hs, without_append, without_cons_self, without_eq_self hx, without_eq_self hy]
  · rw [Function.update_of_ne hk]
    exact without_eq_self fun hi' => hk (h.queue_eq hi' (List.mem_map_of_mem hi))

theorem mem_slots_without {es : List (Slot × α)} :
    j ∈ (without i es).map (·.1) ↔ j ∈ es.map (·.1) ∧ j ≠ i := by
  simp only [List.mem_map, mem_without]
  constructor
  · rintro ⟨e, ⟨he, hne⟩, rfl⟩; exact ⟨⟨e, he, rfl⟩, hne⟩
  · rintro ⟨⟨e, he, rfl⟩, hne⟩; exact ⟨e, ⟨he, hne⟩, rfl⟩

theorem get?_eq_some : q.get? i = some a ↔ ∃ n, q.node? i = some n ∧ n.item = a := Option.map_eq_some_iff

/-- Moving a node in front of an entry of its new list. -/
theorem Denotes.moveBefore {k₀ : Queue} {xs ys : List (Slot × α)} (h : q.Denotes L) (hi : (i, a) ∈ L k₀)
    (hs : L k = xs ++ ys) : (q.moveBefore i k (headSlot ys)).Denotes
      (Function.update (fun k' => without i (L k')) k (without i xs ++ (i, a) :: without i ys)) := by
  obtain ⟨n, hn, rfl, rfl⟩ := h.linked.node_of_mem hi
  rw [Queues.moveBefore, hn]
  by_cases hb : headSlot ys = some i
  · -- the node is where it goes already
    rw [if_pos (by simp [hb])]
    obtain _ | ⟨⟨i', b⟩, ys⟩ := ys
    · cases hb
    obtain rfl : i = i' := (Option.some.inj hb).symm
    have hnd := h.linked.nodup k
    rw [hs] at hnd
    obtain ⟨hx, hy⟩ := ne_of_nodup hnd
    rw [h.linked.node k xs i b ys hs, Option.some.injEq] at hn
    subst hn
    convert h using 1
    funext k'
    by_cases hk : k' = k
    · subst hk
      rw [Function.update_self, without_cons_self, without_eq_self hx, without_eq_self hy, hs]
    · rw [Function.update_of_ne hk]
      exact without_eq_self fun hi' => hk (h.linked.queue_eq hi' (by simp [hs]))
  · rw [if_neg (by simpa using hb), ← headSlot_without hb]
    obtain ⟨n', hn', hitem⟩ :=
        get?_eq_some.1 (((SameItems.of_unlink q i).items i).trans (get?_eq_some.2 ⟨n, hn, rfl⟩))
    have hs' : without i (L k) = without i xs ++ without i ys := by simp [hs]
    have hl := (h.linked.unlink_without hi).link hs' (fun k' hk' => (mem_slots_without.1 hk').2 rfl) hn'
    rw [hitem] at hl
    refine h.relinked hl ((SameItems.of_unlink q i).trans (SameItems.of_link ..)) ?_
    rintro j ⟨k', hj⟩
    by_cases hji : j = i
    · exact ⟨k, by simp [hji]⟩
    by_cases hk : k' = k
    · subst hk
      refine ⟨k', ?_⟩
      rw [hs] at hj
      simp only [Function.update_self, List.map_append, List.map_cons, List.mem_append, List.mem_cons,
        mem_slots_without] at hj ⊢
      tauto
    · exact ⟨k', by rw [Function.update_of_ne hk]; exact mem_slots_without.2 ⟨hj, hji⟩⟩

theorem Denotes.remove (h : q.Denotes L) (hi : (i, a) ∈ L k) :
    (q.remove i).1 = some a ∧ (q.remove i).2.Denotes fun k' => without i (L k') := by
  obtain ⟨n, hn, rfl, rfl⟩ := h.linked.node_of_mem hi
  have hs := SameItems.of_unlink q i
  have hlt : i < (q.unlink i).nodes.size := by rw [hs.size]; exact lt_of_get? (by simp [get?, hn])
  have hq : q.remove i =
      (some n.item,
        { q.unlink i with nodes := (q.unlink i).nodes.setIfInBounds i none, free := i :: (q.unlink i).free }) := by
    rw [Queues.remove, hn]
  rw [hq]
  have hnode : ∀ j, node?
      { q.unlink i with nodes := (q.unlink i).nodes.setIfInBounds i none, free := i :: (q.unlink i).free } j =
        if j = i then none else (q.unlink i).node? j := by
    intro j
    rw [node?, Array.getElem?_setIfInBounds]
    by_cases hji : j = i
    · rw [if_pos hji.symm, if_pos (hji ▸ hlt), if_pos hji]; rfl
    · rw [if_neg (Ne.symm hji), if_neg hji]; rfl
  refine ⟨rfl, (h.linked.unlink_without hi).congr ?_ ?_, ?_, ?_, ?_⟩
  · intro k' j hj
    rw [hnode, if_neg (mem_slots_without.1 hj).2]
  · intro k'; cases k' <;> rfl
  · intro j hj
    rw [get?, hnode] at hj
    split_ifs at hj with hji
    · simp at hj
    obtain ⟨k', hk'⟩ := h.listed j (by rwa [← hs.items j])
    exact ⟨k', mem_slots_without.2 ⟨hk', hji⟩⟩
  · intro j
    rw [get?, hnode, Array.size_setIfInBounds, List.mem_cons, hs.free, h.free j, hs.size]
    rw [hs.size] at hlt
    split_ifs with hji
    · simp [hji, hlt]
    · rw [← get?, hs.items j]; simp [hji]
  · refine List.nodup_cons.2 ⟨?_, hs.free ▸ h.free_nodup⟩
    rw [hs.free, h.free i]
    simp [get?, hn]

theorem Denotes.allocate (h : q.Denotes L) (k : Queue) (a : α) :
    ∃ n, n.item = a ∧ q.get? (q.allocate k a).1 = none ∧
      (∀ j, (q.allocate k a).2.node? j = if j = (q.allocate k a).1 then some n else q.node? j) ∧
      (∀ k', (q.allocate k a).2.ends k' = q.ends k') ∧ (q.allocate k a).2.free.Nodup ∧
      ∀ j, j ∈ (q.allocate k a).2.free ↔
        j < (q.allocate k a).2.nodes.size ∧ (q.allocate k a).2.get? j = none := by
  refine ⟨⟨a, k, none, none⟩, rfl, ?_⟩
  cases hf : q.free with
  | nil =>
    simp only [Queues.allocate, hf]
    rw [← hf]
    have hnode : ∀ j, node? { q with nodes := q.nodes.push (some ⟨a, k, none, none⟩) } j =
        if j = q.nodes.size then some ⟨a, k, none, none⟩ else q.node? j := by
      intro j
      rw [node?, Array.getElem?_push]
      split_ifs <;> rfl
    refine ⟨?_, hnode, fun k' => by cases k' <;> rfl, h.free_nodup, fun j => ?_⟩
    · simp [get?, node?]
    · rw [get?, hnode, Array.size_push, h.free j]
      split_ifs with hjs
      · simp [hjs]
      · rw [← get?]
        exact and_congr_left fun _ => (Nat.lt_succ_iff_lt_or_eq.trans (or_iff_left hjs)).symm
  | cons i free =>
    simp only [Queues.allocate, hf]
    obtain ⟨hlt, hnone⟩ := (h.free i).1 (by simp [hf])
    have hnd := h.free_nodup
    rw [hf, List.nodup_cons] at hnd
    have hnode : ∀ j,
        node? { q with nodes := q.nodes.setIfInBounds i (some ⟨a, k, none, none⟩), free := free } j =
          if j = i then some ⟨a, k, none, none⟩ else q.node? j := by
      intro j
      rw [node?, Array.getElem?_setIfInBounds]
      by_cases hji : j = i
      · rw [if_pos hji.symm, if_pos (hji ▸ hlt), if_pos hji]; rfl
      · rw [if_neg (Ne.symm hji), if_neg hji]; rfl
    refine ⟨hnone, hnode, fun k' => by cases k' <;> rfl, hnd.2, fun j => ?_⟩
    have hj := h.free j
    rw [hf, List.mem_cons] at hj
    rw [get?, hnode, Array.size_setIfInBounds]
    split_ifs with hji
    · simp [hji, hnd.1]
    · rw [← get?, ← hj]; simp [hji]

theorem Denotes.insertBefore {xs ys : List (Slot × α)} (h : q.Denotes L) (hs : L k = xs ++ ys) (a : α) :
    (∀ k', (q.insertBefore k (headSlot ys) a).1 ∉ (L k').map (·.1)) ∧
      (q.insertBefore k (headSlot ys) a).2.Denotes
        (Function.update L k (xs ++ ((q.insertBefore k (headSlot ys) a).1, a) :: ys)) := by
  obtain ⟨n, rfl, hnone, hnode, hends, hnd, hfree⟩ := h.allocate k a
  rw [Queues.insertBefore]
  generalize q.allocate k n.item = r at *
  obtain ⟨i, q'⟩ := r
  dsimp only at *
  have hfresh : ∀ k', i ∉ (L k').map (·.1) := by
    intro k' hi
    obtain ⟨e, he, rfl⟩ := List.mem_map.1 hi
    obtain ⟨m, hm, -, -⟩ := h.linked.node_of_mem he
    simp [get?, hm] at hnone
  have hl' : q'.Linked L := h.linked.congr
    (fun k' j hj => by rw [hnode, if_neg fun e : j = i => hfresh k' (e ▸ hj)]) hends
  have hl := hl'.link hs hfresh (n := n) (by rw [hnode, if_pos rfl])
  have hsame := SameItems.of_link q' i k (headSlot ys)
  refine ⟨hfresh, hl, fun j hj => ?_, fun j => ?_, ?_⟩
  · rw [hsame.items, get?, hnode] at hj
    by_cases hji : j = i
    · exact ⟨k, by simp [hji]⟩
    rw [if_neg hji] at hj
    obtain ⟨k', hk'⟩ := h.listed j hj
    by_cases hk : k' = k
    · subst hk
      refine ⟨k', ?_⟩
      rw [hs, List.map_append, List.mem_append] at hk'
      rw [Function.update_self, List.map_append, List.map_cons, List.mem_append, List.mem_cons]
      tauto
    · exact ⟨k', by rwa [Function.update_of_ne hk]⟩
  · rw [hsame.free, hsame.size, hsame.items]; exact hfree j
  · rw [hsame.free]; exact hnd

theorem headSlot_map {f : Slot × α → Slot × α} (hf : ∀ e, (f e).1 = e.1) (es : List (Slot × α)) :
    headSlot (es.map f) = headSlot es := by
  cases es <;> simp [hf]

theorem lastSlot_map {f : Slot × α → Slot × α} (hf : ∀ e, (f e).1 = e.1) (es : List (Slot × α)) :
    lastSlot (es.map f) = lastSlot es := by
  rcases List.eq_nil_or_concat es with rfl | ⟨es, e, rfl⟩ <;> simp [hf]

/-- The entries with another item in one slot. -/
def replaced (i : Slot) (a : α) (es : List (Slot × α)) : List (Slot × α) :=
  es.map fun e => if e.1 = i then (i, a) else e

theorem slot_replaced (i : Slot) (a : α) (e : Slot × α) : (if e.1 = i then (i, a) else e).1 = e.1 := by
  split_ifs with h
  · exact h.symm
  · rfl

theorem slots_replaced (i : Slot) (a : α) (es : List (Slot × α)) :
    (replaced i a es).map (·.1) = es.map (·.1) := by
  rw [replaced, List.map_map]
  exact List.map_congr_left fun e _ => slot_replaced i a e

theorem without_replaced (i : Slot) (a : α) (es : List (Slot × α)) :
    without i (replaced i a es) = without i es := by
  induction es with
  | nil => rfl
  | cons e es ih =>
    obtain ⟨j, b⟩ := e
    by_cases h : j = i
    · subst h
      rw [show replaced j a ((j, b) :: es) = (j, a) :: replaced j a es by simp [replaced],
        without_cons_self, without_cons_self, ih]
    · rw [show replaced i a ((j, b) :: es) = (j, b) :: replaced i a es by simp [replaced, h]]
      simp only [without, List.filter_cons_of_pos, h, ne_eq, not_false_eq_true, decide_true] at ih ⊢
      rw [ih]

theorem Denotes.set (h : q.Denotes L) (i : Slot) (a : α) :
    (q.set i a).Denotes fun k => replaced i a (L k) := by
  have hnode : ∀ j, (q.set i a).node? j =
      if i = j then (q.node? j).map fun n => { n with item := a } else q.node? j :=
    fun j => node?_modifyNode ..
  have hsome : ∀ j, ((q.set i a).get? j).isSome = (q.get? j).isSome := by
    intro j
    simp only [get?, hnode]
    split_ifs <;> simp
  refine ⟨⟨?_, ?_, ?_, ?_, ?_⟩, ?_, ?_, ?_⟩
  · intro k xs j b ys hs
    obtain ⟨xs, es, hL, rfl, hes⟩ := List.map_eq_append_iff.1 hs
    obtain ⟨e, ys, rfl, he, rfl⟩ := List.map_eq_cons_iff.1 hes
    have hj := h.linked.node k xs e.1 e.2 ys hL
    rw [lastSlot_map (slot_replaced i a), headSlot_map (slot_replaced i a), hnode]
    by_cases hei : e.1 = i
    · rw [if_pos hei] at he
      cases he
      rw [if_pos rfl, ← hei, hj]; rfl
    · rw [if_neg hei] at he
      subst he
      rw [if_neg (Ne.symm hei), hj]
  · intro k
    rw [replaced, headSlot_map (slot_replaced i a)]
    exact (ends_modifyNode ..).symm ▸ h.linked.head k
  · intro k
    rw [replaced, lastSlot_map (slot_replaced i a)]
    exact (ends_modifyNode ..).symm ▸ h.linked.tail k
  · intro k; rw [replaced, List.length_map]; exact (ends_modifyNode ..).symm ▸ h.linked.len k
  · intro k; rw [slots_replaced]; exact h.linked.nodup k
  · intro j hj
    obtain ⟨k, hk⟩ := h.listed j (by rwa [← hsome])
    exact ⟨k, by rwa [slots_replaced]⟩
  · intro j
    have := hsome j
    rw [← Option.not_isSome_iff_eq_none, this, Option.not_isSome_iff_eq_none]
    simpa [Queues.set, modifyNode] using h.free j
  · exact h.free_nodup

end CompactionLeasing.Queues

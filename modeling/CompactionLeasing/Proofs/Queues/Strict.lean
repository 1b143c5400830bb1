import CompactionLeasing.Proofs.Queues.Sound

/-!
# Operations that stop at a broken link

The operations of an arena once more, each of which comes to nothing where it would follow a link to a vacant
slot, use a free index outside the arena, or shorten a queue that counts no nodes. While the arena holds two
lists, none of this happens (`Denotes.insertBefore?`, `Denotes.moveBefore?`, `Denotes.remove?`).
-/

namespace CompactionLeasing.Queues

variable {α : Type}

/-- Changes the node in a slot, which must not be vacant. -/
def modifyNode? (q : Queues α) (i : Slot) (f : Node α → Node α) : Option (Queues α) :=
  if (q.node? i).isSome then some (q.modifyNode i f) else none

def relinkNext? (q : Queues α) (k : Queue) (p next : Option Slot) : Option (Queues α) :=
  match p with
  | some p => q.modifyNode? p fun m => { m with next := next }
  | none => some (q.modifyEnds k fun e => { e with head := next })

def relinkPrev? (q : Queues α) (k : Queue) (s prev : Option Slot) : Option (Queues α) :=
  match s with
  | some s => q.modifyNode? s fun m => { m with prev := prev }
  | none => some (q.modifyEnds k fun e => { e with tail := prev })

def shorten? (q : Queues α) (k : Queue) : Option (Queues α) :=
  if q.len k = 0 then none else some (q.recount k (· - 1))

def unlink? (q : Queues α) (i : Slot) : Option (Queues α) := do
  let n ← q.node? i
  let q ← q.modifyNode? i fun n => { n with prev := none, next := none }
  let q ← q.relinkNext? n.queue n.prev n.next
  let q ← q.relinkPrev? n.queue n.next n.prev
  q.shorten? n.queue

/-- What precedes a slot, which must not be vacant; with no slot, the last node of the queue. -/
def prevOf? (q : Queues α) (k : Queue) (before : Option Slot) : Option (Option Slot) :=
  match before with
  | some b => (q.node? b).map (·.prev)
  | none => some (q.back? k)

def link? (q : Queues α) (i : Slot) (k : Queue) (before : Option Slot) : Option (Queues α) := do
  let prev ← q.prevOf? k before
  let q ← q.modifyNode? i fun n => { n with queue := k, prev := prev, next := before }
  let q ← q.relinkNext? k prev (some i)
  let q ← q.relinkPrev? k before (some i)
  return q.recount k (· + 1)

def allocate? (q : Queues α) (k : Queue) (a : α) : Option (Slot × Queues α) :=
  match q.free with
  | i :: _ => if i < q.nodes.size then some (q.allocate k a) else none
  | [] => some (q.allocate k a)

def insertBefore? (q : Queues α) (k : Queue) (before : Option Slot) (a : α) : Option (Slot × Queues α) := do
  let (i, q) ← q.allocate? k a
  let q ← q.link? i k before
  return (i, q)

def moveBefore? (q : Queues α) (i : Slot) (k : Queue) (before : Option Slot) : Option (Queues α) :=
  if (q.node? i).isNone || before == some i then some q
  else do
    let q ← q.unlink? i
    q.link? i k before

def remove? (q : Queues α) (i : Slot) : Option (Option α × Queues α) :=
  match q.node? i with
  | none => some (none, q)
  | some n => do
    let q ← q.unlink? i
    if i < q.nodes.size then
      return (some n.item, { q with nodes := q.nodes.setIfInBounds i none, free := i :: q.free })
    else none

variable {q : Queues α} {L : Queue → List (Slot × α)} {k : Queue} {i j : Slot} {a : α} {n : Node α}
  {before p s next prev : Option Slot}

/-! ### One link after the other -/

theorem isSome_node?_iff : (q.node? i).isSome ↔ (q.get? i).isSome := by
  simp [get?]

theorem modifyNode?_eq (hi : (q.get? i).isSome) (f : Node α → Node α) :
    q.modifyNode? i f = some (q.modifyNode i f) := by
  rw [modifyNode?, if_pos (isSome_node?_iff.2 hi)]

theorem relinkNext?_eq (k : Queue) (next : Option Slot) (hp : ∀ j, p = some j → (q.get? j).isSome) :
    q.relinkNext? k p next = some (q.relinkNext k p next) := by
  cases p with
  | none => rfl
  | some j => exact modifyNode?_eq (hp j rfl) _

theorem relinkPrev?_eq (k : Queue) (prev : Option Slot) (hs : ∀ j, s = some j → (q.get? j).isSome) :
    q.relinkPrev? k s prev = some (q.relinkPrev k s prev) := by
  cases s with
  | none => rfl
  | some j => exact modifyNode?_eq (hs j rfl) _

theorem unlink?_eq (hn : q.node? i = some n) (hp : ∀ j, n.prev = some j → (q.get? j).isSome)
    (hs : ∀ j, n.next = some j → (q.get? j).isSome) (hl : q.len n.queue ≠ 0) : q.unlink? i = some (q.unlink i) := by
  have hi : (q.get? i).isSome := by simp [get?, hn]
  have h₁ := SameItems.of_modifyNode q i (fun n => { n with prev := none, next := none }) fun _ => rfl
  have h₂ := h₁.trans (SameItems.of_relinkNext _ n.queue n.prev n.next)
  have hnext := relinkNext?_eq n.queue n.next fun j hj => by rw [h₁.items]; exact hp j hj
  have hprev := relinkPrev?_eq n.queue n.prev fun j hj => by rw [h₂.items]; exact hs j hj
  rw [unlink_eq hn, unlink?]
  simp only [hn, Option.bind_eq_bind, Option.bind_some, modifyNode?_eq hi, hnext, hprev, shorten?]
  rw [if_neg]
  simp only [len_eq_ends, ends_relinkPrev, ends_relinkNext, ends_modifyNode]
  exact hl

theorem link?_eq (hi : (q.get? i).isSome) (hb : ∀ j, before = some j → (q.get? j).isSome)
    (hp : q.prevOf? k before = some prev) (hj : ∀ j, prev = some j → (q.get? j).isSome) :
    q.link? i k before = some (q.link i k before) := by
  have hlink := link_eq (q := q) (k := k) (i := i) before prev <| by
    cases before with
    | none => exact (Option.some.inj hp).symm
    | some b =>
      obtain ⟨m, hm, rfl⟩ := Option.map_eq_some_iff.1 hp
      simp [prev?, hm]
  have h₁ := SameItems.of_modifyNode q i (fun n => { n with queue := k, prev := prev, next := before }) fun _ => rfl
  have h₂ := h₁.trans (SameItems.of_relinkNext _ k prev (some i))
  have hnext := relinkNext?_eq k (some i) fun j hj' => by rw [h₁.items]; exact hj j hj'
  have hprev := relinkPrev?_eq k (some i) fun j hj' => by rw [h₂.items]; exact hb j hj'
  rw [hlink, link?]
  simp only [hp, Option.bind_eq_bind, Option.bind_some, modifyNode?_eq hi, hnext, hprev, Option.pure_def]

/-! ### Links between the nodes of a list -/

namespace Linked

theorem isSome_get? (h : q.Linked L) (hi : i ∈ (L k).map (·.1)) : (q.get? i).isSome := by
  obtain ⟨e, he, rfl⟩ := List.mem_map.1 hi
  obtain ⟨n, hn, -, -⟩ := h.node_of_mem he
  simp [get?, hn]

theorem unlink? (h : q.Linked L) (hi : (i, a) ∈ L k) : q.unlink? i = some (q.unlink i) := by
  obtain ⟨xs, ys, hs⟩ := List.append_of_mem hi
  refine unlink?_eq (h.node k xs i a ys hs) (fun j hj => ?_) (fun j hj => ?_) ?_
  · have hx := mem_of_lastSlot hj
    exact h.isSome_get? (k := k) (by rw [hs]; simp [hx])
  · have hy := mem_of_headSlot hj
    exact h.isSome_get? (k := k) (by rw [hs]; simp [hy])
  · rw [len_eq_ends, h.ends_eq, hs]
    simp

/-- A node that is in no list goes in front of an entry, or to the end. -/
theorem link? (h : q.Linked L) (hi : (q.get? i).isSome) (hb : ∀ b ∈ before, b ∈ (L k).map (·.1)) :
    q.link? i k before = some (q.link i k before) := by
  cases before with
  | none =>
    refine link?_eq hi nofun rfl fun j hj => ?_
    rw [back?, h.tail] at hj
    exact h.isSome_get? (mem_of_lastSlot hj)
  | some b =>
    obtain ⟨⟨b, c⟩, he, rfl⟩ := List.mem_map.1 (hb b rfl)
    obtain ⟨xs, ys, hs⟩ := List.append_of_mem he
    have hp : q.prevOf? k (some b) = some (lastSlot xs) := by rw [prevOf?, h.node k xs b c ys hs]; rfl
    refine link?_eq hi (fun j hj => h.isSome_get? (hb j hj)) hp fun j hj => ?_
    have hx := mem_of_lastSlot hj
    exact h.isSome_get? (k := k) (by rw [hs]; simp [hx])

end Linked

/-! ### Operations -/

namespace Denotes

theorem allocate? (h : q.Denotes L) (k : Queue) (a : α) : q.allocate? k a = some (q.allocate k a) := by
  rw [Queues.allocate?]
  split
  · rename_i i free hf
    rw [if_pos]
    exact ((h.free i).1 (by simp [hf])).1
  · rfl

/-- The arena with a new node that is in no list yet. -/
theorem linked_allocate (h : q.Denotes L) (k : Queue) (a : α) :
    (q.allocate k a).2.Linked L ∧ (q.allocate k a).2.get? (q.allocate k a).1 = some a ∧
      ∀ k', (q.allocate k a).1 ∉ (L k').map (·.1) := by
  obtain ⟨n, rfl, hnone, hnode, hends, -⟩ := h.allocate k a
  have hfresh : ∀ k', (q.allocate k n.item).1 ∉ (L k').map (·.1) := by
    intro k' hi
    have hsome := h.linked.isSome_get? hi
    rw [hnone] at hsome; cases hsome
  refine ⟨h.linked.congr (fun k' j hj => ?_) hends, ?_, hfresh⟩
  · rw [hnode, if_neg]
    rintro rfl
    exact hfresh k' hj
  · rw [get?, hnode, if_pos rfl]; rfl

theorem insertBefore? (h : q.Denotes L) (hb : ∀ b ∈ before, b ∈ (L k).map (·.1)) (a : α) :
    q.insertBefore? k before a = some (q.insertBefore k before a) := by
  obtain ⟨hl, hi, -⟩ := h.linked_allocate k a
  have hlink := hl.link? (by rw [hi]; rfl) hb
  simp only [Queues.insertBefore?, Queues.insertBefore, h.allocate?, Option.bind_eq_bind, Option.bind_some, hlink,
    Option.pure_def]

theorem moveBefore? (h : q.Denotes L) (hb : ∀ b ∈ before, b ∈ (L k).map (·.1)) (i : Slot) :
    q.moveBefore? i k before = some (q.moveBefore i k before) := by
  rw [Queues.moveBefore?, Queues.moveBefore]
  split_ifs with hstay
  · rfl
  rw [Bool.or_eq_true, not_or, Option.isNone_iff_eq_none] at hstay
  obtain ⟨n, hn⟩ := Option.ne_none_iff_exists'.1 hstay.1
  obtain ⟨k₀, hi⟩ := h.listed i (by simp [get?, hn])
  obtain ⟨⟨_, a⟩, he, rfl⟩ := List.mem_map.1 hi
  rw [h.linked.unlink? he, Option.bind_eq_bind, Option.bind_some]
  refine (h.linked.unlink_without he).link? ?_ fun b hb' => ?_
  · rw [(SameItems.of_unlink ..).items]
    exact h.linked.isSome_get? hi
  · refine mem_slots_without.2 ⟨hb b hb', ?_⟩
    rintro rfl
    exact hstay.2 (beq_iff_eq.2 hb')

theorem remove? (h : q.Denotes L) (i : Slot) : q.remove? i = some (q.remove i) := by
  rw [Queues.remove?, Queues.remove]
  cases hn : q.node? i with
  | none => rfl
  | some n =>
    have hsome : (q.get? i).isSome := by simp [get?, hn]
    obtain ⟨k, hi⟩ := h.listed i hsome
    obtain ⟨⟨_, a⟩, he, rfl⟩ := List.mem_map.1 hi
    simp only [h.linked.unlink? he, Option.bind_eq_bind, Option.bind_some]
    rw [if_pos]
    · rfl
    · rw [(SameItems.of_unlink ..).size]
      exact lt_of_get? hsome

end Denotes

end CompactionLeasing.Queues

import CompactionLeasing.Proofs.Queues.Strict

/-!
# An arena as two lists

Every sequence of operations, each of which names a slot of the queue it goes to or none, does to the two queues
of an arena what it does to two plain lists of slots and items (`refines_lists`). No link is broken on the way, and
a slot denotes its item until it is removed.
-/

namespace CompactionLeasing.Queues

variable {α : Type}

inductive Op (α : Type) where
  | insert (k : Queue) (before : Option Slot) (a : α)
  | move (i : Slot) (k : Queue) (before : Option Slot)
  | remove (i : Slot)
  /-- The item in the slot is looked up and replaced. -/
  | set (i : Slot) (a : α)
deriving DecidableEq

inductive Answer (α : Type) where
  | slot (i : Slot)
  | item (o : Option α)
  | done

def act (q : Queues α) : Op α → Answer α × Queues α
  | .insert k before a => (.slot (q.insertBefore k before a).1, (q.insertBefore k before a).2)
  | .move i k before => (.done, q.moveBefore i k before)
  | .remove i => (.item (q.remove i).1, (q.remove i).2)
  | .set i a => (.item (q.get? i), q.set i a)

/-- The operation, where it meets no broken link. -/
def act? (q : Queues α) : Op α → Option (Answer α × Queues α)
  | .insert k before a => (q.insertBefore? k before a).map fun r => (.slot r.1, r.2)
  | .move i k before => (q.moveBefore? i k before).map fun q => (.done, q)
  | .remove i => (q.remove? i).map fun r => (.item r.1, r.2)
  | .set i a => some (.item (q.get? i), q.set i a)

def run (q : Queues α) : List (Op α) → List (Answer α) × Queues α
  | [] => ([], q)
  | op :: ops =>
    let r := (q.act op).2.run ops
    ((q.act op).1 :: r.1, r.2)

def run? (q : Queues α) : List (Op α) → Option (List (Answer α) × Queues α)
  | [] => some ([], q)
  | op :: ops => do
    let (ans, q) ← q.act? op
    let (answers, q) ← q.run? ops
    return (ans :: answers, q)

/-! ### The operations on lists -/

/-- Puts an entry immediately before the one in the slot `before`, or at the end. -/
def inFrontOf (before : Option Slot) (e : Slot × α) : List (Slot × α) → List (Slot × α)
  | [] => [e]
  | d :: es => if before = some d.1 then e :: d :: es else d :: inFrontOf before e es

def item? (L : Queue → List (Slot × α)) (i : Slot) : Option α :=
  ((L .pending).lookup i).or ((L .active).lookup i)

/-- The slot that an operation names is in the queue that it names. -/
def Op.Allowed (L : Queue → List (Slot × α)) : Op α → Prop
  | .insert k before _ => ∀ b ∈ before, b ∈ (L k).map (·.1)
  | .move _ k before => ∀ b ∈ before, b ∈ (L k).map (·.1)
  | .remove _ => True
  | .set _ _ => True

instance (L : Queue → List (Slot × α)) : DecidablePred (Op.Allowed L)
  | .insert _ _ _ => inferInstanceAs (Decidable (∀ _ ∈ _, _))
  | .move _ _ _ => inferInstanceAs (Decidable (∀ _ ∈ _, _))
  | .remove _ => inferInstanceAs (Decidable True)
  | .set _ _ => inferInstanceAs (Decidable True)

/-- What an operation answers and makes of the lists. -/
inductive Step (L : Queue → List (Slot × α)) : Op α → Answer α → (Queue → List (Slot × α)) → Prop
  | insert {i k before a} (hi : ∀ k', i ∉ (L k').map (·.1)) :
      Step L (.insert k before a) (.slot i) (Function.update L k (inFrontOf before (i, a) (L k)))
  | move {i a k₀ k before} (hi : (i, a) ∈ L k₀) (hb : before ≠ some i) :
      Step L (.move i k before) .done
        (Function.update (fun k' => without i (L k')) k (inFrontOf before (i, a) (without i (L k))))
  | stay {i k before} (h : before = some i ∨ ∀ k', i ∉ (L k').map (·.1)) : Step L (.move i k before) .done L
  | remove {i} : Step L (.remove i) (.item (item? L i)) fun k => without i (L k)
  | set {i a} : Step L (.set i a) (.item (item? L i)) fun k => replaced i a (L k)

inductive Steps :
    (Queue → List (Slot × α)) → List (Op α) → List (Answer α) → (Queue → List (Slot × α)) → Prop
  | nil {L} : Steps L [] [] L
  | cons {L op ans L₁ ops answers L₂} : Step L op ans L₁ → Steps L₁ ops answers L₂ →
      Steps L (op :: ops) (ans :: answers) L₂

/-- Every operation is allowed when its turn comes. -/
def Allowed (q : Queues α) : List (Op α) → Prop
  | [] => True
  | op :: ops => op.Allowed q.toList ∧ (q.act op).2.Allowed ops

instance decidableAllowed : (q : Queues α) → (ops : List (Op α)) → Decidable (q.Allowed ops)
  | _, [] => inferInstanceAs (Decidable True)
  | q, op :: ops =>
    have := decidableAllowed (q.act op).2 ops
    inferInstanceAs (Decidable (_ ∧ _))

/-- What can be read from the arena is what the lists say. -/
structure Shows (q : Queues α) (L : Queue → List (Slot × α)) : Prop where
  /-- Reading on from the front gives the entries one by one, and nothing after the last. -/
  walk : ∀ k n, q.walk n (q.front? k) = (L k).take n
  walkBack : ∀ k n, q.walkBack n (q.back? k) = ((L k).map (·.1)).reverse.take n
  toList : ∀ k, q.toList k = L k
  slotsFromBack : ∀ k, q.slotsFromBack k = ((L k).map (·.1)).reverse
  front : ∀ k, q.front? k = headSlot (L k)
  back : ∀ k, q.back? k = lastSlot (L k)
  len : ∀ k, q.len k = (L k).length
  entry : ∀ k xs i a ys, L k = xs ++ (i, a) :: ys →
    q.get? i = some a ∧ q.queueOf? i = some k ∧ q.prev? i = lastSlot xs ∧ q.next? i = headSlot ys
  vacant : ∀ i, (∀ k, i ∉ (L k).map (·.1)) →
    q.get? i = none ∧ q.queueOf? i = none ∧ q.prev? i = none ∧ q.next? i = none
  /-- An occupied index is in one of the lists, once. -/
  once : ∀ i, ((L .pending).map (·.1) ++ (L .active).map (·.1)).count i = if (q.get? i).isSome then 1 else 0
  free : ∀ i, i ∈ q.free ↔ i < q.nodes.size ∧ q.get? i = none
  free_nodup : q.free.Nodup

/-- What a slot with the item `a` denotes after the operations, while it is not removed. -/
def latest (i : Slot) (a : α) (ops : List (Op α)) : α :=
  ops.foldl (fun a op => match op with
    | .set j b => if j = i then b else a
    | _ => a) a

variable {q q₁ q₂ : Queues α} {L L₁ L₂ : Queue → List (Slot × α)} {k : Queue} {i : Slot} {a : α}
  {before : Option Slot} {op : Op α} {ops : List (Op α)}

theorem inFrontOf_append {xs ys : List (Slot × α)} (hx : ∀ b ∈ before, b ∉ xs.map (·.1))
    (hy : headSlot ys = before) (e : Slot × α) : inFrontOf before e (xs ++ ys) = xs ++ e :: ys := by
  induction xs with
  | nil =>
    cases ys with
    | nil => rfl
    | cons d ys => exact if_pos hy.symm
  | cons d xs ih =>
    have hd : before ≠ some d.1 := fun h => hx _ h (by simp)
    rw [List.cons_append, inFrontOf, if_neg hd, ih]
    · rfl
    · intro b hb h
      exact hx b hb (by simp [h])

theorem mem_inFrontOf {e d : Slot × α} {es : List (Slot × α)} : d ∈ inFrontOf before e es ↔ d = e ∨ d ∈ es := by
  induction es with
  | nil => simp [inFrontOf]
  | cons c es ih =>
    rw [inFrontOf]
    split_ifs
    · simp
    · simp only [List.mem_cons, ih]
      tauto

/-- An entry that goes into one list leaves those of both in place. -/
theorem mem_update_inFrontOf {k' : Queue} {e d : Slot × α} (h : d ∈ L k) :
    d ∈ Function.update L k' (inFrontOf before e (L k')) k := by
  by_cases hk : k = k'
  · subst hk
    rw [Function.update_self]
    exact mem_inFrontOf.2 (.inr h)
  · rwa [Function.update_of_ne hk]

/-- The list, split where an entry goes in. -/
theorem exists_split {es : List (Slot × α)} (hnd : (es.map (·.1)).Nodup)
    (hb : ∀ b ∈ before, b ∈ es.map (·.1)) :
    ∃ xs ys, es = xs ++ ys ∧ headSlot ys = before ∧ ∀ b ∈ before, b ∉ xs.map (·.1) := by
  cases before with
  | none => exact ⟨es, [], (List.append_nil es).symm, rfl, nofun⟩
  | some b =>
    obtain ⟨e, he, rfl⟩ := List.mem_map.1 (hb b rfl)
    obtain ⟨xs, ys, rfl⟩ := List.append_of_mem he
    refine ⟨xs, e :: ys, rfl, rfl, ?_⟩
    rintro _ ⟨⟩
    exact (ne_of_nodup hnd).1

theorem lookup_eq {es : List (Slot × α)} (hnd : (es.map (·.1)).Nodup) (hi : (i, a) ∈ es) : es.lookup i = some a := by
  obtain ⟨xs, ys, rfl⟩ := List.append_of_mem hi
  refine List.lookup_eq_some_iff.2 ⟨xs, ys, rfl, fun e he => ?_⟩
  rw [bne_iff_ne]
  intro hie
  exact (ne_of_nodup hnd).1 (List.mem_map.2 ⟨e, he, hie.symm⟩)

theorem lookup_eq_none {es : List (Slot × α)} (hi : i ∉ es.map (·.1)) : es.lookup i = none := by
  refine List.lookup_eq_none_iff.2 fun e he => ?_
  rw [bne_iff_ne]
  rintro rfl
  exact hi (List.mem_map_of_mem he)

namespace Denotes

theorem get?_of_mem (h : q.Denotes L) (hi : (i, a) ∈ L k) : q.get? i = some a := by
  obtain ⟨n, hn, rfl, -⟩ := h.linked.node_of_mem hi
  simp [get?, hn]

theorem exists_mem (h : q.Denotes L) (hi : q.get? i = some a) : ∃ k, (i, a) ∈ L k := by
  obtain ⟨k, hk⟩ := h.listed i (by simp [hi])
  obtain ⟨⟨_, b⟩, he, rfl⟩ := List.mem_map.1 hk
  have hb := h.get?_of_mem he
  rw [hi, Option.some.injEq] at hb
  exact ⟨k, hb ▸ he⟩

theorem notMem (h : q.Denotes L) (hi : q.get? i = none) (k : Queue) : i ∉ (L k).map (·.1) := by
  intro hk
  have := h.linked.isSome_get? hk
  rw [hi] at this; cases this

theorem get?_eq_none (h : q.Denotes L) (hi : ∀ k, i ∉ (L k).map (·.1)) : q.get? i = none := by
  rw [← Option.not_isSome_iff_eq_none]
  intro hs
  obtain ⟨k, hk⟩ := h.listed i hs
  exact hi k hk

theorem item?_eq (h : q.Denotes L) (i : Slot) : item? L i = q.get? i := by
  rw [item?]
  cases hi : q.get? i with
  | none => rw [lookup_eq_none (h.notMem hi _), lookup_eq_none (h.notMem hi _)]; rfl
  | some a =>
    obtain ⟨k, hk⟩ := h.exists_mem hi
    cases k with
    | pending => rw [lookup_eq (h.linked.nodup _) hk]; rfl
    | active =>
      rw [lookup_eq (h.linked.nodup .active) hk, lookup_eq_none]
      · rfl
      · intro hp
        cases h.linked.queue_eq hp (List.mem_map_of_mem hk)

/-! ### One operation -/

theorem act? (h : q.Denotes L) (hop : op.Allowed L) : q.act? op = some (q.act op) := by
  cases op with
  | insert k before a => rw [Queues.act?, h.insertBefore? hop]; rfl
  | move i k before => rw [Queues.act?, h.moveBefore? hop]; rfl
  | remove i => rw [Queues.act?, h.remove?]; rfl
  | set i a => rfl

theorem step (h : q.Denotes L) (hop : op.Allowed L) :
    ∃ L', Step L op (q.act op).1 L' ∧ (q.act op).2.Denotes L' := by
  cases op with
  | insert k before a =>
    obtain ⟨xs, ys, hs, rfl, hx⟩ := exists_split (h.linked.nodup k) hop
    obtain ⟨hi, hd⟩ := h.insertBefore hs a
    refine ⟨_, .insert hi, ?_⟩
    rw [hs, inFrontOf_append hx rfl]
    exact hd
  | move i k before =>
    by_cases hstay : before = some i ∨ q.get? i = none
    · have hq : q.moveBefore i k before = q := by
        rw [Queues.moveBefore, if_pos]
        rcases hstay with rfl | hi
        · simp
        · simp [Option.map_eq_none_iff.1 hi]
      refine ⟨L, .stay (hstay.imp_right fun hi => h.notMem hi), ?_⟩
      show (q.moveBefore i k before).Denotes L
      rwa [hq]
    · obtain ⟨hb, hi⟩ := not_or.1 hstay
      obtain ⟨a, ha⟩ := Option.ne_none_iff_exists'.1 hi
      obtain ⟨k₀, hk₀⟩ := h.exists_mem ha
      obtain ⟨xs, ys, hs, rfl, hx⟩ := exists_split (h.linked.nodup k) hop
      refine ⟨_, .move hk₀ hb, ?_⟩
      have hd := h.moveBefore hk₀ hs
      rw [hs, without_append, inFrontOf_append (fun b hb' hm => hx b hb' (mem_slots_without.1 hm).1)
        (headSlot_without hb)]
      exact hd
  | remove i =>
    show ∃ L', Step L (.remove i) (.item (q.remove i).1) L' ∧ (q.remove i).2.Denotes L'
    cases hi : q.get? i with
    | none =>
      have hq : q.remove i = (none, q) := by rw [Queues.remove, Option.map_eq_none_iff.1 hi]
      refine ⟨fun k => without i (L k), ?_, ?_⟩
      · rw [hq, ← hi, ← h.item?_eq]
        exact .remove
      · rw [hq, funext fun k => without_eq_self (h.notMem hi k)]
        exact h
    | some a =>
      obtain ⟨k, hk⟩ := h.exists_mem hi
      obtain ⟨hitem, hd⟩ := h.remove hk
      rw [hitem, ← hi, ← h.item?_eq]
      exact ⟨_, .remove, hd⟩
  | set i a =>
    show ∃ L', Step L (.set i a) (.item (q.get? i)) L' ∧ (q.set i a).Denotes L'
    rw [← h.item?_eq]
    exact ⟨_, .set, h.set i a⟩

end Denotes

/-- An operation that does not remove an item leaves it in its slot. -/
theorem Step.keeps {ans : Answer α} (hd : q.Denotes L) (h : Step L op ans L₁) (hop : op ≠ .remove i)
    (hi : (i, a) ∈ L k) : ∃ k', (i, latest i a [op]) ∈ L₁ k' := by
  cases h with
  | @insert j k' before b hj => exact ⟨k, mem_update_inFrontOf hi⟩
  | @move j b k₀ k' before hj hb =>
    by_cases hij : i = j
    · subst hij
      have ha := hd.get?_of_mem hi
      rw [hd.get?_of_mem hj, Option.some.injEq] at ha
      subst ha
      refine ⟨k', ?_⟩
      rw [Function.update_self]
      exact mem_inFrontOf.2 (.inl rfl)
    · have hw : (i, a) ∈ without j (L k) := mem_without.2 ⟨hi, hij⟩
      exact ⟨k, mem_update_inFrontOf (L := fun k' => without j (L k')) hw⟩
  | stay => exact ⟨k, hi⟩
  | @remove j =>
    have hij : i ≠ j := fun e => hop (e ▸ rfl)
    exact ⟨k, mem_without.2 ⟨hi, hij⟩⟩
  | @set j b =>
    refine ⟨k, List.mem_map.2 ⟨_, hi, ?_⟩⟩
    show (if i = j then (j, b) else (i, a)) = (i, if j = i then b else a)
    by_cases hij : i = j
    · rw [if_pos hij, if_pos hij.symm, hij]
    · rw [if_neg hij, if_neg (Ne.symm hij)]

namespace Denotes

/-- A run from an arena that holds the lists. -/
theorem run (h : q.Denotes L) (hops : q.Allowed ops) : q.run? ops = some (q.run ops) ∧
    ∃ L', Steps L ops (q.run ops).1 L' ∧ (q.run ops).2.Denotes L' := by
  induction ops generalizing q L with
  | nil => exact ⟨rfl, L, .nil, h⟩
  | cons op ops ih =>
    obtain ⟨hop, hops⟩ := hops
    rw [h.linked.toList_eq] at hop
    obtain ⟨L₁, hs, h₁⟩ := h.step hop
    obtain ⟨hrun, L₂, hss, h₂⟩ := ih h₁ hops
    refine ⟨?_, L₂, .cons hs hss, h₂⟩
    simp only [run?, h.act? hop, hrun, Option.bind_eq_bind, Option.bind_some, Option.pure_def, Queues.run]

theorem run_keeps (h : q.Denotes L) (hops : q.Allowed ops) (hi : q.get? i = some a) (hr : .remove i ∉ ops) :
    (q.run ops).2.get? i = some (latest i a ops) := by
  induction ops generalizing q L a with
  | nil => exact hi
  | cons op ops ih =>
    obtain ⟨hop, hops⟩ := hops
    rw [List.mem_cons, not_or] at hr
    rw [h.linked.toList_eq] at hop
    obtain ⟨L₁, hs, h₁⟩ := h.step hop
    obtain ⟨k, hk⟩ := h.exists_mem hi
    obtain ⟨k', hk'⟩ := hs.keeps h (Ne.symm hr.1) hk
    exact ih h₁ hops (h₁.get?_of_mem hk') hr.2

/-- Reading a queue backwards. -/
theorem walkBack_take (h : q.Denotes L) {xs ys : List (Slot × α)} (hs : L k = xs ++ ys) (n : Nat) :
    q.walkBack n (lastSlot xs) = (xs.map (·.1)).reverse.take n := by
  induction n generalizing xs ys with
  | zero => cases lastSlot xs <;> rfl
  | succ n ih =>
    rcases List.eq_nil_or_concat xs with rfl | ⟨xs, e, rfl⟩
    · rfl
    · rw [List.concat_eq_append, List.append_assoc] at hs
      have hprev : q.prev? e.1 = lastSlot xs := by rw [prev?, h.linked.node k xs e.1 e.2 ys hs]; rfl
      simp [walkBack, hprev, ih hs]

theorem count_slots (h : q.Denotes L) (i : Slot) :
    ((L .pending).map (·.1) ++ (L .active).map (·.1)).count i = if (q.get? i).isSome then 1 else 0 := by
  have hnd : ((L .pending).map (·.1) ++ (L .active).map (·.1)).Nodup := by
    refine (h.linked.nodup _).append (h.linked.nodup _) fun j hp ha => ?_
    cases h.linked.queue_eq hp ha
  cases hi : q.get? i with
  | none =>
    rw [if_neg (by simp)]
    refine List.count_eq_zero_of_not_mem fun hm => ?_
    rcases List.mem_append.1 hm with hp | ha
    · exact h.notMem hi _ hp
    · exact h.notMem hi _ ha
  | some a =>
    obtain ⟨k, hk⟩ := h.exists_mem hi
    refine List.count_eq_one_of_mem hnd (List.mem_append.2 ?_)
    cases k with
    | pending => exact .inl (List.mem_map_of_mem hk)
    | active => exact .inr (List.mem_map_of_mem hk)

theorem shows (h : q.Denotes L) : q.Shows L where
  walk k n := by rw [front?, h.linked.head, h.linked.walk_take (List.nil_append _).symm]
  walkBack k n := by rw [back?, h.linked.tail, h.walkBack_take (List.append_nil _).symm]
  toList k := by rw [h.linked.toList_eq]
  slotsFromBack k := by
    rw [slotsFromBack, back?, h.linked.tail, h.walkBack_take (List.append_nil _).symm, List.take_of_length_le]
    simpa using h.linked.length_le k
  front := h.linked.head
  back := h.linked.tail
  len := h.linked.len
  entry k xs i a ys hs := by simp [get?, queueOf?, prev?, next?, h.linked.node k xs i a ys hs]
  vacant i hi := by
    have hn := Option.map_eq_none_iff.1 (h.get?_eq_none hi)
    simp [get?, queueOf?, prev?, next?, hn]
  once := h.count_slots
  free := h.free
  free_nodup := h.free_nodup

end Denotes

theorem denotes_empty : (empty : Queues α).Denotes fun _ => [] := by
  have h : (empty : Queues α).Denotes _ := sound_empty
  rwa [funext toList_empty] at h

theorem run_append (q : Queues α) (ops ops' : List (Op α)) :
    (q.run (ops ++ ops')).2 = ((q.run ops).2.run ops').2 := by
  induction ops generalizing q with
  | nil => rfl
  | cons op ops ih => exact ih _

theorem allowed_append {ops ops' : List (Op α)} (h : q.Allowed (ops ++ ops')) :
    q.Allowed ops ∧ (q.run ops).2.Allowed ops' := by
  induction ops generalizing q with
  | nil => exact ⟨trivial, h⟩
  | cons op ops ih =>
    obtain ⟨h₁, h₂⟩ := ih h.2
    exact ⟨⟨h.1, h₁⟩, h₂⟩

/-- Operations on an arena that starts empty meet no broken link, do what they do to lists, and leave every item in
its slot until it is removed. -/
theorem refines_lists (h : empty.Allowed ops) : empty.run? ops = some (empty.run ops) ∧
    (∃ L, Steps (fun _ => []) ops (empty.run ops).1 L ∧ (empty.run ops).2.Shows L) ∧
    ∀ before after i a, ops = before ++ after → (empty.run before).2.get? i = some a → .remove i ∉ after →
      (empty.run ops).2.get? i = some (latest i a after) := by
  obtain ⟨hrun, L, hs, hd⟩ := denotes_empty.run h
  refine ⟨hrun, ⟨L, hs, hd.shows⟩, ?_⟩
  rintro before after i a rfl hi hr
  obtain ⟨hbefore, hafter⟩ := allowed_append h
  obtain ⟨-, L', -, hd'⟩ := denotes_empty.run hbefore
  rw [run_append]
  exact hd'.run_keeps hafter hi hr

theorem refines_lists_reused_slot :
    let ops : List (Op Nat) := [.insert .pending none 10, .insert .pending (some 0) 11, .move 0 .pending (some 1),
      .move 1 .active none, .move 1 .active (some 1), .remove 0, .move 0 .active none, .insert .active (some 1) 12,
      .set 1 13]
    empty.Allowed ops ∧ empty.run? ops = some (empty.run ops) ∧ (empty.run ops).2.toList .pending = [] ∧
      (empty.run ops).2.toList .active = [(0, 12), (1, 13)] ∧ (empty.run ops).2.get? 1 = some 13 := by
  intro ops
  have hops : empty.Allowed ops := by decide
  obtain ⟨hrun, -, hkeeps⟩ := refines_lists hops
  refine ⟨hops, hrun, rfl, rfl, ?_⟩
  exact hkeeps (ops.take 2) (ops.drop 2) 1 11 rfl rfl (by decide)

end CompactionLeasing.Queues

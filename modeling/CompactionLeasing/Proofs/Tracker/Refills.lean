import CompactionLeasing.Proofs.Queues.Linked
import CompactionLeasing.Proofs.Tracker.Commits

/-!
# When pending fills

A request that finds pending empty and leaves it filled says so. No job of the tracker has to make sense
for this: only the requests that count their pending jobs before and after can add to them.
-/

namespace CompactionLeasing

namespace Queues
variable {α : Type} {q : Queues α} {k k' : Queue} {i : Slot}

theorem len_set (q : Queues α) (i : Slot) (a : α) (k : Queue) : (q.set i a).len k = q.len k := by
  rw [len_eq_ends, set, ends_modifyNode]; rfl

theorem len_unlink_le (q : Queues α) (i : Slot) (k : Queue) : (q.unlink i).len k ≤ q.len k := by
  cases hn : q.node? i with
  | none => simp [unlink, hn]
  | some n =>
    simp only [unlink_eq hn, len_eq_ends, ends_recount, ends_relinkPrev, ends_relinkNext, ends_modifyNode]
    split
    · exact Nat.sub_le _ 1
    · exact Nat.le_refl _

theorem len_link_of_ne (h : k' ≠ k) (q : Queues α) (i : Slot) (before : Option Slot) :
    (q.link i k before).len k' = q.len k' := by
  simp only [link_eq before _ rfl, len_eq_ends, ends_recount, ends_relinkPrev, ends_relinkNext,
    ends_modifyNode]
  rw [if_neg h.symm]

/-- A node that enters a queue does not make the other one longer. -/
theorem len_moveBefore_le (h : k' ≠ k) (q : Queues α) (i : Slot) (before : Option Slot) :
    (q.moveBefore i k before).len k' ≤ q.len k' := by
  rw [moveBefore]
  split
  · exact Nat.le_refl _
  · rw [len_link_of_ne h]; exact len_unlink_le ..

theorem len_remove_le (q : Queues α) (i : Slot) (k : Queue) : (q.remove i).2.len k ≤ q.len k := by
  cases hn : q.node? i with
  | none => simp [remove, hn]
  | some n =>
    have hr : (q.remove i).2.len k = (q.unlink i).len k := by
      simp only [remove, hn]; cases k <;> rfl
    rw [hr]; exact len_unlink_le ..

end Queues

namespace Tracker
variable {t t' : Tracker} {now : Instant} {r : Request} {b : Batch} {e : Effect Reply}

theorem hasPending_mono (h : t'.queues.len .pending ≤ t.queues.len .pending) (hp : t'.hasPending = true) :
    t.hasPending = true := by
  simp only [hasPending, Queues.isEmpty, Bool.not_eq_true', beq_eq_false_iff_ne] at hp ⊢
  omega

theorem len_replace_active_le (t : Tracker) (slot : Slot) (job : Job) :
    (t.replace slot .active job).queues.len .pending ≤ t.queues.len .pending := by
  have hne : Queue.pending ≠ .active := nofun
  have h := Queues.len_moveBefore_le hne (t.queues.set slot job) slot (t.position? .active job)
  rwa [Queues.len_set] at h

theorem len_forget_le (t : Tracker) (slot : Slot) :
    (t.forget slot).queues.len .pending ≤ t.queues.len .pending := by
  have h := Queues.len_remove_le t.queues slot .pending
  rw [forget]
  split
  · exact Nat.le_refl _
  · rename_i hr
    rwa [hr] at h

theorem refilled_of_counted (hp : t'.hasPending = true) :
    t.hasPending = true ∨ (!t.hasPending && t'.hasPending) = true := by
  rw [hp]
  cases t.hasPending <;> simp

/-- Once a request is carried out pending has jobs only if it had some before, or if this is reported. -/
theorem Commits.refilled (h : t.Commits now r b e) (hp : e.tracker.hasPending = true) :
    t.hasPending = true ∨ e.refilled = true := by
  cases h with
  | maintain | cancel | plan => exact refilled_of_counted hp
  | lease | renew => exact .inl (hasPending_mono (len_replace_active_le ..) hp)
  | finish => exact .inl (hasPending_mono (len_forget_le ..) hp)

/-- After a request pending has jobs only if it had some before, or if workers are to be woken. -/
theorem serve_refilled {ε σ : Type} (t : Tracker) (now : Instant) (r : Request) (store : σ)
    (write : Batch → Except ε σ)
    (hp : (t.serve now r store write).tracker.hasPending = true) :
    t.hasPending = true ∨ (t.serve now r store write).refilled = true := by
  rw [serve] at hp ⊢
  cases hq : t.propose now r with
  | settled a => rw [hq] at hp; exact .inl hp
  | overflow => rw [hq] at hp; exact .inl hp
  | persist b e =>
    rw [hq] at hp
    simp only [Proposal.settle] at hp ⊢
    cases hw : write b with
    | error err => rw [hw] at hp; exact .inl hp
    | ok store' => rw [hw] at hp; exact (commits_of_propose hq).refilled hp

end Tracker

end CompactionLeasing

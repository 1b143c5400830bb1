import CompactionLeasing.Proofs.Scheduler.Moves
import Mathlib.Data.List.Induction

/-!
# Workers who wait for work

A worker first listens to the signal, then looks for work, and parks if there is none. Between these steps
anything may be done to the scheduler. `Site.heard_iff`: no worker stays parked unheard while there is
work, unless a tracker with pending work is registered while a worker, who found none, has not been woken.
-/

namespace CompactionLeasing

namespace Scheduler

/-- How far a worker has come who waits for work. -/
inductive Stage where
  | listening
  /-- There was no work. -/
  | checked
  | parked
  /-- The wait is over, as there was work or the worker does not care any more. -/
  | over
deriving DecidableEq

structure Wait where
  stage : Stage
  /-- How often the signal had been given when the worker began to listen. -/
  since : Nat
deriving DecidableEq

namespace Wait

/-- Looks whether there is work. -/
def check (x : Wait) (work : Bool) : Wait :=
  if x.stage = .listening then { x with stage := if work then .over else .checked } else x

def park (x : Wait) : Wait := if x.stage = .checked then { x with stage := .parked } else x

/-- Whether the worker has looked for work and found none. From here on only the signal ends the wait. -/
def Idle (x : Wait) : Prop := x.stage = .checked ∨ x.stage = .parked

/-- Whether the signal has been given since the worker began to listen. -/
def Notified (x : Wait) (s : Scheduler) : Prop := x.since < s.wakes

variable {x : Wait} {work : Bool}

theorem since_check (x : Wait) (work : Bool) : (x.check work).since = x.since := by
  rw [check]; split <;> rfl

theorem since_park (x : Wait) : x.park.since = x.since := by
  rw [park]; split <;> rfl

theorem idle_check (h : (x.check work).Idle) : x.Idle ∨ work = false := by
  rw [check] at h
  split at h
  · cases work with
    | false => exact .inr rfl
    | true => rcases h with h | h <;> cases h
  · exact .inl h

theorem idle_park (h : x.park.Idle) : x.Idle := by
  rw [park] at h
  split at h
  · exact .inl ‹_›
  · exact h

theorem Idle.stage_park (h : x.Idle) : x.park.stage = .parked := by
  rw [park]
  rcases h with h | h
  · rw [if_pos h]
  · rw [if_neg (by rw [h]; nofun), h]

end Wait

/-- The scheduler and those who wait for its work. -/
structure Site where
  scheduler : Scheduler
  waits : Array Wait

inductive Step where
  | move (m : Move)
  | listen
  | check (i : Nat)
  | park (i : Nat)
  | leave (i : Nat)

namespace Site

def start (storage : Storage) (admission : Admission) (maxLeases : UInt64) : Site :=
  ⟨.start storage admission maxLeases, #[]⟩

def step (w : Site) : Step → Site
  | .move m => { w with scheduler := w.scheduler.move m }
  | .listen => { w with waits := w.waits.push ⟨.listening, w.scheduler.wakes⟩ }
  | .check i => { w with waits := w.waits.modify i fun x => x.check w.scheduler.hasWork }
  | .park i => { w with waits := w.waits.modify i .park }
  | .leave i => { w with waits := w.waits.modify i fun x => { x with stage := .over } }

def run (w : Site) (steps : List Step) : Site := steps.foldl step w

theorem run_concat (w : Site) (steps : List Step) (st : Step) :
    w.run (steps ++ [st]) = (w.run steps).step st :=
  List.foldl_concat ..

/-- A worker is parked who has not been woken, and there is work. -/
def Lost (w : Site) : Prop :=
  ∃ x ∈ w.waits, x.stage = .parked ∧ ¬ x.Notified w.scheduler ∧ w.scheduler.hasWork = true

/-- Whoever found no work is woken, or there still is none. -/
structure Heard (w : Site) : Prop where
  attached : w.scheduler.Attached
  since : ∀ x ∈ w.waits, x.since ≤ w.scheduler.wakes
  idle : ∀ x ∈ w.waits, x.Idle → x.Notified w.scheduler ∨ w.scheduler.hasWork = false

variable {w : Site} {x : Wait}

theorem mem_modify {xs : Array Wait} {i : Nat} {f : Wait → Wait} (h : x ∈ xs.modify i f) :
    x ∈ xs ∨ ∃ y ∈ xs, x = f y := by
  obtain ⟨j, hj⟩ := Array.mem_iff_getElem?.1 h
  rw [Array.getElem?_modify] at hj
  split at hj
  · obtain ⟨y, hy, rfl⟩ := Option.map_eq_some_iff.1 hj
    exact .inr ⟨y, Array.mem_of_getElem? hy, rfl⟩
  · exact .inl (Array.mem_of_getElem? hj)

namespace Heard

theorem start (storage : Storage) (admission : Admission) (maxLeases : UInt64) :
    (Site.start storage admission maxLeases).Heard :=
  ⟨.start storage admission maxLeases, by simp [Site.start], by simp [Site.start]⟩

/-- The scheduler stays as it is, and a worker goes on who does not overlook work. -/
theorem modify (hw : w.Heard) (i : Nat) {f : Wait → Wait} (hsince : ∀ x, (f x).since = x.since)
    (hidle : ∀ x, (f x).Idle → x.Idle ∨ w.scheduler.hasWork = false) :
    Heard { w with waits := w.waits.modify i f } := by
  refine ⟨hw.attached, fun x hx => ?_, fun x hx hx' => ?_⟩
  · rcases mem_modify hx with hx | ⟨y, hy, rfl⟩
    · exact hw.since x hx
    · rw [hsince]; exact hw.since y hy
  · rcases mem_modify hx with hx | ⟨y, hy, rfl⟩
    · exact hw.idle x hx hx'
    · rcases hidle y hx' with hi | hwork
      · rw [Wait.Notified, hsince]; exact hw.idle y hy hi
      · exact .inr hwork

/-- Every step keeps it, but for the registration of a tracker with work before one who found none. -/
theorem step (hw : w.Heard) (st : Step)
    (hq : ∀ tenant h, st = .move (.register tenant h) → w.scheduler.pendingAt h = true →
    ∀ x ∈ w.waits, x.Idle → x.Notified w.scheduler) : (w.step st).Heard := by
  cases st with
  | move m =>
    have hle := wakes_move_le w.scheduler m
    refine ⟨hw.attached.move m, fun x hx => Nat.le_trans (hw.since x hx) hle, fun x hx hi => ?_⟩
    rw [or_iff_not_imp_right, Bool.not_eq_false]
    intro hwork
    by_cases hm : ∀ tenant h, m = .register tenant h → w.scheduler.pendingAt h = false
    -- Work that was there before was not overlooked; work that appears now comes with a signal, and the
    -- worker began to listen before it.
    · rcases hw.attached.move_hasWork m hm hwork with hwork | hlt
      · exact Nat.lt_of_lt_of_le ((hw.idle x hx hi).resolve_right (by rw [hwork]; nofun)) hle
      · exact Nat.lt_of_le_of_lt (hw.since x hx) hlt
    · simp only [not_forall, Bool.not_eq_false] at hm
      obtain ⟨tenant, h, rfl, hp⟩ := hm
      exact Nat.lt_of_lt_of_le (hq tenant h rfl hp x hx hi) hle
  | listen =>
    refine ⟨hw.attached, fun x hx => ?_, fun x hx hi => ?_⟩
    · rcases Array.mem_push.1 hx with hx | rfl
      · exact hw.since x hx
      · exact Nat.le_refl _
    · rcases Array.mem_push.1 hx with hx | rfl
      · exact hw.idle x hx hi
      · rcases hi with hi | hi <;> cases hi
  | check i => exact hw.modify i (fun x => x.since_check _) fun x hx => Wait.idle_check hx
  | park i => exact hw.modify i Wait.since_park fun x hx => .inl (Wait.idle_park hx)
  | leave i => exact hw.modify i (fun x => rfl) fun x hx => by rcases hx with hx | hx <;> cases hx

theorem parks (hw : w.Heard) (is : List Nat) : (w.run (is.map .park)).Heard := by
  refine List.foldlRecOn _ _ hw fun _ ih st hm => ?_
  obtain ⟨i, -, rfl⟩ := List.mem_map.1 hm
  exact ih.step (.park i) nofun

theorem not_lost (hw : w.Heard) : ¬ w.Lost := by
  rintro ⟨x, hx, hp, hn, hwork⟩
  rcases hw.idle x hx (.inr hp) with h | h
  · exact hn h
  · rw [h] at hwork; cases hwork

end Heard

/-- A tracker with work is registered while a worker who found none has not been woken: as soon as this
worker is parked the wake-up is lost. -/
theorem lost_of_register (tenant : TenantId) {h : Handle} (hp : w.scheduler.pendingAt h = true)
    (hx : x ∈ w.waits) (hi : x.Idle) (hn : ¬ x.Notified w.scheduler) :
    ∃ i, ((w.step (.move (.register tenant h))).step (.park i)).Lost := by
  obtain ⟨i, hxi⟩ := Array.mem_iff_getElem?.1 hx
  refine ⟨i, x.park, Array.mem_of_getElem? (i := i) ?_, hi.stage_park, ?_, ?_⟩
  · simp only [step, Array.getElem?_modify, if_true, hxi, Option.map_some]
  · rw [Wait.Notified, x.since_park]; exact hn
  · refine hasWork_iff.2 ⟨tenant, h, ?_, hp⟩
    simp only [step, Scheduler.move, register, Table.getElem?_insert, if_true]

/-- No worker is ever parked who has not been woken while there is work, in a run and however workers park
in it, if and only if no tracker with pending work is registered in the run while a worker who found no
work has not been woken. -/
theorem heard_iff (storage : Storage) (admission : Admission) (maxLeases : UInt64) (steps : List Step) :
    (∀ (before : List Step) (parks : List Nat), before <+: steps →
        ¬ (((start storage admission maxLeases).run before).run (parks.map .park)).Lost) ↔
      ∀ (before : List Step) (tenant : TenantId) (h : Handle),
        before ++ [.move (.register tenant h)] <+: steps →
        ((start storage admission maxLeases).run before).scheduler.pendingAt h = true →
          ∀ x ∈ ((start storage admission maxLeases).run before).waits, x.Idle →
            x.Notified ((start storage admission maxLeases).run before).scheduler := by
  constructor
  · intro hl before tenant h hpre hp x hx hi
    by_contra hn
    obtain ⟨i, hlost⟩ := lost_of_register tenant hp hx hi hn
    refine hl _ [i] hpre ?_
    rw [run_concat]
    exact hlost
  · intro hq before parks hpre
    have hheard : ((start storage admission maxLeases).run before).Heard := by
      -- On the run from its end: the hypothesis is about the state before each of its steps.
      induction before using List.reverseRecOn with
      | nil => exact .start ..
      | append_singleton before st ih =>
        rw [run_concat]
        refine (ih ((List.prefix_append ..).trans hpre)).step st ?_
        rintro tenant h rfl
        exact hq before tenant h hpre
    exact (hheard.parks parks).not_lost

/-- The deletion of a tenant fails while a worker looks for work: its tracker is registered again with a
pending job, and the worker, who saw no tracker in between, sleeps on. -/
theorem lost_rollback : ¬ ∀ steps : List Step, ¬ ((start ⟨.empty, .none⟩ .all 0).run steps).Lost := by
  intro h
  refine h [.move (.enroll "a" .nowhere), .move (.register "a" 0),
    .move (.call 0 .epoch (.maintain ⟨.ofSeconds 60, .ofSeconds 60, .ofSeconds 60⟩ true)),
    .move (.unregister "a"), .move (.retire 0), .listen, .check 0, .park 0,
    .move (.reinstate 0), .move (.register "a" 0)] ⟨⟨.parked, 1⟩, ?_, rfl, ?_, ?_⟩
  · decide +kernel
  · rw [Wait.Notified]; decide +kernel
  · decide +kernel

end Site

end Scheduler

end CompactionLeasing

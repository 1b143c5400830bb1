import CompactionLeasing.Tracker.Proposal
import Mathlib.Data.List.Nodup
import Mathlib.Tactic.SplitIfs

/-!
# Jobs under their names

A `JobTable` is the view that a tracker and the store have in common: which job stands under a name.
`commit` is what a batch does to it. What is proved of `putAll` compares one name at a time, so no lemma
asks that the jobs of a batch have distinct names unless it matters which of them stays.
-/

namespace CompactionLeasing

abbrev JobTable := JobId → Option Job

namespace JobTable

def put (f : JobTable) (job : Job) : JobTable := Function.update f job.id (some job)

def drop (f : JobTable) (id : JobId) : JobTable := Function.update f id none

/-- Puts jobs one after the other. -/
def putAll (f : JobTable) (jobs : List Job) : JobTable := jobs.foldl put f

/-- Drops the names of jobs. -/
def dropAll (f : JobTable) (jobs : List Job) : JobTable := jobs.foldl (fun f job => f.drop job.id) f

/-- The table once a batch is durable. -/
def commit (f : JobTable) (b : Batch) : JobTable := (f.dropAll b.deletes).putAll b.writes

variable {f g : JobTable} {job : Job} {jobs : List Job} {id : JobId}

theorem put_apply (f : JobTable) (job : Job) (id : JobId) :
    f.put job id = if id = job.id then some job else f id := by
  rw [put, Function.update_apply]

theorem drop_apply (f : JobTable) (n id : JobId) : f.drop n id = if id = n then none else f id := by
  rw [drop, Function.update_apply]

theorem put_self (f : JobTable) (job : Job) : f.put job job.id = some job := by rw [put_apply, if_pos rfl]

theorem drop_self (f : JobTable) (id : JobId) : f.drop id id = none := by rw [drop_apply, if_pos rfl]

theorem put_of_ne (h : id ≠ job.id) : f.put job id = f id := by rw [put_apply, if_neg h]

theorem drop_of_ne {n : JobId} (h : id ≠ n) : f.drop n id = f id := by rw [drop_apply, if_neg h]

theorem drop_put (f : JobTable) (job : Job) : (f.drop job.id).put job = f.put job := Function.update_idem ..

@[simp] theorem putAll_nil (f : JobTable) : f.putAll [] = f := rfl

@[simp] theorem putAll_cons (f : JobTable) (job : Job) (jobs : List Job) :
    f.putAll (job :: jobs) = (f.put job).putAll jobs := rfl

theorem putAll_append (f : JobTable) (xs ys : List Job) : f.putAll (xs ++ ys) = (f.putAll xs).putAll ys :=
  List.foldl_append

theorem putAll_of_notMem (h : id ∉ jobs.map Job.id) : f.putAll jobs id = f id := by
  induction jobs generalizing f with
  | nil => rfl
  | cons job jobs ih =>
    rw [List.map_cons, List.mem_cons, not_or] at h
    rw [putAll_cons, ih h.2, put_of_ne h.1]

/-- What stands under a name in the end depends on what stood there only if no job has the name. -/
theorem putAll_congr (h : id ∉ jobs.map Job.id → f id = g id) : f.putAll jobs id = g.putAll jobs id := by
  induction jobs generalizing f g with
  | nil => exact h (by simp)
  | cons job jobs ih =>
    refine ih fun hid => ?_
    rw [put_apply, put_apply]
    split_ifs with hj
    · rfl
    · exact h (by simp [hj, hid])

theorem exists_of_mem_ids (h : id ∈ jobs.map Job.id) :
    ∃ job ∈ jobs, job.id = id ∧ f.putAll jobs id = some job := by
  induction jobs generalizing f with
  | nil => simp at h
  | cons job jobs ih =>
    by_cases hid : id ∈ jobs.map Job.id
    · obtain ⟨job', hm, he, hp⟩ := ih hid (f := f.put job)
      exact ⟨job', List.mem_cons_of_mem _ hm, he, hp⟩
    · obtain rfl : id = job.id := by simpa [hid] using h
      refine ⟨job, List.mem_cons_self .., rfl, ?_⟩
      rw [putAll_cons, putAll_of_notMem hid, put_self]

theorem putAll_of_mem (hn : (jobs.map Job.id).Nodup) (h : job ∈ jobs) :
    f.putAll jobs job.id = some job := by
  obtain ⟨job', hm, hid, hp⟩ := exists_of_mem_ids (f := f) (List.mem_map_of_mem (f := Job.id) h)
  rwa [List.inj_on_of_nodup_map hn hm h hid] at hp

theorem putAll_eq_some (h : f.putAll jobs id = some job) :
    job ∈ jobs ∧ job.id = id ∨ id ∉ jobs.map Job.id ∧ f id = some job := by
  by_cases hid : id ∈ jobs.map Job.id
  · obtain ⟨job', hm, he, hp⟩ := exists_of_mem_ids (f := f) hid
    rw [hp, Option.some.injEq] at h
    subst h; exact .inl ⟨hm, he⟩
  · rw [putAll_of_notMem hid] at h
    exact .inr ⟨hid, h⟩

theorem putAll_isSome (h : id ∈ jobs.map Job.id ∨ (f id).isSome) : (f.putAll jobs id).isSome := by
  by_cases hid : id ∈ jobs.map Job.id
  · obtain ⟨job, -, -, hp⟩ := exists_of_mem_ids (f := f) hid
    rw [hp]; rfl
  · rw [putAll_of_notMem hid]
    exact h.resolve_left hid

theorem dropAll_apply (f : JobTable) (jobs : List Job) (id : JobId) :
    f.dropAll jobs id = if id ∈ jobs.map Job.id then none else f id := by
  induction jobs generalizing f with
  | nil => simp [dropAll]
  | cons job jobs ih =>
    rw [dropAll, List.foldl_cons, ← dropAll, ih, drop_apply, List.map_cons]
    by_cases h : id = job.id <;> simp [h]

theorem commit_congr {b : Batch} (h : id ∉ b.writes.map Job.id → id ∉ b.deletes.map Job.id → f id = g id) :
    f.commit b id = g.commit b id := by
  refine putAll_congr fun hw => ?_
  rw [dropAll_apply, dropAll_apply]
  split_ifs with hd
  · rfl
  · exact h hw hd

/-- Names may be dropped after jobs of other names are put; and a job that is dropped in the end need not
be put. -/
theorem drop_commit {us : List Job} (hn : job.id ∉ jobs.map Job.id)
    (hd : ∀ id ∈ jobs.map Job.id, id ∉ us.map Job.id) (id : JobId) :
    (f.commit ⟨job :: jobs, us⟩).drop job.id id = ((f.drop job.id).putAll jobs).dropAll us id := by
  rw [drop_apply, dropAll_apply, commit, putAll_cons]
  by_cases hm : id ∈ jobs.map Job.id
  · rw [if_neg (hd id hm), if_neg fun hid : id = job.id => hn (hid ▸ hm)]
    exact putAll_congr fun h => absurd hm h
  · rw [putAll_of_notMem hm, putAll_of_notMem hm, put_apply, drop_apply, dropAll_apply]
    split_ifs <;> rfl

def of (jobs : List Job) : JobTable := putAll (fun _ => none) jobs

theorem of_concat (jobs : List Job) (job : Job) :
    of (jobs ++ [job]) = (of jobs).put job := List.foldl_concat ..

theorem of_eq_some (hn : (jobs.map Job.id).Nodup) : of jobs id = some job ↔ job ∈ jobs ∧ job.id = id := by
  constructor
  · intro h
    rcases putAll_eq_some h with h | ⟨-, h⟩
    · exact h
    · cases h
  · rintro ⟨hm, rfl⟩
    exact putAll_of_mem hn hm

theorem perm_of_of_eq {xs ys : List Job} (hx : (xs.map Job.id).Nodup) (hy : (ys.map Job.id).Nodup)
    (h : of xs = of ys) :
    xs.Perm ys := by
  refine (List.perm_ext_iff_of_nodup hx.of_map hy.of_map).2 fun job => ?_
  have hxy : of xs job.id = some job ↔ of ys job.id = some job := by rw [h]
  rwa [of_eq_some hx, of_eq_some hy, and_iff_left rfl, and_iff_left rfl] at hxy

theorem of_perm {xs ys : List Job} (hp : xs.Perm ys) (hn : (xs.map Job.id).Nodup) : of xs = of ys := by
  funext id
  refine Option.ext fun job => ?_
  rw [of_eq_some hn, of_eq_some ((hp.map _).nodup_iff.1 hn), hp.mem_iff]

end JobTable

end CompactionLeasing

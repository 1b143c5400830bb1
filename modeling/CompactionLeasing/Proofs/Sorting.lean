import Mathlib.Data.List.Sort

/-!
# Stable sorting

A list is given by its order and the sequence of the entries of each key: there is one sorted list for given sequences
(`eq_of_levels`), and sorting keeps them (`filter_mergeSort`). In a sorted list a search may stop early
(`takeWhile_eq_filter`).
-/

namespace CompactionLeasing.Sorting

variable {α κ : Type} [DecidableEq κ] (key : α → κ)

/-- Lists in order are equal if the entries of each key stand in the same sequence in both. -/
theorem eq_of_levels {R : α → α → Prop} {xs ys : List α} (hkey : ∀ a b, R a b → R b a → key a = key b)
    (hx : xs.Pairwise R) (hy : ys.Pairwise R)
    (h : ∀ c, (xs.filter fun a => key a = c) = ys.filter fun a => key a = c) : xs = ys := by
  induction xs generalizing ys with
  | nil =>
    cases ys with
    | nil => rfl
    | cons y ys => simpa using h (key y)
  | cons x xs ih =>
    obtain ⟨hxs, hx⟩ := List.pairwise_cons.1 hx
    cases ys with
    | nil => simpa using h (key x)
    | cons y ys =>
      obtain ⟨hys, hy'⟩ := List.pairwise_cons.1 hy
      -- The first entry of each list occurs in the other one, so they stand level, and one sequence has both in front.
      have hlevel : key x = key y := by
        by_contra hne
        have hyx : y ∈ xs := by
          have hm : y ∈ (x :: xs).filter fun a => key a = key y := by rw [h]; simp
          rw [List.filter_cons_of_neg (by simpa using hne)] at hm
          exact List.mem_of_mem_filter hm
        have hxy : x ∈ ys := by
          have hm : x ∈ (y :: ys).filter fun a => key a = key x := by rw [← h]; simp
          rw [List.filter_cons_of_neg (by simpa using Ne.symm hne)] at hm
          exact List.mem_of_mem_filter hm
        exact hne (hkey x y (hxs y hyx) (hys x hxy))
      have hfront := h (key x)
      rw [List.filter_cons_of_pos (by simp), List.filter_cons_of_pos (by simpa using hlevel.symm)] at hfront
      obtain ⟨rfl, -⟩ := List.cons.inj hfront
      refine congrArg _ (ih hx hy' fun c => ?_)
      have hc := h c
      rw [List.filter_cons, List.filter_cons] at hc
      split_ifs at hc
      · exact (List.cons.inj hc).2
      · exact hc

/-- Sorting keeps the sequence of the entries of each key. -/
theorem filter_mergeSort {le : α → α → Bool} (htrans : ∀ a b c, le a b → le b c → le a c)
    (htotal : ∀ a b, (le a b || le b a) = true) (hkey : ∀ a b, key a = key b → le a b) (c : κ) (xs : List α) :
    ((xs.mergeSort le).filter fun a => key a = c) = xs.filter fun a => key a = c := by
  have hlevel : (xs.filter fun a => key a = c).Pairwise fun a b => le a b := by
    refine List.pairwise_of_forall_mem_list fun a ha b hb => hkey a b ?_
    exact (of_decide_eq_true (List.mem_filter.1 ha).2).trans (of_decide_eq_true (List.mem_filter.1 hb).2).symm
  have hsub := (List.sublist_mergeSort htrans htotal hlevel List.filter_sublist).filter fun a => key a = c
  rw [List.filter_filter, List.filter_congr fun a _ => Bool.and_self _] at hsub
  exact (hsub.eq_of_length ((List.mergeSort_perm ..).filter _).length_eq.symm).symm

/-- Two lists are sorted alike if the entries of each key stand in the same sequence in both, and only then. -/
theorem mergeSort_eq_iff {le : α → α → Bool} (htrans : ∀ a b c, le a b → le b c → le a c)
    (htotal : ∀ a b, (le a b || le b a) = true) (hkey : ∀ a b, key a = key b ↔ le a b = true ∧ le b a = true)
    {xs ys : List α} : xs.mergeSort le = ys.mergeSort le ↔
      ∀ c, (xs.filter fun a => key a = c) = ys.filter fun a => key a = c := by
  have hfilter := filter_mergeSort key htrans htotal fun a b hab => ((hkey a b).1 hab).1
  constructor
  · intro h c
    rw [← hfilter, h, hfilter]
  · intro h
    refine eq_of_levels key (fun a b hab hba => (hkey a b).2 ⟨hab, hba⟩) (List.pairwise_mergeSort htrans htotal xs)
      (List.pairwise_mergeSort htrans htotal ys) fun c => ?_
    rw [hfilter, hfilter, h]

/-- Where no two entries have the same key, only one sequence is possible. -/
theorem filter_eq_of_perm {xs ys : List α} (h : ys.Perm xs) (hn : (xs.map key).Nodup) (c : κ) :
    (ys.filter fun a => key a = c) = xs.filter fun a => key a = c := by
  have hp := h.filter fun a => key a = c
  have hkeys : ∀ k ∈ (xs.filter fun a => key a = c).map key, k = c := by
    intro k hk
    obtain ⟨a, ha, rfl⟩ := List.mem_map.1 hk
    exact of_decide_eq_true (List.mem_filter.1 ha).2
  have hlevel := hn.sublist ((List.filter_sublist (p := fun a => key a = c)).map key)
  rw [List.eq_replicate_of_mem hkeys, List.nodup_replicate, List.length_map] at hlevel
  match hxs : xs.filter fun a => key a = c with
  | [] => rw [hxs] at hp; exact hp.eq_nil
  | [a] => rw [hxs] at hp; exact hp.eq_singleton
  | a :: b :: rest => rw [hxs] at hlevel; simp at hlevel

/-- Where two entries have the same key, they stand in another sequence when the list is reversed. -/
theorem nodup_of_reverse {xs : List α} (hn : xs.Nodup)
    (h : ∀ c, (xs.reverse.filter fun a => key a = c) = xs.filter fun a => key a = c) : (xs.map key).Nodup := by
  refine List.Nodup.map_on (fun x hx y hy hxy => ?_) hn
  have hmx : x ∈ xs.filter fun a => key a = key y := List.mem_filter.2 ⟨hx, decide_eq_true hxy⟩
  have hmy : y ∈ xs.filter fun a => key a = key y := List.mem_filter.2 ⟨hy, decide_eq_true rfl⟩
  have hback := h (key y)
  have hlevel := hn.filter fun a => key a = key y
  rw [List.filter_reverse] at hback
  match hxs : xs.filter fun a => key a = key y with
  | [] => rw [hxs] at hmx; cases hmx
  | [a] =>
    rw [hxs] at hmx hmy
    rw [List.mem_singleton.1 hmx, List.mem_singleton.1 hmy]
  | a :: b :: rest =>
    -- The first entry would be the last one, too.
    rw [hxs, List.reverse_cons] at hback
    rw [hxs] at hlevel
    have hlast : (a :: b :: rest).getLast? = some a := by rw [← hback]; simp
    rw [List.getLast?_cons_cons] at hlast
    exact absurd (List.mem_of_getLast? hlast) (List.nodup_cons.1 hlevel).1

/-- Of entries in order, those that meet a condition stand in front if it passes down the order. -/
theorem takeWhile_eq_filter {R : α → α → Prop} {p : α → Bool} {xs : List α} (hx : xs.Pairwise R)
    (hp : ∀ a b, R a b → p b = true → p a = true) : xs.takeWhile p = xs.filter p := by
  induction xs with
  | nil => rfl
  | cons x xs ih =>
    obtain ⟨hxs, hx⟩ := List.pairwise_cons.1 hx
    rw [List.takeWhile_cons, List.filter_cons]
    split_ifs with h
    · rw [ih hx]
    · exact (List.filter_eq_nil_iff.2 fun y hy hpy => h (hp x y (hxs y hy) hpy)).symm

end CompactionLeasing.Sorting

import Mathlib.Data.List.Sort
import Mathlib.Data.String.Basic
import Std.Data.ExtTreeMap

/-!
# Tables with text keys
-/

namespace CompactionLeasing.Table

open Std (ExtTreeMap)

variable {β : Type} {m : ExtTreeMap String β} {k : String}

theorem getElem?_insert (m : ExtTreeMap String β) (k : String) (v : β) (a : String) :
    (m.insert k v)[a]? = if a = k then some v else m[a]? := by
  rw [ExtTreeMap.getElem?_insert]; exact if_congr (Std.compare_eq_iff_eq.trans eq_comm) rfl rfl

theorem getElem?_erase (m : ExtTreeMap String β) (k a : String) :
    (m.erase k)[a]? = if a = k then none else m[a]? := by
  rw [ExtTreeMap.getElem?_erase]; exact if_congr (Std.compare_eq_iff_eq.trans eq_comm) rfl rfl

theorem getElem?_foldl_erase {γ : Type} (f : γ → String) (xs : List γ) (m : ExtTreeMap String β)
    (a : String) :
    (xs.foldl (fun m x => m.erase (f x)) m)[a]? = if a ∈ xs.map f then none else m[a]? := by
  induction xs generalizing m with
  | nil => simp
  | cons x xs ih =>
    rw [List.foldl_cons, ih, getElem?_erase, List.map_cons]
    by_cases h : a = f x <;> simp [h]

theorem values_eq (m : ExtTreeMap String β) : m.values = m.toList.map Prod.snd := by
  have h : m.values = m.foldr (fun _ v l => v :: l) [] := by
    obtain ⟨⟨m⟩⟩ := m
    rfl
  rw [h, ExtTreeMap.foldr_eq_foldr_toList]
  induction m.toList with
  | nil => rfl
  | cons e es ih => simp [ih]

theorem mem_values {m : ExtTreeMap String β} {v : β} : v ∈ m.values ↔ ∃ k : String, m[k]? = some v := by
  simp [values_eq, ExtTreeMap.mem_toList_iff_getElem?_eq_some]

theorem pairwise_toList (m : ExtTreeMap String β) : m.toList.Pairwise fun a b => a.1 < b.1 :=
  ExtTreeMap.ordered_keys_toList.imp fun h => compare_lt_iff_lt.1 h

/-- A table is listed as its entries in the order of their keys. -/
theorem toList_eq {es : List (String × β)} (hs : es.Pairwise fun a b => a.1 < b.1)
    (he : ∀ k v, (k, v) ∈ es ↔ m[k]? = some v) : m.toList = es := by
  have : Std.Irrefl fun a b : String × β => a.1 < b.1 := ⟨fun a => lt_irrefl a.1⟩
  refine List.Pairwise.eq_of_mem_iff (pairwise_toList m) hs fun e => ?_
  rw [he, ExtTreeMap.mem_toList_iff_getElem?_eq_some]

end CompactionLeasing.Table

/-!
# Reading values

The records in the store and the settings are written in two formats, but their fields are read alike: a text, a list
of texts, a whole number below a bound. A format only has to say which of its values are texts, arrays and whole
numbers.
-/

namespace CompactionLeasing

/-- Values of a format, as the readers of fields look into them. -/
class Readable (V : Type) where
  text? : V → Option String
  /-- The items of an array. -/
  items? : V → Option (List V)
  /-- A whole number, however large. -/
  whole? : V → Option Nat

namespace Readable
variable {V : Type} [Readable V] {v : V} {write : String → V}

def texts? (v : V) : Option (List String) := (items? v).bind fun vs => vs.mapM text?

/-- A whole number below a bound. -/
def natural? (bound : Nat) (v : V) : Option Nat := (whole? v).filter (· < bound)

theorem texts?_eq {ss : List String} (hw : ∀ s, text? (write s) = some s) (hv : items? v = some (ss.map write)) :
    texts? v = some ss := by
  have hread : text? ∘ write = pure := funext hw
  rw [texts?, hv, Option.bind_some, List.mapM_map, hread, List.mapM_pure, List.map_id']
  rfl

theorem natural?_eq {bound n : Nat} (hv : whole? v = some n) (hn : n < bound) : natural? bound v = some n := by
  rw [natural?, hv, Option.filter_some, if_pos (decide_eq_true hn)]

end Readable

end CompactionLeasing

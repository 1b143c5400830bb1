import CompactionLeasing.Settings.Basic
import CompactionLeasing.Text.Decimal
import CompactionLeasing.Toml.Quoting

/-!
# Writing settings

Settings are written as a TOML document with one table for each part, every field on a line of its
own, in a fixed order. Some settings cannot be written.
-/

namespace CompactionLeasing

/-- Why settings cannot be written. -/
inductive WritingError where
  /-- The limit on leases is no whole number that TOML can hold. -/
  | leaseLimit
  /-- A string has more quotes in a row than can be counted. -/
  | quoteRun
deriving DecidableEq

namespace Settings

/-- The values of fields, as they are written. -/
inductive Written where
  | text (s : String)
  | number (n : Nat)
  | texts (ss : List String)

def quote (s : String) : List Char := Toml.quote s.toList

namespace Written

/-- A value as it is written. Arrays of more than one item have each on a line of its own. -/
def render : Written → List Char
  | text s => quote s
  | number n => Text.decimal n
  | texts [] => ['[', ']']
  | texts [s] => '[' :: quote s ++ [']']
  | texts ss => '[' :: '\n' :: ss.flatMap (fun s => "    ".toList ++ quote s ++ [',', '\n']) ++ [']']

def strings : Written → List String
  | text s => [s]
  | number _ => []
  | texts ss => ss

end Written

structure WrittenTable where
  name : String
  fields : List (String × Written)

def renderField (f : String × Written) : List Char :=
  f.1.toList ++ " = ".toList ++ f.2.render ++ ['\n']

def renderTable (t : WrittenTable) : List Char :=
  '[' :: t.name.toList ++ [']', '\n'] ++ t.fields.flatMap renderField

/-- The tables of settings. A bucket is written only where there is one. -/
def tables (s : Settings) : List WrittenTable :=
  [⟨"scheduler",
      [("lease_duration", .text s.scheduling.leaseSpan),
        ("planning_interval", .text s.scheduling.planInterval),
        ("compaction_wait_period", .text s.scheduling.planDelay),
        ("maintenance_interval", .text s.scheduling.maintenanceInterval),
        ("max_leases", .number s.scheduling.maxLeases.toNat)]⟩,
    ⟨"discovery",
      (match s.discovery.bucket with
        | none => []
        | some b => [("bucket_dir", .text b)]) ++
      [("interval", .text s.discovery.interval),
        ("min_backoff", .text s.discovery.shortestBackoff),
        ("max_backoff", .text s.discovery.longestBackoff),
        ("max_retries", .number s.discovery.maxRetries.toNat),
        ("enabled_tenants", .texts s.discovery.enabled),
        ("disabled_tenants", .texts s.discovery.disabled)]⟩,
    ⟨"storage", [("data_dir", .text s.storage.dataDir)]⟩]

/-- The text of settings, with an empty line between tables. -/
def render (s : Settings) : String :=
  String.ofList (List.intercalate ['\n'] (s.tables.map renderTable))

/-- The strings in settings, in the order in which they are written. -/
def strings (s : Settings) : List String :=
  s.tables.flatMap fun t => t.fields.flatMap fun f => f.2.strings

def write (s : Settings) : Except WritingError String :=
  if 0x8000000000000000 ≤ s.scheduling.maxLeases.toNat then .error .leaseLimit
  else if !s.strings.all fun t => Toml.isCountable t.toList then .error .quoteRun
  else .ok s.render

end Settings

end CompactionLeasing

import CompactionLeasing.Files
import CompactionLeasing.Loops.Discovery
import CompactionLeasing.Loops.Maintenance
import CompactionLeasing.Scheduler.Recovery
import CompactionLeasing.Settings.Reader

/-!
# Launch of the daemon

Settings are loaded, the store is opened, and the scheduler is recovered from it, before the loops
begin.
-/

namespace CompactionLeasing

structure LaunchOptions where
  /-- The file with the settings; without one the defaults hold. -/
  config : Option String
  /-- Takes the place of the data directory in the settings. -/
  dataDir : Option String
  /-- Takes the place of the bucket in the settings. -/
  bucket : Option String
deriving DecidableEq

inductive LaunchError where
  /-- The file with the settings cannot be read as text. -/
  | unreadable (path : String)
  | malformed
  | settings (cause : SettingsError)
  | noBucket
  | noDataDir (path : String)
  | store (cause : StoreError)
deriving DecidableEq

/-- The wording of the error; some errors have no wording of their own. -/
def LaunchError.message? : LaunchError → Option String
  | unreadable path => some ("failed to read config " ++ path)
  | malformed => none
  | settings cause => some cause.message
  | noBucket =>
    some "no bucket directory configured (set discovery.bucket_dir or pass --bucket-dir)"
  | noDataDir path => some ("failed to create data dir " ++ path)
  | store cause => cause.message?

namespace LaunchOptions

/-- The settings as they stand in the file. -/
def read (o : LaunchOptions) (f : Files) : Except LaunchError Settings :=
  match o.config with
  | none => .ok {}
  | some path =>
    match f.text? path with
    | none => .error (.unreadable path)
    | some text =>
      match Settings.ofText? text with
      | none => .error .malformed
      | some s => .ok s

/-- The settings with what the options put in their place. -/
def override (o : LaunchOptions) (s : Settings) : Settings :=
  { s with
    storage := ⟨o.dataDir.getD s.storage.dataDir⟩
    discovery :=
      { s.discovery with bucket := match o.bucket with
          | some b => some b
          | none => s.discovery.bucket } }

def load (o : LaunchOptions) (f : Files) : Except LaunchError ResolvedSettings := do
  let s ← o.read f
  match (o.override s).resolve with
  | .error cause => throw (.settings cause)
  | .ok r => return r

end LaunchOptions

/-- The name of the store in the data directory. -/
def storeName : String := "compactd.redb"

/-- The path of the store, if the data directory exists. -/
def storePath? (f : Files) (dataDir : String) : Option FilePath :=
  if dataDir = "" then some [.text storeName]
  else (f.resolve? dataDir).map (· ++ [.text storeName])

structure Launched where
  settings : ResolvedSettings
  bucket : String
  storePath : FilePath
  scheduler : Scheduler
  files : Files

/-- Whether the path of the store is short enough when it is written after the data directory. -/
def storeIsReachable (dataDir : String) : Bool :=
  dataDir.utf8ByteSize + storeName.utf8ByteSize + (if dataDir.endsWith "/" then 0 else 1) ≤
    Files.maxPath

/-- Opens the store, which from then on exists. -/
def openStore (f : Files) (dataDir : String) (path : FilePath) : Except LaunchError (Store × Files) :=
  if !storeIsReachable dataDir then .error (.store .unopenable)
  else
    match (f.storeFile path).opened with
    | .error e => .error (.store e)
    | .ok s => .ok (s, f.put path (.store s))

/-- The scheduler with the trackers that the store holds. -/
def recoverScheduler (r : ResolvedSettings) (store : Store) : Except StoreError Scheduler := do
  let start := Scheduler.start ⟨store, .none⟩ r.admission r.maxLeases
  let (tenants, s) ← start.recoverTrackers
  return s.keep tenants

/-- Launches the daemon. The files are what is left behind where that fails. -/
def launch (o : LaunchOptions) (f : Files) : Except (LaunchError × Files) Launched :=
  match o.load f with
  | .error e => .error (e, f)
  | .ok r =>
    match r.bucket with
    | none => .error (.noBucket, f)
    | some bucket =>
      match f.makeDirectories? r.dataDir with
      | none => .error (.noDataDir r.dataDir, f)
      | some f =>
        match storePath? f r.dataDir with
        | none => .error (.noDataDir r.dataDir, f)
        | some path =>
          match openStore f r.dataDir path with
          | .error e => .error (e, f)
          | .ok (store, f) =>
            match recoverScheduler r store with
            | .error e => .error (.store e, f)
            | .ok s => .ok ⟨r, bucket, path, s, f⟩

end CompactionLeasing

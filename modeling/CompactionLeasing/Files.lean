import CompactionLeasing.Store.File
import CompactionLeasing.Tenant

/-!
# Files

The files below the working directory, by their paths, and the tenants that a directory lists. A path
is written with slashes between its parts; nothing outside the working directory is known.
-/

namespace CompactionLeasing

/-- The name of a file in its directory. -/
inductive FileName where
  | text (s : String)
  /-- Bytes that are no text. -/
  | bytes (bs : List UInt8)
deriving DecidableEq

/-- The name that bytes are. -/
def FileName.ofBytes (bs : List UInt8) : FileName :=
  match String.fromUTF8? ⟨bs.toArray⟩ with
  | some s => text s
  | none => bytes bs

/-- The names on the way from the working directory to a file. -/
abbrev FilePath := List FileName

inductive FileNode where
  | directory
  | link
  | text (s : String)
  /-- Content that is no text. -/
  | binary
  | store (s : Store)
deriving DecidableEq

/-- The files below the working directory, in the order in which they were made. -/
abbrev Files := List (FilePath × FileNode)

namespace Files

def node? (f : Files) (path : FilePath) : Option FileNode :=
  if path = [] then some .directory else f.lookup path

def isDirectory (f : Files) (path : FilePath) : Bool := f.node? path = some .directory

/-- Puts a file under a path, in place of what stands there. -/
def put (f : Files) (path : FilePath) (n : FileNode) : Files :=
  f.filter (·.1 ≠ path) ++ [(path, n)]

/-- Removes a file, or a directory with all that is in it. -/
def remove (f : Files) (path : FilePath) : Files := f.filter fun e => !path.isPrefixOf e.1

/-- Whether a name can be that of a file: it has at most 255 bytes, and no zero among them. -/
def isName (s : String) : Bool := s.utf8ByteSize ≤ 255 && !s.toList.contains '\x00'

def maxPath : Nat := 4095

/-- The parts of a written path; a path that is absolute, empty or too long has none. -/
def parts? (s : String) : Option (List String) :=
  match (s.toList.splitOn '/').map String.ofList with
  | "" :: _ => none
  | parts => if s.utf8ByteSize ≤ maxPath then some parts else none

/-- Whether a part of a path names a file: empty parts and single points denote the directory that has
been reached. -/
def isStep (part : String) : Bool := part ≠ "" && part ≠ "."

/-- Goes along a path from a directory. `missing` says what to do where nothing stands, unless it is
the last part. -/
def follow? (f : Files) : FilePath → List String → Option FilePath
  | path, [] => some path
  | path, part :: rest =>
    if !f.isDirectory path then none
    else if part = "" ∨ part = "." then f.follow? path rest
    else if part = ".." then
      if path = [] then none else f.follow? path.dropLast rest
    else f.follow? (path ++ [.text part]) rest

/-- The path that a written path denotes, if the directories on the way exist. -/
def resolve? (f : Files) (s : String) : Option FilePath :=
  (parts? s).bind (f.follow? [])

def makeDirectory? (f : Files) (path : FilePath) : Option Files :=
  match f.node? path with
  | none => some (f.put path .directory)
  | some .directory => some f
  | some _ => none

/-- Makes the directories along a path that do not exist yet. -/
def makeAlong? (f : Files) : FilePath → List String → Option Files
  | _, [] => some f
  | path, part :: rest =>
    if part = "" ∨ part = "." then f.makeAlong? path rest
    else if part = ".." then
      if path = [] then none else f.makeAlong? path.dropLast rest
    else if !isName part then none
    else
      match f.makeDirectory? (path ++ [.text part]) with
      | none => none
      | some f => f.makeAlong? (path ++ [.text part]) rest

/-- Makes a directory and those on the way to it. The empty path denotes the working directory. Of a
path that ends in a single point, the part before the point is only made where it is on the way to
something else. -/
def makeDirectories? (f : Files) (s : String) : Option Files :=
  if s = "" then some f
  else
    match parts? s with
    | none => none
    | some parts =>
      if (parts.filter (· ≠ "")).getLast? = some "." then
        match f.makeAlong? [] (parts.filter isStep).dropLast with
        | none => none
        | some f => if (f.resolve? s).any f.isDirectory then some f else none
      else f.makeAlong? [] parts

/-- Makes a directory and those on the way to it; where that fails, nothing changes. -/
def makeDirectories (f : Files) (s : String) : Files := (f.makeDirectories? s).getD f

/-- Writes a file, and makes the directories on the way to it; where that fails, nothing changes. -/
def write (f : Files) (s : String) (n : FileNode) : Files :=
  match parts? s with
  | none => f
  | some parts =>
    match f.makeAlong? [] parts.dropLast with
    | none => f
    | some f' =>
      match f'.resolve? s with
      | none => f
      | some path => f'.put path n

/-- Puts a file in a directory under names that need be no text, and makes the directories on the way to
it. -/
def putUnder (f : Files) (n : FileNode) : FilePath → List FileName → Files
  | _, [] => f
  | path, [name] => f.put (path ++ [name]) n
  | path, name :: rest => ((f.makeDirectory? (path ++ [name])).getD f).putUnder n (path ++ [name]) rest

def removeAt (f : Files) (s : String) : Files :=
  match f.resolve? s with
  | none => f
  | some path => f.remove path

def text? (f : Files) (s : String) : Option String :=
  match (f.resolve? s).bind f.node? with
  | some (.text t) => some t
  | _ => none

/-- What a store file under a path would be. -/
def storeFile (f : Files) (path : FilePath) : StoreFile :=
  match f.node? path with
  | none => .vacant
  | some (.text "") => .vacant
  | some (.store s) => .store s
  | some _ => .foreign

/-- The tenant that a file is: a directory in `root` whose name is a tenant's and not hidden. -/
def tenant? (root : FilePath) (e : FilePath × FileNode) : Option TenantId :=
  match e.1.getLast?, e.2 with
  | some (.text name), .directory =>
    if e.1.dropLast = root ∧ !name.startsWith "." ∧ TenantId.isValid name then some name else none
  | _, _ => none

/-- The tenants in a directory, sorted. -/
def tenants (f : Files) (root : String) : Except String (List TenantId) :=
  match f.resolve? root with
  | none => .error ("failed to read bucket dir " ++ root)
  | some path =>
    if f.isDirectory path then .ok ((f.filterMap (tenant? path)).mergeSort (· ≤ ·))
    else .error ("failed to read bucket dir " ++ root)

end Files

end CompactionLeasing

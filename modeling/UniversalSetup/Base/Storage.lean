import UniversalSetup.Base.Disk
import UniversalSetup.Base.GenericPath

/-!
# The file system as a process sees it

A tree together with what `stat` says about its files, and the directory that relative paths start
from. Paths come here as they were spelled: `..` is resolved by the host, which asks for a directory
on the way, while `lexically_normal` is not.
-/

namespace Usk

open Json (Result demand)

/-- The device and inode numbers of a file, and when it was written. -/
structure FileStamp where
  device : UInt64
  inode : UInt64
  modified : UInt64
deriving DecidableEq

/-- `volume_id + ":" + file_id`. -/
def FileStamp.identity (stamp : FileStamp) : Bytes :=
  hexId stamp.device ++ 0x3a :: hexId stamp.inode

/-- The stamps are by path. They say nothing where no file stands. -/
structure Storage where
  disk : Disk
  stamp : List Bytes → FileStamp
  cwd : Path
  rooted : cwd.isAbsolute = true

/-! ## Spelled paths -/

/-- The place that the host comes to from a directory. Links are not followed. -/
def Disk.resolve (disk : Disk) : (place names : List Bytes) → Option (List Bytes)
  | place, [] => some place
  | place, name :: rest =>
    if (disk.tree.find place).any Node.isDirectory then
      if name = [] ∨ name = ascii "." then disk.resolve place rest
      else if name = ascii ".." then disk.resolve place.dropLast rest
      else disk.resolve (place ++ [name]) rest
    else none

theorem isNormal_lexicallyNormal {p : Path} (h : p.isAbsolute = true) :
    p.lexicallyNormal.IsNormal := by
  obtain ⟨segments, trailing, hn⟩ := normalPath_lexicallyNormal h
  exact hn.isNormal

theorem isAbsolute_join {p : Path} (h : p.isAbsolute = true) (q : Path) :
    (p.join q).isAbsolute = true := by
  unfold Path.isAbsolute at h
  unfold Path.join
  cases hp : p.native with
  | nil =>
    rw [hp] at h
    cases h
  | cons c rest =>
    rw [hp] at h
    split
    · next hq => exact hq
    · split
      · exact h
      · exact h

namespace Storage

variable (storage : Storage)

/-- A path that is not empty, from the root. -/
def fromRoot (p : Path) : Path :=
  if p.isAbsolute then p else storage.cwd.join p

theorem isAbsolute_fromRoot (p : Path) : (storage.fromRoot p).isAbsolute = true := by
  unfold fromRoot
  split
  · next h => exact h
  · exact isAbsolute_join storage.rooted p

/-- `fs::absolute(p).lexically_normal()`. -/
def normalRoot (p : Path) : Result { q : Path // q.IsNormal } :=
  if p.isEmpty then .error "cannot make absolute path: Invalid argument"
  else .ok ⟨(storage.fromRoot p).lexicallyNormal,
    isNormal_lexicallyNormal (storage.isAbsolute_fromRoot p)⟩

def absoluteNormal (p : Path) : Result Path := do
  let p ← storage.normalRoot p
  pure p.1

/-- What stands at a path as it is spelled, a link at its end not followed. -/
def status (p : Path) : Result (Option Node) :=
  if p.isEmpty then .ok none
  else if (storage.fromRoot p).native.length < Disk.pathMax then
    .ok ((storage.disk.resolve [] (storage.fromRoot p).names).bind storage.disk.tree.find)
  else .error "File name too long"

/-- `fs::exists(p)`. -/
def existsAt (p : Path) : Result Bool := do
  match ← storage.status p with
  | none => pure false
  | some (.link resolves) => pure resolves
  | some _ => pure true

/-- `fs::exists(p, error)` where the error is not looked at. -/
def present (p : Path) : Bool :=
  match storage.existsAt p with
  | .ok found => found
  | .error _ => false

/-- `StableFile`: the content and the stamp of a regular file. -/
def stableFile (p : Path) : Result (Bytes × FileStamp) := do
  let path ← storage.absoluteNormal p
  match storage.disk.node path with
  | .ok (some (.file content links)) => do
    demand (links == 1) "multiply linked source archive is not stable enough for planning"
    pure (content, storage.stamp path.segments)
  | .ok (some (.directory _ _)) => .error "local archive must be a regular non-link file"
  | .ok (some .other) => .error "local archive must be a regular non-link file"
  | _ => .error "local archive path is missing or is a symbolic link"

end Storage

end Usk

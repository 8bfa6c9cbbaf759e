import UniversalSetup.Base.FileTree
import UniversalSetup.Base.NormalPath

/-!
# File systems with links and permissions

A POSIX file system as a process sees it: directories, files, symbolic links and other objects, with
the permissions that the process has. A directory must be searchable to go through it and readable
to list it. The walk of the kernel along a path is in the module on looking paths up; here is only
what stands where, and that what stands above an object is a directory and therefore no link.
-/

namespace Usk.Posix

variable {place todo : List Bytes}

/-- What stands at a place. A directory can be listed or gone through, a file can be read. -/
inductive Object where
  | directory (device inode : UInt64) (readable searchable : Bool)
  | file (device inode : UInt64) (links : Nat) (readable : Bool) (content : Bytes)
  | link (target : Path)
  | other
deriving DecidableEq

namespace Object

def isDirectory : Object → Bool
  | directory _ _ _ _ => true
  | _ => false

/-- A directory that can be listed. -/
def listable : Object → Bool
  | directory _ _ readable _ => readable
  | _ => false

/-- A directory that can be gone through. -/
def passable : Object → Bool
  | directory _ _ _ searchable => searchable
  | _ => false

end Object

/-- A file system. Its root is a directory and its names are those that a path can spell. -/
structure FileSystem where
  tree : FileTree Bytes Object Object.isDirectory
  rooted : (tree.find []).any Object.isDirectory = true
  plain : ∀ e ∈ tree.entries, ∀ n ∈ e.1, PlainName n

/-- Entries of a file system, the directory of each of them among them. -/
def Laid (entries : List (List Bytes × Object)) : Prop :=
  (entries.map Prod.fst).Nodup ∧
  (∀ e ∈ entries, e.1 = [] ∨ (at? entries e.1.dropLast).any Object.isDirectory = true) ∧
  (at? entries []).any Object.isDirectory = true ∧
  ∀ e ∈ entries, ∀ n ∈ e.1, n ≠ [] ∧ (0x2f : UInt8) ∉ n ∧ n ≠ ascii "." ∧ n ≠ ascii ".."

instance (entries : List (List Bytes × Object)) : Decidable (Laid entries) := by
  unfold Laid
  infer_instance

def FileSystem.ofEntries (entries : List (List Bytes × Object)) (h : Laid entries) :
    FileSystem where
  tree := ⟨entries, h.1, closed_of_parents h.2.1⟩
  rooted := h.2.2.1
  plain := fun e he n hn =>
    have hn := h.2.2.2 e he n hn
    ⟨hn.1, hn.2.1, hn.2.2.1, hn.2.2.2⟩

namespace FileSystem

variable (fs : FileSystem)

def find (place : List Bytes) : Option Object :=
  fs.tree.find place

/-- The number of links that the kernel follows. -/
def maximumLinks : Nat := 40

variable {fs}

/-- No link stands on a way, its end left aside. -/
def LinkFree (fs : FileSystem) (place todo : List Bytes) : Prop :=
  ∀ above name below, todo = above ++ name :: below → below ≠ [] →
    ∀ target, fs.find (place ++ above ++ [name]) ≠ some (.link target)

/-- What stands above an object is no link. -/
theorem linkFree_of_find {o : Object} (h : fs.find (place ++ todo) = some o) :
    fs.LinkFree place todo := by
  rintro above name below rfl hbelow target htarget
  obtain ⟨next, rest, rfl⟩ := List.exists_cons_of_ne_nil hbelow
  have hfind : fs.tree.find (place ++ above ++ [name] ++ next :: rest) = some o := by
    rw [List.append_assoc, List.append_assoc, List.singleton_append]
    rwa [← List.append_assoc] at h ⊢
  obtain ⟨j, hj, hd⟩ := fs.tree.directory_of_find_below hfind
  rw [show fs.tree.find (place ++ above ++ [name]) = some (.link target) from htarget] at hj
  cases hj
  cases hd

theorem plain_of_find {place : List Bytes} {o : Object} (h : fs.find place = some o) :
    ∀ n ∈ place, PlainName n :=
  fs.plain _ (fs.tree.mem_of_find h)

end FileSystem

end Usk.Posix

import UniversalSetup.Base.Lookup
import UniversalSetup.Base.Storage

/-!
# One tree on two hosts

On the disk of the records a link is a leaf, and every directory is open. Verification and the
inspection of a target are also modelled on a file system in which links are followed and
directories may be closed. Where there is no link and no closed directory both give the same answers
(`Shows.status`).
-/

namespace Usk.Posix

/-- What the disk knows of an object. -/
def Object.node : Object → Node
  | .directory device inode _ _ => .directory device inode
  | .file _ _ links _ content => .file content links
  | .link _ => .link true
  | .other => .other

def Lookup.node : Lookup → Option Node
  | .found _ object => some object.node
  | _ => none

/-- The file system and the disk have one tree, without links and with open directories. -/
structure Shows (fs : FileSystem) (disk : Disk) : Prop where
  find : ∀ place, disk.tree.find place = (fs.find place).map Object.node
  passable : ∀ {place o}, fs.find place = some o → o.isDirectory = true → o.passable = true
  unlinked : ∀ place target, fs.find place ≠ some (.link target)

variable {fs : FileSystem} {disk : Disk} {last last' : Bool}
  {follow follow' : List Bytes → List Bytes → Lookup}

/-- The way along names is the same, and does not depend on what is done with links. -/
theorem Shows.look (h : Shows fs disk) : ∀ names place : List Bytes,
    (fs.look last follow place names).node =
        (disk.resolve place names).bind disk.tree.find ∧
      fs.look last follow place names ≠ .failed ∧
      fs.look last follow place names = fs.look last' follow' place names
  | [], place => by
    rw [FileSystem.look, FileSystem.look, Disk.resolve, Option.bind_some, h.find]
    cases fs.find place <;> simp [Lookup.node]
  | name :: rest, place => by
    rw [FileSystem.look, FileSystem.look, Disk.resolve, h.find place]
    cases hfind : fs.find place with
    | none => simp [Lookup.node]
    | some o =>
      cases o with
      | file => simp [Lookup.node, Object.node, Node.isDirectory]
      | link target => exact absurd hfind (h.unlinked place target)
      | other => simp [Lookup.node, Object.node, Node.isDirectory]
      | directory device inode readable searchable =>
        have hopen : searchable = true := h.passable hfind rfl
        simp only [Option.map_some, Option.any_some, Object.node, Node.isDirectory, hopen, if_true,
          Bool.true_eq_false, if_false]
        by_cases hempty : name = []
        · rw [if_pos hempty, if_pos hempty, if_pos (.inl hempty)]
          exact h.look rest place
        rw [if_neg hempty, if_neg hempty]
        by_cases hdot : name = ascii "."
        · rw [if_pos hdot, if_pos hdot, if_pos (.inr hdot)]
          exact h.look rest place
        rw [if_neg hdot, if_neg hdot, if_neg (not_or.mpr ⟨hempty, hdot⟩)]
        by_cases hup : name = ascii ".."
        · rw [if_pos hup, if_pos hup, if_pos hup]
          exact h.look rest place.dropLast
        rw [if_neg hup, if_neg hup, if_neg hup]
        have hnext := h.look rest (place ++ [name])
        split
        · next target hlink => exact absurd hlink (h.unlinked _ target)
        · exact hnext

variable {storage : Storage} {p : Path}

/-- Short absolute paths have the same status on both hosts, and no link is followed for it. -/
theorem Shows.status (h : Shows fs storage.disk) (habsolute : p.isAbsolute = true)
    (hshort : p.native.length < Disk.pathMax) :
    storage.status p = .ok (fs.status p).node ∧ fs.status p ≠ .failed ∧
      fs.symlinkStatus p = fs.status p := by
  have hne : p.isEmpty = false := by
    rw [Path.isEmpty_eq, habsolute]
    rfl
  obtain ⟨hnode, hfailed, hsame⟩ := h.look p.names []
  refine ⟨?_, hfailed, hsame.symm⟩
  rw [Storage.status, hne, if_neg Bool.false_ne_true, Storage.fromRoot, if_pos habsolute,
    if_pos hshort, ← hnode]
  rfl

end Usk.Posix

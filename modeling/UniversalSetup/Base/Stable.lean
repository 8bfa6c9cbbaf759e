import UniversalSetup.Base.Lookup
import UniversalSetup.Base.RelativePath
import UniversalSetup.Json.Schema

/-!
# Stable files and walks

How the runtime looks at a file system with links: files are opened without following a link at the
end of the path, and a walk over a directory comes to what stands in the directories that it can
open.
-/

namespace Usk

open Json (Result demand bind_eq_ok demand_eq_ok)
open Posix

/-! ## Observations -/

/-- What a `StableFile` holds open. -/
structure StableFile where
  device : UInt64
  inode : UInt64
  content : Bytes

/-- The constructor of `StableFile` for an absolute path. -/
def stableFile (fs : FileSystem) (p : Path) : Result StableFile :=
  match fs.symlinkStatus p.lexicallyNormal with
  | .found _ (.file device inode links readable content) => do
    demand (links == 1) "multiply linked source archive is not stable enough for planning"
    demand readable "cannot open local archive without following links: Permission denied"
    pure ⟨device, inode, content⟩
  | .found _ (.directory _ _ _ _) => .error "local archive must be a regular non-link file"
  | .found _ .other => .error "local archive must be a regular non-link file"
  | _ => .error "local archive path is missing or is a symbolic link"

theorem symlinkStatus_of_stableFile {fs : FileSystem} {p : Path} {file : StableFile}
    (h : stableFile fs p = .ok file) : ∃ place, fs.symlinkStatus p.lexicallyNormal =
      .found place (.file file.device file.inode 1 true file.content) := by
  unfold stableFile at h
  split at h
  · next place device inode links readable content hstatus =>
    simp only [bind_eq_ok, demand_eq_ok, beq_iff_eq] at h
    obtain ⟨-, rfl, -, rfl, h⟩ := h
    cases h
    exact ⟨place, hstatus⟩
  · cases h
  · cases h
  · cases h

/-- A directory below a place that `recursive_directory_iterator` can open: it may be listed and the
directories above it may be gone through. -/
def opens (fs : FileSystem) (place names : List Bytes) : Bool :=
  (fs.find (place ++ names)).any Object.listable &&
    names.inits.dropLast.all fun above => (fs.find (place ++ above)).any Object.passable

/-- What `recursive_directory_iterator` comes to below a place: all that stands in the directories
that it can open. -/
def entriesMet (fs : FileSystem) (place : List Bytes) : List (List Bytes × Object) :=
  (fs.tree.inside place).filter fun e => e.1.inits.dropLast.all (opens fs place)

section

variable {fs : FileSystem} {p : Path} {place : List Bytes}

theorem normalPath_ofParts (hplain : ∀ n ∈ place, PlainName n) :
    NormalPath (Path.ofParts true place) place false :=
  ⟨hplain, fun hf => absurd hf Bool.false_ne_true, by
    rw [if_neg Bool.false_ne_true, List.append_nil]⟩

/-! ## Walks over a tree -/

theorem mem_entriesMet {names : List Bytes} {o : Object} : (names, o) ∈ entriesMet fs place ↔
    names ≠ [] ∧ fs.find (place ++ names) = some o ∧
      ∀ above, above <+: names → above ≠ names → opens fs place above = true := by
  unfold entriesMet
  simp only [List.mem_filter, fs.tree.mem_inside, List.all_eq_true, mem_inits_dropLast, and_imp,
    and_assoc]
  exact Iff.rfl

end

end Usk

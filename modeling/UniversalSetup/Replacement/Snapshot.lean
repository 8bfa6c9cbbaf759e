import UniversalSetup.Base.Disk
import Mathlib.Data.List.Sort

/-!
# Snapshots of replaced directories

A replacement exchanges the directory at the live root for a staged one. It knows both by the digest
of a snapshot, a document that lists what stands below the root.
-/

namespace Usk.Replacement

open Json

def maximumSnapshotEntries : Nat := 200000
def maximumSnapshotBytes : Nat := 2 ^ 34

/-- The record of one entry of a snapshot, and the bytes of the files so far. A file is opened by
its whole path. -/
def snapshotEntry (root : Path) (relative : Bytes) (bytes : Nat) : Node → Result (Value × Nat)
  | .directory _ _ => .ok (.object (ByteMap.ofList
      [(ascii "relative_path", .string relative), (ascii "type", .string (ascii "directory"))]),
      bytes)
  | .file content links => do
    demand (decide ((root.join ⟨relative⟩).native.length < Disk.pathMax))
      "local archive path is missing or is a symbolic link"
    demand (links == 1) "multiply linked source archive is not stable enough for planning"
    demand (decide (content.length ≤ maximumSnapshotBytes - bytes))
      "replacement snapshot byte budget exceeded"
    pure (.object (ByteMap.ofList
      [(ascii "relative_path", .string relative), (ascii "sha256", .string (sha256 content)),
       (ascii "size_bytes", .unsigned (UInt64.ofNat content.length)),
       (ascii "type", .string (ascii "file"))]), bytes + content.length)
  | _ => .error "replacement snapshot contains linked or unsupported content"

/-- The walk over the entries below the root. -/
def snapshotEntries (root : Path) : List (List Bytes × Node) → List (Bytes × Value) → Nat →
    Result (List (Bytes × Value))
  | [], entries, _ => .ok entries
  | ([], _) :: rest, entries, bytes => snapshotEntries root rest entries bytes
  | (names, node) :: rest, entries, bytes => do
    demand (decide (entries.length < maximumSnapshotEntries))
      "replacement snapshot entry budget exceeded"
    let entry ← snapshotEntry root (joinSlash names) bytes node
    snapshotEntries root rest (entries ++ [(joinSlash names, entry.1)]) entry.2

/-- `replacement_snapshot_digest` of a directory with these entries. -/
def replacementSnapshotDigest (root : Path) (part : List (List Bytes × Node)) : Result Bytes := do
  demand ((at? part []).any Node.isDirectory) "replacement snapshot root is unavailable or linked"
  let entries ← snapshotEntries root part [] 0
  let sorted := entries.insertionSort fun left right => left.1 ≤ right.1
  pure (sha256Canonical (.object (ByteMap.ofList
    [(ascii "entries", .array (sorted.map Prod.snd)),
     (ascii "schema", .string (ascii "usk.replacement_snapshot.v1"))])))

end Usk.Replacement

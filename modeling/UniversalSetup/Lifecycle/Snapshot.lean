import UniversalSetup.Lifecycle.Payload
import UniversalSetup.Replacement.Snapshot

/-!
# Snapshot digests

A snapshot of a directory lists its entries by relative path, files with their size and the digest
of their content. Its digest is computed in three places: `replacement_snapshot_digest` builds a
JSON value while it walks over a directory, `read_complete_tree` keeps an index and hashes its text
piece by piece, and `payload_snapshot_digest` derives the entries from a payload that is not staged
yet.

The module `Agreement` shows that the three give one digest, and that it determines the entries.
-/

namespace Usk.Lifecycle

open Json Replacement

variable {root : Path} {node : Node} {relative : Bytes}

/-- The entries of a directory and of everything below it, the directory itself included. -/
abbrev Listing := List (List Bytes × Node)

variable {part : Listing}

/-! ## The complete tree -/

/-- The observed identity of the file is left out. -/
structure PreimageFile where
  relativePath : Bytes
  sha256 : Bytes
  sizeBytes : UInt64
deriving DecidableEq

structure CanonicalPreimageEntry where
  relativePath : Bytes
  sha256 : Bytes := []
  sizeBytes : UInt64 := 0
  directory : Bool := false
deriving DecidableEq

variable {entries : List CanonicalPreimageEntry} {entry : CanonicalPreimageEntry}

def maximumPreimageFiles : Nat := maximumLifecycleFiles
def maximumPreimageEntries : Nat := maximumLifecycleFiles + maximumLifecycleDirectories
def maximumPreimageFileBytes : Nat := 2 ^ 32
def maximumPreimageLogicalBytes : Nat := 2 ^ 34
def maximumCanonicalIndexBytes : Nat := 64 * 1024 * 1024

def chargeCanonicalIndex (used : Nat) (entry : CanonicalPreimageEntry) : Result Nat := do
  let cost := entry.relativePath.length + entry.sha256.length + 128
  demand (decide (used ≤ maximumCanonicalIndexBytes - cost))
    "managed installation exceeds canonical-index memory budget"
  pure (used + cost)

/-- One byte of `json_string`. -/
def jsonStringByte (ch : UInt8) : Bytes :=
  if ch = 0x22 then [0x5c, 0x22]
  else if ch = 0x5c then [0x5c, 0x5c]
  else if ch = 0x08 then [0x5c, 0x62]
  else if ch = 0x0c then [0x5c, 0x66]
  else if ch = 0x0a then [0x5c, 0x6e]
  else if ch = 0x0d then [0x5c, 0x72]
  else if ch = 0x09 then [0x5c, 0x74]
  else if ch < 0x20 then
    ascii "\\u00" ++ [hexByte (ch.toNat / 16), hexByte (ch.toNat % 16)]
  else [ch]

def jsonString (value : Bytes) : Bytes :=
  0x22 :: (value.flatMap jsonStringByte ++ [0x22])

/-- What the loop of `canonical_preimage_snapshot_digest` hashes for an entry. -/
def entryPiece (entry : CanonicalPreimageEntry) : Bytes :=
  if entry.directory then
    ascii "\x7b\"relative_path\":" ++ jsonString entry.relativePath ++
      ascii ",\"type\":\"directory\"\x7d"
  else
    ascii "\x7b\"relative_path\":" ++ jsonString entry.relativePath ++ ascii ",\"sha256\":" ++
      jsonString entry.sha256 ++ ascii ",\"size_bytes\":" ++ decimal entry.sizeBytes.toNat ++
      ascii ",\"type\":\"file\"\x7d"

def sortEntries (entries : List CanonicalPreimageEntry) : List CanonicalPreimageEntry :=
  entries.insertionSort fun left right => left.relativePath ≤ right.relativePath

/-- What `canonical_preimage_snapshot_digest` hashes. -/
def preimageText (entries : List CanonicalPreimageEntry) : Bytes :=
  ascii "\x7b\"entries\":[" ++ State.commaSeparated ((sortEntries entries).map entryPiece) ++
    ascii "],\"schema\":\"usk.replacement_snapshot.v1\"\x7d"

def canonicalPreimageSnapshotDigest (entries : List CanonicalPreimageEntry) : Bytes :=
  Usk.sha256 (preimageText entries)

/-- Where the walk of `read_complete_tree` stands. -/
structure TreeWalk where
  result : List PreimageFile := []
  index : List CanonicalPreimageEntry := []
  total : Nat := 0
  indexBytes : Nat := 0
  pathBytes : Nat := 0
  directories : Nat := 0

/-- One round of the walk for a directory. -/
def TreeWalk.addDirectory (walk : TreeWalk) (relative : Bytes) : Result TreeWalk := do
  demand (decide (walk.directories + 1 ≤ maximumLifecycleDirectories))
    "managed installation exceeds directory-count budget"
  let entry : CanonicalPreimageEntry := { relativePath := relative, directory := true }
  let indexBytes ← chargeCanonicalIndex walk.indexBytes entry
  pure { walk with
    index := walk.index ++ [entry], indexBytes, directories := walk.directories + 1 }

/-- One round of the walk for a file. It is opened by its whole path. -/
def TreeWalk.addFile (root : Path) (walk : TreeWalk) (relative content : Bytes) (links : Nat) :
    Result TreeWalk := do
  demand (decide (walk.result.length < maximumPreimageFiles))
    "managed installation exceeds file-count budget"
  demand (decide ((root.join ⟨relative⟩).native.length < Disk.pathMax))
    "local archive path is missing or is a symbolic link"
  demand (links == 1) "multiply linked source archive is not stable enough for planning"
  demand (decide (content.length ≤ maximumPreimageFileBytes) &&
      decide (walk.total ≤ maximumPreimageLogicalBytes - content.length))
    "managed installation exceeds fixture lifecycle byte budget"
  let size := UInt64.ofNat content.length
  let entry : CanonicalPreimageEntry :=
    { relativePath := relative, sha256 := Usk.sha256 content, sizeBytes := size }
  let indexBytes ← chargeCanonicalIndex walk.indexBytes entry
  pure { walk with
    result := walk.result ++ [⟨relative, Usk.sha256 content, size⟩]
    index := walk.index ++ [entry]
    total := walk.total + content.length
    indexBytes }

def linked : Node → Bool
  | .link _ => true
  | _ => false

/-- The checks of every round before the walk looks at the kind of the entry. -/
def TreeWalk.enter (walk : TreeWalk) (relative : Bytes) (node : Node) : Result TreeWalk := do
  demand (decide (walk.index.length < maximumPreimageEntries))
    "managed installation exceeds entry-count budget"
  demand (!linked node) "managed installation contains a linked path"
  demand (safeRelative relative) "managed installation contains an unsafe path"
  demand (decide (relative.length ≤ maximumRelativePathBytes) &&
      decide (relative.length ≤ maximumClosurePathBytes - walk.pathBytes))
    "managed installation exceeds path memory budget"
  pure { walk with pathBytes := walk.pathBytes + relative.length }

/-- The rest of a round, by the kind of the entry. -/
def TreeWalk.add (root : Path) (walk : TreeWalk) (relative : Bytes) : Node → Result TreeWalk
  | .directory _ _ => walk.addDirectory relative
  | .file content links => walk.addFile root relative content links
  | _ => .error "managed installation contains an unsupported file type"

/-- The loop of `read_complete_tree`. -/
def walkTree (root : Path) : Listing → TreeWalk → Result TreeWalk
  | [], walk => .ok walk
  | ([], _) :: rest, walk => walkTree root rest walk
  | (names, node) :: rest, walk => do
    let relative := joinSlash names
    let walk ← walk.enter relative node
    let walk ← TreeWalk.add root walk relative node
    walkTree root rest walk

/-- No two neighbours of the sorted files have one path. -/
def distinctNeighbours : List PreimageFile → Bool
  | left :: right :: rest =>
    left.relativePath != right.relativePath && distinctNeighbours (right :: rest)
  | _ => true

/-- `read_complete_tree` of a directory with these entries: the files and the snapshot digest. -/
def readCompleteTree (root : Path) (part : Listing) : Result (List PreimageFile × Bytes) := do
  demand ((at? part []).any Node.isDirectory)
    "managed installation root is unavailable or linked"
  let walk ← walkTree root part {}
  let files := walk.result.insertionSort fun left right => left.relativePath ≤ right.relativePath
  demand (distinctNeighbours files) "managed installation contains duplicate file paths"
  pure (files, canonicalPreimageSnapshotDigest walk.index)

/-! ## The digest of a payload -/

def fileRecord (relativePath sha256 : Bytes) (sizeBytes : UInt64) : Value :=
  .object (ByteMap.ofList
    [(ascii "relative_path", .string relativePath), (ascii "sha256", .string sha256),
     (ascii "size_bytes", .unsigned sizeBytes), (ascii "type", .string (ascii "file"))])

def directoryRecord (relativePath : Bytes) : Value :=
  .object (ByteMap.ofList
    [(ascii "relative_path", .string relativePath), (ascii "type", .string (ascii "directory"))])

/-- The set of the directories above the files of a payload. -/
def payloadDirectories (files : List PayloadFile) : List Bytes :=
  (files.flatMap fun file => State.parentPaths file.relativePath).dedup.insertionSort (· ≤ ·)

def payloadSnapshotDigest (files : List PayloadFile) : Bytes :=
  let entries :=
    files.map (fun file =>
      (file.relativePath, fileRecord file.relativePath file.sha256 file.sizeBytes)) ++
    (payloadDirectories files).map fun directory => (directory, directoryRecord directory)
  let sorted := entries.insertionSort fun left right => left.1 ≤ right.1
  sha256Canonical (.object (ByteMap.ofList
    [(ascii "entries", .array (sorted.map Prod.snd)),
     (ascii "schema", .string (ascii "usk.replacement_snapshot.v1"))]))

/-! ## Entries -/

/-- The entry of a file or a directory. -/
def entryOf (relative : Bytes) : Node → Option CanonicalPreimageEntry
  | .directory _ _ => some { relativePath := relative, directory := true }
  | .file content _ => some
      { relativePath := relative, sha256 := Usk.sha256 content,
        sizeBytes := UInt64.ofNat content.length }
  | _ => none

/-- The entries of a directory, without the directory itself. -/
def listingEntries : Listing → List CanonicalPreimageEntry
  | [] => []
  | ([], _) :: rest => listingEntries rest
  | (name :: names, node) :: rest =>
    (entryOf (joinSlash (name :: names)) node).toList ++ listingEntries rest

/-- The entries that a payload gives rise to. -/
def payloadEntries (files : List PayloadFile) : List CanonicalPreimageEntry :=
  files.map (fun file =>
    { relativePath := file.relativePath, sha256 := file.sha256, sizeBytes := file.sizeBytes }) ++
  (payloadDirectories files).map fun directory => { relativePath := directory, directory := true }

def entryValue (entry : CanonicalPreimageEntry) : Value :=
  if entry.directory then directoryRecord entry.relativePath
  else fileRecord entry.relativePath entry.sha256 entry.sizeBytes

/-- The document of a snapshot. -/
def snapshotValue (entries : List CanonicalPreimageEntry) : Value :=
  .object (ByteMap.ofList
    [(ascii "entries", .array ((sortEntries entries).map entryValue)),
     (ascii "schema", .string (ascii "usk.replacement_snapshot.v1"))])

/-- The digest of a set of entries, given in any order. -/
def snapshotDigest (entries : List CanonicalPreimageEntry) : Bytes :=
  sha256Canonical (snapshotValue entries)

/-! ## The hashed texts -/

theorem jsonString_eq (value : Bytes) : jsonString value = canonical (.string value) := by
  have hu : ascii "\\u00" = [0x5c, 0x75, 0x30, 0x30] := by decide
  have hbyte : jsonStringByte = escapeByte := by
    funext ch
    unfold jsonStringByte escapeByte
    rw [hu]
    rfl
  rw [jsonString, hbyte, canonical, escaped]

/-- The members of a record already stand in key order. -/
theorem directoryRecord_eq (relativePath : Bytes) : directoryRecord relativePath =
    .object [(ascii "relative_path", .string relativePath),
      (ascii "type", .string (ascii "directory"))] := by
  rw [directoryRecord, ByteMap.ofList_of_sorted]
  exact List.pairwise_pair.mpr (show ascii "relative_path" < ascii "type" by decide)

theorem fileRecord_eq (relativePath sha256 : Bytes) (sizeBytes : UInt64) :
    fileRecord relativePath sha256 sizeBytes =
      .object [(ascii "relative_path", .string relativePath), (ascii "sha256", .string sha256),
        (ascii "size_bytes", .unsigned sizeBytes), (ascii "type", .string (ascii "file"))] := by
  rw [fileRecord, ByteMap.ofList_of_sorted]
  unfold Sorted
  simp only [List.pairwise_cons, List.forall_mem_cons]
  decide

theorem snapshotValue_eq (entries : List CanonicalPreimageEntry) : snapshotValue entries =
    .object [(ascii "entries", .array ((sortEntries entries).map entryValue)),
      (ascii "schema", .string (ascii "usk.replacement_snapshot.v1"))] := by
  rw [snapshotValue, ByteMap.ofList_of_sorted]
  exact List.pairwise_pair.mpr (show ascii "entries" < ascii "schema" by decide)

theorem canonical_entryValue (entry : CanonicalPreimageEntry) :
    canonical (entryValue entry) = entryPiece entry := by
  have hpath : ascii "\x7b\"relative_path\":" =
      0x7b :: (escaped (ascii "relative_path") ++ [0x3a]) := by decide
  have hdirectory : ascii ",\"type\":\"directory\"\x7d" =
      0x2c :: (escaped (ascii "type") ++ 0x3a :: (escaped (ascii "directory") ++ [0x7d])) := by
    decide
  have hsha : ascii ",\"sha256\":" = 0x2c :: (escaped (ascii "sha256") ++ [0x3a]) := by decide
  have hsize : ascii ",\"size_bytes\":" =
      0x2c :: (escaped (ascii "size_bytes") ++ [0x3a]) := by decide
  have hfile : ascii ",\"type\":\"file\"\x7d" =
      0x2c :: (escaped (ascii "type") ++ 0x3a :: (escaped (ascii "file") ++ [0x7d])) := by decide
  unfold entryValue entryPiece
  split
  · rw [directoryRecord_eq, hpath, hdirectory, jsonString_eq]
    simp [canonical, canonicalMembers]
  · rw [fileRecord_eq, hpath, hsha, hsize, hfile, jsonString_eq, jsonString_eq]
    simp [canonical, canonicalMembers]

/-- The streamed text is the canonical text of the document. -/
theorem preimageText_eq (entries : List CanonicalPreimageEntry) :
    preimageText entries = canonical (snapshotValue entries) := by
  have hentries : ascii "\x7b\"entries\":[" =
      0x7b :: (escaped (ascii "entries") ++ [0x3a, 0x5b]) := by decide
  have hschema : ascii "],\"schema\":\"usk.replacement_snapshot.v1\"\x7d" =
      0x5d :: 0x2c :: (escaped (ascii "schema") ++
        0x3a :: (escaped (ascii "usk.replacement_snapshot.v1") ++ [0x7d])) := by decide
  rw [preimageText, snapshotValue_eq, hentries, hschema]
  simp only [canonical, canonicalMembers, State.canonicalItems_map canonical_entryValue]
  simp

theorem canonicalPreimageSnapshotDigest_eq (entries : List CanonicalPreimageEntry) :
    canonicalPreimageSnapshotDigest entries = snapshotDigest entries := by
  rw [canonicalPreimageSnapshotDigest, preimageText_eq]
  rfl

/-- A record with its sort key. -/
def keyed (entry : CanonicalPreimageEntry) : Bytes × Value :=
  (entry.relativePath, entryValue entry)

theorem sorted_keyed (entries : List CanonicalPreimageEntry) :
    ((entries.map keyed).insertionSort fun left right => left.1 ≤ right.1).map Prod.snd
      = (sortEntries entries).map entryValue := by
  have hmap := List.map_insertionSort
    (fun left right : CanonicalPreimageEntry => left.relativePath ≤ right.relativePath)
    (fun left right : Bytes × Value => left.1 ≤ right.1) keyed entries fun _ _ _ _ => Iff.rfl
  rw [← hmap, List.map_map]
  rfl

theorem payloadSnapshotDigest_eq (files : List PayloadFile) :
    payloadSnapshotDigest files = snapshotDigest (payloadEntries files) := by
  have hkeyed : files.map (fun file =>
        (file.relativePath, fileRecord file.relativePath file.sha256 file.sizeBytes)) ++
      (payloadDirectories files).map (fun directory => (directory, directoryRecord directory))
      = (payloadEntries files).map keyed := by
    rw [payloadEntries, List.map_append, List.map_map, List.map_map]
    rfl
  rw [payloadSnapshotDigest, snapshotDigest, snapshotValue, hkeyed, sorted_keyed]

/-! ## The walks -/

theorem snapshotEntry_eq {bytes : Nat} {found : Value × Nat}
    (h : snapshotEntry root relative bytes node = .ok found) :
    ∃ entry, entryOf relative node = some entry ∧ found.1 = entryValue entry := by
  cases node with
  | directory device inode =>
    cases h
    exact ⟨_, rfl, rfl⟩
  | file content links =>
    simp only [snapshotEntry, bind_eq_ok, demand_eq_ok] at h
    obtain ⟨-, -, -, -, -, -, h⟩ := h
    cases h
    exact ⟨_, rfl, rfl⟩
  | link resolves => cases h
  | other => cases h

/-- What the first walk collects. -/
theorem snapshotEntries_eq {root : Path} : ∀ {part : Listing} {entries found : List (Bytes × Value)}
    {bytes : Nat}, snapshotEntries root part entries bytes = .ok found →
    found = entries ++ (listingEntries part).map keyed
  | [], entries, found, bytes, h => by
    cases h
    simp [listingEntries]
  | ([], node) :: rest, entries, found, bytes, h => by
    rw [snapshotEntries] at h
    rw [listingEntries]
    exact snapshotEntries_eq h
  | (name :: names, node) :: rest, entries, found, bytes, h => by
    simp only [snapshotEntries, bind_eq_ok] at h
    obtain ⟨-, -, record, hrecord, h⟩ := h
    obtain ⟨entry, hentry, hvalue⟩ := snapshotEntry_eq hrecord
    have hpath : entry.relativePath = joinSlash (name :: names) := by
      cases node with
      | directory => cases hentry; rfl
      | file => cases hentry; rfl
      | link => cases hentry
      | other => cases hentry
    rw [listingEntries, hentry, snapshotEntries_eq h, hvalue]
    simp [keyed, hpath]

theorem replacementSnapshotDigest_eq {digest : Bytes}
    (h : replacementSnapshotDigest root part = .ok digest) :
    digest = snapshotDigest (listingEntries part) := by
  simp only [replacementSnapshotDigest, bind_eq_ok] at h
  obtain ⟨-, -, entries, hentries, h⟩ := h
  cases h
  rw [snapshotEntries_eq hentries, List.nil_append, sorted_keyed]
  rfl

/-- The file of an entry that is no directory. -/
def preimageOf (entry : CanonicalPreimageEntry) : Option PreimageFile :=
  if entry.directory then none else some ⟨entry.relativePath, entry.sha256, entry.sizeBytes⟩

theorem enter_eq {walk entered : TreeWalk} (h : walk.enter relative node = .ok entered) :
    entered.index = walk.index ∧ entered.result = walk.result := by
  simp only [TreeWalk.enter, bind_eq_ok, demand_eq_ok] at h
  obtain ⟨-, -, -, -, -, -, -, -, h⟩ := h
  cases h
  exact ⟨rfl, rfl⟩

theorem add_eq {walk next : TreeWalk} (h : TreeWalk.add root walk relative node = .ok next) :
    next.index = walk.index ++ (entryOf relative node).toList ∧
      next.result = walk.result ++ (entryOf relative node).toList.filterMap preimageOf := by
  cases node with
  | directory device inode =>
    simp only [TreeWalk.add, TreeWalk.addDirectory, bind_eq_ok, demand_eq_ok] at h
    obtain ⟨-, -, used, -, h⟩ := h
    cases h
    exact ⟨rfl, by simp [entryOf, preimageOf]⟩
  | file content links =>
    simp only [TreeWalk.add, TreeWalk.addFile, bind_eq_ok, demand_eq_ok] at h
    obtain ⟨-, -, -, -, -, -, -, -, used, -, h⟩ := h
    cases h
    exact ⟨rfl, by simp [entryOf, preimageOf]⟩
  | link resolves => cases h
  | other => cases h

/-- What the second walk collects. -/
theorem walkTree_eq {root : Path} : ∀ {part : Listing} {walk found : TreeWalk},
    walkTree root part walk = .ok found → found.index = walk.index ++ listingEntries part ∧
      found.result = walk.result ++ (listingEntries part).filterMap preimageOf
  | [], walk, found, h => by
    cases h
    simp [listingEntries]
  | ([], node) :: rest, walk, found, h => by
    rw [walkTree] at h
    rw [listingEntries]
    exact walkTree_eq h
  | (name :: names, node) :: rest, walk, found, h => by
    simp only [walkTree, bind_eq_ok] at h
    obtain ⟨entered, henter, next, hnext, h⟩ := h
    obtain ⟨hindex, hresult⟩ := walkTree_eq h
    rw [(add_eq hnext).1, (enter_eq henter).1] at hindex
    rw [(add_eq hnext).2, (enter_eq henter).2] at hresult
    rw [hindex, hresult, listingEntries, List.filterMap_append, List.append_assoc,
      List.append_assoc]
    exact ⟨rfl, rfl⟩

theorem readCompleteTree_eq {files : List PreimageFile} {digest : Bytes}
    (h : readCompleteTree root part = .ok (files, digest)) :
    digest = snapshotDigest (listingEntries part) := by
  simp only [readCompleteTree, bind_eq_ok] at h
  obtain ⟨-, -, walk, hwalk, -, -, h⟩ := h
  cases h
  rw [canonicalPreimageSnapshotDigest_eq, (walkTree_eq hwalk).1, List.nil_append]

/-! ## Iteration order -/

theorem listingEntries_eq_flatMap : ∀ part : Listing,
    listingEntries part = part.flatMap fun e => listingEntries [e]
  | [] => rfl
  | ([], _) :: rest => by
    rw [listingEntries, List.flatMap_cons, listingEntries_eq_flatMap rest]
    rfl
  | (name :: names, node) :: rest => by
    rw [listingEntries, List.flatMap_cons, listingEntries_eq_flatMap rest, listingEntries,
      listingEntries, List.append_nil]

theorem listingEntries_perm {part' : Listing} (h : part.Perm part') :
    (listingEntries part).Perm (listingEntries part') := by
  rw [listingEntries_eq_flatMap part, listingEntries_eq_flatMap part']
  exact h.flatMap_right _

instance : Std.Total fun left right : CanonicalPreimageEntry =>
    left.relativePath ≤ right.relativePath :=
  ⟨fun left right => List.le_total left.relativePath right.relativePath⟩

instance : IsTrans CanonicalPreimageEntry fun left right =>
    left.relativePath ≤ right.relativePath :=
  ⟨fun _ _ _ => List.le_trans⟩

theorem mem_sortEntries : entry ∈ sortEntries entries ↔ entry ∈ entries :=
  (List.perm_insertionSort _ _).mem_iff

/-- Entries with distinct paths have one sorted order. -/
theorem sortEntries_perm {entries' : List CanonicalPreimageEntry} (h : entries.Perm entries')
    (hnd : (entries.map (·.relativePath)).Nodup) : sortEntries entries = sortEntries entries' := by
  have hperm : (sortEntries entries).Perm (sortEntries entries') :=
    ((List.perm_insertionSort _ _).trans h).trans (List.perm_insertionSort _ _).symm
  refine hperm.eq_of_pairwise (fun a b ha hb hab hba => ?_)
    (List.pairwise_insertionSort _ entries) (List.pairwise_insertionSort _ entries')
  have ha' : a ∈ entries := mem_sortEntries.mp ha
  have hb' : b ∈ entries := h.mem_iff.mpr (mem_sortEntries.mp hb)
  exact List.inj_on_of_nodup_map hnd ha' hb' (List.le_antisymm hab hba)

theorem snapshotDigest_perm {entries' : List CanonicalPreimageEntry} (h : entries.Perm entries')
    (hnd : (entries.map (·.relativePath)).Nodup) :
    snapshotDigest entries = snapshotDigest entries' := by
  rw [snapshotDigest, snapshotValue, sortEntries_perm h hnd]
  rfl

/-! ## What a digest determines -/

/-- An entry as the snapshots have it: a directory has neither size nor content. -/
def CanonicalPreimageEntry.Plain (entry : CanonicalPreimageEntry) : Prop :=
  entry.directory = true → entry.sha256 = [] ∧ entry.sizeBytes = 0

theorem entryValue_injective {entry' : CanonicalPreimageEntry} (hp : entry.Plain)
    (hp' : entry'.Plain) (h : entryValue entry = entryValue entry') : entry = entry' := by
  obtain ⟨path, sha, size, directory⟩ := entry
  obtain ⟨path', sha', size', directory'⟩ := entry'
  cases directory with
  | true =>
    cases directory' with
    | true =>
      obtain ⟨rfl, rfl⟩ := hp rfl
      obtain ⟨rfl, rfl⟩ := hp' rfl
      rw [entryValue, entryValue, if_pos rfl, if_pos rfl, directoryRecord_eq,
        directoryRecord_eq] at h
      simp only [Value.object.injEq, List.cons.injEq, Prod.mk.injEq, Value.string.injEq] at h
      rw [h.1.2]
    | false =>
      rw [entryValue, entryValue, if_pos rfl, if_neg (by simp), directoryRecord_eq,
        fileRecord_eq] at h
      simp at h
  | false =>
    cases directory' with
    | true =>
      rw [entryValue, entryValue, if_neg (by simp), if_pos rfl, directoryRecord_eq,
        fileRecord_eq] at h
      simp at h
    | false =>
      rw [entryValue, entryValue, if_neg (by simp), if_neg (by simp), fileRecord_eq,
        fileRecord_eq] at h
      simp only [Value.object.injEq, List.cons.injEq, Prod.mk.injEq, Value.string.injEq,
        Value.unsigned.injEq] at h
      obtain ⟨⟨-, rfl⟩, ⟨-, rfl⟩, ⟨-, rfl⟩, -⟩ := h
      rfl

theorem entryOf_plain (h : entryOf relative node = some entry) : entry.Plain := by
  cases node with
  | directory =>
    cases h
    exact fun _ => ⟨rfl, rfl⟩
  | file =>
    cases h
    exact fun hd => absurd hd (by simp)
  | link => cases h
  | other => cases h

theorem wellFormed_snapshotValue (entries : List CanonicalPreimageEntry) :
    WellFormed (snapshotValue entries) := by
  have hentry : ∀ entry, WellFormed (entryValue entry) := by
    intro entry
    unfold entryValue
    split
    · exact wellFormed_ofList (show [ascii "relative_path", ascii "type"].Nodup by decide)
        (by simp [WellFormed])
    · exact wellFormed_ofList (show [ascii "relative_path", ascii "sha256", ascii "size_bytes",
        ascii "type"].Nodup by decide) (by simp [WellFormed])
  refine wellFormed_ofList (show [ascii "entries", ascii "schema"].Nodup by decide) ?_
  intro m hm
  simp only [List.mem_cons, List.not_mem_nil, or_false] at hm
  rcases hm with rfl | rfl
  · rw [wellFormed_array]
    intro v hv
    obtain ⟨entry, -, rfl⟩ := List.mem_map.mp hv
    exact hentry entry
  · trivial

theorem eq_of_map_entryValue : ∀ {entries entries' : List CanonicalPreimageEntry},
    (∀ entry ∈ entries, entry.Plain) → (∀ entry ∈ entries', entry.Plain) →
    entries.map entryValue = entries'.map entryValue → entries = entries'
  | [], [], _, _, _ => rfl
  | [], _ :: _, _, _, h => by cases h
  | _ :: _, [], _, _, h => by cases h
  | entry :: rest, entry' :: rest', hp, hp', h => by
    rw [List.map_cons, List.map_cons, List.cons.injEq] at h
    obtain ⟨hhead, htail⟩ := List.forall_mem_cons.mp hp
    obtain ⟨hhead', htail'⟩ := List.forall_mem_cons.mp hp'
    rw [entryValue_injective hhead hhead' h.1, eq_of_map_entryValue htail htail' h.2]

/-- Where SHA-256 tells two snapshots apart, one digest means one set of entries. -/
theorem mem_iff_of_snapshotDigest {entries entries' : List CanonicalPreimageEntry}
    (hp : ∀ entry ∈ entries, entry.Plain) (hp' : ∀ entry ∈ entries', entry.Plain)
    (hsha : Set.InjOn Usk.sha256
      {canonical (snapshotValue entries), canonical (snapshotValue entries')})
    (h : snapshotDigest entries = snapshotDigest entries') (entry : CanonicalPreimageEntry) :
    entry ∈ entries ↔ entry ∈ entries' := by
  have htext := hsha (Set.mem_insert _ _) (Set.mem_insert_of_mem _ rfl) h
  have hvalue := canonical_injective (wellFormed_snapshotValue entries)
    (wellFormed_snapshotValue entries') htext
  rw [snapshotValue_eq, snapshotValue_eq] at hvalue
  simp only [Value.object.injEq, List.cons.injEq, Prod.mk.injEq, Value.array.injEq] at hvalue
  have hsorted : sortEntries entries = sortEntries entries' := by
    refine eq_of_map_entryValue (fun e he => hp e ?_) (fun e he => hp' e ?_) hvalue.1.2
    · exact mem_sortEntries.mp he
    · exact mem_sortEntries.mp he
  rw [← mem_sortEntries, hsorted, mem_sortEntries]

end Usk.Lifecycle

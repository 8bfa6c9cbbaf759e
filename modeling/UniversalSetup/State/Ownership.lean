import UniversalSetup.Base.RelativePath
import UniversalSetup.Json.Line

/-!
# Ownership manifests

An ownership manifest lists the files and directories of one installation. The writer sorts it, puts
the digest of its canonical payload in and writes the canonical document on one line. The reader
parses the line, sorts and checks the closure again and compares the digest.
-/

namespace Usk.State

open Json

structure OwnedFile where
  relativePath : Bytes
  sha256 : Bytes
  sizeBytes : UInt64
deriving DecidableEq

structure OwnershipManifest where
  manifestId : Bytes
  manifestDigest : Bytes
  installId : Bytes
  targetRoot : Bytes
  createdByTransactionId : Bytes
  files : List OwnedFile
  directories : List Bytes
deriving DecidableEq

variable {manifest : OwnershipManifest}

/-! ## Relative paths -/

/-- The check of one part in `safe_relative`. -/
def safePart (part : Bytes) : Bool :=
  !(part.isEmpty || part == ascii "." || part == ascii "..")

def safeRelative (value : Bytes) : Bool :=
  safeText safePart value

/-- `parent_path` of a relative path until it is empty, as `generic_string`, the shortest first. -/
def parentPaths (value : Bytes) : List Bytes :=
  let names := (Path.ofText value).names
  (names.inits.drop 1).dropLast.map joinSlash

/-! ## Documents -/

/-- `exact_members`. -/
def exactMembers (value : Value) (expected : List String) : Result Unit :=
  exactKeys value expected "durable record member set is incompatible"

def ownedFileMembers (file : OwnedFile) : List (Bytes × Value) :=
  [(ascii "relative_path", .string file.relativePath),
    (ascii "sha256", .string file.sha256),
    (ascii "size_bytes", .unsigned file.sizeBytes)]

def ownedFileValue (file : OwnedFile) : Value :=
  .object (ByteMap.ofList (ownedFileMembers file))

def ownedDirectoryValue (directory : Bytes) : Value :=
  .object (ByteMap.ofList [(ascii "relative_path", .string directory)])

def OwnershipManifest.members (manifest : OwnershipManifest) : List (Bytes × Value) :=
  [(ascii "created_by_transaction_id", .string manifest.createdByTransactionId),
    (ascii "directories", .array (manifest.directories.map ownedDirectoryValue)),
    (ascii "files", .array (manifest.files.map ownedFileValue)),
    (ascii "install_id", .string manifest.installId),
    (ascii "manifest_id", .string manifest.manifestId),
    (ascii "schema", .string (ascii "usk.ownership_manifest.v1")),
    (ascii "target_root", .string manifest.targetRoot)]

def ownershipPayload (manifest : OwnershipManifest) : Value :=
  .object (ByteMap.ofList manifest.members)

def ownershipDocument (manifest : OwnershipManifest) : Value :=
  .object ((ByteMap.ofList manifest.members).insert (ascii "manifest_digest")
    (.string manifest.manifestDigest))

/-! ## The digest -/

/-- The pieces of a loop of `ownership_digest`, with commas between them. -/
def commaSeparated : List Bytes → Bytes
  | [] => []
  | [piece] => piece
  | piece :: next :: rest => piece ++ ascii "," ++ commaSeparated (next :: rest)

def quoted (value : Bytes) : Bytes :=
  canonical (.string value)

def directoryPiece (directory : Bytes) : Bytes :=
  ascii "\x7b\"relative_path\":" ++ quoted directory ++ ascii "\x7d"

def filePiece (file : OwnedFile) : Bytes :=
  ascii "\x7b\"relative_path\":" ++ quoted file.relativePath ++ ascii ",\"sha256\":" ++
    quoted file.sha256 ++ ascii ",\"size_bytes\":" ++ decimal file.sizeBytes.toNat ++ ascii "\x7d"

/-- What `ownership_digest` hashes, piece by piece. -/
def ownershipText (manifest : OwnershipManifest) : Bytes :=
  ascii "\x7b\"created_by_transaction_id\":" ++ quoted manifest.createdByTransactionId ++
    ascii ",\"directories\":[" ++ commaSeparated (manifest.directories.map directoryPiece) ++
    ascii "],\"files\":[" ++ commaSeparated (manifest.files.map filePiece) ++
    ascii "],\"install_id\":" ++ quoted manifest.installId ++ ascii ",\"manifest_id\":" ++
    quoted manifest.manifestId ++
    ascii ",\"schema\":\"usk.ownership_manifest.v1\",\"target_root\":" ++
    quoted manifest.targetRoot ++ ascii "\x7d"

def ownershipDigest (manifest : OwnershipManifest) : Bytes :=
  sha256 (ownershipText manifest)

/-! ## Validation -/

def sortFiles (files : List OwnedFile) : List OwnedFile :=
  files.insertionSort fun left right => left.relativePath ≤ right.relativePath

def sortDirectories (directories : List Bytes) : List Bytes :=
  directories.insertionSort fun left right => left ≤ right

/-- The manifest with both lists sorted. -/
def OwnershipManifest.sorted (manifest : OwnershipManifest) : OwnershipManifest :=
  { manifest with
    files := sortFiles manifest.files
    directories := sortDirectories manifest.directories }

def OwnershipManifest.identified (manifest : OwnershipManifest) : Bool :=
  validIdentifier manifest.manifestId && validIdentifier manifest.installId &&
    validIdentifier manifest.createdByTransactionId && manifest.targetRoot != [] &&
    decide (manifest.targetRoot.length ≤ 32768)

/-- A loop over sorted entries, after the entry with the path `previous`. -/
def checkOrdered {α : Type} (path : α → Bytes) (valid : α → Bool) (message : String) :
    Bytes → List α → Result Unit
  | _, [] => .ok ()
  | previous, entry :: rest => do
    demand (valid entry && path entry != previous) message
    checkOrdered path valid message (path entry) rest

def checkFiles : List OwnedFile → Result Unit :=
  checkOrdered OwnedFile.relativePath
    (fun file => safeRelative file.relativePath && validSha256 file.sha256)
    "ownership file closure is invalid or duplicated" []

def checkDirectories : List Bytes → Result Unit :=
  checkOrdered id safeRelative "ownership directory closure is invalid or duplicated" []

/-- The last loop: a file is in its directories and is none of them. -/
def checkParents (directories : List Bytes) : List OwnedFile → Result Unit
  | [] => .ok ()
  | file :: rest => do
    demand (!directories.contains file.relativePath)
      "ownership path cannot be both a file and directory"
    demand ((parentPaths file.relativePath).all directories.contains)
      "ownership directory closure omits a file parent"
    checkParents directories rest

/-- `validate_ownership`, which returns the manifest that it sorts in place. -/
def validateOwnership (manifest : OwnershipManifest) : Result OwnershipManifest := do
  demand manifest.identified "ownership identity is invalid"
  let manifest := manifest.sorted
  checkFiles manifest.files
  checkDirectories manifest.directories
  checkParents manifest.directories manifest.files
  pure manifest

/-! ## Reading -/

def readOwnedFile (item : Value) : Result OwnedFile := do
  exactMembers item ["relative_path", "sha256", "size_bytes"]
  let relativePath ← item.getString "relative_path"
  let sha256 ← item.getString "sha256"
  let sizeBytes ← (← item.get "size_bytes").asUnsigned
  pure ⟨relativePath, sha256, sizeBytes⟩

def readOwnedDirectory (item : Value) : Result Bytes := do
  exactMembers item ["relative_path"]
  item.getString "relative_path"

def ownershipMembers : List String :=
  ["schema", "manifest_id", "manifest_digest", "install_id", "target_root",
    "created_by_transaction_id", "files", "directories"]

/-- `parse_ownership` without its last step. -/
def readManifest (value : Value) : Result OwnershipManifest := do
  let manifestId ← value.getString "manifest_id"
  let manifestDigest ← value.getString "manifest_digest"
  let installId ← value.getString "install_id"
  let targetRoot ← value.getString "target_root"
  let createdByTransactionId ← value.getString "created_by_transaction_id"
  let files ← (← (← value.get "files").asArray).mapM readOwnedFile
  let directories ← (← (← value.get "directories").asArray).mapM readOwnedDirectory
  pure
    { manifestId := manifestId
      manifestDigest := manifestDigest
      installId := installId
      targetRoot := targetRoot
      createdByTransactionId := createdByTransactionId
      files := files
      directories := directories }

def parseOwnership (value : Value) : Result OwnershipManifest := do
  exactMembers value ownershipMembers
  demandString value "schema" (· == ascii "usk.ownership_manifest.v1")
    "ownership schema is incompatible"
  let manifest ← readManifest value
  validateOwnership manifest

/-- `16u * 1024u * 1024u`, the bound of the text of a manifest. -/
def maximumOwnershipBytes : Nat := 16 * 1024 * 1024

def decodeOwnershipRecord (text manifestId : Bytes) : Result OwnershipManifest := do
  demand (validIdentifier manifestId) "ownership lookup id is invalid"
  demand (decide (text.length ≤ maximumOwnershipBytes)) "ownership record exceeds its byte bound"
  let document ← readLine text "ownership record is not canonical"
  let manifest ← parseOwnership document
  demand (validSha256 manifest.manifestDigest &&
      ownershipDigest manifest == manifest.manifestDigest)
    "ownership manifest digest does not match its canonical payload"
  demand (manifest.manifestId == manifestId || manifest.installId == manifestId)
    "ownership lookup identity mismatch"
  pure manifest

/-! ## What the digest is over -/

theorem canonicalItems_map {α : Type} {write : α → Value} {piece : α → Bytes}
    (h : ∀ item, canonical (write item) = piece item) :
    ∀ items : List α, canonicalItems (items.map write) = commaSeparated (items.map piece)
  | [] => by rw [List.map_nil, canonicalItems, List.map_nil, commaSeparated]
  | [item] => by
    rw [List.map_singleton, canonicalItems, h item]
    exact List.append_nil _
  | item :: next :: rest => by
    have ih := canonicalItems_map h (next :: rest)
    rw [List.map_cons, canonicalItems, ih, h item]
    show piece item ++ 0x2c :: commaSeparated ((next :: rest).map piece) =
      commaSeparated (piece item :: piece next :: rest.map piece)
    rw [commaSeparated, List.append_assoc]
    rfl

theorem canonical_ownedDirectoryValue (directory : Bytes) :
    canonical (ownedDirectoryValue directory) = directoryPiece directory := by
  have hlabel : ascii "\x7b\"relative_path\":" =
      0x7b :: (escaped (ascii "relative_path") ++ [0x3a]) := by decide
  have hend : ascii "\x7d" = [0x7d] := by decide
  show canonical (.object [(ascii "relative_path", .string directory)]) = _
  rw [directoryPiece, hlabel, hend]
  simp [canonical, canonicalMembers, quoted]

theorem canonical_ownedFileValue (file : OwnedFile) :
    canonical (ownedFileValue file) = filePiece file := by
  have hsorted : Sorted (ownedFileMembers file) := by
    refine List.pairwise_map.mp (?_ : (ByteMap.keys (ownedFileMembers file)).Pairwise (· < ·))
    show ["relative_path", "sha256", "size_bytes"].map ascii |>.Pairwise (· < ·)
    decide
  have hpath : ascii "\x7b\"relative_path\":" =
      0x7b :: (escaped (ascii "relative_path") ++ [0x3a]) := by decide
  have hdigest : ascii ",\"sha256\":" = 0x2c :: (escaped (ascii "sha256") ++ [0x3a]) := by decide
  have hsize : ascii ",\"size_bytes\":" = 0x2c :: (escaped (ascii "size_bytes") ++ [0x3a]) := by
    decide
  have hend : ascii "\x7d" = [0x7d] := by decide
  unfold ownedFileValue
  rw [ByteMap.ofList_of_sorted hsorted, filePiece, hpath, hdigest, hsize, hend]
  simp [ownedFileMembers, canonical, canonicalMembers, quoted]

theorem sorted_members (manifest : OwnershipManifest) : Sorted manifest.members := by
  refine List.pairwise_map.mp (?_ : (ByteMap.keys manifest.members).Pairwise (· < ·))
  show ["created_by_transaction_id", "directories", "files", "install_id", "manifest_id", "schema",
    "target_root"].map ascii |>.Pairwise (· < ·)
  decide

/-- The digest is over the canonical text of the payload. -/
theorem ownershipText_eq (manifest : OwnershipManifest) :
    ownershipText manifest = canonical (ownershipPayload manifest) := by
  have htransaction : ascii "\x7b\"created_by_transaction_id\":" =
      0x7b :: (escaped (ascii "created_by_transaction_id") ++ [0x3a]) := by decide
  have hdirectories : ascii ",\"directories\":[" =
      0x2c :: (escaped (ascii "directories") ++ [0x3a, 0x5b]) := by decide
  have hfiles : ascii "],\"files\":[" =
      0x5d :: 0x2c :: (escaped (ascii "files") ++ [0x3a, 0x5b]) := by decide
  have hinstall : ascii "],\"install_id\":" =
      0x5d :: 0x2c :: (escaped (ascii "install_id") ++ [0x3a]) := by decide
  have hmanifest : ascii ",\"manifest_id\":" =
      0x2c :: (escaped (ascii "manifest_id") ++ [0x3a]) := by decide
  have hschema : ascii ",\"schema\":\"usk.ownership_manifest.v1\",\"target_root\":" =
      0x2c :: (escaped (ascii "schema") ++ 0x3a :: (escaped (ascii "usk.ownership_manifest.v1") ++
        0x2c :: (escaped (ascii "target_root") ++ [0x3a]))) := by decide
  have hend : ascii "\x7d" = [0x7d] := by decide
  unfold ownershipPayload
  rw [ByteMap.ofList_of_sorted (sorted_members manifest), ownershipText, htransaction, hdirectories,
    hfiles, hinstall, hmanifest, hschema, hend,
    ← canonicalItems_map canonical_ownedDirectoryValue, ← canonicalItems_map
      canonical_ownedFileValue]
  simp [OwnershipManifest.members, canonical, canonicalMembers, quoted]

/-! ## Sorting -/

instance : Std.Total fun left right : OwnedFile => left.relativePath ≤ right.relativePath :=
  ⟨fun left right => List.le_total left.relativePath right.relativePath⟩

instance : IsTrans OwnedFile fun left right => left.relativePath ≤ right.relativePath :=
  ⟨fun _ _ _ => List.le_trans⟩

theorem sortFiles_perm (files : List OwnedFile) : (sortFiles files).Perm files :=
  List.perm_insertionSort _ _

theorem sortDirectories_perm (directories : List Bytes) :
    (sortDirectories directories).Perm directories :=
  List.perm_insertionSort _ _

theorem pairwise_sortFiles (files : List OwnedFile) :
    (sortFiles files).Pairwise fun left right => left.relativePath ≤ right.relativePath :=
  List.pairwise_insertionSort _ _

theorem pairwise_sortDirectories (directories : List Bytes) :
    (sortDirectories directories).Pairwise fun left right => left ≤ right :=
  List.pairwise_insertionSort _ _

/-- Sorting twice is sorting once. -/
theorem sorted_sorted (manifest : OwnershipManifest) : manifest.sorted.sorted =
    manifest.sorted := by
  have hfiles : sortFiles (sortFiles manifest.files) = sortFiles manifest.files :=
    (pairwise_sortFiles manifest.files).insertionSort_eq
  have hdirectories : sortDirectories (sortDirectories manifest.directories) =
      sortDirectories manifest.directories :=
    (pairwise_sortDirectories manifest.directories).insertionSort_eq
  unfold OwnershipManifest.sorted
  rw [hfiles, hdirectories]

/-! ## What validation establishes -/

theorem checkOrdered_eq_ok {α : Type} {path : α → Bytes} {valid : α → Bool} {message : String}
    {u : Unit} : ∀ {previous : Bytes} {entries : List α},
      entries.Pairwise (fun left right => path left ≤ path right) →
      (∀ entry ∈ entries, previous ≤ path entry) →
      (checkOrdered path valid message previous entries = .ok u ↔
        (∀ entry ∈ entries, valid entry = true) ∧ (previous :: entries.map path).Nodup)
  | previous, [], _, _ => by simp [checkOrdered]
  | previous, entry :: rest, hsorted, hprevious => by
    obtain ⟨hentry, hrest⟩ := List.pairwise_cons.mp hsorted
    have ih := @checkOrdered_eq_ok α path valid message u (path entry) rest hrest hentry
    have hle := hprevious entry List.mem_cons_self
    rw [List.forall_mem_cons, List.map_cons, List.nodup_cons, checkOrdered]
    simp only [bind_eq_ok, demand_eq_ok, Bool.and_eq_true, bne_iff_ne, ih]
    constructor
    · rintro ⟨-, ⟨hvalid, hne⟩, hall, hnodup⟩
      refine ⟨⟨hvalid, hall⟩, fun hmem => ?_, hnodup⟩
      -- Nothing after the entry is smaller, and the path before it is not larger.
      rcases List.mem_cons.mp hmem with heq | hmem
      · exact hne heq.symm
      obtain ⟨other, hother, heq⟩ := List.mem_map.mp hmem
      have hge := hentry other hother
      rw [heq] at hge
      exact hne (List.le_antisymm hge hle)
    · rintro ⟨⟨hvalid, hall⟩, hfresh, hnodup⟩
      exact ⟨(), ⟨hvalid, fun heq => hfresh (heq ▸ List.mem_cons_self)⟩, hall, hnodup⟩

theorem checkParents_eq_ok {directories : List Bytes} {u : Unit} : ∀ {files : List OwnedFile},
    checkParents directories files = .ok u ↔ ∀ file ∈ files,
      file.relativePath ∉ directories ∧ ∀ parent ∈ parentPaths file.relativePath,
        parent ∈ directories
  | [] => by simp [checkParents]
  | file :: rest => by
    simp only [checkParents, bind_eq_ok, demand_eq_ok, checkParents_eq_ok, List.forall_mem_cons,
      Bool.not_eq_true', List.contains_eq_mem, decide_eq_false_iff_not, List.all_eq_true,
      decide_eq_true_eq, exists_const, and_assoc]

theorem safeRelative_ne_nil {value : Bytes} (h : safeRelative value = true) : value ≠ [] := by
  rintro rfl
  cases h

/-- A manifest that passes validation once it is sorted. -/
structure OwnershipManifest.Closed (manifest : OwnershipManifest) : Prop where
  identified : manifest.identified = true
  safeFiles : ∀ file ∈ manifest.files, safeRelative file.relativePath = true
  digests : ∀ file ∈ manifest.files, validSha256 file.sha256 = true
  distinctFiles : (manifest.files.map OwnedFile.relativePath).Nodup
  safeDirectories : ∀ directory ∈ manifest.directories, safeRelative directory = true
  distinctDirectories : manifest.directories.Nodup
  apart : ∀ file ∈ manifest.files, file.relativePath ∉ manifest.directories
  parents : ∀ file ∈ manifest.files, ∀ parent ∈ parentPaths file.relativePath,
    parent ∈ manifest.directories

/-- The closure does not depend on the identity. -/
theorem OwnershipManifest.Closed.renamed {other : OwnershipManifest} (h : manifest.Closed)
    (hidentified : other.identified = true) (hfiles : other.files = manifest.files)
    (hdirectories : other.directories = manifest.directories) : other.Closed where
  identified := hidentified
  safeFiles := hfiles ▸ h.safeFiles
  digests := hfiles ▸ h.digests
  distinctFiles := hfiles ▸ h.distinctFiles
  safeDirectories := hdirectories ▸ h.safeDirectories
  distinctDirectories := hdirectories ▸ h.distinctDirectories
  apart := by
    rw [hfiles, hdirectories]
    exact h.apart
  parents := by
    rw [hfiles, hdirectories]
    exact h.parents

theorem checkFiles_eq_ok {files : List OwnedFile} {u : Unit}
    (hsorted : files.Pairwise fun left right => left.relativePath ≤ right.relativePath) :
    checkFiles files = .ok u ↔ (∀ file ∈ files, safeRelative file.relativePath = true) ∧
      (∀ file ∈ files, validSha256 file.sha256 = true) ∧
      (files.map OwnedFile.relativePath).Nodup := by
  unfold checkFiles
  rw [checkOrdered_eq_ok hsorted fun _ _ => List.nil_le _]
  simp only [Bool.and_eq_true, List.nodup_cons]
  constructor
  · rintro ⟨hvalid, -, hnodup⟩
    exact ⟨fun file hfile => (hvalid file hfile).1, fun file hfile => (hvalid file hfile).2, hnodup⟩
  · rintro ⟨hsafe, hdigest, hnodup⟩
    refine ⟨fun file hfile => ⟨hsafe file hfile, hdigest file hfile⟩, fun hnil => ?_, hnodup⟩
    obtain ⟨file, hfile, heq⟩ := List.mem_map.mp hnil
    exact safeRelative_ne_nil (hsafe file hfile) heq

theorem checkDirectories_eq_ok {directories : List Bytes} {u : Unit}
    (hsorted : directories.Pairwise fun left right => left ≤ right) :
    checkDirectories directories = .ok u ↔
      (∀ directory ∈ directories, safeRelative directory = true) ∧ directories.Nodup := by
  unfold checkDirectories
  rw [@checkOrdered_eq_ok _ id _ _ _ _ _ hsorted fun _ _ => List.nil_le _, List.map_id,
    List.nodup_cons]
  constructor
  · rintro ⟨hsafe, -, hnodup⟩
    exact ⟨hsafe, hnodup⟩
  · rintro ⟨hsafe, hnodup⟩
    exact ⟨hsafe, fun hnil => safeRelative_ne_nil (hsafe _ hnil) rfl, hnodup⟩

theorem validateOwnership_eq_ok {valid : OwnershipManifest} :
    validateOwnership manifest = .ok valid ↔ manifest.sorted.Closed ∧ manifest.sorted = valid := by
  have hfiles := @checkFiles_eq_ok manifest.sorted.files () (pairwise_sortFiles manifest.files)
  have hdirectories := @checkDirectories_eq_ok manifest.sorted.directories ()
    (pairwise_sortDirectories manifest.directories)
  simp only [validateOwnership, bind_eq_ok, demand_eq_ok, pure, Except.pure, Except.ok.injEq]
  constructor
  · rintro ⟨_, hidentified, _, hf, _, hd, _, hp, heq⟩
    obtain ⟨hsafe, hdigest, hdistinct⟩ := hfiles.mp hf
    obtain ⟨hsafe', hdistinct'⟩ := hdirectories.mp hd
    have hparents := checkParents_eq_ok.mp hp
    exact ⟨⟨hidentified, hsafe, hdigest, hdistinct, hsafe', hdistinct',
      fun file hfile => (hparents file hfile).1, fun file hfile => (hparents file hfile).2⟩, heq⟩
  · rintro ⟨hclosed, heq⟩
    exact ⟨(), hclosed.identified, (),
      hfiles.mpr ⟨hclosed.safeFiles, hclosed.digests, hclosed.distinctFiles⟩, (),
      hdirectories.mpr ⟨hclosed.safeDirectories, hclosed.distinctDirectories⟩, (),
      checkParents_eq_ok.mpr fun file hfile =>
        ⟨hclosed.apart file hfile, hclosed.parents file hfile⟩,
      heq⟩

/-! ## Reading a written document -/

/-- The members of the document. -/
def OwnershipManifest.allMembers (manifest : OwnershipManifest) : List (Bytes × Value) :=
  manifest.members ++ [(ascii "manifest_digest", .string manifest.manifestDigest)]

theorem ownershipDocument_eq (manifest : OwnershipManifest) :
    ownershipDocument manifest = .object (ByteMap.ofList manifest.allMembers) :=
  congrArg Value.object (ofList_concat manifest.members
    (ascii "manifest_digest", .string manifest.manifestDigest)).symm

theorem keys_allMembers (manifest : OwnershipManifest) :
    ByteMap.keys manifest.allMembers = ["created_by_transaction_id", "directories", "files",
      "install_id", "manifest_id", "schema", "target_root", "manifest_digest"].map ascii :=
  rfl

theorem keys_allMembers_perm (manifest : OwnershipManifest) :
    (ByteMap.keys manifest.allMembers).Perm (ownershipMembers.map ascii) := by
  rw [keys_allMembers]
  decide

theorem nodup_allMembers (manifest : OwnershipManifest) :
    (ByteMap.keys manifest.allMembers).Nodup := by
  rw [keys_allMembers]
  decide

theorem nodup_ownedFileMembers (file : OwnedFile) :
    (ByteMap.keys (ownedFileMembers file)).Nodup := by
  show (["relative_path", "sha256", "size_bytes"].map ascii).Nodup
  decide

theorem readOwnedDirectory_value (directory : Bytes) :
    readOwnedDirectory (ownedDirectoryValue directory) = .ok directory := by
  simp only [readOwnedDirectory, bind_eq_ok]
  exact ⟨(), exactKeys_ofList (List.nodup_singleton _) (List.Perm.refl _), rfl⟩

theorem readOwnedFile_value (file : OwnedFile) :
    readOwnedFile (ownedFileValue file) = .ok file := by
  have hget : ∀ {key : String} {w : Value}, ByteMap.find (ownedFileMembers file) (ascii key) =
      some w → (ownedFileValue file).get key = .ok w := get_ofList (nodup_ownedFileMembers file)
  simp only [readOwnedFile, bind_eq_ok, getString_eq_ok, asUnsigned_eq_ok]
  exact ⟨(), exactKeys_ofList (nodup_ownedFileMembers file) (List.Perm.refl _),
    _, hget rfl, _, hget rfl, _, hget rfl, _, rfl, rfl⟩

theorem readManifest_document (manifest : OwnershipManifest) :
    readManifest (ownershipDocument manifest) = .ok manifest := by
  have hget : ∀ {key : String} {w : Value}, ByteMap.find manifest.allMembers (ascii key) = some w →
      (Value.object (ByteMap.ofList manifest.allMembers)).get key = .ok w :=
    get_ofList (nodup_allMembers manifest)
  have hfiles := mapM_map fun file (_ : file ∈ manifest.files) => readOwnedFile_value file
  have hdirectories := mapM_map fun directory (_ : directory ∈ manifest.directories) =>
    readOwnedDirectory_value directory
  rw [ownershipDocument_eq]
  simp only [readManifest, bind_eq_ok, getString_eq_ok, asArray_eq_ok]
  exact ⟨_, hget rfl, _, hget rfl, _, hget rfl, _, hget rfl, _, hget rfl, _, hget rfl, _, rfl, _,
    hfiles, _, hget rfl, _, rfl, _, hdirectories, rfl⟩

/-- A sorted manifest that passes validation is read out of its document. -/
theorem parseOwnership_document (hclosed : manifest.Closed) (hsorted : manifest.sorted = manifest) :
    parseOwnership (ownershipDocument manifest) = .ok manifest := by
  have hvalid : validateOwnership manifest = .ok manifest :=
    validateOwnership_eq_ok.mpr ⟨hsorted.symm ▸ hclosed, hsorted⟩
  have hmembers : exactMembers (ownershipDocument manifest) ownershipMembers = .ok () := by
    rw [ownershipDocument_eq]
    exact exactKeys_ofList (nodup_allMembers manifest) (keys_allMembers_perm manifest)
  have hschema : (ownershipDocument manifest).get "schema" =
      .ok (.string (ascii "usk.ownership_manifest.v1")) := by
    rw [ownershipDocument_eq]
    exact get_ofList (nodup_allMembers manifest) rfl
  simp only [parseOwnership, bind_eq_ok, demandString_eq_ok]
  exact ⟨(), hmembers, (), ⟨_, hschema, beq_self_eq_true _⟩, _, readManifest_document manifest,
    hvalid⟩

/-! ## The size of a document -/

/-- The strings of a manifest that validation does not restrict to ASCII. -/
structure OwnershipManifest.Utf8 (manifest : OwnershipManifest) : Prop where
  targetRoot : validUtf8 manifest.targetRoot = true
  files : ∀ file ∈ manifest.files, validUtf8 file.relativePath = true
  directories : ∀ directory ∈ manifest.directories, validUtf8 directory = true

theorem legible_safeRelative {value : Bytes} (h : safeRelative value = true)
    (hutf8 : validUtf8 value = true) : Legible value := by
  simp only [safeRelative, safeText, Bool.and_eq_true, decide_eq_true_eq] at h
  exact ⟨h.1.1.1.1.1.2.trans (by decide), hutf8⟩

theorem count_ownedDirectoryValue (directory : Bytes) : count (ownedDirectoryValue directory) = 2 :=
  rfl

theorem count_ownedFileValue (file : OwnedFile) : count (ownedFileValue file) = 4 :=
  count_ofList (nodup_ownedFileMembers file)

/-- The number of values that the parser counts. -/
theorem count_ownershipDocument (manifest : OwnershipManifest) :
    count (ownershipDocument manifest) =
    9 + 2 * manifest.directories.length + 4 * manifest.files.length := by
  have hdirectories := @countItems_map _ _ _ manifest.directories count_ownedDirectoryValue
  have hfiles := @countItems_map _ _ _ manifest.files count_ownedFileValue
  rw [ownershipDocument_eq, count_ofList (nodup_allMembers manifest)]
  simp only [OwnershipManifest.allMembers, OwnershipManifest.members, List.cons_append,
    List.nil_append, countMembers, count, hdirectories, hfiles]
  omega

theorem writable_ownedDirectoryValue {directory : Bytes} (h : Legible directory) :
    Writable 1 (ownedDirectoryValue directory) := by
  refine writable_ofList (List.nodup_singleton _) ?_ ?_
  · exact List.forall_mem_singleton.mpr (legible_literal _ (by decide))
  · exact List.forall_mem_singleton.mpr (writable_string h)

theorem writable_ownedFileValue {file : OwnedFile} (hpath : Legible file.relativePath)
    (hdigest : validSha256 file.sha256 = true) : Writable 1 (ownedFileValue file) := by
  refine writable_ofList (nodup_ownedFileMembers file) ?_ ?_
  · exact legible_literals (by decide : ["relative_path", "sha256", "size_bytes"].all _ = true)
  · simp only [ownedFileMembers, List.forall_mem_cons]
    exact ⟨writable_string hpath, writable_string (legible_sha256 hdigest), writable_unsigned _,
      List.forall_mem_nil _⟩

theorem writable_ownershipDocument (hclosed : manifest.Closed) (hutf8 : manifest.Utf8)
    (hdigest : validSha256 manifest.manifestDigest = true) :
    Writable 3 (ownershipDocument manifest) := by
  have hidentified := hclosed.identified
  simp only [OwnershipManifest.identified, Bool.and_eq_true, decide_eq_true_eq] at hidentified
  obtain ⟨⟨⟨⟨hmanifest, hinstall⟩, htransaction⟩, -⟩, hroot⟩ := hidentified
  have hfiles : ∀ v ∈ manifest.files.map ownedFileValue, Writable 1 v := by
    refine List.forall_mem_map.mpr fun file hfile => ?_
    exact writable_ownedFileValue
      (legible_safeRelative (hclosed.safeFiles file hfile) (hutf8.files file hfile))
      (hclosed.digests file hfile)
  have hdirectories : ∀ v ∈ manifest.directories.map ownedDirectoryValue, Writable 1 v := by
    refine List.forall_mem_map.mpr fun directory hdirectory => ?_
    exact writable_ownedDirectoryValue (legible_safeRelative
      (hclosed.safeDirectories directory hdirectory) (hutf8.directories directory hdirectory))
  have hstring : ∀ {s : Bytes}, Legible s → Writable 2 (.string s) :=
    fun h => (writable_string h).mono (Nat.zero_le 2)
  rw [ownershipDocument_eq]
  refine writable_ofList (nodup_allMembers manifest) ?_ ?_
  · rw [keys_allMembers]
    exact legible_literals (by decide)
  · simp only [OwnershipManifest.allMembers, OwnershipManifest.members, List.cons_append,
      List.nil_append, List.forall_mem_cons]
    exact ⟨hstring (legible_identifier htransaction), writable_array hdirectories,
      writable_array hfiles, hstring (legible_identifier hinstall),
      hstring (legible_identifier hmanifest), hstring (legible_literal _ (by decide)),
      hstring ⟨hroot.trans (by decide), hutf8.targetRoot⟩, hstring (legible_sha256 hdigest),
      List.forall_mem_nil _⟩

/-! ## Decoding a written record -/

/-- The line that `write_ownership` writes. -/
def ownershipRecord (manifest : OwnershipManifest) : Bytes :=
  canonical (ownershipDocument manifest) ++ lineFeed

theorem canonical_ownedDirectoryValue_length_le {directory : Bytes} {n : Nat}
    (h : directory.length ≤ n) :
      (canonical (ownedDirectoryValue directory)).length + 1 ≤ 6 * n + 22 := by
  have hle := escaped_length_le directory
  have hlabel : (ascii "\x7b\"relative_path\":").length = 17 := by decide
  have hend : (ascii "\x7d").length = 1 := by decide
  rw [canonical_ownedDirectoryValue, directoryPiece, List.length_append, List.length_append, quoted,
    canonical, hlabel, hend]
  omega

theorem canonical_ownedFileValue_length_le {file : OwnedFile} {n : Nat}
    (h : file.relativePath.length ≤ n) (hdigest : validSha256 file.sha256 = true) :
    (canonical (ownedFileValue file)).length + 1 ≤ 6 * n + 500 := by
  have hpath := escaped_length_le file.relativePath
  have hsha := escaped_length_le file.sha256
  have hsha' := (shortAscii_sha256 hdigest).1
  have hsize : (decimal file.sizeBytes.toNat).length ≤ 20 :=
    decimal_length_le (file.sizeBytes.toNat_lt.trans (by decide))
  have hlabel : (ascii "\x7b\"relative_path\":").length = 17 := by decide
  have hlabel' : (ascii ",\"sha256\":").length = 10 := by decide
  have hlabel'' : (ascii ",\"size_bytes\":").length = 14 := by decide
  have hend : (ascii "\x7d").length = 1 := by decide
  rw [canonical_ownedFileValue]
  simp only [filePiece, quoted, canonical, List.length_append, hlabel, hlabel', hlabel'', hend]
  omega

/-- The size of a record with short paths. -/
theorem ownershipRecord_length_le {manifest : OwnershipManifest} (hclosed : manifest.Closed)
    (hdigest : validSha256 manifest.manifestDigest = true) {n : Nat}
    (hfiles : ∀ file ∈ manifest.files, file.relativePath.length ≤ n)
    (hdirectories : ∀ directory ∈ manifest.directories, directory.length ≤ n) :
    (ownershipRecord manifest).length ≤ 250000 + manifest.directories.length * (6 * n + 22) +
      manifest.files.length * (6 * n + 500) := by
  have hidentified := hclosed.identified
  simp only [OwnershipManifest.identified, Bool.and_eq_true, decide_eq_true_eq] at hidentified
  obtain ⟨⟨⟨⟨hmanifest, hinstall⟩, htransaction⟩, -⟩, hroot⟩ := hidentified
  have hid : ∀ {s : Bytes}, validIdentifier s = true → (escaped s).length ≤ 770 := by
    intro s hs
    have hle := escaped_length_le s
    have hshort := (shortAscii_identifier hs).1
    omega
  have hids := And.intro (hid hmanifest) (And.intro (hid hinstall) (hid htransaction))
  have hsha := escaped_length_le manifest.manifestDigest
  have hsha' := (shortAscii_sha256 hdigest).1
  have htarget := escaped_length_le manifest.targetRoot
  have hfiles' : (canonical (.array (manifest.files.map ownedFileValue))).length ≤
      2 + (manifest.files.map ownedFileValue).length * (6 * n + 500) := by
    refine canonical_array_length_le (List.forall_mem_map.mpr fun file hfile => ?_)
    exact canonical_ownedFileValue_length_le (hfiles file hfile) (hclosed.digests file hfile)
  have hdirectories' : (canonical (.array (manifest.directories.map ownedDirectoryValue))).length ≤
      2 + (manifest.directories.map ownedDirectoryValue).length * (6 * n + 22) := by
    refine canonical_array_length_le (List.forall_mem_map.mpr fun directory hdirectory => ?_)
    exact canonical_ownedDirectoryValue_length_le (hdirectories directory hdirectory)
  rw [List.length_map] at hfiles' hdirectories'
  have hlabels : (manifest.allMembers.map fun m => (escaped m.1).length).sum = 110 := by
    show ((["created_by_transaction_id", "directories", "files", "install_id", "manifest_id",
      "schema", "target_root", "manifest_digest"].map ascii).map fun k => (escaped k).length).sum =
        _
    decide
  have hschema : (escaped (ascii "usk.ownership_manifest.v1")).length = 27 := by decide
  have hstring : ∀ s, canonical (.string s) = escaped s := fun s => by rw [canonical]
  have hle := canonical_ofList_length_le (nodup_allMembers manifest)
  rw [← ownershipDocument_eq] at hle
  rw [ownershipRecord, List.length_append, lineFeed, List.length_singleton]
  simp only [OwnershipManifest.allMembers, OwnershipManifest.members, List.cons_append,
    List.nil_append, List.map_cons, List.map_nil, List.sum_cons, List.sum_nil, hstring,
    hschema] at hle hlabels
  omega

/-- The parser is not told of the bound of the reader and keeps to its own limits. -/
theorem decodeOwnershipRecord_iff (hclosed : manifest.Closed) (hsorted : manifest.sorted = manifest)
    (hutf8 : manifest.Utf8) (hdigest : manifest.manifestDigest = ownershipDigest manifest)
    (hsize : (ownershipRecord manifest).length ≤ maximumOwnershipBytes) :
    decodeOwnershipRecord (ownershipRecord manifest) manifest.manifestId = .ok manifest ↔
      (ownershipRecord manifest).length ≤ ParseLimits.maxBytes {} ∧
        9 + 2 * manifest.directories.length + 4 * manifest.files.length ≤
          ParseLimits.maxValues {} := by
  have hvalid : validSha256 manifest.manifestDigest = true := by
    rw [hdigest]
    exact validSha256_sha256 _
  have hwritable := writable_ownershipDocument hclosed hutf8 hvalid
  have hread := @readLine_writable_iff _ _ "ownership record is not canonical" hwritable (by decide)
  rw [count_ownershipDocument] at hread
  unfold ownershipRecord at hsize ⊢
  rw [← hread]
  simp only [decodeOwnershipRecord, bind_eq_ok, demand_eq_ok]
  constructor
  · rintro ⟨-, -, -, -, document, hline, -⟩
    rwa [eq_of_readLine_canonical hwritable.wellFormed hline] at hline
  · intro hline
    have hid : validIdentifier manifest.manifestId = true := by
      have hidentified := hclosed.identified
      simp only [OwnershipManifest.identified, Bool.and_eq_true] at hidentified
      exact hidentified.1.1.1.1
    refine ⟨(), hid, (), decide_eq_true hsize, _, hline, manifest,
      parseOwnership_document hclosed hsorted, (), ?_, (), ?_, rfl⟩
    · rw [← hdigest, beq_self_eq_true, hvalid]
      rfl
    · rw [beq_self_eq_true, Bool.true_or]

end Usk.State

import UniversalSetup.Base.Storage
import UniversalSetup.Lifecycle.Snapshot
import UniversalSetup.State.Snapshot

/-!
# Verification of an installation

`verify_manifest` compares an installed tree with its ownership manifest. Every owned file gets a
status, and every path that the manifest does not list is reported as unknown.
-/

namespace Usk.Lifecycle

open Json State

def maximumVerificationReportEntries : Nat := 16384
def maximumVerificationReportPathBytes : Nat := 4 * 1024 * 1024

structure LifecycleRoots where
  stagingParent : Path
  stateRoot : Path
  auditRoot : Path

/-- `valid_timestamp`. -/
def validTimestamp (value : Bytes) : Bool :=
  value.length == 20 && (List.range 20).all fun index =>
    match value[index]? with
    | none => false
    | some ch =>
      if index = 4 ∨ index = 7 then ch == 0x2d
      else if index = 10 then ch == 0x54
      else if index = 13 ∨ index = 16 then ch == 0x3a
      else if index = 19 then ch == 0x5a
      else isDigit ch

/-! ## The digest of an installed state -/

/-- The members that `installed_digest` hashes. The last verification is not among them. -/
def installedDigestMembers (state : InstalledState) : List (Bytes × Value) :=
  [(ascii "audit_chain_id", .string state.auditChainId),
    (ascii "component_selection", .array (state.componentSelection.map .string)),
    (ascii "created_at", .string state.createdAt),
    (ascii "entrypoints", .array (state.entrypoints.map entrypointValue)),
    (ascii "install_id", .string state.installId),
    (ascii "lifecycle_status", .string state.lifecycleStatus),
    (ascii "ownership_manifest_digest", .string state.ownershipManifestDigest),
    (ascii "ownership_manifest_ref", .string state.ownershipManifestRef),
    (ascii "product_id", .string state.productId),
    (ascii "product_version", .string state.productVersion),
    (ascii "recipe_digest", .string state.recipeDigest),
    (ascii "setup_abi", .object (ByteMap.ofList (setupAbiMembers state))),
    (ascii "source_archive_digest", .string state.sourceArchiveDigest),
    (ascii "target_root", .string state.targetRoot),
    (ascii "target_scope", .string (ascii "portable")),
    (ascii "transaction_id", .string state.transactionId)]

def installedDigest (state : InstalledState) : Bytes :=
  sha256Canonical (.object (ByteMap.ofList (installedDigestMembers state)))

/-! ## Reports -/

inductive ObjectStatus where
  | present
  | missing
  | modified
  | wrongType
  | unreadable
deriving DecidableEq

def ObjectStatus.name : ObjectStatus → String
  | .present => "present"
  | .missing => "missing"
  | .modified => "modified"
  | .wrongType => "wrong_type"
  | .unreadable => "unreadable"

inductive Verdict where
  | pass
  | warn
  | fail
deriving DecidableEq

def Verdict.name : Verdict → String
  | .pass => "pass"
  | .warn => "warn"
  | .fail => "fail"

structure FileVerification where
  relativePath : Bytes
  status : ObjectStatus
  expectedSha256 : Bytes
  actualSha256 : Bytes := []
deriving DecidableEq

structure DirectoryVerification where
  relativePath : Bytes
  status : ObjectStatus
deriving DecidableEq

structure VerificationReport where
  reportId : Bytes
  reportDigest : Bytes := []
  installId : Bytes
  installedStateDigest : Bytes
  ownershipManifestDigest : Bytes
  verifiedAt : Bytes
  status : Verdict
  files : List FileVerification
  directories : List DirectoryVerification
  unknownPaths : List Bytes
  missingFiles : Nat
  modifiedFiles : Nat

def directoryVerificationText (directory : DirectoryVerification) : Bytes :=
  ascii "\x7b\"relative_path\":" ++ jsonString directory.relativePath ++ ascii ",\"status\":" ++
    jsonString (ascii directory.status.name) ++ ascii "\x7d"

def fileVerificationText (file : FileVerification) : Bytes :=
  (if file.actualSha256.isEmpty then ascii "\x7b\"expected_sha256\":"
    else ascii "\x7b\"actual_sha256\":" ++ jsonString file.actualSha256 ++
      ascii ",\"expected_sha256\":") ++
    jsonString file.expectedSha256 ++ ascii ",\"relative_path\":" ++
    jsonString file.relativePath ++ ascii ",\"status\":" ++
    jsonString (ascii file.status.name) ++ ascii "\x7d"

/-- What `verification_digest` hashes. -/
def verificationText (report : VerificationReport) : Bytes :=
  ascii "\x7b\"directories\":[" ++
    commaSeparated (report.directories.map directoryVerificationText) ++
    ascii "],\"files\":[" ++ commaSeparated (report.files.map fileVerificationText) ++
    ascii "],\"install_id\":" ++ jsonString report.installId ++
    ascii ",\"installed_state_digest\":" ++ jsonString report.installedStateDigest ++
    ascii ",\"ownership_manifest_digest\":" ++ jsonString report.ownershipManifestDigest ++
    ascii ",\"report_id\":" ++ jsonString report.reportId ++
    ascii ",\"status\":" ++ jsonString (ascii report.status.name) ++
    ascii ",\"summary\":\x7b\"missing_files\":" ++ decimal report.missingFiles ++
    ascii ",\"modified_files\":" ++ decimal report.modifiedFiles ++
    ascii ",\"owned_files\":" ++ decimal report.files.length ++
    ascii ",\"unknown_paths\":" ++ decimal report.unknownPaths.length ++
    ascii "\x7d,\"unknown_paths\":[" ++ commaSeparated (report.unknownPaths.map jsonString) ++
    ascii "],\"verified_at\":" ++ jsonString report.verifiedAt ++ ascii "\x7d"

def verificationDigest (report : VerificationReport) : Bytes :=
  Usk.sha256 (verificationText report)

/-! ## The walk -/

/-- What `observe_maintenance_file` returns. -/
structure MaintenanceFileObservation where
  nativeIdentity : Bytes
  sha256 : Bytes
  sizeBytes : UInt64
deriving DecidableEq

def observeMaintenanceFile (storage : Storage) (path : Path) :
    Result MaintenanceFileObservation := do
  let file ← storage.stableFile path
  pure ⟨file.2.identity, Usk.sha256 file.1, UInt64.ofNat file.1.length⟩

/-- One round of the loop over the owned files. -/
def verifyFile (storage : Storage) (root : Path) (file : OwnedFile) : FileVerification :=
  let path := root.join ⟨file.relativePath⟩
  let item := fun status actual =>
    { relativePath := file.relativePath, status, expectedSha256 := file.sha256,
      actualSha256 := actual : FileVerification }
  match storage.status path with
  | .ok (some (.file _ _)) =>
    match observeMaintenanceFile storage path with
    | .ok actual =>
      item (if actual.sizeBytes == file.sizeBytes && actual.sha256 == file.sha256 then .present
        else .modified) actual.sha256
    | .error _ => item .unreadable []
  | .ok (some (.link false)) => item .missing []
  | .ok (some _) => item .wrongType []
  | _ => item .missing []

/-- One round of the loop over the owned directories. -/
def verifyDirectory (storage : Storage) (root : Path) (directory : Bytes) :
    DirectoryVerification :=
  match storage.status (root.join ⟨directory⟩) with
  | .ok (some (.directory _ _)) => ⟨directory, .present⟩
  | .ok (some (.link false)) => ⟨directory, .missing⟩
  | .ok (some _) => ⟨directory, .wrongType⟩
  | _ => ⟨directory, .missing⟩

/-- `charge_report_path`: the entries and the path bytes so far. -/
def chargeReportPath (used : Nat × Nat) (path : Bytes) : Result (Nat × Nat) := do
  demand (decide (used.1 < maximumVerificationReportEntries) &&
      decide (path.length ≤ maximumVerificationReportPathBytes - used.2))
    "lifecycle verification report exceeds entry/path budget"
  pure (used.1 + 1, used.2 + path.length)

def chargeReportPaths : Nat × Nat → List Bytes → Result (Nat × Nat)
  | used, [] => .ok used
  | used, path :: rest => do
    let used ← chargeReportPath used path
    chargeReportPaths used rest

/-- The relative paths of what stands below a directory. -/
def pathsBelow (storage : Storage) (root : Path) : List Bytes :=
  match storage.disk.resolve [] (storage.fromRoot root).names with
  | none => []
  | some place =>
    ((storage.disk.tree.part place).filter fun e => !e.1.isEmpty).map fun e => joinSlash e.1

def verdict (missingFiles modifiedFiles : Nat) (unknownPaths : List Bytes) : Verdict :=
  if missingFiles ≠ 0 ∨ modifiedFiles ≠ 0 then .fail
  else if unknownPaths.isEmpty then .pass
  else .warn

/-- `verify_manifest`, from what the host answers about the owned files and directories, about the
root and about the paths below it. -/
def manifestReport (fileAt : OwnedFile → FileVerification)
    (directoryAt : Bytes → DirectoryVerification) (rootPresent : Result Bool)
    (pathsMet : List Bytes) (state : InstalledState) (ownership : OwnershipManifest)
    (reportId verifiedAt : Bytes) : Result VerificationReport := do
  let used ← chargeReportPaths (0, 0) (ownership.files.map OwnedFile.relativePath)
  let used ← chargeReportPaths used ownership.directories
  let files := ownership.files.map fileAt
  let missingFiles := files.countP fun file => file.status == .missing
  let modifiedFiles := files.countP fun file => file.status != .missing && file.status != .present
  let expected := ownership.files.map OwnedFile.relativePath ++ ownership.directories
  let isDirectory ← rootPresent
  let unknown := if isDirectory then pathsMet.filter fun path => !expected.contains path else []
  let _ ← chargeReportPaths used unknown
  let unknownPaths := (unknown.insertionSort (· ≤ ·)).dedup
  let report : VerificationReport :=
    { reportId, installId := state.installId, installedStateDigest := installedDigest state,
      ownershipManifestDigest := ownership.manifestDigest, verifiedAt,
      status := if isDirectory then verdict missingFiles modifiedFiles unknownPaths else .fail,
      files, directories := ownership.directories.map directoryAt,
      unknownPaths, missingFiles, modifiedFiles }
  pure { report with reportDigest := verificationDigest report }

/-- `verify_manifest` of the tree at a root. -/
def verifyManifest (storage : Storage) (state : InstalledState) (ownership : OwnershipManifest)
    (reportId verifiedAt : Bytes) (root : Path) : Result VerificationReport :=
  manifestReport (verifyFile storage root) (verifyDirectory storage root)
    ((storage.status root).map fun node => node.any Node.isDirectory) (pathsBelow storage root)
    state ownership reportId verifiedAt

theorem verdict_ne_fail {missing modified : Nat} {unknown : List Bytes}
    (h : verdict missing modified unknown ≠ .fail) :
    missing = 0 ∧ modified = 0 ∧ (verdict missing modified unknown = .pass → unknown = []) := by
  unfold verdict at h ⊢
  split at h
  · exact absurd rfl h
  · next hcounts =>
    rw [if_neg hcounts]
    rw [not_or, not_not, not_not] at hcounts
    refine ⟨hcounts.1, hcounts.2, fun hpass => ?_⟩
    split at hpass
    · next hunknown => exact List.isEmpty_iff.mp hunknown
    · cases hpass

/-- What a report tells that does not fail, and what it tells if it passes. -/
theorem of_manifestReport {fileAt : OwnedFile → FileVerification}
    {directoryAt : Bytes → DirectoryVerification} {rootPresent : Result Bool}
    {pathsMet : List Bytes} {state : InstalledState} {ownership : OwnershipManifest}
    {reportId verifiedAt : Bytes} {report : VerificationReport}
    (h : manifestReport fileAt directoryAt rootPresent pathsMet state ownership reportId
      verifiedAt = .ok report) (hsound : report.status ≠ .fail) :
    rootPresent = .ok true ∧ (∀ file ∈ ownership.files, (fileAt file).status = .present) ∧
    (report.status = .pass → ∀ path ∈ pathsMet,
      path ∈ ownership.files.map OwnedFile.relativePath ++ ownership.directories) := by
  simp only [manifestReport, bind_eq_ok] at h
  obtain ⟨_, -, _, -, isDirectory, hroot, _, -, h⟩ := h
  cases h
  cases isDirectory with
  | false => exact absurd rfl hsound
  | true =>
    obtain ⟨hmissing, hmodified, hpass⟩ := verdict_ne_fail hsound
    rw [List.countP_eq_zero] at hmissing hmodified
    refine ⟨hroot, fun file hfile => ?_, fun hstatus path hpath => ?_⟩
    · have hmem : fileAt file ∈ ownership.files.map fileAt := List.mem_map_of_mem hfile
      have hthere := hmissing _ hmem
      have hsame := hmodified _ hmem
      rw [beq_iff_eq] at hthere
      rw [Bool.and_eq_true, bne_iff_ne, bne_iff_ne, not_and, not_not] at hsame
      exact hsame hthere
    · by_contra hnot
      -- an unknown path stays in the list when it is sorted
      have hmem : path ∈ ((pathsMet.filter fun path =>
          !(ownership.files.map OwnedFile.relativePath ++ ownership.directories).contains path
          ).insertionSort (· ≤ ·)).dedup := by
        rw [List.mem_dedup, (List.perm_insertionSort _ _).mem_iff, List.mem_filter]
        refine ⟨hpath, ?_⟩
        rw [Bool.not_eq_true', List.contains_eq_mem, decide_eq_false hnot]
      have hnil := hpass hstatus
      rw [if_pos rfl] at hnil
      rw [hnil] at hmem
      cases hmem

/-! ## Current records -/

/-- The constructor of `StateRepository`. -/
def openState (storage : Storage) (stateRoot : Path) : Result StateRepository := do
  let root ← storage.normalRoot stateRoot
  storage.disk.requireSafeDirectory root.1
  pure ⟨root.1, root.2⟩

def ownershipIdFromRef (reference : Bytes) : Result Bytes := do
  demand ((ascii "ownership/").isPrefixOf reference && decide (15 < reference.length) &&
      reference.drop (reference.length - 5) == ascii ".json")
    "installed-state ownership reference is malformed"
  pure ((reference.drop 10).take (reference.length - 15))

def loadCurrent (storage : Storage) (roots : LifecycleRoots) (installId : Bytes) :
    Result (InstalledState × OwnershipManifest) := do
  let repository ← openState storage roots.stateRoot
  let state ← repository.readInstalled storage.disk installId
  let ownershipId ← ownershipIdFromRef state.ownershipManifestRef
  let ownership ← repository.readOwnership storage.disk ownershipId
  pure (state, ownership)

end Usk.Lifecycle

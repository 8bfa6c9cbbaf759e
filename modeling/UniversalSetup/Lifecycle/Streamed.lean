import UniversalSetup.Json.Digest
import UniversalSetup.Lifecycle.Plans

/-!
# Streamed digests

The digests of an uninstall plan and of an ownership manifest are taken piece by piece, in an order
that is written out by hand, so that no second document is kept. The pieces make the canonical text
of the document. Here a status is any text, as in the source; the plans that `plan_uninstall` makes
have the texts of `ObjectStatus` and `Verdict`.
-/

namespace Usk.Lifecycle

open Json State

/-- `Sha256` fed with `hash_text`, once for every piece. -/
def hashPieces (pieces : List Bytes) : Bytes :=
  (pieces.foldl Sha256.update {}).finish

theorem hashPieces_eq (pieces : List Bytes) : hashPieces pieces = sha256 pieces.flatten := by
  rw [hashPieces, foldl_update, sha256]

/-- A loop that feeds a comma before every round but the first. -/
def loopPieces (first : Bool) : List (List Bytes) → List Bytes
  | [] => []
  | pieces :: rest => (if first then [] else [ascii ","]) ++ pieces ++ loopPieces false rest

theorem flatten_loopPieces : ∀ rounds : List (List Bytes),
    (loopPieces true rounds).flatten = commaSeparated (rounds.map List.flatten)
  | [] => rfl
  | [pieces] => by
    simp only [loopPieces, if_true, List.nil_append, List.append_nil, List.map_singleton,
      commaSeparated]
  | pieces :: next :: rest => by
    have ih := flatten_loopPieces (next :: rest)
    simp only [loopPieces, if_true, List.nil_append, List.map_cons, List.flatten_append] at ih
    simp only [loopPieces, if_true, List.nil_append, Bool.false_eq_true, if_false, List.map_cons,
      commaSeparated, List.flatten_append, List.flatten_singleton, List.append_assoc, ← ih]

/-! ## Uninstall plans -/

/-- `FileVerification`. -/
structure FileText where
  relativePath : Bytes
  status : Bytes
  expectedSha256 : Bytes
  actualSha256 : Bytes

/-- The part of a `VerificationReport` that a plan binds. -/
structure ReportText where
  status : Bytes
  files : List FileText
  unknownPaths : List Bytes

/-- `UninstallPlan`. -/
structure UninstallText extends PlanBasis where
  verification : ReportText

/-- A file in `hash_verification_binding`. -/
def filePieces (file : FileText) : List Bytes :=
  [ascii "\x7b\"actual_sha256\":", jsonString file.actualSha256, ascii ",\"expected_sha256\":",
    jsonString file.expectedSha256, ascii ",\"relative_path\":", jsonString file.relativePath,
    ascii ",\"status\":", jsonString file.status, ascii "\x7d"]

/-- `hash_verification_binding`. -/
def bindingPieces (report : ReportText) : List Bytes :=
  [ascii "\x7b\"files\":["] ++ loopPieces true (report.files.map filePieces) ++
    [ascii "],\"status\":", jsonString report.status, ascii ",\"unknown_paths\":["] ++
    loopPieces true (report.unknownPaths.map fun path => [jsonString path]) ++ [ascii "]\x7d"]

/-- The pieces of `uninstall_plan_digest`, for roots that are spelled out. -/
def uninstallPieces (plan : UninstallText) (auditRoot stagingParent stateRoot : Bytes) :
    List Bytes :=
  [ascii "\x7b\"audit_root\":", jsonString auditRoot, ascii ",\"created_at\":",
    jsonString plan.createdAt, ascii ",\"install_id\":", jsonString plan.installId,
    ascii ",\"installed_state_digest\":", jsonString plan.installedStateDigest,
    ascii ",\"operation\":\"uninstall\",\"ownership_manifest_digest\":",
    jsonString plan.ownershipManifestDigest, ascii ",\"plan_id\":", jsonString plan.planId,
    ascii ",\"policy_digest\":", jsonString plan.policyDigest, ascii ",\"staging_parent\":",
    jsonString stagingParent, ascii ",\"state_root\":", jsonString stateRoot,
    ascii ",\"verification\":"] ++ bindingPieces plan.verification ++ [ascii "\x7d"]

/-- `uninstall_plan_digest`. -/
def UninstallText.digest (storage : Storage) (plan : UninstallText) : Result Bytes := do
  let auditRoot ← rootText storage plan.roots.auditRoot
  let stagingParent ← rootText storage plan.roots.stagingParent
  let stateRoot ← rootText storage plan.roots.stateRoot
  pure (hashPieces (uninstallPieces plan auditRoot stagingParent stateRoot))

/-- A file in `verification_binding`. -/
def fileTextMembers (file : FileText) : List (Bytes × Value) :=
  [(ascii "actual_sha256", .string file.actualSha256),
    (ascii "expected_sha256", .string file.expectedSha256),
    (ascii "relative_path", .string file.relativePath), (ascii "status", .string file.status)]

def fileTextValue (file : FileText) : Value :=
  .object (ByteMap.ofList (fileTextMembers file))

/-- `verification_binding`. -/
def ReportText.members (report : ReportText) : List (Bytes × Value) :=
  [(ascii "files", .array (report.files.map fileTextValue)),
    (ascii "status", .string report.status),
    (ascii "unknown_paths", .array (report.unknownPaths.map .string))]

def ReportText.binding (report : ReportText) : Value :=
  .object (ByteMap.ofList report.members)

def uninstallMembers (plan : UninstallText) (auditRoot stagingParent stateRoot : Bytes) :
    List (Bytes × Value) :=
  basisMembers plan.toPlanBasis "uninstall" stagingParent stateRoot auditRoot ++
    [(ascii "verification", plan.verification.binding)]

/-- `uninstall_plan_payload`. -/
def UninstallText.payload (storage : Storage) (plan : UninstallText) : Result Value := do
  let auditRoot ← rootText storage plan.roots.auditRoot
  let stagingParent ← rootText storage plan.roots.stagingParent
  let stateRoot ← rootText storage plan.roots.stateRoot
  pure (.object (ByteMap.ofList (uninstallMembers plan auditRoot stagingParent stateRoot)))

theorem flatten_filePieces (file : FileText) :
    (filePieces file).flatten = canonical (fileTextValue file) := by
  have hsorted : Sorted (fileTextMembers file) := by
    refine List.pairwise_map.mp (?_ : (ByteMap.keys (fileTextMembers file)).Pairwise (· < ·))
    show ["actual_sha256", "expected_sha256", "relative_path", "status"].map ascii
      |>.Pairwise (· < ·)
    decide
  have hactual : ascii "\x7b\"actual_sha256\":" =
      0x7b :: (escaped (ascii "actual_sha256") ++ [0x3a]) := by decide
  have hexpected : ascii ",\"expected_sha256\":" =
      0x2c :: (escaped (ascii "expected_sha256") ++ [0x3a]) := by decide
  have hpath : ascii ",\"relative_path\":" =
      0x2c :: (escaped (ascii "relative_path") ++ [0x3a]) := by decide
  have hstatus : ascii ",\"status\":" = 0x2c :: (escaped (ascii "status") ++ [0x3a]) := by decide
  have hend : ascii "\x7d" = [0x7d] := by decide
  rw [fileTextValue, ByteMap.ofList_of_sorted hsorted, filePieces, hactual, hexpected, hpath,
    hstatus, hend]
  simp [fileTextMembers, canonical, canonicalMembers, jsonString_eq]

theorem flatten_bindingPieces (report : ReportText) :
    (bindingPieces report).flatten = canonical report.binding := by
  have hsorted : Sorted report.members := by
    refine List.pairwise_map.mp (?_ : (ByteMap.keys report.members).Pairwise (· < ·))
    show ["files", "status", "unknown_paths"].map ascii |>.Pairwise (· < ·)
    decide
  have hfiles : ascii "\x7b\"files\":[" = 0x7b :: (escaped (ascii "files") ++ [0x3a, 0x5b]) := by
    decide
  have hstatus : ascii "],\"status\":" =
      0x5d :: 0x2c :: (escaped (ascii "status") ++ [0x3a]) := by decide
  have hunknown : ascii ",\"unknown_paths\":[" =
      0x2c :: (escaped (ascii "unknown_paths") ++ [0x3a, 0x5b]) := by decide
  have hend : ascii "]\x7d" = [0x5d, 0x7d] := by decide
  have hfileLoop : (loopPieces true (report.files.map filePieces)).flatten =
      canonicalItems (report.files.map fileTextValue) := by
    rw [flatten_loopPieces, List.map_map,
      canonicalItems_map fun file => (flatten_filePieces file).symm]
    rfl
  have hpathLoop : (loopPieces true (report.unknownPaths.map fun path =>
      [jsonString path])).flatten = canonicalItems (report.unknownPaths.map .string) := by
    rw [flatten_loopPieces, List.map_map, canonicalItems_map fun path => (jsonString_eq path).symm]
    simp only [Function.comp_def, List.flatten_singleton]
  rw [ReportText.binding, ByteMap.ofList_of_sorted hsorted, bindingPieces, hfiles, hstatus,
    hunknown, hend]
  simp only [List.flatten_append, hfileLoop, hpathLoop]
  simp [ReportText.members, canonical, canonicalMembers, jsonString_eq]

theorem flatten_uninstallPieces (plan : UninstallText) (auditRoot stagingParent stateRoot : Bytes) :
    (uninstallPieces plan auditRoot stagingParent stateRoot).flatten =
      canonical (.object (ByteMap.ofList (uninstallMembers plan auditRoot stagingParent
        stateRoot))) := by
  have hsorted : Sorted (uninstallMembers plan auditRoot stagingParent stateRoot) := by
    refine List.pairwise_map.mp
      (?_ : (ByteMap.keys (uninstallMembers plan auditRoot stagingParent stateRoot)).Pairwise
        (· < ·))
    show ["audit_root", "created_at", "install_id", "installed_state_digest", "operation",
      "ownership_manifest_digest", "plan_id", "policy_digest", "staging_parent", "state_root",
      "verification"].map ascii |>.Pairwise (· < ·)
    decide +kernel
  have haudit : ascii "\x7b\"audit_root\":" =
      0x7b :: (escaped (ascii "audit_root") ++ [0x3a]) := by decide
  have hcreated : ascii ",\"created_at\":" =
      0x2c :: (escaped (ascii "created_at") ++ [0x3a]) := by decide
  have hinstall : ascii ",\"install_id\":" =
      0x2c :: (escaped (ascii "install_id") ++ [0x3a]) := by decide
  have hstate : ascii ",\"installed_state_digest\":" =
      0x2c :: (escaped (ascii "installed_state_digest") ++ [0x3a]) := by decide
  have hoperation : ascii ",\"operation\":\"uninstall\",\"ownership_manifest_digest\":" =
      0x2c :: (escaped (ascii "operation") ++ 0x3a :: (escaped (ascii "uninstall") ++
        0x2c :: (escaped (ascii "ownership_manifest_digest") ++ [0x3a]))) := by decide
  have hplan : ascii ",\"plan_id\":" = 0x2c :: (escaped (ascii "plan_id") ++ [0x3a]) := by decide
  have hpolicy : ascii ",\"policy_digest\":" =
      0x2c :: (escaped (ascii "policy_digest") ++ [0x3a]) := by decide
  have hstaging : ascii ",\"staging_parent\":" =
      0x2c :: (escaped (ascii "staging_parent") ++ [0x3a]) := by decide
  have hroot : ascii ",\"state_root\":" =
      0x2c :: (escaped (ascii "state_root") ++ [0x3a]) := by decide
  have hverification : ascii ",\"verification\":" =
      0x2c :: (escaped (ascii "verification") ++ [0x3a]) := by decide
  have hend : ascii "\x7d" = [0x7d] := by decide
  rw [ByteMap.ofList_of_sorted hsorted, uninstallPieces, haudit, hcreated, hinstall, hstate,
    hoperation, hplan, hpolicy, hstaging, hroot, hverification, hend]
  simp only [List.flatten_append, flatten_bindingPieces]
  simp [uninstallMembers, basisMembers, canonical, canonicalMembers, jsonString_eq]

theorem UninstallText.digest_eq (storage : Storage) (plan : UninstallText) :
    plan.digest storage = CanonicalDigest.sha256Canonical <$> plan.payload storage := by
  simp only [UninstallText.digest, UninstallText.payload, map_bind, map_pure, hashPieces_eq,
    flatten_uninstallPieces, CanonicalDigest.sha256Canonical_eq]

/-! ## Ownership manifests -/

/-- The pieces of `ownership_digest`. -/
def ownershipPieces (manifest : OwnershipManifest) : List Bytes :=
  [ascii "\x7b\"created_by_transaction_id\":", quoted manifest.createdByTransactionId,
    ascii ",\"directories\":["] ++
    loopPieces true (manifest.directories.map fun directory =>
      [ascii "\x7b\"relative_path\":", quoted directory, ascii "\x7d"]) ++
    [ascii "],\"files\":["] ++
    loopPieces true (manifest.files.map fun file =>
      [ascii "\x7b\"relative_path\":", quoted file.relativePath, ascii ",\"sha256\":",
        quoted file.sha256, ascii ",\"size_bytes\":", decimal file.sizeBytes.toNat,
          ascii "\x7d"]) ++
    [ascii "],\"install_id\":", quoted manifest.installId, ascii ",\"manifest_id\":",
      quoted manifest.manifestId,
      ascii ",\"schema\":\"usk.ownership_manifest.v1\",\"target_root\":",
      quoted manifest.targetRoot, ascii "\x7d"]

theorem flatten_ownershipPieces (manifest : OwnershipManifest) :
    (ownershipPieces manifest).flatten = ownershipText manifest := by
  have hdirectory (directory : Bytes) :
      [ascii "\x7b\"relative_path\":", quoted directory, ascii "\x7d"].flatten =
        directoryPiece directory := by
    simp [directoryPiece]
  have hfile (file : OwnedFile) : [ascii "\x7b\"relative_path\":", quoted file.relativePath,
      ascii ",\"sha256\":", quoted file.sha256, ascii ",\"size_bytes\":",
      decimal file.sizeBytes.toNat, ascii "\x7d"].flatten = filePiece file := by
    simp [filePiece]
  simp only [ownershipPieces, ownershipText, List.flatten_append, flatten_loopPieces, List.map_map,
    Function.comp_def, hdirectory, hfile]
  simp

/-- The digest that the model of the state repository uses. -/
theorem ownershipDigest_pieces (manifest : OwnershipManifest) :
    ownershipDigest manifest = hashPieces (ownershipPieces manifest) := by
  rw [hashPieces_eq, flatten_ownershipPieces, ownershipDigest]

/-! ## The digests are those of the documents -/

/-- The streamed digest of an uninstall plan and of an ownership manifest is the digest of its
document, and both escape strings as the JSON library does. -/
theorem streamed_digests_canonical :
    (∀ (storage : Storage) (plan : UninstallText),
      plan.digest storage = CanonicalDigest.sha256Canonical <$> plan.payload storage) ∧
    (∀ manifest : OwnershipManifest, hashPieces (ownershipPieces manifest) =
      CanonicalDigest.sha256Canonical (ownershipPayload manifest)) ∧
    ∀ value : Bytes, jsonString value = canonicalText (.string value) := by
  refine ⟨UninstallText.digest_eq, fun manifest => ?_, fun value => ?_⟩
  · rw [hashPieces_eq, flatten_ownershipPieces, ownershipText_eq,
      CanonicalDigest.sha256Canonical_eq]
  · rw [jsonString_eq, canonicalText_eq]

end Usk.Lifecycle

import UniversalSetup.Lifecycle.Verify
import UniversalSetup.Transaction.Spec

/-!
# Reviewed plans

A plan of a maintenance operation is made from the current records and the installed tree. Its
digest is over a payload that names everything the operator reviews: the records and roots that the
plan is for, and the files that it will touch.
-/

namespace Usk.Lifecycle

open Json State Transaction

/-- `PreimageResourceObservation`. -/
structure PreimageResource where
  volumeId : Bytes
  fileId : Bytes
  modifiedTimeNs : UInt64
  linkCount : UInt64
deriving DecidableEq

/-- A file of a complete tree with what was observed of it. -/
structure PreimageEntry where
  file : PreimageFile
  resource : PreimageResource
deriving DecidableEq

/-- `fs::absolute(path).lexically_normal().generic_string()`. -/
def rootText (storage : Storage) (path : Path) : Result Bytes := do
  let path ← storage.absoluteNormal path
  pure path.generic

/-- A digest that the caller may leave out. -/
def digestOrZero (digest : Bytes) : Bytes :=
  if digest.isEmpty then List.replicate 64 0x30 else digest

/-- `read_complete_tree` of a directory of the file system. The path is in normal form. -/
def completeTree (storage : Storage) (root : Path) : Result (List PreimageEntry) := do
  let tree ← readCompleteTree root (storage.disk.tree.part root.segments)
  pure (tree.1.map fun file =>
    let stamp := storage.stamp (root.segments ++ splitSlash file.relativePath)
    ⟨file, ⟨hexId stamp.device, hexId stamp.inode, stamp.modified, 1⟩⟩)

/-! ## Documents -/

def payloadFileValue (file : PayloadFile) : Value :=
  .object (ByteMap.ofList
    [(ascii "relative_path", .string file.relativePath), (ascii "sha256", .string file.sha256),
     (ascii "size_bytes", .unsigned file.sizeBytes)])

def resourceValue (resource : PreimageResource) : Value :=
  .object (ByteMap.ofList
    [(ascii "file_id", .string resource.fileId), (ascii "link_count", .unsigned resource.linkCount),
     (ascii "modified_time_ns", .unsigned resource.modifiedTimeNs),
     (ascii "volume_id", .string resource.volumeId)])

def preimageFileValue (entry : PreimageEntry) : Value :=
  .object (ByteMap.ofList
    [(ascii "relative_path", .string entry.file.relativePath),
     (ascii "resource", resourceValue entry.resource),
     (ascii "sha256", .string entry.file.sha256),
     (ascii "size_bytes", .unsigned entry.file.sizeBytes)])

/-- What the three plans have in common. -/
structure PlanBasis where
  planId : Bytes
  createdAt : Bytes
  installId : Bytes
  installedStateDigest : Bytes
  ownershipManifestDigest : Bytes
  policyDigest : Bytes
  roots : LifecycleRoots

structure RepairPlan extends PlanBasis where
  planDigest : Bytes := []
  sourceDigest : Bytes
  replacementFiles : List PayloadFile

structure MovePlan extends PlanBasis where
  planDigest : Bytes := []
  oldRoot : Path
  oldRootIdentity : Bytes
  newRoot : Path
  stagingParent : Path
  completeFiles : List PreimageEntry

/-- The members that every payload has, for roots that are spelled out. -/
def basisMembers (basis : PlanBasis) (operation : String)
    (stagingParent stateRoot auditRoot : Bytes) : List (Bytes × Value) :=
  [(ascii "audit_root", .string auditRoot),
    (ascii "created_at", .string basis.createdAt),
    (ascii "install_id", .string basis.installId),
    (ascii "installed_state_digest", .string basis.installedStateDigest),
    (ascii "operation", .string (ascii operation)),
    (ascii "ownership_manifest_digest", .string basis.ownershipManifestDigest),
    (ascii "plan_id", .string basis.planId),
    (ascii "policy_digest", .string basis.policyDigest),
    (ascii "staging_parent", .string stagingParent),
    (ascii "state_root", .string stateRoot)]

def repairPlanPayload (storage : Storage) (plan : RepairPlan) : Result Value := do
  let auditRoot ← rootText storage plan.roots.auditRoot
  let stagingParent ← rootText storage plan.roots.stagingParent
  let stateRoot ← rootText storage plan.roots.stateRoot
  pure (.object (ByteMap.ofList
    (basisMembers plan.toPlanBasis "repair" stagingParent stateRoot auditRoot ++
      [(ascii "replacement_files", .array (plan.replacementFiles.map payloadFileValue)),
        (ascii "source_digest", .string plan.sourceDigest)])))

def movePlanPayload (storage : Storage) (plan : MovePlan) : Result Value := do
  let auditRoot ← rootText storage plan.roots.auditRoot
  let stateRoot ← rootText storage plan.roots.stateRoot
  pure (.object (ByteMap.ofList
    (basisMembers plan.toPlanBasis "move" plan.stagingParent.generic stateRoot auditRoot ++
      [(ascii "complete_files", .array (plan.completeFiles.map preimageFileValue)),
        (ascii "new_root", .string plan.newRoot.generic),
        (ascii "old_root", .string plan.oldRoot.generic),
        (ascii "old_root_identity", .string plan.oldRootIdentity)])))

/-! ## Planning -/

/-- The check that every plan starts with. -/
def checkPlanIdentity (installId planId createdAt : Bytes) (message : String) : Result Unit :=
  demand (validIdentifier installId && validIdentifier planId && validTimestamp createdAt) message

/-- `require_result_record_capacity` before there is a transaction. Path capacities are not limited
on POSIX. -/
def requireResultRecordCapacity (auditChainId : Bytes) : Result Unit :=
  demand (validIdentifier auditChainId) "audit chain id is invalid"

def basisOf (roots : LifecycleRoots) (current : InstalledState × OwnershipManifest)
    (planId createdAt installId policyDigest : Bytes) : PlanBasis :=
  { planId, createdAt, installId, installedStateDigest := installedDigest current.1,
    ownershipManifestDigest := current.2.manifestDigest,
    policyDigest := digestOrZero policyDigest, roots }

/-- The verification that a plan is made from. -/
def verifyBefore (storage : Storage) (current : InstalledState × OwnershipManifest)
    (planId createdAt : Bytes) : Result VerificationReport :=
  verifyManifest storage current.1 current.2 (ascii "verify." ++ planId ++ ascii ".before")
    createdAt ⟨current.1.targetRoot⟩

/-- The loop of `plan_repair` over the verified files: the paths to be repaired. -/
def affectedFiles (sources : List PayloadFile) : List FileVerification → Result (List Bytes)
  | [] => .ok []
  | file :: rest => do
    demand (sources.any fun source =>
        source.relativePath == file.relativePath && source.sha256 == file.expectedSha256)
      "repair source does not reproduce the exact owned closure"
    let affected ← affectedFiles sources rest
    pure (if file.status == .present then affected else file.relativePath :: affected)

def planRepair (storage : Storage) (roots : LifecycleRoots) (installId planId createdAt : Bytes)
    (exactSourceFiles : List PayloadFile) (sourceDigest policyDigest : Bytes) :
    Result RepairPlan := do
  checkPlanIdentity installId planId createdAt "repair plan identity is invalid"
  let sources ← normalizeFiles exactSourceFiles
  let current ← loadCurrent storage roots installId
  let before ← verifyBefore storage current planId createdAt
  let affected ← affectedFiles sources before.files
  demand (sources.length == current.2.files.length)
    "repair source contains foreign or omitted files"
  demand (!affected.isEmpty) "repair plan has no missing or modified owned files"
  requireResultRecordCapacity current.1.auditChainId
  let plan : RepairPlan :=
    { toPlanBasis := basisOf roots current planId createdAt installId policyDigest
      sourceDigest := digestOrZero sourceDigest
      replacementFiles := sources.filter fun file => affected.contains file.relativePath }
  let payload ← repairPlanPayload storage plan
  pure { plan with planDigest := sha256Canonical payload }

def planMove (storage : Storage) (roots : LifecycleRoots) (installId planId createdAt : Bytes)
    (newRoot : Path) (policyDigest : Bytes) : Result MovePlan := do
  checkPlanIdentity installId planId createdAt "move plan identity is invalid"
  let current ← loadCurrent storage roots installId
  let before ← verifyBefore storage current planId createdAt
  demand (before.status != .fail) "move refuses a damaged owned closure; repair first"
  let oldRoot ← storage.absoluteNormal ⟨current.1.targetRoot⟩
  let newRoot ← storage.absoluteNormal newRoot
  storage.disk.requireSafeDirectory newRoot.parentPath
  let clobbers ← storage.disk.existsAt newRoot
  demand (!(oldRoot.same newRoot || clobbers)) "move destination is identical or already exists"
  let oldRootIdentity ← storage.disk.directoryIdentity oldRoot
  let completeFiles ← completeTree storage oldRoot
  requireResultRecordCapacity current.1.auditChainId
  let plan : MovePlan :=
    { toPlanBasis := basisOf roots current planId createdAt installId policyDigest
      oldRoot, oldRootIdentity, newRoot, stagingParent := newRoot.parentPath, completeFiles }
  let payload ← movePlanPayload storage plan
  pure { plan with planDigest := sha256Canonical payload }

/-! ## Installing -/

structure RecipeBinding where
  productId : Bytes
  productVersion : Bytes
  recipeDigest : Bytes
  sourceArchiveDigest : Bytes
  sourceIdentityDigest : Bytes
  entrySetDigest : Bytes
  restartPolicyContext : Bytes
  policyDigest : Bytes
  providerRevision : Bytes
  components : List Bytes
  entrypoints : List Entrypoint

structure InstallPlan where
  planId : Bytes
  planDigest : Bytes := []
  installId : Bytes
  createdAt : Bytes
  targetRoot : Path
  roots : LifecycleRoots
  recipe : RecipeBinding
  files : List PayloadFile
  requiredCommitAuthority : CommitAuthorityRequirement

/-- The loop of `validate_recipe` over the components. -/
def selectComponents : (seen components : List Bytes) → Result Unit
  | _, [] => .ok ()
  | seen, component :: rest => do
    demand (validIdentifier component && !seen.contains component)
      "lifecycle component selection is invalid"
    selectComponents (component :: seen) rest

/-- The loop of `validate_recipe` over the entrypoints. -/
def selectEntrypoints : (seen : List Bytes) → List Entrypoint → Result Unit
  | _, [] => .ok ()
  | seen, entrypoint :: rest => do
    demand (validIdentifier entrypoint.entrypointId && safeRelative entrypoint.relativePath &&
        oneOf entrypointKinds entrypoint.kind && !seen.contains entrypoint.entrypointId)
      "lifecycle entrypoint is invalid"
    selectEntrypoints (entrypoint.entrypointId :: seen) rest

def validateRecipe (recipe : RecipeBinding) : Result Unit := do
  demand (validIdentifier recipe.productId && !recipe.productVersion.isEmpty &&
      validIdentifier recipe.providerRevision && validSha256 recipe.recipeDigest &&
      validSha256 recipe.sourceArchiveDigest && validSha256 recipe.policyDigest &&
      !recipe.components.isEmpty && !recipe.entrypoints.isEmpty)
    "lifecycle recipe binding is invalid"
  demand (recipe.sourceIdentityDigest.isEmpty && recipe.entrySetDigest.isEmpty ||
      validSha256 recipe.sourceIdentityDigest && validSha256 recipe.entrySetDigest)
    "lifecycle archive identity and entry-set binding is incomplete"
  selectComponents [] recipe.components
  selectEntrypoints [] recipe.entrypoints

/-- The members of `plan_payload` that are there only in some plans. -/
def optionalMembers (plan : InstallPlan) : List (Bytes × Value) :=
  (if plan.requiredCommitAuthority = .stagedChildBoundV1 then
    [(ascii "required_commit_authority", .string (ascii "staged_child_bound_v1"))] else []) ++
  if plan.recipe.sourceIdentityDigest.isEmpty then []
  else [(ascii "source_identity_digest", .string plan.recipe.sourceIdentityDigest),
    (ascii "entry_set_digest", .string plan.recipe.entrySetDigest),
    (ascii "restart_policy_context", .string plan.recipe.restartPolicyContext)]

def planPayload (storage : Storage) (plan : InstallPlan) : Result Value := do
  let auditRoot ← rootText storage plan.roots.auditRoot
  let stagingParent ← rootText storage plan.roots.stagingParent
  let stateRoot ← rootText storage plan.roots.stateRoot
  let targetRoot ← rootText storage plan.targetRoot
  pure (.object (ByteMap.ofList
    ([(ascii "audit_root", .string auditRoot),
      (ascii "component_selection", .array (plan.recipe.components.map .string)),
      (ascii "created_at", .string plan.createdAt),
      (ascii "entrypoints", .array (plan.recipe.entrypoints.map entrypointValue)),
      (ascii "files", .array (plan.files.map payloadFileValue)),
      (ascii "install_id", .string plan.installId),
      (ascii "operation", .string (ascii "install_local")),
      (ascii "plan_id", .string plan.planId),
      (ascii "policy_digest", .string plan.recipe.policyDigest),
      (ascii "product_id", .string plan.recipe.productId),
      (ascii "product_version", .string plan.recipe.productVersion),
      (ascii "provider_revision", .string plan.recipe.providerRevision),
      (ascii "recipe_digest", .string plan.recipe.recipeDigest),
      (ascii "source_archive_digest", .string plan.recipe.sourceArchiveDigest),
      (ascii "staging_parent", .string stagingParent),
      (ascii "state_root", .string stateRoot),
      (ascii "target_root", .string targetRoot)] ++ optionalMembers plan)))

def validatePlan (storage : Storage) (plan : InstallPlan) : Result Unit := do
  demand (validIdentifier plan.planId && validIdentifier plan.installId &&
      validTimestamp plan.createdAt && validSha256 plan.planDigest)
    "install plan identity is invalid"
  validateRecipe plan.recipe
  validateNormalizedFiles plan.files
  demand (plan.recipe.entrypoints.all fun entrypoint =>
      (plan.files.map PayloadFile.relativePath).contains entrypoint.relativePath)
    "install plan entrypoint is not an owned payload file"
  let payload ← planPayload storage plan
  demand (sha256Canonical payload == plan.planDigest)
    "install plan digest does not bind its current inputs"
  requireResultRecordCapacity (ascii "audit." ++ plan.installId)

def planInstall (storage : Storage) (planId installId createdAt : Bytes) (targetRoot : Path)
    (roots : LifecycleRoots) (recipe : RecipeBinding) (files : List PayloadFile)
    (requiredCommitAuthority : CommitAuthorityRequirement) : Result InstallPlan := do
  let targetRoot ← storage.absoluteNormal targetRoot
  let stagingParent ← storage.absoluteNormal roots.stagingParent
  let stateRoot ← storage.absoluteNormal roots.stateRoot
  let auditRoot ← storage.absoluteNormal roots.auditRoot
  validateRecipe recipe
  let files ← normalizeFiles files
  let plan : InstallPlan :=
    { planId, installId, createdAt, targetRoot, roots := ⟨stagingParent, stateRoot, auditRoot⟩,
      recipe, files, requiredCommitAuthority }
  let payload ← planPayload storage plan
  let plan := { plan with planDigest := sha256Canonical payload }
  validatePlan storage plan
  pure plan

end Usk.Lifecycle

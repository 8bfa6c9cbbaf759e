import UniversalSetup.Archive.Payload
import UniversalSetup.Lifecycle.Plans
import UniversalSetup.Policy.Inspect

/-!
# Planning on behalf of an operator

The public commands take a request and a configuration. They check the shape of the request, the
authority over the setup-state root and the policy for the target, and then make the plan of the
lifecycle.

`install_local.plan` refuses a target that is the setup-state root, is below it or above it.
`move.plan` leaves this to the policy, which knows only the protected roots of the host.
-/

namespace Usk.Public

open Json Policy Lifecycle State Transaction

variable {p : Path} {request : Value}

/-- What a command fails with: a `PublicError` with its code, or another exception. -/
inductive Failure where
  | refused (code message : String)
  | fault (message : String)
deriving DecidableEq

abbrev Answer (α : Type) : Type :=
  Except Failure α

/-- A failure of the layers below. -/
def lift {α : Type} (result : Result α) : Answer α :=
  match result with
  | .ok a => .ok a
  | .error message => .error (.fault message)

/-- `if (!holds) throw PublicError(code, message);`. -/
def require (holds : Bool) (code message : String) : Answer Unit :=
  if holds then .ok () else .error (.refused code message)

def setupOverheadBytes : Nat := 16 * 1024 * 1024

/-- The host of a command. -/
structure PublicHost extends TargetHost where
  archive : Archive.Host

variable {host : PublicHost}

/-- The roots are in normal form. -/
structure PublicConfig where
  setupRoot : Path
  acceptanceRoot : Path
  activation : Activation
  setupNormal : setupRoot.IsNormal
  acceptanceNormal : acceptanceRoot.IsNormal

variable {config : PublicConfig}

/-! ## Requests -/

/-- `exact_members`. -/
def exactMembers (value : Value) (names : List String) : Answer Unit :=
  match value with
  | .object members => do
    require (members.length == names.length) "invalid_argument"
      "request object has missing or unexpected members"
    match (ByteMap.keys members).find? fun key => !(names.map ascii).contains key with
    | none => pure ()
    | some key => .error (.refused "invalid_argument"
        ("request object has an unexpected member: " ++ Disk.pathText ⟨key⟩))
  | _ => .error (.refused "invalid_argument" "request value must be an object")

def requiredString (value : Value) (name : String) : Answer Bytes := do
  let result ← lift (value.getString name)
  require (!result.isEmpty) "invalid_argument" ("request string is empty: " ++ name)
  pure result

/-- The `catch` clauses of `required_archive_path`. -/
def asInvalidArgument {α : Type} : Answer α → Answer α
  | .error (.fault message) => .error (.refused "invalid_argument" message)
  | answer => answer

def requiredArchivePath (archive : Value) : Answer Path :=
  asInvalidArgument do
    let path ← requiredString archive "path"
    lift (Archive.requireNormalizedAbsoluteLocalPathUtf8 path "archive.path")

def parseTargetClass (value : Bytes) : Option TargetClass :=
  [.fixture, .disposableTest, .operatorAcceptance, .managedPortable, .imported, .foreignOwned,
    .steamManaged, .perUser, .systemWide].find? fun candidate =>
      value == ascii (targetClassName candidate)

def lifecycleRoots (config : PublicConfig) : LifecycleRoots :=
  ⟨config.setupRoot.join ⟨ascii "staging"⟩, config.setupRoot.join ⟨ascii "state"⟩,
    config.setupRoot.join ⟨ascii "audit"⟩⟩

/-! ## Authority over the setup-state root -/

def setupMarkerPath (config : PublicConfig) : Path :=
  config.setupRoot.join ⟨ascii ".usk-owned-root.v1.json"⟩

def setupProbePath (config : PublicConfig) : Path :=
  config.setupRoot.join ⟨ascii ".usk-binding-probe"⟩

def setupRootMarker (config : PublicConfig) : Bytes :=
  canonical (.object (ByteMap.ofList
    [(ascii "acceptance_root", .string config.acceptanceRoot.generic),
      (ascii "schema", .string (ascii "usk.setup_owned_root.v1"))])) ++ [0x0a]

/-- The inspection of the setup-state root. -/
def setupRequest (config : PublicConfig) (source : Path) : TargetInspectionRequest :=
  { targetClass := .operatorAcceptance
    targetRoot := setupProbePath config
    authorizedAcceptanceRoot := config.acceptanceRoot
    sourceArchive := source
    requiredBytes := UInt64.ofNat setupOverheadBytes
    persistentEffects :=
      [ascii "create setup-owned state, staging, journal, and audit repositories under " ++
        config.setupRoot.generic] }

/-- A setup-state root that exists has the marker of the configuration. -/
def requireSetupMarker (storage : Storage) (config : PublicConfig) : Answer Unit :=
  match storage.existsAt config.setupRoot with
  | .error _ => .error (.refused "setup_state_root_unsafe" "cannot inspect setup-state root")
  | .ok false => .ok ()
  | .ok true => do
    lift (storage.disk.requireSafeDirectory config.setupRoot)
    match storage.disk.readStableText (setupMarkerPath config).lexicallyNormal (64 * 1024) with
    | .ok text =>
      require (text == setupRootMarker config) "setup_state_root_unsafe"
        "setup-state ownership marker is incompatible"
    | .error _ => .error (.refused "setup_state_root_unsafe"
        "existing setup-state root is not owned by this authority")

def requireSetupProbe (host : PublicHost) (config : PublicConfig) (source : Path) :
    Answer Unit := do
  requireSetupMarker host.storage config
  let taken ← lift (host.storage.existsAt (setupProbePath config))
  require (!taken) "setup_state_root_unsafe"
    "the reserved setup-state binding probe path already exists"
  let inspected ← lift (inspectAndEvaluateLiveTarget host.toTargetHost config.activation
    (setupRequest config source))
  require inspected.decision.accepted inspected.decision.code
    ("setup-state authority refused: " ++ inspected.decision.detail)

/-! ## `install_local.plan` -/

def archiveInspectionRequest (archive : Value) : Answer Value := do
  exactMembers archive ["path", "format", "expected_sha256", "strip_prefix", "budgets"]
  let budgets ← lift (archive.get "budgets")
  exactMembers budgets ["max_entries", "max_uncompressed_bytes", "max_entry_bytes", "max_depth",
    "max_ratio", "max_elapsed_ms"]
  let format ← requiredString archive "format"
  require (format == ascii "zip") "invalid_argument"
    "public lifecycle currently accepts ZIP archives only"
  let path ← requiredString archive "path"
  pure (.object (ByteMap.ofList
    [(ascii "archive_format", .string (ascii "zip")), (ascii "archive_path", .string path),
      (ascii "budgets", budgets),
      (ascii "schema", .string (ascii "usk.archive_inspect_request.v1"))]))

def restartTargetEvidence (evidence : TargetEvidence) : Value :=
  .object (ByteMap.ofList
    [(ascii "capacity_satisfied", .boolean evidence.capacitySatisfied),
      (ascii "excluded_roots_absent", .boolean evidence.excludedRootsAbsent),
      (ascii "filesystem_identity_digest", .string evidence.filesystemIdentityDigest),
      (ascii "filesystem_kind", .string evidence.filesystemKind),
      (ascii "local_filesystem", .boolean evidence.localFilesystem),
      (ascii "mount_redirection_absent", .boolean evidence.mountRedirectionAbsent),
      (ascii "path_components_stable", .boolean evidence.pathComponentsStable),
      (ascii "source_target_distinct", .boolean evidence.sourceTargetDistinct),
      (ascii "schema", .string (ascii "usk.install_target_recovery_evidence.v1")),
      (ascii "target_identity_digest", .string evidence.targetIdentityDigest),
      (ascii "target_state", .string (ascii (targetStateName evidence.targetState)))])

/-- `policy_digest`: the digest and the restart context. -/
def policyDigest (host : PublicHost) (config : PublicConfig) (target : InspectedTarget)
    (source : Path) : Answer (Bytes × Bytes) := do
  let setup ← lift (inspectAndEvaluateLiveTarget host.toTargetHost config.activation
    (setupRequest config source))
  require setup.decision.accepted setup.decision.code setup.decision.detail
  let policy : Value := .object (ByteMap.ofList
    [(ascii "activation", .string (ascii (activationName config.activation))),
      (ascii "setup_binding_digest", .string setup.decision.targetBindingDigest),
      (ascii "target_binding_digest", .string target.decision.targetBindingDigest)])
  let owned ← lift (host.storage.existsAt config.setupRoot)
  let context : Value := .object (ByteMap.ofList
    [(ascii "policy", policy),
      (ascii "schema", .string (ascii "usk.install_restart_policy_context.v1")),
      (ascii "setup_initial_state", .string (ascii (if owned then "owned" else "absent"))),
      (ascii "target_evidence", restartTargetEvidence target.evidence)])
  pure (sha256Canonical policy, canonical context)

/-- The commit authority that an install request asks for. -/
def requestedAuthority (request : Value) : Answer CommitAuthorityRequirement :=
  let members := ["schema", "request_id", "created_at", "install_id", "archive", "target", "recipe"]
  if request.contains "required_commit_authority" then do
    exactMembers request (members ++ ["required_commit_authority"])
    let authority ← requiredString request "required_commit_authority"
    require (authority == ascii "staged_child_bound_v1") "invalid_argument"
      "unknown required commit authority"
    pure .stagedChildBoundV1
  else do
    exactMembers request members
    pure .legacyObserved

/-- The loop over the components of a recipe. -/
def componentsOf (recipe : Value) : Answer (List Bytes) := do
  let components ← lift (recipe.get "components")
  let components ← lift components.asArray
  components.mapM fun component => lift component.asString

def entrypointOf (entrypoint : Value) : Answer Entrypoint := do
  exactMembers entrypoint ["entrypoint_id", "relative_path", "kind"]
  let entrypointId ← requiredString entrypoint "entrypoint_id"
  let relativePath ← requiredString entrypoint "relative_path"
  let kind ← requiredString entrypoint "kind"
  pure ⟨entrypointId, relativePath, kind⟩

/-- The loop over the entrypoints of a recipe. -/
def entrypointsOf (recipe : Value) : Answer (List Entrypoint) := do
  let entrypoints ← lift (recipe.get "entrypoints")
  let entrypoints ← lift entrypoints.asArray
  entrypoints.mapM entrypointOf

/-- A file of the archive as a file of the payload. -/
def payloadFileOf (host : Archive.Host) (bufferBytes : Nat) (file : Archive.StreamingPayloadFile) :
    PayloadFile :=
  { relativePath := file.relativePath
    sha256 := file.sha256
    sizeBytes := UInt64.ofNat file.sizeBytes
    reader := some (file.reader.read host)
    streamBufferBytes := bufferBytes }

structure InstallPlanBundle where
  plan : InstallPlan
  target : InspectedTarget
  sourcePath : Path
  payload : Archive.StreamingStoredArchivePayload

/-- The source of an install plan: its path and what was found in the archive. -/
def installSource (host : PublicHost) (config : PublicConfig) (request : Value) :
    Answer (Path × Archive.StreamingStoredArchivePayload) := do
  let archive ← lift (request.get "archive")
  let inspectionRequest ← archiveInspectionRequest archive
  let sourcePath ← requiredArchivePath archive
  requireSetupProbe host config sourcePath
  let stripPrefix ← lift (archive.getString "strip_prefix")
  let payload ← lift (Archive.inspectStreamingPayload Arith.wrapping host.archive
    (canonical inspectionRequest) stripPrefix Archive.streamingPayloadBufferBytes true)
  let expected ← requiredString archive "expected_sha256"
  require (payload.origin.sourceSha256 == expected) "source_drift"
    "source archive digest differs from the reviewed request"
  require (decide (payload.uncompressedBytes ≤ 2 ^ 64 - 1 - setupOverheadBytes))
    "target_space_insufficient" "payload size cannot be represented safely"
  pure (sourcePath, payload)

/-- The target of an install plan. It is apart from the setup-state root. -/
def installTarget (host : PublicHost) (config : PublicConfig) (request : Value) (sourcePath : Path)
    (uncompressedBytes : Nat) : Answer (Path × InspectedTarget) := do
  let target ← lift (request.get "target")
  exactMembers target ["root", "class"]
  let className ← requiredString target "class"
  match parseTargetClass className with
  | none => .error (.refused "target_class_forbidden" "target class is unknown")
  | some targetClass => do
    let root ← requiredString target "root"
    let targetRoot : Path := ⟨root⟩
    let under := sameOrBelow host.storage.cwd
    require (!(under config.setupRoot targetRoot || under targetRoot config.setupRoot))
      "target_root_excluded" "the install target and setup-state authority must be disjoint"
    let targetText ← lift (rootText host.storage targetRoot)
    let inspected ← lift (inspectAndEvaluateLiveTarget host.toTargetHost config.activation
      { targetClass, targetRoot, authorizedAcceptanceRoot := config.acceptanceRoot
        sourceArchive := sourcePath
        requiredBytes := UInt64.ofNat (uncompressedBytes + setupOverheadBytes)
        persistentEffects := [ascii "create managed portable target " ++ targetText,
          ascii "write exact installed-state, ownership, journal, and audit records under " ++
            config.setupRoot.generic] })
    require inspected.decision.accepted inspected.decision.code inspected.decision.detail
    require (inspected.evidence.targetState == .nonexistent) "target_not_empty"
      "public install uses a no-replace policy and requires a nonexistent target"
    pure (targetRoot, inspected)

/-- The recipe of an install plan. -/
def installRecipe (host : PublicHost) (config : PublicConfig) (request : Value) (sourcePath : Path)
    (target : InspectedTarget) (origin : Archive.PayloadOrigin) : Answer RecipeBinding := do
  let recipe ← lift (request.get "recipe")
  exactMembers recipe ["product_id", "product_version", "recipe_digest", "provider_revision",
    "components", "entrypoints"]
  let productId ← requiredString recipe "product_id"
  let productVersion ← requiredString recipe "product_version"
  let recipeDigest ← requiredString recipe "recipe_digest"
  let policy ← policyDigest host config target sourcePath
  let providerRevision ← requiredString recipe "provider_revision"
  let components ← componentsOf recipe
  let entrypoints ← entrypointsOf recipe
  pure { productId, productVersion, recipeDigest, sourceArchiveDigest := origin.sourceSha256,
         sourceIdentityDigest := origin.sourceIdentityDigest,
         entrySetDigest := origin.entrySetDigest, restartPolicyContext := policy.2,
         policyDigest := policy.1, providerRevision, components, entrypoints }

/-- `build_install_plan` of a request that is not a replay. -/
def buildInstallPlan (host : PublicHost) (config : PublicConfig) (request : Value) :
    Answer InstallPlanBundle := do
  let requirement ← requestedAuthority request
  let schema ← requiredString request "schema"
  require (schema == ascii "usk.install_local_plan_request.v1") "invalid_argument"
    "install plan request schema is incompatible"
  let planId ← requiredString request "request_id"
  let installId ← requiredString request "install_id"
  let source ← installSource host config request
  let target ← installTarget host config request source.1 source.2.uncompressedBytes
  let recipe ← installRecipe host config request source.1 target.2 source.2.origin
  let createdAt ← requiredString request "created_at"
  let files := source.2.files.map (payloadFileOf host.archive source.2.payloadBufferBytes)
  let plan ← lift (planInstall host.storage planId installId createdAt target.1
    (lifecycleRoots config) recipe files requirement)
  pure ⟨plan, target.2, source.1, source.2⟩

/-! ## `move.plan` -/

def ownershipId (installed : InstalledState) : Answer Bytes := do
  let reference := installed.ownershipManifestRef
  require ((ascii "ownership/").isPrefixOf reference && decide (15 < reference.length) &&
      reference.drop (reference.length - 5) == ascii ".json")
    "installed_state_invalid" "installed-state ownership reference is invalid"
  pure ((reference.drop 10).take (reference.length - 15))

def currentInstall (host : PublicHost) (config : PublicConfig) (installId : Bytes) :
    Answer InstalledState := do
  requireSetupProbe host config (setupMarkerPath config)
  let repository ← lift (openState host.storage (lifecycleRoots config).stateRoot)
  lift (repository.readInstalled host.storage.disk installId)

def currentTargetClass (storage : Storage) (config : PublicConfig) (target : Path) : TargetClass :=
  if sameOrBelow storage.cwd config.acceptanceRoot target then .operatorAcceptance
  else .managedPortable

/-- `operation_policy_digest` with a destination. -/
def operationPolicyDigest (host : PublicHost) (config : PublicConfig)
    (currentRoot stableSource : Path) (operation : String) (destination : Option InspectedTarget) :
    Answer Bytes := do
  let probe := currentRoot.join ⟨ascii ".usk-operation-policy-probe"⟩
  let taken ← lift (host.storage.existsAt probe)
  require (!taken) "target_path_redirected"
    "the reserved managed-target policy probe already exists"
  let current ← lift (inspectAndEvaluateLiveTarget host.toTargetHost config.activation
    { targetClass := currentTargetClass host.storage config currentRoot
      targetRoot := probe, authorizedAcceptanceRoot := config.acceptanceRoot
      sourceArchive := stableSource, requiredBytes := 1
      persistentEffects := [ascii operation ++ ascii " exact recorded owned state under " ++
        currentRoot.generic, ascii "retain and report unknown or changed content"] })
  require current.decision.accepted current.decision.code
    ("managed target authority refused: " ++ current.decision.detail)
  pure (sha256Canonical (.object (ByteMap.ofList
    ([(ascii "activation", .string (ascii (activationName config.activation))),
      (ascii "current_target_binding_digest", .string current.decision.targetBindingDigest),
      (ascii "operation", .string (ascii operation))] ++
      destination.toList.map fun destination =>
        (ascii "destination_binding_digest", .string destination.decision.targetBindingDigest)))))

/-- The loop that adds up the sizes of the owned files. -/
def requiredBytesOf : Nat → List OwnedFile → Answer Nat
  | required, [] => .ok required
  | required, file :: rest => do
    require (decide (required ≤ 2 ^ 64 - 1 - file.sizeBytes.toNat)) "target_space_insufficient"
      "move closure size cannot be represented safely"
    requiredBytesOf (required + file.sizeBytes.toNat) rest

structure MovePlanBundle where
  plan : MovePlan
  installed : InstalledState
  destination : InspectedTarget

/-- The destination of a move plan, as the request names it. -/
def moveDestination (request : Value) : Answer (Path × TargetClass) := do
  let target ← lift (request.get "new_target")
  exactMembers target ["root", "class"]
  let root ← requiredString target "root"
  let className ← requiredString target "class"
  match parseTargetClass className with
  | some targetClass => do
    require (Path.isAbsolute ⟨root⟩) "invalid_argument"
      "move destination must be an absolute classified target"
    pure (⟨root⟩, targetClass)
  | none => .error (.refused "invalid_argument"
      "move destination must be an absolute classified target")

def buildMovePlan (host : PublicHost) (config : PublicConfig) (request : Value) :
    Answer MovePlanBundle := do
  exactMembers request
    ["schema", "request_id", "plan_id", "install_id", "created_at", "new_target"]
  let schema ← requiredString request "schema"
  require (schema == ascii "usk.move_plan_request.v1") "invalid_argument"
    "move plan request schema is incompatible"
  let installId ← requiredString request "install_id"
  let installed ← currentInstall host config installId
  let destination ← moveDestination request
  let repository ← lift (openState host.storage (lifecycleRoots config).stateRoot)
  let ownershipId ← ownershipId installed
  let ownership ← lift (repository.readOwnership host.storage.disk ownershipId)
  let requiredBytes ← requiredBytesOf setupOverheadBytes ownership.files
  let inspected ← lift (inspectAndEvaluateLiveTarget host.toTargetHost config.activation
    { targetClass := destination.2, targetRoot := destination.1
      authorizedAcceptanceRoot := config.acceptanceRoot, sourceArchive := setupMarkerPath config
      requiredBytes := UInt64.ofNat requiredBytes
      persistentEffects :=
        [ascii "copy and verify the complete managed closure to " ++ destination.1.generic,
          ascii "retain the old root pending explicit later acceptance"] })
  require inspected.decision.accepted inspected.decision.code inspected.decision.detail
  require (inspected.evidence.targetState == .nonexistent) "target_not_empty"
    "move destination must not exist"
  let policy ← operationPolicyDigest host config ⟨installed.targetRoot⟩ (setupMarkerPath config)
    "move" (some inspected)
  let planId ← requiredString request "plan_id"
  let createdAt ← requiredString request "created_at"
  let plan ← lift (planMove host.storage (lifecycleRoots config) installed.installId planId
    createdAt destination.1 policy)
  pure ⟨plan, installed, inspected⟩

/-! ## Where a plan puts a target -/

@[simp] theorem lift_eq_ok {α : Type} {result : Result α} {a : α} :
    lift result = .ok a ↔ result = .ok a := by
  cases result with
  | ok b => simp [lift]
  | error message => simp [lift]

@[simp] theorem require_eq_ok {holds : Bool} {code message : String} {u : Unit} :
    require holds code message = .ok u ↔ holds = true := by
  cases holds with
  | true => simp [require]
  | false => simp [require]

theorem absoluteNormal_of_absolute {storage : Storage} {q : Path} (hp : p.isAbsolute = true)
    (h : storage.absoluteNormal p = .ok q) : q = p.lexicallyNormal := by
  simp only [Storage.absoluteNormal, Storage.normalRoot, bind_eq_ok] at h
  obtain ⟨r, hr, h⟩ := h
  cases h
  split at hr
  · cases hr
  · cases hr
    show (storage.fromRoot p).lexicallyNormal = p.lexicallyNormal
    rw [Storage.fromRoot, if_pos hp]

theorem components_lexicallyNormal (h : p.isAbsolute = true) :
    components p.lexicallyNormal = components p := by
  obtain ⟨_, _, hn⟩ := normalPath_lexicallyNormal h
  rw [components, hn.lexicallyNormal]
  rfl

theorem apart_of_not_under {cwd setup root : Path} (hsetup : setup.isAbsolute = true)
    (hroot : root.isAbsolute = true)
    (h : (!(sameOrBelow cwd setup root || sameOrBelow cwd root setup)) = true) :
    Apart (components setup) (components root) := by
  rw [Bool.not_eq_true', Bool.or_eq_false_iff] at h
  constructor
  · intro hbelow
    rw [(sameOrBelow_iff hsetup hroot).mpr hbelow] at h
    cases h.1
  · intro habove
    rw [(sameOrBelow_iff hroot hsetup).mpr habove] at h
    cases h.2

theorem PublicConfig.isAbsolute_setupRoot (config : PublicConfig) :
    config.setupRoot.isAbsolute = true :=
  config.setupNormal.isAbsolute

/-- The check of the install command, and the policy behind it. -/
theorem installTarget_apart {sourcePath : Path} {size : Nat} {target : Path × InspectedTarget}
    (h : installTarget host config request sourcePath size = .ok target) :
    target.1.isAbsolute = true ∧
      Apart (components config.setupRoot) (components target.1) := by
  simp only [installTarget, bind_eq_ok] at h
  obtain ⟨_, -, _, -, className, -, h⟩ := h
  split at h
  · cases h
  · simp only [bind_eq_ok, lift_eq_ok, require_eq_ok] at h
    obtain ⟨root, -, _, hapart, _, -, inspected, hinspected, _, haccepted, _, -, h⟩ := h
    cases h
    have habsolute := isAbsolute_of_inspected hinspected haccepted
    exact ⟨habsolute, apart_of_not_under config.isAbsolute_setupRoot habsolute hapart⟩

theorem planInstall_targetRoot {storage : Storage} {planId installId createdAt : Bytes}
    {targetRoot : Path} {roots : LifecycleRoots} {recipe : RecipeBinding} {files : List PayloadFile}
    {requirement : CommitAuthorityRequirement} {plan : InstallPlan}
    (h : planInstall storage planId installId createdAt targetRoot roots recipe files requirement =
      .ok plan) : storage.absoluteNormal targetRoot = .ok plan.targetRoot := by
  simp only [planInstall, bind_eq_ok] at h
  obtain ⟨root, hroot, _, -, _, -, _, -, _, -, _, -, _, -, _, -, h⟩ := h
  cases h
  exact hroot

theorem buildInstallPlan_apart {bundle : InstallPlanBundle}
    (h : buildInstallPlan host config request = .ok bundle) :
    Apart (components config.setupRoot) (components bundle.plan.targetRoot) := by
  simp only [buildInstallPlan, bind_eq_ok, lift_eq_ok] at h
  obtain ⟨_, -, _, -, _, -, _, -, _, -, source, -, target, htarget, _, -, _, -, plan, hplan, h⟩ := h
  cases h
  obtain ⟨habsolute, hapart⟩ := installTarget_apart htarget
  rw [absoluteNormal_of_absolute habsolute (planInstall_targetRoot hplan),
    components_lexicallyNormal habsolute]
  exact hapart

theorem components_of_normal {segments : List Bytes} {trailing : Bool}
    (h : NormalPath p segments trailing) : components p = segments := by
  rw [components, h.lexicallyNormal, h.segments_eq]

/-- An installation is read from a directory below the setup-state root. -/
theorem currentInstall_setup {installId : Bytes} {installed : InstalledState}
    (h : currentInstall host config installId = .ok installed) :
    ∃ node, host.storage.disk.tree.find (components config.setupRoot ++ [ascii "state"]) =
      some node := by
  simp only [currentInstall, openState, bind_eq_ok, lift_eq_ok] at h
  obtain ⟨_, -, repository, ⟨root, hroot, _, hsafe, -⟩, -⟩ := h
  have hstate : NormalPath (lifecycleRoots config).stateRoot
      (components config.setupRoot ++ [ascii "state"]) false := by
    rw [components_of_normal config.setupNormal]
    exact NormalPath.join config.setupNormal (show PlainName (ascii "state") by decide)
  have hnormal : root.1 = (lifecycleRoots config).stateRoot := by
    have habsolute : host.storage.absoluteNormal (lifecycleRoots config).stateRoot = .ok root.1 :=
      bind_eq_ok.mpr ⟨root, hroot, rfl⟩
    rw [absoluteNormal_of_absolute hstate.isAbsolute habsolute, hstate.lexicallyNormal]
  obtain ⟨device, inode, hnode⟩ := Disk.requireSafeDirectory_eq_ok.mp hsafe
  have hfind := Disk.find_of_node hnode
  rw [hnormal, hstate.segments_eq] at hfind
  exact ⟨_, hfind⟩

/-- What a move plan says about its destination. -/
theorem planMove_newRoot {storage : Storage} {roots : LifecycleRoots}
    {installId planId createdAt policyDigest : Bytes} {newRoot : Path} {plan : MovePlan}
    (h : planMove storage roots installId planId createdAt newRoot policyDigest = .ok plan) :
    storage.absoluteNormal newRoot = .ok plan.newRoot ∧
      storage.disk.existsAt plan.newRoot = .ok false := by
  simp only [planMove, bind_eq_ok, demand_eq_ok] at h
  obtain ⟨_, -, _, -, _, -, _, -, oldRoot, -, root, hroot, _, -, taken, htaken, _, hfree, _, -, _,
    -, _, -, _, -, h⟩ := h
  cases h
  rw [Bool.not_eq_true', Bool.or_eq_false_iff] at hfree
  rw [hfree.2] at htaken
  exact ⟨hroot, htaken⟩

/-- A free path does not lead to anything. -/
theorem not_above_of_free {disk : Disk} {segments below : List Bytes} {name : Bytes}
    {trailing : Bool} {node : Node} (hp : NormalPath p segments trailing)
    (hfree : disk.existsAt p = .ok false) :
    disk.tree.find (segments ++ name :: below) ≠ some node := by
  intro hfind
  obtain ⟨above, habove, hdirectory⟩ := disk.tree.directory_of_find_below hfind
  simp only [Disk.existsAt, bind_eq_ok] at hfree
  obtain ⟨found, hfound, hfree⟩ := hfree
  have hshort : p.native.length < Disk.pathMax := by
    by_contra hlong
    rw [Disk.node, if_neg hlong] at hfound
    cases hfound
  rw [← hp.segments_eq] at habove
  rw [Disk.node_of_find hshort habove (.inr hdirectory)] at hfound
  cases hfound
  cases above with
  | directory device inode => cases hfree
  | file content links => cases hdirectory
  | link resolves => cases hdirectory
  | other => cases hdirectory

/-- A move is never planned to the setup-state root or above it. -/
theorem buildMovePlan_apart_iff {bundle : MovePlanBundle}
    (h : buildMovePlan host config request = .ok bundle) :
    ∃ destination, moveDestination request = .ok destination ∧
      (Apart (components config.setupRoot) (components bundle.plan.newRoot) ↔
        ¬components config.setupRoot <+: components destination.1) := by
  simp only [buildMovePlan, bind_eq_ok, lift_eq_ok, require_eq_ok] at h
  obtain ⟨_, -, _, -, _, -, installId, -, installed, hinstalled, destination, hdestination, _, -, _,
    -, _, -, _, -, inspected, hinspected, _, haccepted, _, -, _, -, _, -, _, -, plan, hplan, h⟩ := h
  cases h
  have habsolute := isAbsolute_of_inspected hinspected haccepted
  obtain ⟨hroot, hfree⟩ := planMove_newRoot hplan
  obtain ⟨_, hnormal⟩ := normalPath_components habsolute
  obtain ⟨node, hnode⟩ := currentInstall_setup hinstalled
  rw [absoluteNormal_of_absolute habsolute hroot] at hfree ⊢
  rw [components_lexicallyNormal habsolute]
  refine ⟨destination, hdestination, fun hapart => hapart.1, fun hbelow => ⟨hbelow, ?_⟩⟩
  rintro ⟨rest, hrest⟩
  rw [← hrest, List.append_assoc] at hnode
  cases rest with
  | nil => exact not_above_of_free hnormal hfree hnode
  | cons name rest => exact not_above_of_free hnormal hfree hnode

/-! ## An installation that can be moved -/

theorem normalPath_srv : NormalPath ⟨ascii "/srv"⟩ [ascii "srv"] false :=
  ⟨by decide +kernel, fun h => absurd h Bool.false_ne_true, by decide +kernel⟩

theorem normalPath_setup :
    NormalPath ⟨ascii "/srv/setup"⟩ [ascii "srv", ascii "setup"] false :=
  ⟨by decide +kernel, fun h => absurd h Bool.false_ne_true, by decide +kernel⟩

/-- A setup-state root below the acceptance root `/srv`. -/
def sampleConfig : PublicConfig where
  setupRoot := ⟨ascii "/srv/setup"⟩
  acceptanceRoot := ⟨ascii "/srv"⟩
  activation := .acceptedLivePortable
  setupNormal := normalPath_setup.isNormal
  acceptanceNormal := normalPath_srv.isNormal

def sampleContent : Bytes := ascii "hello"

/-- The manifest of the installation. -/
def editorManifest : OwnershipManifest :=
  { manifestId := ascii "ownership.editor.t1"
    manifestDigest := []
    installId := ascii "editor"
    targetRoot := ascii "/srv/editor"
    createdByTransactionId := ascii "t1"
    files := [⟨ascii "bin/editor", sha256 sampleContent, 5⟩]
    directories := [ascii "bin"] }

/-- The setup-state root with the records of an installation, and its tree. -/
def sampleDisk : Disk :=
  .ofEntries [([], .directory 1 1), ([ascii "srv"], .directory 1 2),
    ([ascii "srv", ascii "setup"], .directory 1 3),
    ([ascii "srv", ascii "setup", ascii ".usk-owned-root.v1.json"],
      .file (setupRootMarker sampleConfig) 1),
    ([ascii "srv", ascii "setup", ascii "state"], .directory 1 4),
    ([ascii "srv", ascii "setup", ascii "state", ascii "ownership"], .directory 1 5),
    ([ascii "srv", ascii "setup", ascii "state", ascii "ownership",
      ascii "ownership.editor.t1.json"], .file (ownershipRecord editorManifest.recorded) 1),
    ([ascii "srv", ascii "setup", ascii "state", ascii "installed"], .directory 1 6),
    ([ascii "srv", ascii "setup", ascii "state", ascii "installed",
      snapshotName editorManifest.installId editorManifest.createdByTransactionId],
      .file (installedRecord (stateOf editorManifest.recorded)) 1),
    ([ascii "srv", ascii "editor"], .directory 1 7),
    ([ascii "srv", ascii "editor", ascii "bin"], .directory 1 8),
    ([ascii "srv", ascii "editor", ascii "bin", ascii "editor"], .file sampleContent 1)]
    (by decide +kernel)

/-- A host on which the installation was recorded. -/
def sampleHost : PublicHost where
  storage := { disk := sampleDisk, stamp := fun _ => ⟨1, 9, 0⟩, cwd := ⟨ascii "/"⟩,
               rooted := isAbsolute_root }
  home := none
  xdgDataHome := none
  filesystemKind _ := (true, ascii "ext4")
  available _ := .ok 1099511627776
  archive :=
    { openFile := fun _ => .error "archive cannot be opened"
      interrupt := fun _ => none
      now := ascii "2026-01-01T00:00:00Z"
      deflateReader := fun _ _ _ _ => .error "archive cannot be read" }

/-- A request to move the installation. -/
def moveRequest (root : Bytes) : Value :=
  .object
    [(ascii "created_at", .string (ascii "2026-01-02T00:00:00Z")),
      (ascii "install_id", .string (ascii "editor")),
      (ascii "new_target", .object [(ascii "class", .string (ascii "operator_acceptance")),
        (ascii "root", .string root)]),
      (ascii "plan_id", .string (ascii "plan")),
      (ascii "request_id", .string (ascii "request")),
      (ascii "schema", .string (ascii "usk.move_plan_request.v1"))]

/-- An installation is never planned at the setup-state root or above it, and one that is new is
never planned below it. A move is planned apart from it exactly if its destination is not below. -/
theorem plan_apart_from_setup {host : PublicHost} {config : PublicConfig} :
    (∀ {request : Value} {bundle : InstallPlanBundle},
      buildInstallPlan host config request = .ok bundle →
        Apart (components config.setupRoot) (components bundle.plan.targetRoot)) ∧
    ∀ {request : Value} {bundle : MovePlanBundle},
      buildMovePlan host config request = .ok bundle →
        (Apart (components config.setupRoot) (components bundle.plan.newRoot) ↔
          ∃ destination, moveDestination request = .ok destination ∧
            ¬components config.setupRoot <+: components destination.1) := by
  refine ⟨buildInstallPlan_apart, fun {request bundle} h => ?_⟩
  obtain ⟨destination, hdestination, hiff⟩ := buildMovePlan_apart_iff h
  rw [hiff, hdestination]
  constructor
  · intro hbelow
    exact ⟨destination, rfl, hbelow⟩
  · rintro ⟨_, h, hbelow⟩
    cases h
    exact hbelow

/-- The installation can be moved aside, and into the directory of the state records. -/
theorem sampleHost_plans :
    (buildMovePlan sampleHost sampleConfig (moveRequest (ascii "/srv/moved"))).isOk = true ∧
    (buildMovePlan sampleHost sampleConfig
      (moveRequest (ascii "/srv/setup/state/moved"))).isOk = true := by
  decide +kernel

/-- A move to a place beside the setup root is planned. -/
theorem move_aside_apart : ∃ host bundle,
    buildMovePlan host sampleConfig (moveRequest (ascii "/srv/moved")) = .ok bundle ∧
      Apart (components sampleConfig.setupRoot) (components bundle.plan.newRoot) := by
  obtain ⟨bundle, hbundle⟩ := exists_of_isOk sampleHost_plans.1
  have hdestination : moveDestination (moveRequest (ascii "/srv/moved")) =
      .ok (⟨ascii "/srv/moved"⟩, .operatorAcceptance) := by decide +kernel
  exact ⟨sampleHost, bundle, hbundle, (plan_apart_from_setup.2 hbundle).mpr
    ⟨_, hdestination, by decide +kernel⟩⟩

/-- A move into the directory of the state records is planned. -/
theorem move_below_setup : ∃ host bundle,
    buildMovePlan host sampleConfig (moveRequest (ascii "/srv/setup/state/moved")) = .ok bundle ∧
      ¬Apart (components sampleConfig.setupRoot) (components bundle.plan.newRoot) := by
  obtain ⟨bundle, hbundle⟩ := exists_of_isOk sampleHost_plans.2
  have hdestination : moveDestination (moveRequest (ascii "/srv/setup/state/moved")) =
      .ok (⟨ascii "/srv/setup/state/moved"⟩, .operatorAcceptance) := by decide +kernel
  obtain ⟨destination, hread, hiff⟩ := buildMovePlan_apart_iff hbundle
  cases hdestination.symm.trans hread
  refine ⟨sampleHost, bundle, hbundle, fun hapart => hiff.mp hapart ?_⟩
  decide +kernel

end Usk.Public

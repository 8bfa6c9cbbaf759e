import UniversalSetup.State.Ownership

/-!
# Installed states

An installed state is one snapshot of an installation: what is installed, where, by which
transaction and with which ownership manifest. Its record is the canonical document on one line.
-/

namespace Usk.State

open Json

structure Entrypoint where
  entrypointId : Bytes
  relativePath : Bytes
  kind : Bytes
deriving DecidableEq

structure VerificationSummary where
  reportId : Bytes
  reportDigest : Bytes
  status : Bytes
  verifiedAt : Bytes
deriving DecidableEq

structure InstalledState where
  installId : Bytes
  productId : Bytes
  productVersion : Bytes
  recipeDigest : Bytes
  sourceArchiveDigest : Bytes
  targetRoot : Bytes
  componentSelection : List Bytes
  ownershipManifestRef : Bytes
  ownershipManifestDigest : Bytes
  entrypoints : List Entrypoint
  setupAbiMajor : UInt64
  setupAbiMinor : UInt64
  providerRevision : Bytes
  transactionId : Bytes
  createdAt : Bytes
  lastVerification : VerificationSummary
  auditChainId : Bytes
  lifecycleStatus : Bytes
deriving DecidableEq

/-! ## Documents -/

def entrypointMembers (entrypoint : Entrypoint) : List (Bytes × Value) :=
  [(ascii "entrypoint_id", .string entrypoint.entrypointId),
    (ascii "kind", .string entrypoint.kind),
    (ascii "relative_path", .string entrypoint.relativePath)]

def entrypointValue (entrypoint : Entrypoint) : Value :=
  .object (ByteMap.ofList (entrypointMembers entrypoint))

def verificationMembers (summary : VerificationSummary) : List (Bytes × Value) :=
  [(ascii "report_digest", .string summary.reportDigest),
    (ascii "report_id", .string summary.reportId),
    (ascii "status", .string summary.status),
    (ascii "verified_at", .string summary.verifiedAt)]

def setupAbiMembers (state : InstalledState) : List (Bytes × Value) :=
  [(ascii "major", .unsigned state.setupAbiMajor),
    (ascii "minor", .unsigned state.setupAbiMinor),
    (ascii "provider_revision", .string state.providerRevision)]

def InstalledState.members (state : InstalledState) : List (Bytes × Value) :=
  [(ascii "audit_chain_id", .string state.auditChainId),
    (ascii "component_selection", .array (state.componentSelection.map Value.string)),
    (ascii "created_at", .string state.createdAt),
    (ascii "entrypoints", .array (state.entrypoints.map entrypointValue)),
    (ascii "install_id", .string state.installId),
    (ascii "last_verification",
      .object (ByteMap.ofList (verificationMembers state.lastVerification))),
    (ascii "lifecycle_status", .string state.lifecycleStatus),
    (ascii "ownership_manifest_digest", .string state.ownershipManifestDigest),
    (ascii "ownership_manifest_ref", .string state.ownershipManifestRef),
    (ascii "product_id", .string state.productId),
    (ascii "product_version", .string state.productVersion),
    (ascii "recipe_digest", .string state.recipeDigest),
    (ascii "schema", .string (ascii "usk.installed_state.v1")),
    (ascii "setup_abi", .object (ByteMap.ofList (setupAbiMembers state))),
    (ascii "source_archive_digest", .string state.sourceArchiveDigest),
    (ascii "target_root", .string state.targetRoot),
    (ascii "target_scope", .string (ascii "portable")),
    (ascii "transaction_id", .string state.transactionId)]

def installedDocument (state : InstalledState) : Value :=
  .object (ByteMap.ofList state.members)

/-! ## Validation -/

def verificationStatuses : List String :=
  ["pass", "warn", "fail"]

def lifecycleStatuses : List String :=
  ["installed", "verified", "repair_required", "move_pending_acceptance", "uninstall_blocked",
    "recovery_required", "retired"]

def entrypointKinds : List String :=
  ["application", "tool", "server"]

/-- The first condition of `validate_installed`. -/
def InstalledState.bound (state : InstalledState) : Bool :=
  validIdentifier state.installId && validIdentifier state.productId &&
    validIdentifier state.transactionId && validIdentifier state.auditChainId &&
    validIdentifier state.providerRevision && state.productVersion != [] &&
    state.targetRoot != [] && state.createdAt != [] && validSha256 state.recipeDigest &&
    validSha256 state.sourceArchiveDigest && validSha256 state.ownershipManifestDigest &&
    validSha256 state.lastVerification.reportDigest && state.setupAbiMajor != 0 &&
    state.componentSelection != [] && state.entrypoints != []

/-- The loop over the components, after those in `seen`. -/
def checkComponents : List Bytes → List Bytes → Result Unit
  | _, [] => .ok ()
  | seen, component :: rest => do
    demand (validIdentifier component && !seen.contains component)
      "installed-state component selection is invalid"
    checkComponents (component :: seen) rest

/-- The loop over the entry points, after those with an identifier in `seen`. -/
def checkEntrypoints : List Bytes → List Entrypoint → Result Unit
  | _, [] => .ok ()
  | seen, entrypoint :: rest => do
    demand (validIdentifier entrypoint.entrypointId && safeRelative entrypoint.relativePath &&
      oneOf entrypointKinds entrypoint.kind && !seen.contains entrypoint.entrypointId)
      "installed-state entrypoint is invalid"
    checkEntrypoints (entrypoint.entrypointId :: seen) rest

/-- `ownership_manifest_ref.substr(10, ownership_manifest_ref.size() - 15)`. -/
def InstalledState.ownershipRecordId (state : InstalledState) : Bytes :=
  (state.ownershipManifestRef.drop 10).take (state.ownershipManifestRef.length - 15)

def validateInstalled (state : InstalledState) : Result Unit := do
  demand state.bound "installed-state identity or required binding is invalid"
  demand (oneOf verificationStatuses state.lastVerification.status &&
    oneOf lifecycleStatuses state.lifecycleStatus) "installed-state status is invalid"
  checkComponents [] state.componentSelection
  checkEntrypoints [] state.entrypoints
  demand ((ascii "ownership/").isPrefixOf state.ownershipManifestRef &&
      decide (15 < state.ownershipManifestRef.length) &&
      state.ownershipManifestRef.drop (state.ownershipManifestRef.length - 5) == ascii ".json" &&
      validIdentifier state.ownershipRecordId)
    "installed-state ownership reference is not repository-local and exact"

/-! ## Reading -/

def installedMembers : List String :=
  ["schema", "install_id", "product_id", "product_version", "recipe_digest",
    "source_archive_digest", "target_root", "target_scope", "component_selection",
    "ownership_manifest_ref", "ownership_manifest_digest", "entrypoints", "setup_abi",
    "transaction_id", "created_at", "last_verification", "audit_chain_id", "lifecycle_status"]

def readEntrypoint (item : Value) : Result Entrypoint := do
  exactMembers item ["entrypoint_id", "relative_path", "kind"]
  let entrypointId ← item.getString "entrypoint_id"
  let relativePath ← item.getString "relative_path"
  let kind ← item.getString "kind"
  pure ⟨entrypointId, relativePath, kind⟩

def readVerification (value : Value) : Result VerificationSummary := do
  exactMembers value ["report_id", "report_digest", "status", "verified_at"]
  let reportId ← value.getString "report_id"
  let reportDigest ← value.getString "report_digest"
  let status ← value.getString "status"
  let verifiedAt ← value.getString "verified_at"
  pure ⟨reportId, reportDigest, status, verifiedAt⟩

/-- `parse_installed` without the checks at its beginning and at its end. -/
def readState (value : Value) : Result InstalledState := do
  let installId ← value.getString "install_id"
  let productId ← value.getString "product_id"
  let productVersion ← value.getString "product_version"
  let recipeDigest ← value.getString "recipe_digest"
  let sourceArchiveDigest ← value.getString "source_archive_digest"
  let targetRoot ← value.getString "target_root"
  let componentSelection ← (← (← value.get "component_selection").asArray).mapM Value.asString
  let ownershipManifestRef ← value.getString "ownership_manifest_ref"
  let ownershipManifestDigest ← value.getString "ownership_manifest_digest"
  let entrypoints ← (← (← value.get "entrypoints").asArray).mapM readEntrypoint
  let abi ← value.get "setup_abi"
  exactMembers abi ["major", "minor", "provider_revision"]
  let setupAbiMajor ← (← abi.get "major").asUnsigned
  let setupAbiMinor ← (← abi.get "minor").asUnsigned
  let providerRevision ← abi.getString "provider_revision"
  let transactionId ← value.getString "transaction_id"
  let createdAt ← value.getString "created_at"
  let lastVerification ← readVerification (← value.get "last_verification")
  let auditChainId ← value.getString "audit_chain_id"
  let lifecycleStatus ← value.getString "lifecycle_status"
  pure
    { installId := installId
      productId := productId
      productVersion := productVersion
      recipeDigest := recipeDigest
      sourceArchiveDigest := sourceArchiveDigest
      targetRoot := targetRoot
      componentSelection := componentSelection
      ownershipManifestRef := ownershipManifestRef
      ownershipManifestDigest := ownershipManifestDigest
      entrypoints := entrypoints
      setupAbiMajor := setupAbiMajor
      setupAbiMinor := setupAbiMinor
      providerRevision := providerRevision
      transactionId := transactionId
      createdAt := createdAt
      lastVerification := lastVerification
      auditChainId := auditChainId
      lifecycleStatus := lifecycleStatus }

/-- The scope, which is not looked at if the schema is another one. -/
def readScope (value : Value) (schema : Bytes) : Result Bytes :=
  if schema == ascii "usk.installed_state.v1" then value.getString "target_scope" else .ok []

def parseInstalled (value : Value) : Result InstalledState := do
  exactMembers value installedMembers
  let schema ← value.getString "schema"
  let scope ← readScope value schema
  demand (schema == ascii "usk.installed_state.v1" && scope == ascii "portable")
    "installed-state schema or scope is incompatible"
  let state ← readState value
  validateInstalled state
  pure state

/-- `4u * 1024u * 1024u`, the bound of the text of a state. -/
def maximumInstalledBytes : Nat := 4 * 1024 * 1024

def decodeInstalledRecord (text : Bytes) : Result InstalledState := do
  demand (decide (text.length ≤ maximumInstalledBytes))
    "installed-state record exceeds its byte bound"
  let document ← readLine text "installed-state record is not canonical"
  parseInstalled document

/-- The line of a state. -/
def installedRecord (state : InstalledState) : Bytes :=
  canonical (installedDocument state) ++ lineFeed

def serializeInstalledState (state : InstalledState) : Result Bytes := do
  validateInstalled state
  pure (installedRecord state)

/-! ## Reading a written document -/

theorem keys_members (state : InstalledState) : ByteMap.keys state.members =
    ["audit_chain_id", "component_selection", "created_at", "entrypoints", "install_id",
      "last_verification", "lifecycle_status", "ownership_manifest_digest",
        "ownership_manifest_ref",
      "product_id", "product_version", "recipe_digest", "schema", "setup_abi",
      "source_archive_digest", "target_root", "target_scope", "transaction_id"].map ascii :=
  rfl

theorem keys_members_perm (state : InstalledState) :
    (ByteMap.keys state.members).Perm (installedMembers.map ascii) := by
  rw [keys_members]
  decide +kernel

theorem nodup_members (state : InstalledState) : (ByteMap.keys state.members).Nodup := by
  rw [keys_members]
  decide +kernel

theorem nodup_entrypointMembers (entrypoint : Entrypoint) :
    (ByteMap.keys (entrypointMembers entrypoint)).Nodup := by
  show (["entrypoint_id", "kind", "relative_path"].map ascii).Nodup
  decide

theorem nodup_verificationMembers (summary : VerificationSummary) :
    (ByteMap.keys (verificationMembers summary)).Nodup := by
  show (["report_digest", "report_id", "status", "verified_at"].map ascii).Nodup
  decide

theorem nodup_setupAbiMembers (state : InstalledState) :
    (ByteMap.keys (setupAbiMembers state)).Nodup := by
  show (["major", "minor", "provider_revision"].map ascii).Nodup
  decide

theorem readEntrypoint_value (entrypoint : Entrypoint) :
    readEntrypoint (entrypointValue entrypoint) = .ok entrypoint := by
  have hnd := nodup_entrypointMembers entrypoint
  have hkeys : (ByteMap.keys (entrypointMembers entrypoint)).Perm
      (["entrypoint_id", "relative_path", "kind"].map ascii) :=
    (List.Perm.swap _ _ []).cons _
  simp only [readEntrypoint, bind_eq_ok, getString_eq_ok]
  exact ⟨(), exactKeys_ofList hnd hkeys, _, get_ofList hnd rfl, _, get_ofList hnd rfl, _,
    get_ofList hnd rfl, rfl⟩

theorem readVerification_value (summary : VerificationSummary) :
    readVerification (.object (ByteMap.ofList (verificationMembers summary))) = .ok summary := by
  have hnd := nodup_verificationMembers summary
  have hkeys : (ByteMap.keys (verificationMembers summary)).Perm
      (["report_id", "report_digest", "status", "verified_at"].map ascii) :=
    List.Perm.swap _ _ _
  simp only [readVerification, bind_eq_ok, getString_eq_ok]
  exact ⟨(), exactKeys_ofList hnd hkeys, _, get_ofList hnd rfl, _, get_ofList hnd rfl, _,
    get_ofList hnd rfl, _, get_ofList hnd rfl, rfl⟩

theorem readState_document (state : InstalledState) :
    readState (installedDocument state) = .ok state := by
  have hget : ∀ {key : String} {w : Value}, ByteMap.find state.members (ascii key) = some w →
      (installedDocument state).get key = .ok w := get_ofList (nodup_members state)
  have habi := nodup_setupAbiMembers state
  have hcomponents := mapM_map fun component (_ : component ∈ state.componentSelection) =>
    (rfl : Value.asString (.string component) = .ok component)
  have hentrypoints := mapM_map fun entrypoint (_ : entrypoint ∈ state.entrypoints) =>
    readEntrypoint_value entrypoint
  simp only [readState, bind_eq_ok, getString_eq_ok, asArray_eq_ok, asUnsigned_eq_ok]
  exact ⟨_, hget rfl, _, hget rfl, _, hget rfl, _, hget rfl, _, hget rfl, _, hget rfl,
    _, hget rfl, _, rfl, _, hcomponents, _, hget rfl, _, hget rfl,
    _, hget rfl, _, rfl, _, hentrypoints, _, hget rfl,
    (), exactKeys_ofList habi (List.Perm.refl _), _, get_ofList habi rfl, _, rfl,
    _, get_ofList habi rfl, _, rfl, _, get_ofList habi rfl, _, hget rfl, _, hget rfl,
    _, hget rfl, _, readVerification_value _, _, hget rfl, _, hget rfl, rfl⟩

theorem parseInstalled_document {state : InstalledState} (h : validateInstalled state = .ok ()) :
    parseInstalled (installedDocument state) = .ok state := by
  have hmembers : exactMembers (installedDocument state) installedMembers = .ok () :=
    exactKeys_ofList (nodup_members state) (keys_members_perm state)
  have hschema : (installedDocument state).get "schema" =
      .ok (.string (ascii "usk.installed_state.v1")) := get_ofList (nodup_members state) rfl
  have hscope : (installedDocument state).get "target_scope" = .ok (.string (ascii "portable")) :=
    get_ofList (nodup_members state) rfl
  simp only [parseInstalled, bind_eq_ok, getString_eq_ok, demand_eq_ok]
  refine ⟨(), hmembers, _, hschema, ascii "portable", ?_, (), ?_, state, readState_document state,
    (), h, rfl⟩
  · rw [readScope, if_pos (beq_self_eq_true _), getString_eq_ok]
    exact hscope
  · rw [beq_self_eq_true, beq_self_eq_true]
    rfl

/-! ## Decoding a written record -/

theorem wellFormed_installedDocument (state : InstalledState) :
    WellFormed (installedDocument state) := by
  have hobject : ∀ {ms : List (Bytes × Value)}, (ByteMap.keys ms).Nodup →
      (∀ m ∈ ms, (∃ s, m.2 = .string s) ∨ ∃ n, m.2 = .unsigned n) →
        WellFormed (.object (ByteMap.ofList ms)) := by
    intro ms hnd h
    refine wellFormed_ofList hnd fun m hm => ?_
    rcases h m hm with ⟨s, heq⟩ | ⟨n, heq⟩
    · rw [heq]
      exact trivial
    · rw [heq]
      exact trivial
  have hcomponents : WellFormed (.array (state.componentSelection.map Value.string)) :=
    wellFormed_array.mpr (List.forall_mem_map.mpr fun _ _ => trivial)
  have hentrypoints : WellFormed (.array (state.entrypoints.map entrypointValue)) := by
    refine wellFormed_array.mpr (List.forall_mem_map.mpr fun entrypoint _ => ?_)
    exact hobject (nodup_entrypointMembers entrypoint) (by simp [entrypointMembers])
  have hverification := hobject (nodup_verificationMembers state.lastVerification)
    (by simp [verificationMembers])
  have habi := hobject (nodup_setupAbiMembers state) (by simp [setupAbiMembers])
  refine wellFormed_ofList (nodup_members state) ?_
  simp only [InstalledState.members, List.forall_mem_cons]
  exact ⟨trivial, hcomponents, trivial, hentrypoints, trivial, hverification, trivial, trivial,
    trivial, trivial, trivial, trivial, trivial, habi, trivial, trivial, trivial, trivial,
    List.forall_mem_nil _⟩

/-- A state whose record keeps to the limits of the parser. -/
def InstalledState.Readable (state : InstalledState) : Prop :=
  (installedRecord state).length ≤ maximumInstalledBytes ∧
    ParseLimits.Allow {} (installedDocument state)

theorem decodeInstalledRecord_iff {state found : InstalledState}
    (h : validateInstalled state = .ok ()) :
    decodeInstalledRecord (installedRecord state) = .ok found ↔ found = state ∧ state.Readable := by
  have hw := wellFormed_installedDocument state
  have hread := @readLine_canonical_iff _ "installed-state record is not canonical" hw
  have hparse := parseInstalled_document h
  simp only [decodeInstalledRecord, bind_eq_ok, demand_eq_ok, decide_eq_true_eq]
  constructor
  · rintro ⟨-, hlength, document, hline, hfound⟩
    have heq := eq_of_readLine_canonical hw hline
    rw [heq] at hline hfound
    rw [hparse] at hfound
    cases hfound
    exact ⟨rfl, hlength, (hread.mp hline).2⟩
  · rintro ⟨rfl, hlength, hallow⟩
    exact ⟨(), hlength, _, hread.mpr ⟨hlength, hallow⟩, hparse⟩

/-- A record that was cut off is not decoded. -/
theorem decodeInstalledRecord_take_ne {state found : InstalledState} {n : Nat}
    (h : n < (installedRecord state).length) :
    decodeInstalledRecord ((installedRecord state).take n) ≠ .ok found := by
  intro hdecode
  simp only [decodeInstalledRecord, bind_eq_ok] at hdecode
  obtain ⟨-, -, document, hline, -⟩ := hdecode
  exact readLine_take_ne h hline

end Usk.State

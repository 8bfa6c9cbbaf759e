import UniversalSetup.Json.Schema
import UniversalSetup.Transaction.Spec

/-!
# Checks of the maintenance effect journal

`validate_context` binds the source context of a maintenance operation to the transaction,
`validate_effect` checks the observation recorded in an intent and `validate_completion` the outcome
recorded in a completion. Writer and reader call the same functions.
-/

namespace Usk.Maintenance

open Json Transaction

/-- The kinds of effect that an intent may announce. -/
inductive EffectKind where
  | backupFile
  | replaceFile
  | removeFile
  | removeDirectory
  | publishTarget
  | writeOwnership
  | writeInstalled
  | appendAudit
deriving DecidableEq

namespace EffectKind

/-- The spelling of a kind in a record. -/
def name : EffectKind → Bytes
  | backupFile => ascii "backup_file"
  | replaceFile => ascii "replace_file"
  | removeFile => ascii "remove_file"
  | removeDirectory => ascii "remove_directory"
  | publishTarget => ascii "publish_target"
  | writeOwnership => ascii "write_ownership"
  | writeInstalled => ascii "write_installed"
  | appendAudit => ascii "append_audit"

def all : List EffectKind :=
  [backupFile, replaceFile, removeFile, removeDirectory, publishTarget, writeOwnership,
    writeInstalled, appendAudit]

/-- The kind with a given spelling. -/
def ofName (text : Bytes) : Option EffectKind :=
  all.find? fun k => k.name == text

theorem ofName_name (k : EffectKind) : ofName k.name = some k := by
  cases k <;> decide

theorem name_of_ofName {text : Bytes} {k : EffectKind} (h : ofName text = some k) :
    k.name = text := by
  simpa using List.find?_some h

/-- The kinds whose completion records the digest of a written document. -/
def isMetadata : EffectKind → Bool
  | writeOwnership | writeInstalled | appendAudit => true
  | _ => false

end EffectKind

/-- `exact_keys` with the message of this journal. -/
def fields (v : Value) (expected : List String) : Result Unit :=
  exactKeys v expected "maintenance journal fields are invalid"

/-- A loop over string members that share a condition and a message. -/
def demandStrings (v : Value) (p : Bytes → Bool) (message : String) : List String → Result Unit
  | [] => .ok ()
  | key :: rest => do
    demandString v key p message
    demandStrings v p message rest

/-- A loop of `(void)at(key).as_string()`. -/
def allStrings (v : Value) : List String → Result Unit
  | [] => .ok ()
  | key :: rest => do
    let _ ← v.getString key
    allStrings v rest

/-- A loop of `(void)member.second.as_string()`. -/
def stringMembers : Object → Result Unit
  | [] => .ok ()
  | member :: rest => do
    let _ ← member.2.asString
    stringMembers rest

/-- `normalized`. -/
def normalized (cwd path : Path) : Result Bytes := do
  let p ← Path.absolute cwd path
  pure p.lexicallyNormal.generic

/-- `relative_path`. -/
def relativePath (text : Bytes) (allowRoot : Bool) : Result Unit :=
  if allowRoot && text.isEmpty then .ok ()
  else do
    let path := Path.ofText text
    demand (!(text.isEmpty || decide (4096 < text.length) || path.isAbsolute ||
        path.generic != text ||
        text.any fun c => decide (c < 0x20) || c == 0x7f || c == 0x3a || c == 0x5c))
      "maintenance effect path is invalid"
    demand (!path.names.any fun n => n.isEmpty || n == ascii "." || n == ascii "..")
      "maintenance effect path is not relative and normalized"

/-- `root_observation`. -/
def rootObservation (cwd : Path) (root : Value) (expected : Path) : Result Unit := do
  let message := "maintenance context root observation is invalid"
  fields root ["root", "native_identity"]
  let text ← normalized cwd expected
  demandString root "root" (· == text) message
  demandString root "native_identity" nativeIdentity message

/-- The keys every source context has. -/
def contextKeys : List String :=
  ["schema", "operation", "install_id", "transaction_id", "plan_id", "plan_digest",
    "policy_digest", "applied_at", "original_installed_transaction_id",
    "original_installed_state_digest", "ownership_manifest_ref", "ownership_manifest_digest",
    "original_source_archive_digest", "installed_root", "operation_target_root",
    "operation_target_parent", "staging_parent", "state_root", "audit_root"]

/-- The limits under which a source context is parsed. -/
def contextLimits : ParseLimits :=
  { maxBytes := 16384, maxDepth := 8, maxValues := 128, maxStringBytes := 16384 }

/-- The keys of a context and its optional reviewed plan. -/
def validateContextKeys (spec : TransactionSpec) (value : Value) : Result Unit := do
  if value.contains "reviewed_plan_ref" || value.contains "reviewed_plan_sha256" then
    let message := "maintenance reviewed-plan binding is invalid"
    fields value (contextKeys ++ ["reviewed_plan_ref", "reviewed_plan_sha256"])
    demandString value "reviewed_plan_ref"
      (· == spec.transactionId ++ ascii ".maintenance-plan.json") message
    demandString value "reviewed_plan_sha256" validSha256 message
  else
    fields value contextKeys

/-- The fields of a context that repeat the transaction. -/
def validateContextBinding (spec : TransactionSpec) (text : Bytes) (value : Value) :
    Result Unit := do
  let message := "maintenance context does not bind the transaction"
  demand (canonical value == text) message
  demandString value "schema" (· == ascii "usk.maintenance_source_context.v1") message
  demand (spec.operation == ascii "repair" || spec.operation == ascii "move" ||
    spec.operation == ascii "uninstall") message
  demandString value "operation" (· == spec.operation) message
  demandString value "transaction_id" (· == spec.transactionId) message
  demandString value "plan_id" (· == spec.planId) message
  demandString value "plan_digest" (· == spec.planDigest) message
  demand (validIdentifier spec.transactionId && validIdentifier spec.planId &&
    validSha256 spec.planDigest) message
  demandString value "install_id" validIdentifier message
  demandString value "original_installed_transaction_id"
    (fun s => validIdentifier s && s != spec.transactionId) message
  demandString value "applied_at" (fun s => !s.isEmpty && decide (s.length ≤ 64)) message

/-- The installed root of a context and the parent directory it was observed in. -/
def validateInstalledRoot (cwd : Path) (installed : Value) : Result Unit := do
  let message := "maintenance installed-root observation is invalid"
  fields installed ["root", "native_identity", "parent"]
  let text ← installed.getString "root"
  let root := Path.ofText text
  demand root.isAbsolute message
  demand ((← normalized cwd root) == text) message
  let identity ← installed.get "native_identity"
  unless identity.isNull do
    demand (nativeIdentity (← identity.asString)) message
  rootObservation cwd (← installed.get "parent") root.parentPath

/-- `validate_context`. -/
def validateContext (cwd : Path) (spec : TransactionSpec) (text : Bytes) : Result Unit := do
  demand (!(text.isEmpty || decide (16384 < text.length))) "maintenance context exceeds its bound"
  let value ← parse text contextLimits
  validateContextKeys spec value
  validateContextBinding spec text value
  demandStrings value validSha256 "maintenance context digest is invalid"
    ["policy_digest", "original_installed_state_digest", "ownership_manifest_digest",
      "original_source_archive_digest"]
  relativePath (← value.getString "ownership_manifest_ref") false
  validateInstalledRoot cwd (← value.get "installed_root")
  let target ← normalized cwd spec.targetRoot
  demandString value "operation_target_root" (· == target) "maintenance operation target changed"
  rootObservation cwd (← value.get "operation_target_parent")
    (← Path.absolute cwd spec.targetRoot).parentPath
  rootObservation cwd (← value.get "staging_parent") spec.stagingParent
  rootObservation cwd (← value.get "state_root") spec.stateRoot
  rootObservation cwd (← value.get "audit_root") spec.auditRoot

/-! ## Effects -/

/-- The root a removal is relative to: repair may only clean its own target, and move removes
nothing. -/
def validRootRole (operation role : Bytes) : Bool :=
  (role == ascii "installed" || role == ascii "operation_target") &&
    operation != ascii "move" &&
    !(operation == ascii "repair" && role != ascii "operation_target")

/-- The file observation shared by the three file effects. -/
def validateFile (operation : Bytes) (kind : EffectKind) (details : Value) : Result Unit := do
  let message := "maintenance file observation is invalid"
  let keys := ["relative_path", "native_identity", "sha256", "size_bytes"]
  fields details (if kind = .removeFile then keys ++ ["root_role"] else keys)
  relativePath (← details.getString "relative_path") false
  demandString details "native_identity" nativeIdentity message
  demandString details "sha256" validSha256 message
  demand (decide ((← (← details.get "size_bytes").asUnsigned).toNat ≤ 2 ^ 32)) message
  demand (kind = .removeFile || operation == ascii "repair")
    "maintenance file exchange belongs to repair"
  if kind = .removeFile then
    demandString details "root_role" (validRootRole operation)
      "maintenance removal root role is invalid"

def validateDirectory (operation : Bytes) (details : Value) : Result Unit := do
  let message := "maintenance directory observation is invalid"
  fields details ["root_role", "relative_path", "native_identity"]
  relativePath (← details.getString "relative_path") true
  let role ← details.getString "root_role"
  demandString details "native_identity" nativeIdentity message
  demand (validRootRole operation role) message

def validateOwnership (operation : Bytes) (details : Value) : Result Unit := do
  let message := "maintenance ownership binding is invalid"
  fields details ["manifest_id", "prior_manifest_digest"]
  demand (operation != ascii "uninstall") message
  demandString details "manifest_id" validIdentifier message
  demandString details "prior_manifest_digest" validSha256 message

/-- The optional postimage of an installed-state write. -/
def validateRevision (revision : Value) : Result Unit := do
  fields revision ["target_root", "ownership_manifest_ref", "ownership_manifest_digest",
    "transaction_id", "created_at", "lifecycle_status", "last_verification"]
  allStrings revision ["target_root", "ownership_manifest_ref", "transaction_id", "created_at",
    "lifecycle_status"]
  demandString revision "ownership_manifest_digest" validSha256
    "maintenance installed-state ownership digest is invalid"
  let verification ← revision.get "last_verification"
  fields verification ["report_id", "report_digest", "status", "verified_at"]
  allStrings verification ["report_id", "status", "verified_at"]
  demandString verification "report_digest" validSha256
    "maintenance installed-state verification digest is invalid"

def validateInstalled (details : Value) : Result Unit := do
  let message := "maintenance installed-state binding is invalid"
  let revised := (ByteMap.find (← details.asObject) (ascii "state_revision")).isSome
  fields details (["install_id", "state_digest"] ++ if revised then ["state_revision"] else [])
  demandString details "install_id" validIdentifier message
  demandString details "state_digest" validSha256 message
  if revised then
    validateRevision (← details.get "state_revision")

/-- The keys of the audit record that an intent may carry. -/
def auditKeys : List String :=
  ["created_at", "operation", "phase", "status", "subject_type", "subject_id", "details_digest",
    "transaction_id", "plan_id", "message"]

def validateAudit (details : Value) : Result Unit := do
  let message := "maintenance audit binding is invalid"
  let carried := (ByteMap.find (← details.asObject) (ascii "input")).isSome
  fields details (["chain_id", "input_digest"] ++ if carried then ["input"] else [])
  demandString details "chain_id" validIdentifier message
  demandString details "input_digest" validSha256 message
  if carried then
    let input ← details.get "input"
    fields input auditKeys
    stringMembers (← input.asObject)
    demandString details "input_digest" (sha256Canonical input == ·)
      "maintenance audit postimage digest differs"

/-- The branch of `validate_effect` for a kind. -/
def validateDetails (operation : Bytes) (kind : EffectKind) (details : Value) : Result Unit :=
  match kind with
  | .backupFile | .replaceFile | .removeFile => validateFile operation kind details
  | .removeDirectory => validateDirectory operation details
  | .publishTarget => do
    fields details ["native_identity"]
    demandString details "native_identity" nativeIdentity
      "maintenance publication observation is invalid"
  | .writeOwnership => validateOwnership operation details
  | .writeInstalled => validateInstalled details
  | .appendAudit => validateAudit details

/-- The kind named by a string, or the last branch of `validate_effect`. -/
def kindOf (text : Bytes) : Result EffectKind :=
  match EffectKind.ofName text with
  | none => .error "maintenance effect kind is unknown"
  | some k => .ok k

/-- `validate_effect`, which also resolves the kind. -/
def validateEffect (operation kind : Bytes) (details : Value) : Result EffectKind := do
  demand (decide ((canonical details).length ≤ 8192)) "maintenance effect exceeds its bound"
  let k ← kindOf kind
  validateDetails operation k details
  pure k

/-- `validate_completion`. An empty digest is recorded as null. -/
def validateCompletion (kind : EffectKind) (outcome resultDigest : Bytes) : Result Unit :=
  demand ((outcome == ascii "applied" ||
      (outcome == ascii "retained" && kind = .removeDirectory)) &&
    (if kind.isMetadata then validSha256 resultDigest else resultDigest.isEmpty))
    "maintenance completion is invalid"

theorem kindOf_eq_ok {text : Bytes} {k : EffectKind} : kindOf text = .ok k ↔ text = k.name := by
  unfold kindOf
  constructor
  · intro h
    split at h
    · cases h
    · next hk =>
      cases h
      exact (EffectKind.name_of_ofName hk).symm
  · rintro rfl
    rw [EffectKind.ofName_name]

/-- An accepted effect has a known kind, is bounded and passes the checks of that kind. -/
theorem validateEffect_eq_ok {operation kind : Bytes} {details : Value} {k : EffectKind} :
    validateEffect operation kind details = .ok k ↔
      kind = k.name ∧ (canonical details).length ≤ 8192 ∧
        ∃ u, validateDetails operation k details = .ok u := by
  simp only [validateEffect, bind_eq_ok, demand_eq_ok, decide_eq_true_eq, kindOf_eq_ok, pure,
    Except.pure, Except.ok.injEq]
  constructor
  · rintro ⟨_, hlen, k', hk, u, hu, rfl⟩
    exact ⟨hk, hlen, u, hu⟩
  · rintro ⟨hk, hlen, u, hu⟩
    exact ⟨(), hlen, k, hk, u, hu, rfl⟩

end Usk.Maintenance

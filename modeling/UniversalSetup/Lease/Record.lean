import UniversalSetup.Json.Schema

/-!
# Installation lease records

One record says who owns an installation. A new holder derives its record from the current one, and
the owner finishes its own record when its operation is completed or handed off. Records are JSON
objects with a fixed set of members, sealed by a digest over all other members.
-/

namespace Usk.Lease

open Json

/-! ## Exceptions -/

/-- `InstallLeaseConflict`. -/
def installLeaseConflict : String := "installation has an outstanding operation"

/-- `InstallLeaseStale`. -/
def installLeaseStale : String := "installation ownership generation is stale"

/-- `InstallStateRevisionStale`. -/
def installStateRevisionStale : String := "installed state changed before effects"

/-! ## Checks of members -/

/-- `members`: as many members as names, each of them named. -/
def members (value : Value) (names : List String) : Result Unit := do
  let object ← value.asObject
  demand (object.length == names.length) "installation lease fields differ"
  demand ((ByteMap.keys object).all (names.map ascii).contains)
    "installation lease field is unknown"

/-- `hex`. -/
def hex (text : Bytes) (size : Nat) : Bool :=
  text.length == size && text.all isHex

/-- `revision`. -/
def revision (value : Bytes) : Result Unit :=
  demand (hex value 64) "installation state revision is not a SHA-256"

/-- The loop over the digits of a volume serial, which must not overflow 64 bits. -/
def serialDigits (number : Nat) : Bytes → Bool
  | [] => true
  | ch :: rest =>
    if !isDigit ch || number > (2 ^ 64 - 1 - (ch.toNat - 0x30)) / 10 then false
    else serialDigits (number * 10 + (ch.toNat - 0x30)) rest

/-- `root_identity`. -/
def rootIdentity (root : Value) : Result Unit := do
  members root ["file_id", "volume_serial"]
  let id ← root.getString "file_id"
  let serial ← root.getString "volume_serial"
  demand (hex id 32 && !(id == List.replicate 32 0x30) && !serial.isEmpty &&
    decide (serial.length ≤ 20) && !(serial.head? == some 0x30))
    "installation lease root identity is invalid"
  demand (serialDigits 0 serial) "installation lease volume serial is invalid"

/-- `holder_identity`. -/
def holderIdentity (holder : Value) : Result Unit := do
  members holder ["process_id", "process_creation_time"]
  let process ← (← holder.get "process_id").asUnsigned
  let creation ← holder.getString "process_creation_time"
  demand (!(process == 0) && decide (process.toNat ≤ 2 ^ 32 - 1) && hex creation 16 &&
    !(creation == List.replicate 16 0x30)) "installation lease holder identity is invalid"

/-- `InstallLeaseRequest`. -/
structure InstallLeaseRequest where
  installId : Bytes
  operation : Bytes
  operationId : Bytes
  attemptId : Bytes
  expectedStateRevision : Bytes
  recovery : Bool := false
  operationContextSha256 : Bytes
deriving DecidableEq

/-- The operations that may hold a lease. -/
def leaseOperations : List Bytes :=
  ["install_local", "repair", "move", "update", "uninstall", "generation_activate",
    "generation_retire"].map ascii

/-- `request_identity`. -/
def requestIdentity (request : InstallLeaseRequest) : Result Unit := do
  demand (validIdentifier request.installId && validIdentifier request.operationId &&
    validIdentifier request.attemptId && leaseOperations.contains request.operation)
    "installation lease request identity is invalid"
  revision request.expectedStateRevision
  revision request.operationContextSha256

/-- `seal`. -/
def sealed (value : Value) : Result Value := do
  let body := ByteMap.erase (← value.asObject) (ascii "ownership_sha256")
  pure (.object (ByteMap.insert body (ascii "ownership_sha256")
    (.string (sha256Canonical (.object body)))))

/-- `equal`. -/
def equal (left right : Value) : Bool :=
  canonical left == canonical right

/-! ## Records -/

/-- The members of a record. -/
def recordNames : List String :=
  ["schema", "install_id", "operation", "operation_id", "attempt_id", "state_root_identity",
    "holder", "generation", "expected_state_revision", "status", "result_state_revision",
    "predecessor_sha256", "ownership_sha256", "operation_context_sha256"]

/-- The request that a record answers, as `require_install_lease_record` reassembles it. -/
def recordRequest (record : Value) : Result InstallLeaseRequest := do
  let installId ← record.getString "install_id"
  let operation ← record.getString "operation"
  let operationId ← record.getString "operation_id"
  let attemptId ← record.getString "attempt_id"
  let expectedStateRevision ← record.getString "expected_state_revision"
  let operationContextSha256 ← record.getString "operation_context_sha256"
  pure { installId, operation, operationId, attemptId, expectedStateRevision,
         operationContextSha256 }

/-- Only the first generation has no predecessor. -/
def checkPredecessor (generation : UInt64) (predecessor : Value) : Result Unit := do
  let message := "installation lease predecessor binding is invalid"
  if generation == 1 then demand predecessor.isNull message
  else demand (hex (← predecessor.asString) 64) message

/-- An active record has no result; a finished one names the state it left. -/
def checkStatus (status : Bytes) (result : Value) : Result Unit := do
  if status == ascii "active" then
    demand result.isNull "active installation lease has a terminal revision"
  else if status == ascii "completed" || status == ascii "handoff" then
    revision (← result.asString)
  else .error "installation lease status is invalid"

/-- `require_install_lease_record`. -/
def requireInstallLeaseRecord (record : Value) : Result Unit := do
  members record recordNames
  demandString record "schema" (· == ascii "usk.installation_lease_ownership.v1")
    "installation lease schema is unsupported"
  requestIdentity (← recordRequest record)
  rootIdentity (← record.get "state_root_identity")
  holderIdentity (← record.get "holder")
  let generation ← (← record.get "generation").asUnsigned
  demand (!(generation == 0)) "installation lease generation is zero"
  checkPredecessor generation (← record.get "predecessor_sha256")
  checkStatus (← record.getString "status") (← record.get "result_state_revision")
  revision (← record.getString "ownership_sha256")
  demand (equal record (← sealed record)) "installation lease digest differs"

/-! ## Transitions -/

/-- `InstallLeasePreviousHolder`. -/
inductive InstallLeasePreviousHolder where
  | unknown
  | live
  | ended
  | identityReused
deriving DecidableEq

/-- What an unfinished predecessor asks of the request that continues it. -/
def checkContinuation (previous : Value) (status : Bytes) (request : InstallLeaseRequest)
    (observedStateRevision : Bytes) (previousHolder : InstallLeasePreviousHolder) :
    Result Unit := do
  demand request.recovery installLeaseConflict
  demandString previous "operation" (· == request.operation) installLeaseConflict
  demandString previous "operation_id" (· == request.operationId) installLeaseConflict
  demandString previous "operation_context_sha256" (· == request.operationContextSha256)
    installLeaseConflict
  demand (!(status == ascii "active") || previousHolder == .ended ||
    previousHolder == .identityReused) installLeaseConflict
  if status == ascii "handoff" then
    demandString previous "result_state_revision" (· == observedStateRevision)
      installStateRevisionStale

/-- After a completed record any request may follow. -/
def checkUnfinished (previous : Value) (status : Bytes) (request : InstallLeaseRequest)
    (observedStateRevision : Bytes) (previousHolder : InstallLeasePreviousHolder) : Result Unit :=
  if status == ascii "completed" then .ok ()
  else checkContinuation previous status request observedStateRevision previousHolder

/-- The generation and the predecessor digest of a record that follows the record `previous`. -/
def follow (previous : Value) (request : InstallLeaseRequest) (observedStateRoot : Value)
    (observedStateRevision : Bytes) (previousHolder : InstallLeasePreviousHolder) :
    Result (UInt64 × Value) := do
  requireInstallLeaseRecord previous
  demandString previous "install_id" (· == request.installId) installLeaseStale
  demand (equal (← previous.get "state_root_identity") observedStateRoot) installLeaseStale
  let previousGeneration ← (← previous.get "generation").asUnsigned
  demand (!(previousGeneration == 0xffffffffffffffff))
    "installation lease generation is exhausted"
  let status ← previous.getString "status"
  demandString previous "attempt_id" (· != request.attemptId) installLeaseStale
  checkUnfinished previous status request observedStateRevision previousHolder
  let predecessor ← previous.get "ownership_sha256"
  pure (previousGeneration + 1, predecessor)

/-- The generation and the predecessor digest of a new record. -/
def precede (previous : Option Value) (request : InstallLeaseRequest) (observedStateRoot : Value)
    (observedStateRevision : Bytes) (previousHolder : InstallLeasePreviousHolder) :
    Result (UInt64 × Value) :=
  match previous with
  | none => .ok (1, .null)
  | some previous => follow previous request observedStateRoot observedStateRevision previousHolder

/-- `derive_install_lease_ownership`. -/
def deriveInstallLeaseOwnership (previous : Option Value) (request : InstallLeaseRequest)
    (observedStateRoot observedHolder : Value) (observedStateRevision : Bytes)
    (previousHolder : InstallLeasePreviousHolder) : Result Value := do
  requestIdentity request
  rootIdentity observedStateRoot
  holderIdentity observedHolder
  revision observedStateRevision
  demand (request.expectedStateRevision == observedStateRevision) installStateRevisionStale
  let (generation, predecessor) ←
    precede previous request observedStateRoot observedStateRevision previousHolder
  sealed (.object (ByteMap.ofList [
    (ascii "schema", .string (ascii "usk.installation_lease_ownership.v1")),
    (ascii "install_id", .string request.installId),
    (ascii "operation", .string request.operation),
    (ascii "operation_id", .string request.operationId),
    (ascii "attempt_id", .string request.attemptId),
    (ascii "operation_context_sha256", .string request.operationContextSha256),
    (ascii "state_root_identity", observedStateRoot),
    (ascii "holder", observedHolder),
    (ascii "generation", .unsigned generation),
    (ascii "expected_state_revision", .string observedStateRevision),
    (ascii "status", .string (ascii "active")),
    (ascii "result_state_revision", .null),
    (ascii "predecessor_sha256", predecessor)]))

/-- `require_install_lease_fence`. -/
def requireInstallLeaseFence (ownership current observedStateRoot observedHolder : Value) :
    Result Unit := do
  requireInstallLeaseRecord ownership
  requireInstallLeaseRecord current
  rootIdentity observedStateRoot
  holderIdentity observedHolder
  demandString ownership "status" (· == ascii "active") installLeaseStale
  demand (equal ownership current) installLeaseStale
  demand (equal (← ownership.get "state_root_identity") observedStateRoot) installLeaseStale
  demand (equal (← ownership.get "holder") observedHolder) installLeaseStale

/-- `as_object().at(key) = value`, for a key that is present. -/
def assign (o : Object) (key : Bytes) (value : Value) : Object :=
  o.map fun m => if m.1 = key then (key, value) else m

/-- `finish_install_lease_ownership`. -/
def finishInstallLeaseOwnership (ownership observedStateRoot observedHolder : Value)
    (observedStateRevision : Bytes) (handoff : Bool) : Result Value := do
  requireInstallLeaseFence ownership ownership observedStateRoot observedHolder
  revision observedStateRevision
  let status := if handoff then ascii "handoff" else ascii "completed"
  let result := assign (← ownership.asObject) (ascii "status") (.string status)
  sealed (.object (assign result (ascii "result_state_revision") (.string observedStateRevision)))

end Usk.Lease

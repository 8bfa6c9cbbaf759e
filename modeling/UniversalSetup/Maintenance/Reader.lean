import UniversalSetup.Maintenance.Validate

/-!
# Reading the maintenance effect journal

One record is one file: a canonical JSON object and a newline. `decode_record_text` checks a record
by itself, `MaintenanceEffectRecordReader` checks a sequence of them and reports what it recorded.
-/

namespace Usk.Maintenance

open Json Transaction

/-- `maximum_records`. -/
def maximumRecords : Nat := 200002

/-- `maximum_journal_bytes`. -/
def maximumJournalBytes : Nat := 64 * 1024 * 1024

/-- `maximum_record_bytes`. -/
def maximumRecordBytes : Nat := 32768

/-- The limits under which a record is parsed. -/
def recordLimits : ParseLimits :=
  { maxBytes := maximumRecordBytes, maxDepth := 12, maxValues := 256, maxStringBytes := 16384 }

/-- The limits of a call of `parse` that names none. -/
def defaultLimits : ParseLimits := {}

/-- `filename`: the sequence number in twenty digits. -/
def filename (sequence : Nat) : Bytes :=
  let digits := decimal sequence
  List.replicate (20 - digits.length) 0x30 ++ digits ++ ascii ".json"

/-- `source_digest_`: the digest of a validated context. -/
def contextDigest (sourceContext : Bytes) : Result Bytes := do
  pure (sha256Canonical (← parse sourceContext defaultLimits))

/-- The record without its digest. -/
def recordBody (o : Object) : Value :=
  .object (ByteMap.erase o (ascii "digest"))

/-- `decode_record_text`, with the byte count it leaves in `bytes`. -/
def decodeRecordText (text : Bytes) (bytes : Nat) : Result (Value × Nat) := do
  demand (decide (text.length ≤ maximumRecordBytes))
    "maintenance journal record exceeds its byte bound"
  demand (decide (bytes ≤ maximumJournalBytes - text.length))
    "maintenance journal exceeds its byte bound"
  let value ← parse text recordLimits
  fields value ["schema", "sequence", "transaction_id", "source_digest", "phase", "details",
    "previous_digest", "digest"]
  let hash ← value.getString "digest"
  let body := recordBody (← value.asObject)
  let message := "maintenance journal record is invalid"
  demand (canonical value ++ [0x0a] == text) message
  demand (validSha256 hash) message
  demand (sha256Canonical body == hash) message
  demandString value "schema" (· == ascii "usk.maintenance_effect_record.v1") message
  pure (value, bytes + text.length)

/-! ## The reader -/

/-- `CompletedMaintenanceEffect`. -/
structure CompletedEffect where
  intentSequence : Nat
  kind : EffectKind
  details : Value
  outcome : Bytes
  resultDigest : Bytes

/-- `MaintenanceEffectInspection`. No pending kind is the empty string of the source. -/
structure Inspection where
  sourceContext : Bytes := []
  sourceDigest : Bytes := []
  journalDigest : Bytes := []
  completedEffects : Nat := 0
  nextSequence : Nat := 0
  pendingSequence : Nat := 0
  serializedBytes : Nat := 0
  directoryIdentity : Bytes := []
  isSealed : Bool := false
  pendingKind : Option EffectKind := none
  pendingDetails : Value := .null
  completed : List CompletedEffect := []

/-- `MaintenanceEffectRecordReader`. -/
structure RecordReader where
  spec : TransactionSpec
  directoryIdentity : Bytes
  expectedSourceDigest : Bytes
  recordCount : Nat
  retainCompleted : Bool := false
  result : Inspection := {}
  pendingSequence : Nat := 0
  bytes : Nat := 0
  failed : Bool := false
  finished : Bool := false

namespace RecordReader

/-- The constructor. -/
def create (spec : TransactionSpec) (directoryIdentity expectedSourceDigest : Bytes)
    (recordCount : Nat) (retainCompleted : Bool) : Result RecordReader := do
  demand (validIdentifier spec.transactionId && validSha256 expectedSourceDigest &&
    decide (0 < recordCount) && decide (recordCount ≤ maximumRecords))
    "maintenance inspection identity or record count is invalid"
  pure { spec, directoryIdentity, expectedSourceDigest, recordCount, retainCompleted }

/-- The checks that bind a record to its place in the chain. -/
def checkBinding (r : RecordReader) (recordName : Bytes) (value : Value) : Result Unit := do
  let message := "maintenance journal chain or binding is invalid"
  let index := r.result.nextSequence
  demand (recordName == filename index) message
  demand ((← (← value.get "sequence").asUnsigned).toNat == index) message
  demandString value "transaction_id" (· == r.spec.transactionId) message
  demandString value "source_digest" (· == r.expectedSourceDigest) message
  demand (!r.result.isSealed) message
  let previous ← value.get "previous_digest"
  if index = 0 then demand previous.isNull message
  else demand ((← previous.asString) == r.result.journalDigest) message

/-- The first record, which carries the source context. -/
def consumeContext (cwd : Path) (r : RecordReader) (details : Value) : Result RecordReader := do
  fields details ["source_context", "directory_identity"]
  demandString details "directory_identity" (· == r.directoryIdentity)
    "maintenance journal directory identity changed"
  let sourceContext ← details.getString "source_context"
  validateContext cwd r.spec sourceContext
  let sourceDigest ← contextDigest sourceContext
  demand (sourceDigest == r.expectedSourceDigest) "maintenance original context digest changed"
  pure { r with result := { r.result with sourceContext, sourceDigest } }

def consumeIntent (r : RecordReader) (details : Value) : Result RecordReader := do
  fields details ["kind", "effect"]
  demand r.result.pendingKind.isNone "maintenance intents overlap"
  let kind ← details.getString "kind"
  let effect ← details.get "effect"
  let k ← validateEffect r.spec.operation kind effect
  pure { r with
    result := { r.result with pendingKind := some k, pendingDetails := effect }
    pendingSequence := r.result.nextSequence }

/-- `optional_string`: null is the empty string. -/
def optionalString (v : Value) : Result Bytes :=
  if v.isNull then .ok [] else v.asString

def consumeCompletion (r : RecordReader) (details : Value) : Result RecordReader := do
  let message := "maintenance completion does not bind an intent"
  fields details ["intent_sequence", "kind", "outcome", "result_digest"]
  match r.result.pendingKind with
  | none => .error message
  | some k =>
    demandString details "kind" (· == k.name) message
    demand ((← (← details.get "intent_sequence").asUnsigned).toNat == r.pendingSequence) message
    let resultDigest ← optionalString (← details.get "result_digest")
    let outcome ← details.getString "outcome"
    validateCompletion k outcome resultDigest
    let effect : CompletedEffect :=
      { intentSequence := r.pendingSequence, kind := k, details := r.result.pendingDetails,
        outcome, resultDigest }
    pure { r with result := { r.result with
      pendingKind := none
      pendingDetails := .null
      completedEffects := r.result.completedEffects + 1
      completed := if r.retainCompleted then r.result.completed ++ [effect]
        else r.result.completed } }

def consumeSeal (r : RecordReader) (details : Value) : Result RecordReader := do
  demand (r.result.pendingKind.isNone && details.isNull)
    "maintenance journal sealed with an unresolved effect"
  pure { r with result := { r.result with isSealed := true } }

/-- The phases of a record, in the order in which the reader asks for them. -/
def consumePhase (cwd : Path) (r : RecordReader) (phase : Bytes) (details : Value) :
    Result RecordReader :=
  if r.result.nextSequence = 0 then
    if phase = ascii "context" then consumeContext cwd r details
    else .error "maintenance journal lacks original context"
  else if phase = ascii "intent" then consumeIntent r details
  else if phase = ascii "complete" then consumeCompletion r details
  else if phase = ascii "sealed" then consumeSeal r details
  else .error "maintenance journal phase is invalid"

/-- What `consume` does inside its `try`. -/
def consumeRecord (cwd : Path) (r : RecordReader) (recordName text : Bytes) :
    Result RecordReader := do
  demand (decide (r.result.nextSequence < r.recordCount))
    "maintenance journal has an unexpected record"
  let (value, bytes) ← decodeRecordText text r.bytes
  checkBinding r recordName value
  let phase ← value.getString "phase"
  let details ← value.get "details"
  let r ← consumePhase cwd { r with bytes } phase details
  let journalDigest ← value.getString "digest"
  pure { r with result := { r.result with
    journalDigest, nextSequence := r.result.nextSequence + 1 } }

/-- `consume`: an exception poisons the reader, and what it had updated is never read again. -/
def consume (cwd : Path) (r : RecordReader) (recordName text : Bytes) :
    Result Unit × RecordReader :=
  if r.failed || r.finished then (.error "maintenance record reader is no longer usable", r)
  else
    match consumeRecord cwd r recordName text with
    | .ok r' => (.ok (), r')
    | .error e => (.error e, { r with failed := true })

/-- `finish`. -/
def finish (r : RecordReader) : Result Inspection × RecordReader :=
  if r.failed || r.finished then (.error "maintenance record reader is no longer usable", r)
  else if r.result.nextSequence ≠ r.recordCount then
    (.error "maintenance journal input is incomplete", { r with failed := true })
  else
    (.ok { r.result with
      pendingSequence := r.pendingSequence
      serializedBytes := r.bytes
      directoryIdentity := r.directoryIdentity }, { r with finished := true })

/-- `consume` on each record, until one throws. -/
def consumeAll (cwd : Path) : RecordReader → List (Bytes × Bytes) → Result RecordReader
  | r, [] => .ok r
  | r, (recordName, text) :: rest =>
    match r.consume cwd recordName text with
    | (.ok _, r') => consumeAll cwd r' rest
    | (.error e, _) => .error e

end RecordReader

/-- The constructor, `consume` on each record and `finish`. -/
def readRecords (cwd : Path) (spec : TransactionSpec)
    (directoryIdentity expectedSourceDigest : Bytes) (recordCount : Nat) (retainCompleted : Bool)
    (records : List (Bytes × Bytes)) : Result Inspection := do
  let r ← RecordReader.create spec directoryIdentity expectedSourceDigest recordCount
    retainCompleted
  let r ← r.consumeAll cwd records
  r.finish.1

end Usk.Maintenance

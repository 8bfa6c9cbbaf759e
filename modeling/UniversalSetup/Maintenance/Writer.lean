import UniversalSetup.Maintenance.Reader
import Mathlib.Data.List.Sort

/-!
# Writing the maintenance effect journal

`MaintenanceEffectJournal` appends one record file for the context, one for each intent, one for
each completion and one for the seal. An exception inside `persist` leaves the object unusable,
whether or not its record became durable; `resume` opens a new object over what `inspect` reads.

The operations are functions of the directory and of the object: they return both as the source
leaves them, next to the result. The injector may throw before or after a record.
-/

namespace Usk.Maintenance

open Json Transaction

/-- The journal directory: its native identity and its files in the order of the directory. -/
structure Directory where
  device : UInt64
  inode : UInt64
  files : List (Bytes × Bytes) := []

namespace Directory

/-- `observe_directory_identity`. -/
def identity (d : Directory) : Bytes :=
  hexId d.device ++ 0x3a :: hexId d.inode

/-- `read_stable_text` of one file. -/
def read (d : Directory) (name : Bytes) (limit : Nat) : Result Bytes :=
  match d.files.find? fun f => f.1 == name with
  | none => .error "cannot open stable file"
  | some (_, text) =>
    if text.length > limit then .error "durable record exceeds read budget" else .ok text

/-- `write_new_durable_text`, which refuses an existing name. -/
def writeNew (d : Directory) (name text : Bytes) : Result Directory :=
  if (d.files.map Prod.fst).contains name then .error "cannot no-clobber create durable record"
  else .ok { d with files := d.files ++ [(name, text)] }

/-- The files in the order in which `inspect` reads them. -/
def sorted (d : Directory) : List (Bytes × Bytes) :=
  d.files.insertionSort fun a b => a.1 ≤ b.1

end Directory

/-- Where the injector throws. -/
inductive Fault where
  | none
  | beforeRecord
  | afterRecord
deriving DecidableEq

/-- `MaintenanceEffectJournal`. -/
structure EffectJournal where
  spec : TransactionSpec
  directoryIdentity : Bytes
  sourceDigest : Bytes
  lastDigest : Bytes := []
  pendingKind : Option EffectKind := none
  pendingSequence : Nat := 0
  sequence : Nat := 0
  bytes : Nat := 0
  isSealed : Bool := false
  failed : Bool := false

namespace EffectJournal

/-- The seven members that `persist` fills in before the digest. -/
def recordMembers (j : EffectJournal) (phase : Bytes) (details : Value) : Object :=
  ByteMap.ofList
    [(ascii "schema", .string (ascii "usk.maintenance_effect_record.v1")),
     (ascii "sequence", .unsigned (UInt64.ofNat j.sequence)),
     (ascii "transaction_id", .string j.spec.transactionId),
     (ascii "source_digest", .string j.sourceDigest),
     (ascii "phase", .string phase),
     (ascii "details", details),
     (ascii "previous_digest", if j.lastDigest.isEmpty then .null else .string j.lastDigest)]

/-- The digest of the next record. -/
def recordHash (j : EffectJournal) (phase : Bytes) (details : Value) : Bytes :=
  sha256Canonical (.object (j.recordMembers phase details))

/-- The text of the next record. -/
def recordText (j : EffectJournal) (phase : Bytes) (details : Value) : Bytes :=
  canonical (.object (ByteMap.insert (j.recordMembers phase details) (ascii "digest")
    (.string (j.recordHash phase details)))) ++ [0x0a]

/-- The checks of `persist` that precede its write. -/
def checkPersist (j : EffectJournal) (d : Directory) (fault : Fault) (phase : Bytes)
    (details : Value) : Result Unit := do
  demand (fault ≠ .beforeRecord) "injected before record"
  demand (d.identity == j.directoryIdentity) "maintenance journal directory changed"
  if j.sequence ≠ 0 then
    let text ← d.read (filename (j.sequence - 1)) maximumRecordBytes
    let (prior, _) ← decodeRecordText text 0
    demandString prior "digest" (· == j.lastDigest) "maintenance journal predecessor changed"
  let text := j.recordText phase details
  demand (decide (text.length ≤ maximumRecordBytes) &&
    decide (j.bytes ≤ maximumJournalBytes - text.length)) "maintenance journal exceeds its bound"

/-- The object after its record became durable. -/
def recorded (j : EffectJournal) (phase : Bytes) (details : Value) : EffectJournal :=
  { j with
    lastDigest := j.recordHash phase details
    bytes := j.bytes + (j.recordText phase details).length
    sequence := j.sequence + 1 }

/-- What an operation leaves behind. -/
structure Outcome where
  directory : Directory
  journal : EffectJournal
  result : Result Unit

/-- `persist`. -/
def persist (j : EffectJournal) (d : Directory) (fault : Fault) (phase : Bytes) (details : Value) :
    Outcome :=
  if j.failed || j.isSealed || decide (maximumRecords ≤ j.sequence) then
    ⟨d, j, .error "maintenance journal cannot accept another record"⟩
  else
    match j.checkPersist d fault phase details with
    | .error e => ⟨d, { j with failed := true }, .error e⟩
    | .ok _ =>
      match d.writeNew (filename j.sequence) (j.recordText phase details) with
      | .error e => ⟨d, { j with failed := true }, .error e⟩
      | .ok d' =>
        if fault = .afterRecord then
          ⟨d', { j.recorded phase details with failed := true }, .error "injected after record"⟩
        else ⟨d', j.recorded phase details, .ok ()⟩

/-- The details of an intent. -/
def intentDetails (kind : Bytes) (details : Value) : Value :=
  .object (ByteMap.ofList [(ascii "kind", .string kind), (ascii "effect", details)])

/-- `begin_effect`. -/
def beginEffect (j : EffectJournal) (d : Directory) (fault : Fault) (kind : Bytes)
    (details : Value) : Outcome :=
  if j.pendingKind.isSome then ⟨d, j, .error "maintenance effect is still unresolved"⟩
  else
    match validateEffect j.spec.operation kind details with
    | .error e => ⟨d, j, .error e⟩
    | .ok k =>
      let o := { j with pendingSequence := j.sequence }.persist d fault (ascii "intent")
        (intentDetails kind details)
      match o.result with
      | .error _ => o
      | .ok _ => { o with journal := { o.journal with pendingKind := some k } }

/-- The details of a completion. -/
def completionDetails (intentSequence : Nat) (kind : EffectKind) (outcome resultDigest : Bytes) :
    Value :=
  .object (ByteMap.ofList
    [(ascii "intent_sequence", .unsigned (UInt64.ofNat intentSequence)),
     (ascii "kind", .string kind.name),
     (ascii "outcome", .string outcome),
     (ascii "result_digest", if resultDigest.isEmpty then .null else .string resultDigest)])

/-- `complete_effect`. -/
def completeEffect (j : EffectJournal) (d : Directory) (fault : Fault)
    (outcome resultDigest : Bytes) : Outcome :=
  match j.pendingKind with
  | none => ⟨d, j, .error "maintenance completion has no intent"⟩
  | some k =>
    match validateCompletion k outcome resultDigest with
    | .error e => ⟨d, j, .error e⟩
    | .ok _ =>
      let o := j.persist d fault (ascii "complete")
        (completionDetails j.pendingSequence k outcome resultDigest)
      match o.result with
      | .error _ => o
      | .ok _ => { o with journal := { o.journal with pendingKind := none } }

/-- `seal`. -/
def sealJournal (j : EffectJournal) (d : Directory) (fault : Fault) : Outcome :=
  if j.pendingKind.isSome then ⟨d, j, .error "maintenance journal has an unresolved intent"⟩
  else
    let o := j.persist d fault (ascii "sealed") .null
    match o.result with
    | .error _ => o
    | .ok _ => { o with journal := { o.journal with isSealed := true } }

/-- The details of the context record. -/
def contextDetails (sourceContext directoryIdentity : Bytes) : Value :=
  .object (ByteMap.ofList [(ascii "source_context", .string sourceContext),
    (ascii "directory_identity", .string directoryIdentity)])

/-- The constructor, in a directory that was created exclusively and is therefore empty. -/
def create (cwd : Path) (spec : TransactionSpec) (sourceContext : Bytes) (d : Directory)
    (fault : Fault) : Result Outcome := do
  validateContext cwd spec sourceContext
  let sourceDigest ← contextDigest sourceContext
  let j : EffectJournal := { spec, directoryIdentity := d.identity, sourceDigest }
  pure (j.persist d fault (ascii "context") (contextDetails sourceContext d.identity))

/-- The loop of `inspect`, which reads each file as it comes to it. -/
def inspectFiles (cwd : Path) : RecordReader → List (Bytes × Bytes) → Result RecordReader
  | r, [] => .ok r
  | r, (name, text) :: rest =>
    if text.length > maximumRecordBytes then .error "durable record exceeds read budget"
    else
      match r.consume cwd name text with
      | (.ok _, r') => inspectFiles cwd r' rest
      | (.error e, _) => .error e

/-- `inspect`. -/
def inspect (cwd : Path) (spec : TransactionSpec) (expectedSourceDigest : Bytes) (retain : Bool)
    (d : Directory) : Result Inspection := do
  demand (validIdentifier spec.transactionId && validSha256 expectedSourceDigest)
    "maintenance inspection identity is invalid"
  demand (decide (d.files.length ≤ maximumRecords)) "maintenance journal directory is not exact"
  demand (!d.files.isEmpty) "maintenance journal has no original context"
  let r ← RecordReader.create spec d.identity expectedSourceDigest d.files.length retain
  let r ← inspectFiles cwd r d.sorted
  r.finish.1

/-- `resume`. -/
def resume (cwd : Path) (spec : TransactionSpec)
    (expectedSourceDigest expectedHistoryDigest : Bytes)
    (d : Directory) : Result EffectJournal := do
  let inspected ← inspect cwd spec expectedSourceDigest false d
  demand (validSha256 expectedHistoryDigest && inspected.journalDigest == expectedHistoryDigest &&
    !inspected.isSealed) "maintenance continuation snapshot changed or is sealed"
  pure {
    spec
    directoryIdentity := inspected.directoryIdentity
    sourceDigest := inspected.sourceDigest
    lastDigest := inspected.journalDigest
    pendingKind := inspected.pendingKind
    pendingSequence := inspected.pendingSequence
    sequence := inspected.nextSequence
    bytes := inspected.serializedBytes }

end EffectJournal

end Usk.Maintenance

import UniversalSetup.Json.Layout
import UniversalSetup.Transaction.Spec

/-!
# The transaction journal

A session keeps its transitions, its staged files and its stream observations in memory, and writes
all of them as one JSON document each time anything changes. `renderJournal` is that document. Its
digest covers the transition chain only; the embedded stream journal has a digest of its own.
-/

namespace Usk.Transaction

open Json

/-! ## States -/

/-- The states that `valid_transition` knows. -/
inductive State where
  | created
  | validated
  | planned
  | staging
  | staged
  | verified
  | committing
  | committed
  | completed
  | recoveryRequired
  | refused
  | rolledBack
  | abandonedByOperator
deriving DecidableEq

namespace State

def name : State → Bytes
  | created => ascii "created"
  | validated => ascii "validated"
  | planned => ascii "planned"
  | staging => ascii "staging"
  | staged => ascii "staged"
  | verified => ascii "verified"
  | committing => ascii "committing"
  | committed => ascii "committed"
  | completed => ascii "completed"
  | recoveryRequired => ascii "recovery_required"
  | refused => ascii "refused"
  | rolledBack => ascii "rolled_back"
  | abandonedByOperator => ascii "abandoned_by_operator"

def all : List State :=
  [created, validated, planned, staging, staged, verified, committing, committed, completed,
    recoveryRequired, refused, rolledBack, abandonedByOperator]

/-- The state of a text; other texts are no target of any transition. -/
def ofName (text : Bytes) : Option State :=
  all.find? fun s => s.name == text

theorem ofName_name (s : State) : ofName s.name = some s := by
  cases s <;> decide

theorem name_of_ofName {text : Bytes} {s : State} (h : ofName text = some s) : s.name = text := by
  have := List.find?_some h
  exact beq_iff_eq.mp this

/-- The text of `current_state_`, which is empty before the first transition. -/
def text : Option State → Bytes
  | none => []
  | some s => s.name

theorem text_injective {a b : Option State} (h : text a = text b) : a = b := by
  cases a with
  | none => cases b with
    | none => rfl
    | some t => cases t <;> cases h
  | some s => cases b with
    | none => cases s <;> cases h
    | some t =>
      have hs := ofName_name s
      rw [show s.name = t.name from h, ofName_name t] at hs
      exact hs.symm

end State

/-- `valid_transition`. -/
def validTransition : Option State → State → Bool
  | none, next => next == .created
  | some .created, next => next == .validated
  | some .validated, next => next == .planned
  | some .planned, next => next == .staging
  | some .staging, next => next == .staged || next == .recoveryRequired || next == .refused
  | some .staged, next => next == .verified || next == .recoveryRequired || next == .refused
  | some .verified, next => next == .committing || next == .recoveryRequired || next == .refused
  | some .committing, next => next == .committed || next == .recoveryRequired
  | some .committed, next => next == .completed || next == .recoveryRequired
  | some .recoveryRequired, next =>
    next == .committing || next == .rolledBack || next == .abandonedByOperator
  | some _, _ => false

/-- `journal_actions`. No transition leads to "failed", but the function knows it. -/
def journalActions (state : Bytes) : List Bytes :=
  if [ascii "staging", ascii "staged", ascii "verified", ascii "committing"].contains state then
    [ascii "rollback"]
  else if state == ascii "committed" then [ascii "resume"]
  else if state == ascii "recovery_required" || state == ascii "failed" then
    [ascii "resume", ascii "rollback", ascii "retain_for_operator", ascii "abandon"]
  else []

/-! ## Transitions -/

/-- `Transition`. -/
structure Transition where
  sequence : UInt64
  fromState : Option State
  toState : State
  recordedAt : Bytes
deriving DecidableEq

/-- One transition in the text that `journal_digest` is taken over. -/
def Transition.chainText (t : Transition) : Bytes :=
  decimal t.sequence.toNat ++ 0x00 :: (State.text t.fromState ++ 0x00 :: (t.toState.name ++
    0x00 :: (t.recordedAt ++ [0x0a])))

/-- The text that `journal_digest` is taken over. -/
def chainText (ts : List Transition) : Bytes :=
  ts.flatMap Transition.chainText

/-- Transitions numbered from `n` on, each allowed after the one before it. -/
inductive Chain : Nat → Option State → List Transition → Prop
  | nil (n : Nat) (prior : Option State) : Chain n prior []
  | cons {n : Nat} {t : Transition} {ts : List Transition} : t.sequence.toNat = n →
      validTransition t.fromState t.toState = true → Chain (n + 1) (some t.toState) ts →
      Chain n t.fromState (t :: ts)

/-- The state that a chain ends in. -/
def lastState : Option State → List Transition → Option State
  | prior, [] => prior
  | _, t :: ts => lastState (some t.toState) ts

/-! ## Stream observations -/

/-- The phases of `StreamEntryObservation`. -/
inductive StreamPhase where
  | intent
  | writing
  | complete
deriving DecidableEq

namespace StreamPhase

def name : StreamPhase → Bytes
  | intent => ascii "intent"
  | writing => ascii "writing"
  | complete => ascii "complete"

def ofName (text : Bytes) : Option StreamPhase :=
  [intent, writing, complete].find? fun p => p.name == text

end StreamPhase

/-- `StreamEntryObservation`. -/
structure StreamEntryObservation where
  relativePath : Bytes
  sha256 : Bytes
  expectedSize : UInt64
  sourceIdentityDigest : Bytes
  phase : StreamPhase := .intent
  outputIdentity : Bytes := []
deriving DecidableEq

/-- `StreamJournal`. -/
structure StreamJournal where
  sourceDigest : Bytes := []
  sourceContext : Bytes := []
  publicationRootIdentity : Bytes := []
  originTransactionId : Bytes := []
  originSnapshotSha256 : Bytes := []
  entries : List StreamEntryObservation := []
  present : Bool := false
deriving DecidableEq

/-- `nullable`. -/
def nullable (value : Bytes) : Value :=
  if value.isEmpty then .null else .string value

/-- One element of `entries`. -/
def StreamEntryObservation.value (entry : StreamEntryObservation) : Value :=
  .object (ByteMap.ofList [
    (ascii "relative_path", .string entry.relativePath),
    (ascii "sha256", .string entry.sha256),
    (ascii "expected_size", .unsigned entry.expectedSize),
    (ascii "source_identity_digest", .string entry.sourceIdentityDigest),
    (ascii "phase", .string entry.phase.name),
    (ascii "output_identity", nullable entry.outputIdentity)])

/-- The journal that a restarted stream continues. -/
def StreamJournal.restartOrigin (journal : StreamJournal) : Value :=
  if journal.originTransactionId.isEmpty then .null
  else .object (ByteMap.ofList [
    (ascii "transaction_id", .string journal.originTransactionId),
    (ascii "snapshot_sha256", .string journal.originSnapshotSha256)])

/-- Version 2 journals carry the identity of the published root. -/
def StreamJournal.version (journal : StreamJournal) : UInt64 :=
  if journal.publicationRootIdentity.isEmpty then 1 else 2

/-- The members of a stream journal that its digest covers. -/
def StreamJournal.members (journal : StreamJournal) : List (Bytes × Value) :=
  [(ascii "version", .unsigned journal.version),
    (ascii "source_digest", nullable journal.sourceDigest),
    (ascii "restart_origin", journal.restartOrigin),
    (ascii "entries", .array (journal.entries.map StreamEntryObservation.value))] ++
  (if journal.sourceContext.isEmpty then []
    else [(ascii "source_context", .string journal.sourceContext)]) ++
  (if journal.publicationRootIdentity.isEmpty then []
    else [(ascii "publication_root_identity", .string journal.publicationRootIdentity)])

/-- `render_stream_journal`. -/
def renderStreamJournal (journal : StreamJournal) : Value :=
  let result := ByteMap.ofList journal.members
  .object (ByteMap.insert result (ascii "digest") (.string (sha256Canonical (.object result))))

/-! ## Sessions -/

/-- `StagedFile`. -/
structure StagedFile where
  relativePath : Path
  sha256 : Bytes
  sizeBytes : UInt64
deriving DecidableEq

/-- `CommitClosureObservation`: identities of directories and files by prefixed relative path. -/
abbrev CommitClosureObservation := List (Bytes × Bytes)

/-- `staging_root_`. -/
def TransactionSpec.stagingRoot (spec : TransactionSpec) : Path :=
  spec.stagingParent.join (Path.ofText (ascii ".usk-stage-" ++ spec.transactionId))

/-- The members of `TransactionSession`. Its paths are functions of the normalized `spec`. -/
structure Session where
  spec : TransactionSpec
  createdAt : Bytes := []
  currentState : Option State := none
  stagingIdentity : Bytes := []
  retainStreamCleanup : Bool := false
  retainCommitCleanup : Bool := false
  maintenanceFinalization : Bool := false
  verifiedClosure : CommitClosureObservation := []
  streamJournal : StreamJournal := {}
  stagingParentIdentity : Bytes := []
  targetParentIdentity : Bytes := []
  journalDirectoryIdentity : Bytes := []
  transitions : List Transition := []
  stagedFiles : List StagedFile := []
deriving DecidableEq

namespace Session

/-- One element of `transitions`. -/
def transitionLayout (s : Session) (t : Transition) : Layout :=
  .record [
    ("sequence", .unsigned t.sequence),
    ("transition_id", .string (s.spec.transactionId ++ 0x2e :: decimal t.sequence.toNat)),
    ("from", if (State.text t.fromState).isEmpty then .null else .string (State.text t.fromState)),
    ("to", .string t.toState.name),
    ("recorded_at", .string t.recordedAt),
    ("durable_before_external_visibility", .boolean true)]

/-- One element of `roots`. -/
def rootLayout (role : String) (root : Path) (classification : String) : Layout :=
  .record [
    ("role", .string (ascii role)),
    ("root", .string root.native),
    ("classification", .string (ascii classification))]

/-- One element of `staged_files`. -/
def stagedLayout (file : StagedFile) : Layout :=
  .record [
    ("relative_path", .string file.relativePath.generic),
    ("sha256", .string file.sha256),
    ("size_bytes", .unsigned file.sizeBytes)]

/-- A latch withholds the right to delete staging by path. -/
def latched (s : Session) : Bool :=
  s.retainStreamCleanup || s.retainCommitCleanup

def metadataMembers (s : Session) : List (String × Layout) :=
  [("staging_identity",
    if s.stagingIdentity.isEmpty || s.latched then .null else .string s.stagingIdentity)] ++
  optionally s.retainStreamCleanup "stream_cleanup_policy" (.string (ascii "retain_only")) ++
  optionally s.retainCommitCleanup "commit_cleanup_policy" (.string (ascii "retain_only")) ++
  optionally s.streamJournal.present "stream_journal"
    (.embedded (renderStreamJournal s.streamJournal)) ++
  [("staged_files", .array (s.stagedFiles.map stagedLayout))]

/-- `recovery.available_actions`. -/
def recoveryActions (retained : Bool) (state : Bytes) : List Bytes :=
  if retained && !(state == ascii "completed") && !(state == ascii "committed") then
    [ascii "retain_for_operator"]
  else journalActions state

def recoveryLayout (s : Session) : Layout :=
  .record [
    ("required", .boolean (State.text s.currentState == ascii "recovery_required" ||
      State.text s.currentState == ascii "failed")),
    ("available_actions",
      .array ((recoveryActions s.latched (State.text s.currentState)).map .string))]

/-- `transitions_.back().recorded_at`. No journal is rendered before the first transition. -/
def updatedAt (s : Session) : Bytes :=
  match s.transitions.getLast? with
  | some t => t.recordedAt
  | none => []

def journalMembers (s : Session) : List (String × Layout) :=
  [("schema", .string (ascii "usk.transaction_journal.v1")),
    ("journal_id", .string (ascii "journal." ++ s.spec.transactionId)),
    ("journal_digest", .string (sha256 (chainText s.transitions))),
    ("transaction_id", .string s.spec.transactionId),
    ("plan_id", .string s.spec.planId),
    ("plan_digest", .string s.spec.planDigest),
    ("operation", .string s.spec.operation),
    ("current_state", .string (State.text s.currentState)),
    ("created_at", .string s.createdAt),
    ("updated_at", .string s.updatedAt),
    ("roots", .array [
      rootLayout "target" s.spec.targetRoot "operator_selected_owned_target",
      rootLayout "staging" s.spec.stagingRoot "setup_owned",
      rootLayout "setup_state" s.spec.stateRoot "setup_owned",
      rootLayout "audit" s.spec.auditRoot "audit_owned"])] ++
  optionally (s.spec.requiredCommitAuthority == .stagedChildBoundV1) "required_commit_authority"
    (.string (ascii "staged_child_bound_v1")) ++
  [("transitions", .array (s.transitions.map s.transitionLayout)),
    ("recovery_metadata", .record s.metadataMembers),
    ("recovery", s.recoveryLayout)]

def journalLayout (s : Session) : Layout :=
  .record s.journalMembers

/-- The bound that the writer and every reader of a journal share. -/
def maximumJournalText : Nat := 4 * 1024 * 1024

/-- `render_journal`. -/
def renderJournal (s : Session) : Result Bytes :=
  let text := s.journalLayout.text
  if text.length > maximumJournalText then
    .error "transaction journal exceeds its bounded recovery reader"
  else .ok text

theorem renderJournal_eq_ok (s : Session) {text : Bytes} : s.renderJournal = .ok text ↔
    text = s.journalLayout.text ∧ text.length ≤ maximumJournalText := by
  unfold renderJournal
  dsimp only
  split
  · next h =>
    constructor
    · intro hc; cases hc
    · rintro ⟨rfl, hle⟩; omega
  · next h =>
    constructor
    · intro hc; cases hc; exact ⟨rfl, by omega⟩
    · rintro ⟨rfl, _⟩; rfl

end Session

end Usk.Transaction

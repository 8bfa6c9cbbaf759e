import UniversalSetup.Transaction.Journal

/-!
# Reading the transaction journal

Two readers take a journal document apart. `decodeTransactionMetadata` reports what a journal says
to inspections; `decodeSession` rebuilds the members of a session for the resuming constructor. They
share the checks of the header, the roots, the transition chain and the stream journal, and differ
in their order and in the texts of some exceptions.
-/

namespace Usk.Transaction

open Json

variable {transactionId : Bytes} {document : Value} {ts : List Transition}

/-- The limits under which every reader parses a journal. -/
def journalLimits : ParseLimits :=
  { maxBytes := 4 * 1024 * 1024, maxDepth := 64, maxValues := 2 * 1024 * 1024,
    maxStringBytes := 1024 * 1024 }

/-- The limits of a call of `parse` that names none. -/
def streamContextLimits : ParseLimits := {}

/-! ## Header and roots -/

/-- The fields that bind a journal to the transaction it is read for. -/
def checkHeader (spec : TransactionSpec) (document : Value) (message : String) : Result Unit := do
  demandString document "schema" (· == ascii "usk.transaction_journal.v1") message
  demandString document "transaction_id" (· == spec.transactionId) message
  demandString document "plan_id" (· == spec.planId) message
  demandString document "plan_digest" (· == spec.planDigest) message
  demandString document "operation" (· == spec.operation) message

/-- The loop that fills `journal_roots`. -/
def readRoots : List Value → List (Bytes × Bytes) → Result (List (Bytes × Bytes))
  | [], roots => .ok roots
  | root :: rest, roots => do
    let role ← root.getString "role"
    let path ← root.getString "root"
    demand (roots.lookup role).isNone "transaction journal contains duplicate root authority"
    readRoots rest (roots ++ [(role, path)])

/-- `journal_roots[role]`, which makes up an empty text for an absent role. -/
def rootOf (roots : List (Bytes × Bytes)) (role : String) : Bytes :=
  (roots.lookup (ascii role)).getD []

def checkRoots (spec : TransactionSpec) (document : Value) (message : String) : Result Unit := do
  let roots ← readRoots (← (← document.get "roots").asArray) []
  demand (roots.length == 4 &&
    rootOf roots "target" == spec.targetRoot.native &&
    rootOf roots "staging" == spec.stagingRoot.native &&
    rootOf roots "setup_state" == spec.stateRoot.native &&
    rootOf roots "audit" == spec.auditRoot.native) message

/-! ## Transitions -/

/-- `null` or a string; `null` is the empty text. -/
def optionalString (v : Value) : Result Bytes :=
  if v.isNull then .ok [] else v.asString

/-- One turn of the loop over `transitions`, after `n` of them and in the state `prior`. -/
def decodeTransition (transactionId : Bytes) (item : Value) (n : Nat) (prior : Option State) :
    Result Transition := do
  let message := "transaction journal transition chain is invalid"
  let sequence ← (← item.get "sequence").asUnsigned
  let fromText ← optionalString (← item.get "from")
  let toText ← item.getString "to"
  demand (sequence.toNat == n && fromText == State.text prior) message
  match State.ofName toText with
  | none => .error message
  | some toState => do
    demand (validTransition prior toState) message
    demandString item "transition_id" (· == transactionId ++ 0x2e :: decimal n) message
    demand (← (← item.get "durable_before_external_visibility").asBoolean) message
    let recordedAt ← item.getString "recorded_at"
    pure { sequence, fromState := prior, toState, recordedAt }

/-- The loop over `transitions`. -/
def decodeTransitions (transactionId : Bytes) : List Value → Nat → Option State →
    Result (List Transition)
  | [], _, _ => .ok []
  | item :: rest, n, prior => do
    let t ← decodeTransition transactionId item n prior
    let ts ← decodeTransitions transactionId rest (n + 1) (some t.toState)
    pure (t :: ts)

/-- The transitions of a document. -/
def documentTransitions (transactionId : Bytes) (document : Value) : Result (List Transition) := do
  decodeTransitions transactionId (← (← document.get "transitions").asArray) 0 none

/-- The transitions of a journal text. -/
def journalTransitions (spec : TransactionSpec) (text : Bytes) : Result (List Transition) := do
  documentTransitions spec.transactionId (← parse text journalLimits)

/-- The chain is not empty, ends in the recorded state and has the recorded digest. -/
def checkDigest (document : Value) (transitions : List Transition) : Result Unit := do
  let message := "transaction journal digest or current state is invalid"
  demand (!transitions.isEmpty) message
  demandString document "current_state" (· == State.text (lastState none transitions)) message
  demandString document "journal_digest" (· == sha256 (chainText transitions)) message

/-! ## Latches -/

/-- The check that both latches share once their policy member is there. -/
def checkPolicy (metadata : Value) (key : String) (message : String) : Result Bool := do
  demandString metadata key (· == ascii "retain_only") message
  demand (← metadata.get "staging_identity").isNull message
  pure true

/-- `retain_commit_cleanup`. -/
def retainCommitCleanup (document : Value) : Result Bool := do
  if !document.contains "recovery_metadata" then return false
  let metadata ← document.get "recovery_metadata"
  if !metadata.contains "commit_cleanup_policy" then return false
  checkPolicy metadata "commit_cleanup_policy"
    "commit cleanup policy or rollback authority is invalid"

/-- `retain_stream_cleanup`, which insists on objects where its sibling does not. -/
def retainStreamCleanup (document : Value) : Result Bool := do
  let _ ← document.asObject
  if !document.contains "recovery_metadata" then return false
  let metadata ← document.get "recovery_metadata"
  let _ ← metadata.asObject
  if !metadata.contains "stream_cleanup_policy" then return false
  checkPolicy metadata "stream_cleanup_policy"
    "stream cleanup policy or rollback authority is invalid"

/-- `validate_commit_requirement`. -/
def validateCommitRequirement (document : Value) (requirement : CommitAuthorityRequirement) :
    Result Unit := do
  let message := "journal commit authority requirement mismatch or missing retention"
  let recorded := document.contains "required_commit_authority"
  demand (recorded == (requirement == .stagedChildBoundV1)) message
  if recorded then
    demandString document "required_commit_authority" (· == ascii "staged_child_bound_v1") message
    demand (← retainCommitCleanup document) message

/-! ## Stream journal -/

/-- The keys that a stream journal may have. -/
def streamKeys (version : UInt64) (hasContext : Bool) : List String :=
  ["version", "source_digest", "restart_origin", "entries", "digest"] ++
    (if hasContext then ["source_context"] else []) ++
    (if version == 2 then ["publication_root_identity"] else [])

/-- The digest, the version and, in version 2, the identity of the published root. -/
def readStreamHeader (value : Value) : Result Bytes := do
  let version ← (← value.get "version").asUnsigned
  exactKeys value (streamKeys version (value.contains "source_context"))
    "stream journal fields are invalid"
  let hash ← value.getString "digest"
  let body := Value.object (ByteMap.erase (← value.asObject) (ascii "digest"))
  demand ((version == 1 || version == 2) && validSha256 hash && sha256Canonical body == hash)
    "stream journal digest/version is invalid"
  if version == 2 then
    let identity ← value.getString "publication_root_identity"
    demand (nativeIdentity identity) "stream publication root identity is invalid"
    pure identity
  else pure []

/-- The source digest and the context that it is the digest of. -/
def readStreamSource (value : Value) : Result (Bytes × Bytes) := do
  let source ← value.get "source_digest"
  let sourceDigest ← optionalString source
  demand (source.isNull || validSha256 sourceDigest) "stream source digest is invalid"
  if !value.contains "source_context" then return (sourceDigest, [])
  let sourceContext ← value.getString "source_context"
  demand (!sourceContext.isEmpty && decide (sourceContext.length ≤ 16384))
    "stream source context exceeds its bound"
  let context ← parse sourceContext streamContextLimits
  demand (canonical context == sourceContext && sha256Canonical context == sourceDigest)
    "stream source context is not bound by its source digest"
  pure (sourceDigest, sourceContext)

/-- The journal that a restarted stream continues. -/
def readRestartOrigin (document value : Value) (sourceDigest : Bytes) : Result (Bytes × Bytes) := do
  let origin ← value.get "restart_origin"
  if origin.isNull then return ([], [])
  exactKeys origin ["transaction_id", "snapshot_sha256"] "stream journal fields are invalid"
  let originId ← origin.getString "transaction_id"
  let originSnapshot ← origin.getString "snapshot_sha256"
  let message := "stream restart lineage is invalid"
  demand (validIdentifier originId) message
  demandString document "transaction_id" (· != originId) message
  demand (validSha256 originSnapshot && !sourceDigest.isEmpty) message
  pure (originId, originSnapshot)

/-- The loop that fills `staged_files`, a map from relative paths to the recorded files. -/
def readStagedClosure : List Value → List (Bytes × Value) → Result (List (Bytes × Value))
  | [], files => .ok files
  | staged :: rest, files => do
    let path ← staged.getString "relative_path"
    demand (files.lookup path).isNone "stream journal has duplicate staged closure paths"
    readStagedClosure rest (files ++ [(path, staged)])

/-- The recorded file of a stream entry has its digest and size. -/
def checkCompletion (staged : Option Value) (observation : StreamEntryObservation) : Result Unit :=
  match staged with
  | none => .ok ()
  | some file => do
    let message := "stream completion differs from staged closure"
    demandString file "sha256" (· == observation.sha256) message
    demand ((← (← file.get "size_bytes").asUnsigned) == observation.expectedSize) message

/-- An entry is complete exactly when its file is recorded. -/
def checkStaged (staged : Option Value) (observation : StreamEntryObservation) : Result Unit := do
  checkCompletion staged observation
  demand (staged.isSome == (observation.phase == .complete))
    "stream phase differs from staged closure"

/-- The fields of one stream entry, checked by themselves. -/
def readStreamEntry (entry : Value) : Result StreamEntryObservation := do
  exactKeys entry ["relative_path", "sha256", "expected_size", "source_identity_digest", "phase",
    "output_identity"] "stream journal fields are invalid"
  let relativePath ← entry.getString "relative_path"
  let sha256 ← entry.getString "sha256"
  let expectedSize ← (← entry.get "expected_size").asUnsigned
  let sourceIdentityDigest ← entry.getString "source_identity_digest"
  let phaseText ← entry.getString "phase"
  let output ← entry.get "output_identity"
  let outputIdentity ← optionalString output
  let message := "stream entry observation is invalid"
  demand (safeRelativePath (Path.ofText relativePath) && validSha256 sha256 &&
    validSha256 sourceIdentityDigest) message
  match StreamPhase.ofName phaseText with
  | none => .error message
  | some phase => do
    demand (if phase == .intent then output.isNull else nativeIdentity outputIdentity) message
    pure { relativePath, sha256, expectedSize, sourceIdentityDigest, phase, outputIdentity }

/-- The loop over `entries`: nothing may follow an incomplete one, and folded paths differ. -/
def readStreamEntries (files : List (Bytes × Value)) : List Value → List Bytes → Bool →
    Result (List StreamEntryObservation)
  | [], _, _ => .ok []
  | entry :: rest, paths, incomplete => do
    let observation ← readStreamEntry entry
    let folded := observation.relativePath.map toLower
    demand (!incomplete && !paths.contains folded) "stream entry observation is invalid"
    checkStaged (files.lookup observation.relativePath) observation
    let observations ← readStreamEntries files rest (folded :: paths)
      (observation.phase != .complete)
    pure (observation :: observations)

/-- `read_stream_journal` once its member is there. -/
def readPresentStream (document metadata : Value) : Result StreamJournal := do
  let refusal := "stream journal cannot grant rollback authority"
  demand (metadata.contains "stream_cleanup_policy") refusal
  let _ ← checkPolicy metadata "stream_cleanup_policy" refusal
  let value ← metadata.get "stream_journal"
  let publicationRootIdentity ← readStreamHeader value
  let (sourceDigest, sourceContext) ← readStreamSource value
  let (originTransactionId, originSnapshotSha256) ← readRestartOrigin document value sourceDigest
  let files ← readStagedClosure (← (← metadata.get "staged_files").asArray) []
  let items ← (← value.get "entries").asArray
  demand (decide (items.length ≤ 100000)) "stream journal entry bound exceeded"
  let entries ← readStreamEntries files items [] false
  pure { sourceDigest, sourceContext, publicationRootIdentity, originTransactionId,
         originSnapshotSha256, entries, present := true }

/-- `read_stream_journal`. -/
def readStreamJournal (document : Value) : Result StreamJournal := do
  if !document.contains "recovery_metadata" then return {}
  let metadata ← document.get "recovery_metadata"
  if !metadata.contains "stream_journal" then return {}
  readPresentStream document metadata

/-! ## Inspection -/

/-- `TransactionJournalMetadata` and the part of `RecoveryInspection` that the text decides. -/
structure TransactionJournalMetadata where
  currentState : Bytes
  journalDigest : Bytes
  recordedAt : Bytes
  snapshotSha256 : Bytes
  commitStarted : Bool
  commitConfirmed : Bool
  stream : StreamJournal
  retainedStream : Bool
  retainedCommit : Bool
deriving DecidableEq

/-- `commit_started`. -/
def commitStarted (transitions : List Transition) : Bool :=
  transitions.any fun t =>
    t.toState == .committing || t.toState == .committed || t.toState == .completed

/-- `commit_confirmed`. -/
def commitConfirmed (transitions : List Transition) : Bool :=
  transitions.any fun t => t.toState == .committed || t.toState == .completed

/-- `decode_transaction_metadata`, for a normalized specification. -/
def decodeTransactionMetadata (spec : TransactionSpec) (text : Bytes) :
    Result TransactionJournalMetadata := do
  let document ← parse text journalLimits
  checkHeader spec document
    "transaction journal does not bind the requested recovery inspection"
  checkRoots spec document
    "transaction journal root authority does not match recovery inspection"
  let transitions ← documentTransitions spec.transactionId document
  let currentState ← document.getString "current_state"
  let journalDigest ← document.getString "journal_digest"
  let recordedAt ← document.getString "updated_at"
  checkDigest document transitions
  validateCommitRequirement document spec.requiredCommitAuthority
  let retainedStream ← retainStreamCleanup document
  let retainedCommit ← retainCommitCleanup document
  let stream ← readStreamJournal document
  pure { currentState, journalDigest, recordedAt, snapshotSha256 := sha256 text,
         commitStarted := commitStarted transitions, commitConfirmed := commitConfirmed transitions,
         stream, retainedStream, retainedCommit }

/-! ## What a passed check establishes -/

theorem asBoolean_eq_ok {v : Value} {b : Bool} : v.asBoolean = .ok b ↔ v = .boolean b := by
  cases v <;> simp [Value.asBoolean]

/-- One decoded transition and the members it was decoded from. -/
structure DecodesTransition (transactionId : Bytes) (item : Value) (n : Nat)
    (prior : Option State) (t : Transition) : Prop where
  numbered : t.sequence.toNat = n
  continues : t.fromState = prior
  allowed : validTransition prior t.toState = true
  sequence : item.get "sequence" = .ok (.unsigned t.sequence)
  fromState : ∃ v, item.get "from" = .ok v ∧ optionalString v = .ok (State.text prior)
  toState : item.get "to" = .ok (.string t.toState.name)
  transitionId : item.get "transition_id" = .ok (.string (transactionId ++ 0x2e :: decimal n))
  durable : item.get "durable_before_external_visibility" = .ok (.boolean true)
  recordedAt : item.get "recorded_at" = .ok (.string t.recordedAt)

theorem decodeTransition_eq_ok {item : Value} {n : Nat} {prior : Option State} {t : Transition} :
    decodeTransition transactionId item n prior = .ok t ↔
      DecodesTransition transactionId item n prior t := by
  simp only [decodeTransition, bind_eq_ok, asUnsigned_eq_ok, getString_eq_ok, demand_eq_ok,
    Bool.and_eq_true, beq_iff_eq]
  constructor
  · rintro ⟨_, hseq, sequence, rfl, v, hfrom, fromText, hfromText, toText, hto, _, ⟨hn, hprior⟩, h⟩
    split at h
    · cases h
    · next toState hname =>
      simp only [bind_eq_ok, demand_eq_ok, demandString_eq_ok, beq_iff_eq, asBoolean_eq_ok,
        getString_eq_ok, pure, Except.pure, Except.ok.injEq] at h
      obtain ⟨_, hallowed, _, ⟨_, hid, rfl⟩, _, hdurable, _, rfl, _, rfl, _, hrecorded, rfl⟩ := h
      rw [← State.name_of_ofName hname] at hto
      exact ⟨hn, rfl, hallowed, hseq, ⟨v, hfrom, hprior ▸ hfromText⟩, hto, hid, hdurable, hrecorded⟩
  · rintro ⟨rfl, rfl, hallowed, hseq, ⟨v, hfrom, htext⟩, hto, hid, hdurable, hrecorded⟩
    refine ⟨_, hseq, _, rfl, v, hfrom, _, htext, _, hto, (), ⟨rfl, rfl⟩, ?_⟩
    rw [State.ofName_name]
    simp only [bind_eq_ok, demand_eq_ok, demandString_eq_ok, beq_iff_eq, asBoolean_eq_ok,
      getString_eq_ok, pure, Except.pure]
    exact ⟨(), hallowed, (), ⟨_, hid, rfl⟩, _, hdurable, _, rfl, (), rfl, _, hrecorded, rfl⟩

/-- Decoded transitions are numbered on from `n` and allowed from `prior` on. -/
theorem chain_of_decodeTransitions {transactionId : Bytes} : ∀ {items : List Value} {n : Nat}
    {prior : Option State} {ts : List Transition},
    decodeTransitions transactionId items n prior = .ok ts → Chain n prior ts
  | [], n, prior, ts, h => by
    cases h
    exact .nil n prior
  | item :: rest, n, prior, ts, h => by
    simp only [decodeTransitions, bind_eq_ok, decodeTransition_eq_ok] at h
    obtain ⟨t, ht, us, hus, he⟩ := h
    cases he
    have hchain := chain_of_decodeTransitions hus
    obtain ⟨hn, rfl, hallowed, -⟩ := ht
    exact .cons hn hallowed hchain

theorem chain_of_documentTransitions (h : documentTransitions transactionId document = .ok ts) :
    Chain 0 none ts := by
  simp only [documentTransitions, bind_eq_ok] at h
  obtain ⟨_, -, _, -, h⟩ := h
  exact chain_of_decodeTransitions h

theorem checkDigest_eq_ok {u : Unit} :
    checkDigest document ts = .ok u ↔ ts ≠ [] ∧
      document.get "current_state" = .ok (.string (State.text (lastState none ts))) ∧
      document.get "journal_digest" = .ok (.string (sha256 (chainText ts))) := by
  simp only [checkDigest, bind_eq_ok, demand_eq_ok, demandString_eq_ok, beq_iff_eq,
    Bool.not_eq_true', List.isEmpty_eq_false_iff, exists_eq_right, exists_and_left, exists_const]

/-- An accepted journal, as the inspections see it. -/
theorem decodeTransactionMetadata_eq_ok {spec : TransactionSpec} {text : Bytes}
    {m : TransactionJournalMetadata} (h : decodeTransactionMetadata spec text = .ok m) :
    ∃ document ts, parse text journalLimits = .ok document ∧
      documentTransitions spec.transactionId document = .ok ts ∧
      checkDigest document ts = .ok () ∧
      m.currentState = State.text (lastState none ts) ∧
      m.journalDigest = sha256 (chainText ts) := by
  simp only [decodeTransactionMetadata, bind_eq_ok, getString_eq_ok] at h
  obtain ⟨document, hparse, _, -, _, -, ts, hts, _, hstate, _, hdigest, _, -, _, hcheck, h⟩ := h
  obtain ⟨-, hstate', hdigest'⟩ := checkDigest_eq_ok.mp hcheck
  rw [hstate'] at hstate
  rw [hdigest'] at hdigest
  obtain ⟨_, -, _, -, _, -, _, -, he⟩ := h
  cases hstate
  cases hdigest
  cases he
  exact ⟨document, ts, hparse, hts, hcheck, rfl, rfl⟩

end Usk.Transaction

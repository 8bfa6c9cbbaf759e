import UniversalSetup.Base.Act
import UniversalSetup.Lifecycle.Payload
import UniversalSetup.Transaction.Decode

/-!
# Streamed staged files

`stage_file_stream` copies what a reader delivers into a new file below the staging root. It reads
in pieces of at most `buffer_bytes`, may collect several of them before it writes, and asks for one
byte more at the end. The result only depends on the bytes that the reader has to deliver: neither
the two buffer sizes nor the pieces that the reader chooses make a difference.
-/

namespace Usk.Transaction

open Json
open Lifecycle (StagingTree above lowercase)

/-! ## Host, request and state -/

/-- What the host decides: the time, identities, whether a journal can be written, how many of the
requested bytes a `write` at a position of the output takes (no byte is a failure), and what the
last `fsync`, `fstat` and `close` of the output come to. -/
structure StreamHost where
  now : Bytes
  stagingParentIdentity : Result Bytes
  journalDirectoryIdentity : Result Bytes
  writeJournal : Bytes → Result Unit
  newDirectory : List Bytes → UInt64 × UInt64
  outputIdentity : Result Bytes
  write : (position request : Nat) → Nat
  finish : Result Unit

/-- The arguments of `stage_file_stream` apart from the reader. -/
structure StreamRequest where
  relativePath : Path
  expectedSize : UInt64
  expectedSha256 : Bytes
  bufferBytes : Nat
  sourceIdentityDigest : Bytes := []
  writeBufferBytes : Nat := 0

structure StreamStageResult where
  sha256 : Bytes
  sizeBytes : UInt64
  peakBufferBytes : UInt64
deriving DecidableEq

/-- A session together with the tree below its staging root. -/
structure StreamState where
  session : Session
  tree : StagingTree

def maximumStreamBuffer : Nat := 4 * 1024 * 1024

/-- The sizes that `stage_file_stream` accepts. -/
def StreamRequest.allowed (request : StreamRequest) : Bool :=
  decide (4096 ≤ request.bufferBytes) && decide (request.bufferBytes ≤ maximumStreamBuffer) &&
    (request.writeBufferBytes == 0 ||
      (decide (request.bufferBytes ≤ request.writeBufferBytes) &&
        decide (request.writeBufferBytes ≤ maximumStreamBuffer)))

/-- `buffer.size()`. -/
def StreamRequest.bufferSize (request : StreamRequest) : Nat :=
  if request.writeBufferBytes = 0 then request.bufferBytes else request.writeBufferBytes

/-! ## The journal -/

/-- `directory_identity(staging_root_)`. The message ends in the path. -/
def observedStagingIdentity (tree : StagingTree) : Result Bytes :=
  match tree.find [] with
  | some (.directory device inode) => .ok (hexId device ++ 0x3a :: hexId inode)
  | _ => .error "transaction root must be an existing non-linked directory: "

def verifyStagingIdentity (host : StreamHost) (state : StreamState) : Result Unit := do
  let message := "setup-owned staging root identity changed"
  demand (!state.session.stagingIdentity.isEmpty) message
  let root ← observedStagingIdentity state.tree
  demand (root == state.session.stagingIdentity) message
  let parent ← host.stagingParentIdentity
  demand (parent == state.session.stagingParentIdentity) message

def requireJournalDirectory (host : StreamHost) (session : Session) : Result Unit := do
  let directory ← host.journalDirectoryIdentity
  demand (directory == session.journalDirectoryIdentity)
    "transaction journal directory identity changed"

def persistJournal (host : StreamHost) (session : Session) : Result Unit := do
  let text ← session.renderJournal
  host.writeJournal text

def persistSnapshot (host : StreamHost) (session : Session) : Result Unit := do
  demand (!session.transitions.isEmpty) "transaction journal directory identity changed"
  requireJournalDirectory host session
  persistJournal host session

/-- `persist_transition`. The session stays as it was if the journal cannot be written. -/
def persistTransition (host : StreamHost) (next : State) : Act StreamState Unit := do
  let state ← Act.get
  let session := state.session
  Act.ofExcept (demand (validTransition session.currentState next)
    "invalid setup transaction state transition")
  let transition : Transition :=
    { sequence := UInt64.ofNat session.transitions.length, fromState := session.currentState,
      toState := next, recordedAt := host.now }
  let session' := { session with
    transitions := session.transitions ++ [transition], currentState := some next }
  Act.ofExcept (if session.transitions.isEmpty then .ok () else requireJournalDirectory host
    session')
  Act.ofExcept (persistJournal host session')
  Act.set { state with session := session' }

/-- `stream_journal_.entries.back()` changed. -/
def StreamJournal.updateLast (journal : StreamJournal)
    (f : StreamEntryObservation → StreamEntryObservation) : StreamJournal :=
  { journal with
    entries := journal.entries.dropLast ++ (journal.entries.getLast?.map f).toList }

/-- The session after the cleanup latch of the first streamed file. -/
def Session.latchStream (session : Session) : Session :=
  { session with
    retainStreamCleanup := true
    streamJournal := { session.streamJournal with
      present := true, publicationRootIdentity := session.stagingIdentity } }

def Session.pushIntent (session : Session) (request : StreamRequest) : Session :=
  { session with
    streamJournal := { session.streamJournal with
      entries := session.streamJournal.entries ++
        [{ relativePath := request.relativePath.generic, sha256 := request.expectedSha256,
           expectedSize := request.expectedSize,
           sourceIdentityDigest := if request.sourceIdentityDigest.isEmpty then
             session.spec.planDigest else request.sourceIdentityDigest }] } }

def Session.markWriting (session : Session) (outputIdentity : Bytes) : Session :=
  { session with
    streamJournal := session.streamJournal.updateLast fun entry =>
      { entry with outputIdentity, phase := .writing } }

def Session.markStaged (session : Session) (file : StagedFile) : Session :=
  { session with
    streamJournal := session.streamJournal.updateLast fun entry => { entry with phase := .complete }
    stagedFiles := session.stagedFiles ++ [file] }

/-! ## Admission -/

/-- The request is valid for the session. Whether there is a reader is not asked here. -/
def Session.admits (session : Session) (request : StreamRequest) : Bool :=
  session.currentState == some .staging && safeRelativePath request.relativePath &&
    validSha256 request.expectedSha256 && request.allowed &&
    (request.sourceIdentityDigest.isEmpty || validSha256 request.sourceIdentityDigest)

/-- The part of `stage_file_stream` before it touches the staging root. -/
def beginStream (host : StreamHost) (request : StreamRequest) : Act StreamState Unit := do
  let state ← Act.get
  Act.ofExcept (demand (state.session.admits request) "streamed staged file request is invalid")
  Act.ofExcept (demand (!(state.session.stagedFiles.map fun file =>
      lowercase file.relativePath.generic).contains (lowercase request.relativePath.generic))
    "streamed staged file path is duplicated")
  Act.ofExcept (verifyStagingIdentity host state)
  let latched := state.session.latchStream
  Act.set { state with session := latched }
  let entries := latched.streamJournal.entries
  Act.ofExcept (demand (decide (entries.length < 100000) &&
      entries.getLast?.all fun entry => entry.phase == .complete)
    "stream journal has an incomplete entry or exceeds its entry bound")
  Act.set { state with session := latched.pushIntent request }
  Act.ofExcept (persistSnapshot host (latched.pushIntent request))

/-- The loop that makes the directories above the output. -/
def makeStreamParents (host : StreamHost) : List (List Bytes) → Act StreamState Unit
  | [] => pure ()
  | path :: rest => do
    let state ← Act.get
    match state.tree.find path with
    | some (.directory _ _) => makeStreamParents host rest
    | some (.link false) => Act.throw "cannot create owned streaming staging directory"
    | some _ => Act.throw "transaction root must be an existing non-linked directory: "
    | none =>
      let identity := host.newDirectory path
      match state.tree.create path (.directory identity.1 identity.2) with
      | none => Act.throw "cannot create owned streaming staging directory"
      | some tree => do
        Act.set { state with tree }
        makeStreamParents host rest

/-- The exclusive creation of the output and the observation of its identity. -/
def openOutput (host : StreamHost) (request : StreamRequest) : Act StreamState Unit := do
  let state ← Act.get
  match state.tree.create request.relativePath.names (.file [] 1) with
  | none => Act.throw "cannot exclusively create streamed transaction file"
  | some tree => do
    Act.set { state with tree }
    let identity ← Act.ofExcept host.outputIdentity
    let session := state.session.markWriting identity
    Act.set { session, tree }
    Act.ofExcept (persistSnapshot host session)

/-! ## The copy loop -/

/-- A reader over a state of its own: given a capacity, it returns the bytes that it put into the
buffer. -/
abbrev StreamReader (σ : Type) := σ → Nat → Result (Bytes × σ)

section

variable {σ : Type} (host : StreamHost) (request : StreamRequest) (reader : StreamReader σ)

/-- The inner loop: it fills the buffer while the caller asks for batches. `remaining` is
`expected_size - total` and the batch holds `count` bytes. Every round reads a byte, so `remaining`
rounds are enough. -/
def fillBatch (remaining : Nat) : Nat → (batch : Bytes) → σ → Result (Bytes × σ)
  | 0, batch, source => .ok (batch, source)
  | rounds + 1, batch, source => do
    let capacity := min (min request.bufferBytes (request.bufferSize - batch.length))
      (remaining - batch.length)
    let (piece, source) ← reader source capacity
    demand (!piece.isEmpty && decide (piece.length ≤ capacity))
      "streamed source returned a short or oversized read"
    let batch := batch ++ piece
    if request.writeBufferBytes ≠ 0 ∧ batch.length < request.bufferSize ∧ batch.length < remaining
    then fillBatch remaining rounds batch source
    else pure (batch, source)

/-- A file with more bytes at its end. -/
def appendBytes (piece : Bytes) : Node → Node
  | .file content links => .file (content ++ piece) links
  | node => node

theorem isDirectory_appendBytes (piece : Bytes) (node : Node) :
    (appendBytes piece node).isDirectory = node.isDirectory := by
  cases node <;> rfl

/-- One `write` to the output. -/
def StreamState.append (state : StreamState) (p : List Bytes) (piece : Bytes) : StreamState :=
  { state with tree := state.tree.update p (appendBytes piece) (isDirectory_appendBytes piece) }

/-- The loop that writes a batch behind `position` bytes of output. A `write` that a signal
interrupted is made again and is no round. -/
def writeBatch : Nat → (position : Nat) → (pending : Bytes) → Act StreamState Unit
  | 0, _, _ => pure ()
  | rounds + 1, position, pending =>
    if pending.isEmpty then pure ()
    else do
      let written := host.write position pending.length
      if written = 0 then Act.throw "cannot write streamed transaction file"
      else do
        let state ← Act.get
        Act.set (state.append request.relativePath.names (pending.take written))
        writeBatch rounds (position + written) (pending.drop written)

/-- The outer loop. `hashed` is what went into the digest; `total` is its length. -/
def copyStream : Nat → (hashed : Bytes) → σ → Act StreamState (Bytes × σ)
  | 0, hashed, source => pure (hashed, source)
  | rounds + 1, hashed, source =>
    let size := request.expectedSize.toNat
    if hashed.length < size then do
      let remaining := size - hashed.length
      let (batch, source) ← Act.ofExcept (fillBatch request reader remaining remaining [] source)
      writeBatch host request batch.length hashed.length batch
      copyStream rounds (hashed ++ batch) source
    else pure (hashed, source)

/-- The end of the source, checked by asking for another byte. -/
def requireEnd (source : σ) : Result Unit := do
  let (probe, _) ← reader source 1
  demand probe.isEmpty "streamed source exceeded its reviewed size"

/-- The checks and records behind the copy loop. -/
def closeOutput (hashed : Bytes) : Act StreamState StreamStageResult := do
  Act.ofExcept host.finish
  let actual := Usk.sha256 hashed
  Act.ofExcept (demand (hashed.length == request.expectedSize.toNat &&
    actual == request.expectedSha256) "streamed staged file integrity changed")
  let state ← Act.get
  let total := UInt64.ofNat hashed.length
  let session := state.session.markStaged ⟨request.relativePath, actual, total⟩
  Act.set { state with session }
  Act.ofExcept (persistSnapshot host session)
  pure ⟨actual, total, UInt64.ofNat request.bufferSize⟩

/-- The part of `stage_file_stream` behind the creation of the output. -/
def copyOutput (source : σ) : Act StreamState StreamStageResult := do
  let (hashed, source) ← copyStream host request reader request.expectedSize.toNat [] source
  Act.ofExcept (requireEnd reader source)
  closeOutput host request hashed

def stageFileStream (source : σ) : Act StreamState StreamStageResult := do
  beginStream host request
  makeStreamParents host (above request.relativePath.names)
  Act.onThrow (openOutput host request >>= fun _ => copyOutput host request reader source)
    (persistTransition host .recoveryRequired)

end

/-! ## Readers -/

/-- A reader that hands out `left` in pieces of its own choice and then reports the end. A piece is
never empty before that, and never longer than the capacity. -/
structure ShortReader (σ : Type) where
  read : σ → Nat → Bytes × σ
  left : σ → Bytes
  piece : ∀ source capacity, 0 < capacity →
    left source = (read source capacity).1 ++ left (read source capacity).2
  fits : ∀ source capacity, 0 < capacity → (read source capacity).1.length ≤ capacity
  ended : ∀ source capacity, 0 < capacity → (read source capacity).1 = [] → left source = []

/-- The reader as `stage_file_stream` calls it. -/
def ShortReader.reader {σ : Type} (r : ShortReader σ) : StreamReader σ :=
  fun source capacity => .ok (r.read source capacity)

section

variable {σ : Type} {host : StreamHost} {request : StreamRequest} (r : ShortReader σ)

def shortRead : String := "streamed source returned a short or oversized read"

theorem bufferBytes_pos (h : request.allowed = true) : 0 < request.bufferBytes := by
  simp only [StreamRequest.allowed, Bool.and_eq_true, decide_eq_true_eq] at h
  omega

theorem bufferSize_pos (h : request.allowed = true) : 0 < request.bufferSize := by
  have hpos := bufferBytes_pos h
  unfold StreamRequest.bufferSize
  split <;> omega

/-- A batch takes a piece off the source, or the source has not enough left. -/
theorem fillBatch_reader (hallowed : request.allowed = true) (remaining : Nat) :
    ∀ (rounds : Nat) (batch : Bytes) (source : σ), batch.length < request.bufferSize →
      batch.length < remaining → remaining ≤ batch.length + rounds →
      (∃ piece source', piece ≠ [] ∧ (batch ++ piece).length ≤ remaining ∧
        r.left source = piece ++ r.left source' ∧
        fillBatch request r.reader remaining rounds batch source = .ok (batch ++ piece, source')) ∨
      (batch.length + (r.left source).length < remaining ∧
        fillBatch request r.reader remaining rounds batch source = .error shortRead) := by
  intro rounds
  induction rounds with
  | zero =>
    intro batch source _ hless hrounds
    omega
  | succ rounds ih =>
    intro batch source hroom hless hrounds
    rw [fillBatch]
    have hbuffer := bufferBytes_pos hallowed
    generalize hcapacity : min (min request.bufferBytes (request.bufferSize - batch.length))
      (remaining - batch.length) = capacity
    have hpos : 0 < capacity := by omega
    have hfits := r.fits source capacity hpos
    have hpiece := r.piece source capacity hpos
    have hended := r.ended source capacity hpos
    have hreader : r.reader source capacity = .ok (r.read source capacity) := rfl
    rw [hreader]
    generalize r.read source capacity = read at hfits hpiece hended ⊢
    obtain ⟨piece, source'⟩ := read
    simp only [bind, Except.bind] at hfits hpiece hended ⊢
    cases hempty : piece with
    | nil =>
      right
      rw [hended hempty, List.length_nil]
      exact ⟨by omega, rfl⟩
    | cons byte rest =>
      rw [← hempty]
      have hne : piece ≠ [] := by rw [hempty]; exact List.cons_ne_nil byte rest
      have hlen : 0 < piece.length := List.length_pos_iff.mpr hne
      have hdemand : (!piece.isEmpty && decide (piece.length ≤ capacity)) = true := by
        rw [hempty] at hfits ⊢
        simpa using hfits
      rw [hdemand, demand, if_pos rfl]
      simp only
      split
      · next hmore =>
        rcases ih (batch ++ piece) source' hmore.2.1 hmore.2.2
            (by rw [List.length_append]; omega) with
          ⟨more, last, -, hle, hleft, hfill⟩ | ⟨hshort, hfill⟩
        · refine .inl ⟨piece ++ more, last, List.append_ne_nil_of_left_ne_nil hne more, ?_, ?_, ?_⟩
          · rwa [← List.append_assoc]
          · rw [hpiece, hleft, List.append_assoc]
          · rw [← List.append_assoc]
            exact hfill
        · refine .inr ⟨?_, hfill⟩
          rw [hpiece, List.length_append]
          rw [List.length_append] at hshort
          omega
      · refine .inl ⟨piece, source', hne, ?_, hpiece, rfl⟩
        rw [List.length_append]
        omega

/-! ## Writes -/

theorem append_nil (state : StreamState) (p : List Bytes) : state.append p [] = state := by
  have hentries : (state.append p []).tree.entries = state.tree.entries := by
    show state.tree.entries.map _ = _
    conv_rhs => rw [← List.map_id state.tree.entries]
    refine List.map_congr_left fun e _ => ?_
    obtain ⟨path, node⟩ := e
    cases node <;> simp [appendBytes]
  obtain ⟨session, ⟨entries, distinct, closed⟩⟩ := state
  unfold StreamState.append
  rw [StreamState.mk.injEq, FileTree.mk.injEq]
  exact ⟨rfl, hentries⟩

theorem append_append (state : StreamState) (p : List Bytes) (piece more : Bytes) :
    (state.append p piece).append p more = state.append p (piece ++ more) := by
  have hcomp : appendBytes more ∘ appendBytes piece = appendBytes (piece ++ more) := by
    funext node
    cases node with
    | file content links => simp [appendBytes]
    | directory device inode => rfl
    | link resolves => rfl
    | other => rfl
  unfold StreamState.append
  rw [StreamState.mk.injEq]
  refine ⟨rfl, ?_⟩
  show (state.tree.update p (appendBytes piece) (isDirectory_appendBytes piece)).update p
    (appendBytes more) (isDirectory_appendBytes more) = _
  rw [FileTree.update_update]
  simp only [hcomp]

/-- However many bytes each `write` takes, a batch is appended to the output. -/
theorem writeBatch_run (hwrite : ∀ position request, 0 < request → 0 < host.write position
    request) :
    ∀ (rounds position : Nat) (pending : Bytes) (state : StreamState), pending.length ≤ rounds →
      writeBatch host request rounds position pending state =
        (.ok (), state.append request.relativePath.names pending) := by
  intro rounds
  induction rounds with
  | zero =>
    intro position pending state hrounds
    rw [List.length_eq_zero_iff.mp (Nat.le_zero.mp hrounds), append_nil]
    rfl
  | succ rounds ih =>
    intro position pending state hrounds
    rw [writeBatch]
    split
    · next hempty =>
      rw [List.isEmpty_iff.mp hempty, append_nil]
      rfl
    · next hempty =>
      have hpos : 0 < pending.length := by
        rw [List.length_pos_iff]
        exact fun h => hempty (List.isEmpty_iff.mpr h)
      have hwritten := hwrite position pending.length hpos
      rw [if_neg (Nat.ne_of_gt hwritten)]
      show writeBatch host request rounds _ _ (state.append _ _) = _
      rw [ih, append_append, List.take_append_drop]
      rw [List.length_drop]
      omega

/-- The copy loop moves `expected_size` bytes from the source to the digest and the output, or the
source has not enough of them. -/
theorem copyStream_reader (hallowed : request.allowed = true)
    (hwrite : ∀ position request, 0 < request → 0 < host.write position request) :
    ∀ (rounds : Nat) (hashed : Bytes) (source : σ) (state : StreamState),
      hashed.length ≤ request.expectedSize.toNat →
      request.expectedSize.toNat ≤ hashed.length + rounds →
      (∃ taken source', (hashed ++ taken).length = request.expectedSize.toNat ∧
        r.left source = taken ++ r.left source' ∧
        copyStream host request r.reader rounds hashed source state =
          (.ok (hashed ++ taken, source'), state.append request.relativePath.names taken)) ∨
      (hashed.length + (r.left source).length < request.expectedSize.toNat ∧
        ∃ state', copyStream host request r.reader rounds hashed source state =
          (.error (.thrown shortRead), state')) := by
  intro rounds
  induction rounds with
  | zero =>
    intro hashed source state hle hrounds
    refine .inl ⟨[], source, ?_, rfl, ?_⟩
    · rw [List.append_nil]
      omega
    · rw [List.append_nil, append_nil]
      rfl
  | succ rounds ih =>
    intro hashed source state hle hrounds
    rw [copyStream]
    split
    · next hless =>
      generalize hremaining : request.expectedSize.toNat - hashed.length = remaining
      rcases fillBatch_reader r hallowed remaining remaining [] source
          (bufferSize_pos hallowed) (by rw [List.length_nil]; omega) (Nat.le_add_left _ _) with
        ⟨piece, source', hne, hlen, hleft, hfill⟩ | ⟨hshort, hfill⟩
      · rw [List.nil_append] at hlen hfill
        have hpos := List.length_pos_iff.mpr hne
        have hread : Act.ofExcept (fillBatch request r.reader remaining remaining [] source) state =
            (.ok (piece, source'), state) := by
          rw [hfill]
          rfl
        rw [Act.bind_of_ok hread]
        dsimp only
        rw [Act.bind_of_ok (writeBatch_run hwrite _ _ _ state (Nat.le_refl _))]
        rcases ih (hashed ++ piece) source' (state.append request.relativePath.names piece)
            (by rw [List.length_append]; omega) (by rw [List.length_append]; omega) with
          ⟨taken, last, htotal, htaken, hcopy⟩ | ⟨hshort, hcopy⟩
        · refine .inl ⟨piece ++ taken, last, ?_, ?_, ?_⟩
          · rwa [← List.append_assoc]
          · rw [hleft, htaken, List.append_assoc]
          · rw [hcopy, append_append, List.append_assoc]
        · refine .inr ⟨?_, hcopy⟩
          rw [hleft, List.length_append]
          rw [List.length_append] at hshort
          omega
      · rw [List.length_nil, Nat.zero_add] at hshort
        refine .inr ⟨by omega, state, Act.bind_of_error ?_⟩
        rw [hfill]
        rfl
    · refine .inl ⟨[], source, ?_, rfl, ?_⟩
      · rw [List.append_nil]
        omega
      · rw [List.append_nil, append_nil]
        rfl

/-! ## The outcome -/

/-- What `stage_file_stream` comes to when the source has these bytes to deliver. -/
def streamOutcome (request : StreamRequest) (payload : Bytes) : Except Stop StreamStageResult :=
  if payload.length < request.expectedSize.toNat then .error (.thrown shortRead)
  else if request.expectedSize.toNat < payload.length then
    .error (.thrown "streamed source exceeded its reviewed size")
  else if Usk.sha256 payload = request.expectedSha256 then
    .ok ⟨request.expectedSha256, request.expectedSize, UInt64.ofNat request.bufferSize⟩
  else .error (.thrown "streamed staged file integrity changed")

/-- The file that a request means to stage. -/
def StreamRequest.file (request : StreamRequest) : StagedFile :=
  ⟨request.relativePath, request.expectedSha256, request.expectedSize⟩

/-- The state when the payload has been staged. -/
def StreamState.staged (state : StreamState) (request : StreamRequest) (payload : Bytes) :
    StreamState :=
  { state.append request.relativePath.names payload with
    session := state.session.markStaged request.file }

/-- What `stage_file_stream` asks for before it touches the staging root. -/
structure Admitted (host : StreamHost) (request : StreamRequest) (state : StreamState) : Prop where
  admits : state.session.admits request = true
  fresh : ((state.session.stagedFiles.map fun file =>
    lowercase file.relativePath.generic).contains (lowercase request.relativePath.generic)) = false
  identity : verifyStagingIdentity host state = .ok ()
  entries : state.session.streamJournal.entries.length < 100000
  complete : (state.session.streamJournal.entries.getLast?.all fun entry =>
    entry.phase == .complete) = true
  recorded : persistSnapshot host (state.session.latchStream.pushIntent request) = .ok ()

/-- The request is admitted, its output created, and the host fails at nothing behind that. -/
structure Ready (host : StreamHost) (request : StreamRequest) (state opened : StreamState) :
    Prop where
  admitted : Admitted host request state
  created : ∃ made, makeStreamParents host (above request.relativePath.names)
      { state with session := state.session.latchStream.pushIntent request } = (.ok (), made) ∧
    openOutput host request made = (.ok (), opened)
  writes : ∀ position request, 0 < request → 0 < host.write position request
  finishes : host.finish = .ok ()
  recorded : persistSnapshot host (opened.session.markStaged request.file) = .ok ()

variable {state opened : StreamState}

theorem streamOutcome_eq_ok {payload : Bytes} {result : StreamStageResult} :
    streamOutcome request payload = .ok result ↔
      (payload.length = request.expectedSize.toNat ∧
        Usk.sha256 payload = request.expectedSha256) ∧
      result = ⟨request.expectedSha256, request.expectedSize,
        UInt64.ofNat request.bufferSize⟩ := by
  unfold streamOutcome
  split
  · next h => exact ⟨(nomatch ·), fun hr => absurd hr.1.1 (by omega)⟩
  · split
    · next h => exact ⟨(nomatch ·), fun hr => absurd hr.1.1 (by omega)⟩
    · split
      · next hsha =>
        rw [Except.ok.injEq]
        exact ⟨fun h => ⟨⟨by omega, hsha⟩, h.symm⟩, fun hr => hr.2.symm⟩
      · next hsha => exact ⟨(nomatch ·), fun hr => absurd hr.1.2 hsha⟩

/-- The reader reports the end exactly if nothing is left. -/
theorem requireEnd_reader (source : σ) : requireEnd r.reader source =
    if r.left source = [] then .ok ()
    else .error "streamed source exceeded its reviewed size" := by
  have hpiece := r.piece source 1 Nat.one_pos
  have hended := r.ended source 1 Nat.one_pos
  have hreader : r.reader source 1 = .ok (r.read source 1) := rfl
  rw [requireEnd, hreader]
  generalize r.read source 1 = read at hpiece hended ⊢
  obtain ⟨piece, source'⟩ := read
  simp only [bind, Except.bind] at hpiece hended ⊢
  unfold demand
  split
  · next h => rw [if_pos (hended (List.isEmpty_iff.mp h))]
  · next h =>
    rw [if_neg]
    intro hleft
    rw [hleft] at hpiece
    exact h (List.isEmpty_iff.mpr (List.append_eq_nil_iff.mp hpiece.symm).1)

theorem closeOutput_run (hready : Ready host request state opened) {payload : Bytes}
    (hlen : payload.length = request.expectedSize.toNat) :
    ∃ final, closeOutput host request payload (opened.append request.relativePath.names payload) =
        (streamOutcome request payload, final) ∧
      (Usk.sha256 payload = request.expectedSha256 → final = opened.staged request payload) := by
  have hfinish : Act.ofExcept host.finish (opened.append request.relativePath.names payload) =
      (.ok (), opened.append request.relativePath.names payload) := by
    rw [hready.finishes]
    rfl
  have houtcome : streamOutcome request payload = if Usk.sha256 payload = request.expectedSha256
      then .ok ⟨request.expectedSha256, request.expectedSize, UInt64.ofNat request.bufferSize⟩
      else .error (.thrown "streamed staged file integrity changed") := by
    rw [streamOutcome, if_neg (by omega), if_neg (by omega)]
  rw [closeOutput, Act.bind_of_ok hfinish, houtcome, hlen, beq_self_eq_true, Bool.true_and]
  by_cases hsha : Usk.sha256 payload = request.expectedSha256
  · have htotal : UInt64.ofNat request.expectedSize.toNat = request.expectedSize :=
      UInt64.ofNat_toNat
    rw [hsha, beq_self_eq_true, if_pos rfl, htotal]
    refine ⟨opened.staged request payload, ?_, fun _ => rfl⟩
    show ((Act.ofExcept (persistSnapshot host (opened.session.markStaged request.file)) >>= fun _ =>
      pure _ : Act StreamState StreamStageResult)) (opened.staged request payload) = _
    rw [hready.recorded]
    rfl
  · rw [beq_eq_false_iff_ne.mpr hsha, if_neg hsha]
    exact ⟨_, rfl, fun h => absurd h hsha⟩

/-- Behind the creation of the output, only the bytes of the source decide. -/
theorem copyOutput_reader (hallowed : request.allowed = true)
    (hready : Ready host request state opened) (source : σ) :
    ∃ final, copyOutput host request r.reader source opened =
        (streamOutcome request (r.left source), final) ∧
      (∀ result, streamOutcome request (r.left source) = .ok result →
        final = opened.staged request (r.left source)) := by
  rw [copyOutput]
  rcases copyStream_reader r hallowed hready.writes request.expectedSize.toNat [] source opened
      (Nat.zero_le _) (Nat.le_add_left _ _) with
    ⟨taken, source', hlen, hleft, hcopy⟩ | ⟨hshort, final, hcopy⟩
  · rw [List.nil_append] at hlen hcopy
    rw [Act.bind_of_ok hcopy]
    dsimp only
    rw [requireEnd_reader]
    by_cases hend : r.left source' = []
    · rw [hend, List.append_nil] at hleft
      rw [if_pos hend, hleft]
      obtain ⟨final, hclose, hfinal⟩ := closeOutput_run hready hlen
      exact ⟨final, hclose, fun result hok => hfinal (streamOutcome_eq_ok.mp hok).1.2⟩
    · have hlonger : request.expectedSize.toNat < (r.left source).length := by
        have hpos := List.length_pos_iff.mpr hend
        rw [hleft, List.length_append]
        omega
      have houtcome : streamOutcome request (r.left source) =
          .error (.thrown "streamed source exceeded its reviewed size") := by
        rw [streamOutcome, if_neg (by omega), if_pos hlonger]
      rw [if_neg hend, houtcome]
      exact ⟨_, rfl, fun _ h => nomatch h⟩
  · rw [List.length_nil, Nat.zero_add] at hshort
    have houtcome : streamOutcome request (r.left source) = .error (.thrown shortRead) := by
      rw [streamOutcome, if_pos hshort]
    rw [Act.bind_of_error hcopy, houtcome]
    exact ⟨_, rfl, fun _ h => nomatch h⟩

/-! ## Admission does not ask for the buffer sizes -/

theorem beginStream_eq_ok {begun : StreamState} :
    beginStream host request state = (.ok (), begun) ↔ Admitted host request state ∧
      begun = { state with session := state.session.latchStream.pushIntent request } := by
  have hget : (Act.get : Act StreamState StreamState) state = (.ok state, state) := rfl
  have hset : ∀ {f : Unit → Act StreamState Unit} (s t : StreamState),
      (Act.set s >>= f) t = f () s := fun s t => rfl
  rw [beginStream, Act.bind_of_ok hget]
  simp only [Act.bind_eq_ok, Act.ofExcept_eq_ok, hset, demand_eq_ok, Bool.and_eq_true,
    decide_eq_true_eq, Bool.not_eq_true']
  constructor
  · rintro ⟨-, _, ⟨hadmits, rfl⟩, -, _, ⟨hfresh, rfl⟩, _, _, ⟨hidentity, rfl⟩, -, _,
      ⟨⟨hentries, hcomplete⟩, rfl⟩, hrecorded, rfl⟩
    exact ⟨⟨hadmits, hfresh, hidentity, hentries, hcomplete, hrecorded⟩, rfl⟩
  · rintro ⟨h, rfl⟩
    exact ⟨(), _, ⟨h.admits, rfl⟩, (), _, ⟨h.fresh, rfl⟩, (), _, ⟨h.identity, rfl⟩, (), _,
      ⟨⟨h.entries, h.complete⟩, rfl⟩, h.recorded, rfl⟩

theorem Ready.allowed (h : Ready host request state opened) : request.allowed = true := by
  have hadmits := h.admitted.admits
  simp only [Session.admits, Bool.and_eq_true] at hadmits
  exact hadmits.1.2

/-- The request with other buffers. -/
def StreamRequest.resize (request : StreamRequest) (bufferBytes writeBufferBytes : Nat) :
    StreamRequest :=
  { request with bufferBytes, writeBufferBytes }

theorem Ready.resize {bufferBytes writeBufferBytes : Nat} (h : Ready host request state opened)
    (hresized : (request.resize bufferBytes writeBufferBytes).allowed = true) :
    Ready host (request.resize bufferBytes writeBufferBytes) state opened where
  admitted :=
    { admits := by
        have hadmits := h.admitted.admits
        rw [Session.admits, h.allowed] at hadmits
        rw [Session.admits, hresized]
        exact hadmits
      fresh := h.admitted.fresh
      identity := h.admitted.identity
      entries := h.admitted.entries
      complete := h.admitted.complete
      recorded := h.admitted.recorded }
  created := h.created
  writes := h.writes
  finishes := h.finishes
  recorded := h.recorded

/-- The peak of the buffer is all that an outcome has from the buffers. -/
theorem streamOutcome_congr {request request' : StreamRequest} (payload : Bytes)
    (hsize : request'.expectedSize = request.expectedSize)
    (hdigest : request'.expectedSha256 = request.expectedSha256) :
    ((streamOutcome request' payload).map fun result => (result.sha256, result.sizeBytes)) =
      (streamOutcome request payload).map fun result => (result.sha256, result.sizeBytes) := by
  unfold streamOutcome
  rw [hsize, hdigest]
  by_cases hshort : payload.length < request.expectedSize.toNat
  · rw [if_pos hshort, if_pos hshort]
  · rw [if_neg hshort, if_neg hshort]
    by_cases hlong : request.expectedSize.toNat < payload.length
    · rw [if_pos hlong, if_pos hlong]
    · rw [if_neg hlong, if_neg hlong]
      by_cases hsha : Usk.sha256 payload = request.expectedSha256
      · rw [if_pos hsha, if_pos hsha]
        rfl
      · rw [if_neg hsha, if_neg hsha]

/-- A whole call, once its request is admitted. -/
theorem stageFileStream_reader (hready : Ready host request state opened) (source : σ) :
    ∃ final, stageFileStream host request r.reader source state =
        (streamOutcome request (r.left source), final) ∧
      (∀ result, streamOutcome request (r.left source) = .ok result →
        final = opened.staged request (r.left source)) := by
  obtain ⟨made, hmake, hopen⟩ := hready.created
  have hbegin := beginStream_eq_ok.mpr ⟨hready.admitted, rfl⟩
  obtain ⟨final, hcopy, hfinal⟩ := copyOutput_reader r hready.allowed hready source
  rw [stageFileStream, Act.bind_of_ok hbegin, Act.bind_of_ok hmake]
  cases houtcome : streamOutcome request (r.left source) with
  | ok result =>
    rw [houtcome] at hcopy
    refine ⟨final, Act.onThrow_of_ok ?_, fun _ _ => hfinal result houtcome⟩
    rw [Act.bind_of_ok hopen, hcopy]
  | error stop =>
    have hthrown : ∃ message, stop = .thrown message := by
      unfold streamOutcome at houtcome
      split at houtcome
      · cases houtcome
        exact ⟨_, rfl⟩
      · split at houtcome
        · cases houtcome
          exact ⟨_, rfl⟩
        · split at houtcome
          · cases houtcome
          · cases houtcome
            exact ⟨_, rfl⟩
    obtain ⟨message, rfl⟩ := hthrown
    rw [houtcome] at hcopy
    refine ⟨_, Act.onThrow_of_thrown (show _ = (_, final) from ?_), fun _ h => nomatch h⟩
    rw [Act.bind_of_ok hopen, hcopy]

theorem openOutput_eq_ok : openOutput host request state = (.ok (), opened) ↔
    ∃ tree identity, state.tree.create request.relativePath.names (.file [] 1) = some tree ∧
      host.outputIdentity = .ok identity ∧
      persistSnapshot host (state.session.markWriting identity) = .ok () ∧
      opened = ⟨state.session.markWriting identity, tree⟩ := by
  have hget : (Act.get : Act StreamState StreamState) state = (.ok state, state) := rfl
  have hset : ∀ {α : Type} {f : Unit → Act StreamState α} (s t : StreamState),
      (Act.set s >>= f) t = f () s := fun s t => rfl
  rw [openOutput, Act.bind_of_ok hget]
  cases state.tree.create request.relativePath.names (.file [] 1) with
  | none => exact ⟨(nomatch ·), fun ⟨_, _, h, _⟩ => nomatch h⟩
  | some tree =>
    simp only [Act.bind_eq_ok, Act.ofExcept_eq_ok, hset, Option.some.injEq]
    constructor
    · rintro ⟨identity, _, ⟨hidentity, rfl⟩, hrecorded, rfl⟩
      exact ⟨tree, identity, rfl, hidentity, hrecorded, rfl⟩
    · rintro ⟨_, identity, rfl, hidentity, hrecorded, rfl⟩
      exact ⟨identity, _, ⟨hidentity, rfl⟩, hrecorded, rfl⟩

theorem find_opened (hready : Ready host request state opened) :
    opened.tree.find request.relativePath.names = some (.file [] 1) := by
  obtain ⟨made, -, hopen⟩ := hready.created
  obtain ⟨tree, identity, htree, -, -, rfl⟩ := openOutput_eq_ok.mp hopen
  show tree.find request.relativePath.names = _
  rw [FileTree.find_create _ htree, if_pos rfl]

/-- The output of a staged payload holds the payload. -/
theorem find_staged (hready : Ready host request state opened) (payload : Bytes) :
    (opened.staged request payload).tree.find request.relativePath.names =
      some (.file payload 1) := by
  show (opened.tree.update request.relativePath.names (appendBytes payload)
    (isDirectory_appendBytes payload)).find _ = _
  rw [FileTree.find_update, if_pos rfl, find_opened hready]
  rfl

/-- A call that is admitted succeeds exactly if the source delivers the expected number of bytes
with the expected digest, and then the output holds them. Other buffers and another reader of the
same bytes give the same outcome and, on success, the same state. -/
theorem streamed_file_is_payload {τ : Type} (hready : Ready host request state opened)
    {payload : Bytes} {source : σ} (hpayload : r.left source = payload) :
    ((∃ result final, stageFileStream host request r.reader source state = (.ok result, final)) ↔
      payload.length = request.expectedSize.toNat ∧
        Usk.sha256 payload = request.expectedSha256) ∧
    (∀ result final, stageFileStream host request r.reader source state = (.ok result, final) →
      final.tree.find request.relativePath.names = some (.file payload 1)) ∧
    (∀ (bufferBytes writeBufferBytes : Nat) (r' : ShortReader τ) (source' : τ),
      (request.resize bufferBytes writeBufferBytes).allowed = true → r'.left source' = payload →
      ((stageFileStream host (request.resize bufferBytes writeBufferBytes) r'.reader source'
          state).1.map fun result => (result.sha256, result.sizeBytes)) =
        ((stageFileStream host request r.reader source state).1.map fun result =>
          (result.sha256, result.sizeBytes)) ∧
      (∀ result result' final final',
        stageFileStream host request r.reader source state = (.ok result, final) →
        stageFileStream host (request.resize bufferBytes writeBufferBytes) r'.reader source' state =
          (.ok result', final') → final' = final)) := by
  obtain ⟨final, hrun, hfinal⟩ := stageFileStream_reader r hready source
  rw [hpayload] at hrun hfinal
  refine ⟨⟨?_, ?_⟩, ?_, ?_⟩
  · rintro ⟨result, final', hok⟩
    rw [hrun, Prod.mk.injEq] at hok
    exact (streamOutcome_eq_ok.mp hok.1).1
  · intro h
    exact ⟨_, final, by rw [hrun, streamOutcome_eq_ok.mpr ⟨h, rfl⟩]⟩
  · intro result final' hok
    rw [hrun, Prod.mk.injEq] at hok
    rw [← hok.2, hfinal result hok.1]
    exact find_staged hready payload
  · intro bufferBytes writeBufferBytes r' source' hallowed hpayload'
    obtain ⟨last, hrun', hlast⟩ := stageFileStream_reader r' (hready.resize hallowed) source'
    rw [hpayload'] at hrun' hlast
    rw [hrun, hrun']
    constructor
    · exact streamOutcome_congr payload rfl rfl
    · intro result result' left right hok hok'
      rw [Prod.mk.injEq] at hok hok'
      rw [← hok.2, ← hok'.2, hlast result' hok'.1, hfinal result hok.1]
      rfl

end

/-! ## A streamed file of two bytes -/

/-- A reader that hands out one byte for each call. -/
def byteReader : ShortReader Bytes where
  read source _ := (source.take 1, source.drop 1)
  left := id
  piece source _ _ := (List.take_append_drop 1 source).symm
  fits source capacity h := (List.length_take_le 1 source).trans h
  ended source _ _ h := by
    cases source with
    | nil => rfl
    | cons byte rest => cases h

/-- A host that takes one byte for each `write`. -/
def byteHost : StreamHost :=
  { now := ascii "0", stagingParentIdentity := .ok (ascii "parent"),
    journalDirectoryIdentity := .ok (ascii "journal"), writeJournal := fun _ => .ok (),
    newDirectory := fun _ => (0, 1), outputIdentity := .ok (ascii "output"),
    write := fun _ _ => 1, finish := .ok () }

def twoBytes : StreamRequest :=
  { relativePath := ⟨ascii "f"⟩, expectedSize := 2,
    expectedSha256 := ascii "fb8e20fc2e4c3f248c60c39bd652f3c1347298bb977b8b4d5903b85055620603",
    bufferBytes := 4096 }

def stagingSpec : TransactionSpec :=
  { transactionId := ascii "t", planId := ascii "p", planDigest := List.replicate 64 0x30,
    operation := ascii "install_local", stagingParent := ⟨ascii "/s"⟩, targetRoot := ⟨ascii "/t"⟩,
    stateRoot := ⟨ascii "/d"⟩, auditRoot := ⟨ascii "/a"⟩ }

def stagingState : StreamState where
  session :=
    { spec := stagingSpec, createdAt := ascii "0", currentState := some .staging,
      stagingIdentity := hexId 0 ++ 0x3a :: hexId 1, stagingParentIdentity := ascii "parent",
      journalDirectoryIdentity := ascii "journal",
      transitions := [⟨0, none, .created, ascii "0"⟩, ⟨1, some .created, .validated, ascii "0"⟩,
        ⟨2, some .validated, .planned, ascii "0"⟩, ⟨3, some .planned, .staging, ascii "0"⟩] }
  tree := Lifecycle.stagingRoot 0 1

/-- A journal that is not too long can be recorded. -/
theorem persistSnapshot_byteHost {session : Session} (hstarted : session.transitions ≠ [])
    (hdirectory : session.journalDirectoryIdentity = ascii "journal")
    (hshort : session.journalLayout.text.length ≤ Session.maximumJournalText) :
    persistSnapshot byteHost session = .ok () := by
  have hrender := (Session.renderJournal_eq_ok session).mpr ⟨rfl, hshort⟩
  simp only [persistSnapshot, requireJournalDirectory, persistJournal, bind_eq_ok, demand_eq_ok]
  exact ⟨(), by simpa using hstarted, (), ⟨_, rfl, by rw [hdirectory]; decide⟩, _, hrender, rfl⟩

theorem twoBytes_admitted : Admitted byteHost twoBytes stagingState where
  admits := by decide +kernel
  fresh := by decide
  identity := by decide
  entries := by decide
  complete := by decide
  recorded := persistSnapshot_byteHost (by decide) rfl (by decide +kernel)

/-- The state with the output of the sample open. -/
def openedState : StreamState where
  session := (stagingState.session.latchStream.pushIntent twoBytes).markWriting (ascii "output")
  tree :=
    { entries := [([], .directory 0 1), ([ascii "f"], .file [] 1)]
      distinct := by decide
      closed := closed_of_parents (by decide) }

theorem twoBytes_ready : Ready byteHost twoBytes stagingState openedState where
  admitted := twoBytes_admitted
  created := ⟨_, rfl, openOutput_eq_ok.mpr ⟨openedState.tree, ascii "output", rfl, rfl,
    persistSnapshot_byteHost (by decide) rfl (by decide +kernel), rfl⟩⟩
  writes := fun _ _ _ => Nat.one_pos
  finishes := rfl
  recorded := persistSnapshot_byteHost (by decide) rfl (by decide +kernel)

/-- A reader that delivers one byte in each call. -/
theorem twoBytes_staged : ∃ result final,
    stageFileStream byteHost twoBytes byteReader.reader (ascii "ab") stagingState =
      (.ok result, final) :=
  (@streamed_file_is_payload Bytes byteHost twoBytes byteReader stagingState openedState Bytes
    twoBytes_ready (ascii "ab") (ascii "ab") rfl).1.mpr ⟨by decide, by decide +kernel⟩

end Usk.Transaction

import UniversalSetup.Base.Disk
import UniversalSetup.Base.RelativePath
import UniversalSetup.State.Ownership

/-!
# Payloads and their staging

A payload is a list of files with relative paths. A file holds its bytes, or a reader that delivers
them together with their size and digest. `normalize_files` sorts and checks a payload. Staging puts
the files one by one below a new directory and makes the directories above each of them.
-/

namespace Usk.Lifecycle

open Json

def maximumLifecycleFiles : Nat := 4096
def maximumLifecycleDirectories : Nat := 8192
def maximumRelativePathBytes : Nat := 1024
def maximumTotalPathBytes : Nat := 1024 * 1024
def maximumClosurePathBytes : Nat := 2 * maximumTotalPathBytes
def maximumMaterializedPayloadBytes : Nat := 64 * 1024 * 1024
def streamingPayloadBufferBytes : Nat := 64 * 1024

/-- `reader` takes an offset and a capacity and returns what it put into the buffer. -/
structure PayloadFile where
  relativePath : Bytes
  bytes : Bytes := []
  sha256 : Bytes := []
  sizeBytes : UInt64 := 0
  reader : Option (Nat → Nat → Result Bytes) := none
  streamBufferBytes : Nat := streamingPayloadBufferBytes

/-! ## Relative paths -/

def lowercase (value : Bytes) : Bytes :=
  value.map toLower

/-- The checks of one segment in `safe_relative`. -/
def safePart (segment : Bytes) : Bool :=
  !(segment.isEmpty || segment == ascii "." || segment == ascii ".." ||
      segment.getLast? == some 0x2e || segment.getLast? == some 0x20) &&
    !reservedNames.contains (lowercase (segment.takeWhile (· != 0x2e))) &&
    segment.all fun ch => decide (0x20 ≤ ch) && decide (ch < 0x7f)

def safeRelative (value : Bytes) : Bool :=
  safeText safePart value

/-! ## Normal payloads -/

def bindPayloadIdentity (file : PayloadFile) : Result PayloadFile :=
  match file.reader with
  | some _ => do
    demand (file.bytes.isEmpty && validSha256 file.sha256 &&
        file.streamBufferBytes == streamingPayloadBufferBytes)
      "streaming lifecycle payload identity is invalid"
    pure file
  | none => do
    let actualSha256 := Usk.sha256 file.bytes
    let actualSize := UInt64.ofNat file.bytes.length
    demand ((file.sha256.isEmpty || file.sha256 == actualSha256) &&
        (file.sizeBytes == 0 || file.sizeBytes == actualSize))
      "materialized lifecycle payload identity is invalid"
    pure { file with sha256 := actualSha256, sizeBytes := actualSize }

/-- The retained bytes after one more file. -/
def retain (retained : Nat) (file : PayloadFile) : Result Nat :=
  match file.reader with
  | some _ => .ok retained
  | none => do
    demand (decide (file.bytes.length ≤ maximumMaterializedPayloadBytes - retained))
      "materialized lifecycle payload exceeds retained-byte budget"
    pure (retained + file.bytes.length)

/-- What `validate_normalized_files` checks of the content of one file. -/
def checkIdentity (retained : Nat) (file : PayloadFile) : Result Nat :=
  match file.reader with
  | some _ => do
    demand (file.bytes.isEmpty && validSha256 file.sha256 &&
        file.streamBufferBytes == streamingPayloadBufferBytes)
      "streaming lifecycle payload identity is invalid"
    pure retained
  | none => do
    let retained ← retain retained file
    demand (file.sizeBytes == UInt64.ofNat file.bytes.length &&
        file.sha256 == Usk.sha256 file.bytes)
      "materialized lifecycle payload identity changed"
    pure retained

/-- The first loop of `validate_normalized_files`. -/
def checkFiles : (previous : Option Bytes) → (retained pathBytes : Nat) → (folded : List Bytes) →
    List PayloadFile → Result Unit
  | _, _, _, _, [] => .ok ()
  | previous, retained, pathBytes, folded, file :: rest => do
    let length := file.relativePath.length
    demand (decide (length ≤ maximumRelativePathBytes) &&
        decide (length ≤ maximumTotalPathBytes - pathBytes))
      "lifecycle payload path memory exceeds budget"
    demand (safeRelative file.relativePath && previous.all (· < file.relativePath) &&
        !folded.contains (lowercase file.relativePath))
      "lifecycle payload path is unsafe, unordered, or case-colliding"
    let retained ← checkIdentity retained file
    checkFiles (some file.relativePath) retained (pathBytes + length)
      (lowercase file.relativePath :: folded) rest

def validateNormalizedFiles (files : List PayloadFile) : Result Unit := do
  demand (!files.isEmpty && decide (files.length ≤ maximumLifecycleFiles))
    "lifecycle payload file count exceeds budget"
  checkFiles none 0 0 [] files
  demand (files.all fun file => (State.parentPaths file.relativePath).all fun parent =>
      !(files.map PayloadFile.relativePath).contains parent)
    "lifecycle payload descends through a file path"

/-- The first loop of `normalize_files`. -/
def bindFiles : (retained : Nat) → List PayloadFile → Result (List PayloadFile)
  | _, [] => .ok []
  | retained, file :: rest => do
    let retained ← retain retained file
    let bound ← bindPayloadIdentity file
    let bounds ← bindFiles retained rest
    pure (bound :: bounds)

def normalizeFiles (files : List PayloadFile) : Result (List PayloadFile) := do
  demand (!files.isEmpty && decide (files.length ≤ maximumLifecycleFiles))
    "lifecycle payload file count exceeds budget"
  let bound ← bindFiles 0 files
  let sorted := bound.insertionSort fun left right => left.relativePath ≤ right.relativePath
  validateNormalizedFiles sorted
  pure sorted

/-! ## Staging -/

/-- The tree below the staging root, the root included. -/
abbrev StagingTree := FileTree Bytes Node Node.isDirectory

/-- The directories above a path, the highest first. -/
def above (names : List Bytes) : List (List Bytes) :=
  (names.inits.drop 1).dropLast

/-- The loop that makes the directories above a staged file. The host chooses the identity of a new
directory. The message for a path that is no directory ends in the path. -/
def makeParents (message : String) (identity : List Bytes → UInt64 × UInt64) :
    List (List Bytes) → StagingTree → Result StagingTree
  | [], tree => .ok tree
  | path :: rest, tree =>
    match tree.find path with
    | some (.directory _ _) => makeParents message identity rest tree
    | some _ => .error "transaction root must be an existing non-linked directory: "
    | none =>
      match tree.create path (.directory (identity path).1 (identity path).2) with
      | some tree => makeParents message identity rest tree
      | none => .error message

/-- The read loop of `stage_file_stream`. `batched` bytes of the write buffer are filled, `content`
is what has been read. The counter bounds the rounds: every round reads a byte. -/
def readStream (reader : Nat → Nat → Result Bytes) (bufferBytes writeBufferBytes size : Nat) :
    Nat → (batched : Nat) → (content : Bytes) → Result Bytes
  | 0, _, content => .ok content
  | rounds + 1, batched, content =>
    if size ≤ content.length then .ok content
    else do
      let capacity := min (min bufferBytes (writeBufferBytes - batched)) (size - content.length)
      let chunk ← reader content.length capacity
      demand (decide (chunk.length ≤ capacity))
        "lifecycle payload reader exceeded its reviewed size"
      demand (!chunk.isEmpty) "streamed source returned a short or oversized read"
      let batched := batched + chunk.length
      readStream reader bufferBytes writeBufferBytes size rounds
        (if batched < writeBufferBytes then batched else 0) (content ++ chunk)

/-- The write buffer that `stage_payload_file` asks for. -/
def streamWriteBytes : Nat := 1024 * 1024

/-- What `stage_payload_file` writes for a file. -/
def stagedContent (file : PayloadFile) : Result Bytes :=
  match file.reader with
  | none => .ok file.bytes
  | some reader => do
    let size := file.sizeBytes.toNat
    let content ← readStream reader file.streamBufferBytes streamWriteBytes size size 0 []
    let probe ← reader content.length 1
    demand probe.isEmpty "lifecycle payload reader exceeded its reviewed size"
    demand (content.length == size && Usk.sha256 content == file.sha256)
      "streamed staged file integrity changed"
    pure content

/-- The messages in which `stage_file` and `stage_file_stream` differ. -/
structure StageMessages where
  request : String
  duplicate : String
  directory : String
  file : String

/-- What a call for one file hands to the transaction. `valid` are the conditions on the arguments
beside the path, `content` is what the call writes. -/
structure StageRequest where
  messages : StageMessages
  valid : Bool
  content : Result Bytes

/-- The request of `stage_file`. -/
def StageRequest.ofBytes (bytes : Bytes) : StageRequest where
  messages :=
    { request := "staged file path or transaction state is invalid"
      duplicate := "staged file path is duplicated"
      directory := "cannot create owned staging directory"
      file := "cannot exclusively create durable transaction file" }
  valid := true
  content := .ok bytes

/-- The request `stage_payload_file` makes for a file: `stage_file_stream` for one with a reader. Its
bound of 4 MiB on the read buffer follows from the size of the write buffer. -/
def stageRequest (file : PayloadFile) : StageRequest :=
  match file.reader with
  | none => .ofBytes file.bytes
  | some _ =>
    { messages :=
        { request := "streamed staged file request is invalid"
          duplicate := "streamed staged file path is duplicated"
          directory := "cannot create owned streaming staging directory"
          file := "cannot exclusively create streamed transaction file" }
      valid := validSha256 file.sha256 && decide (4096 ≤ file.streamBufferBytes) &&
        decide (file.streamBufferBytes ≤ streamWriteBytes)
      content := stagedContent file }

/-- `stage_file` and `stage_file_stream`. `staged` holds the generic paths of the files before. -/
def stageFile (identity : List Bytes → UInt64 × UInt64) (staged : List Bytes)
    (relativePath : Path) (request : StageRequest) (tree : StagingTree) : Result StagingTree := do
  demand (safeRelativePath relativePath && request.valid) request.messages.request
  demand (!(staged.map lowercase).contains (lowercase relativePath.generic))
    request.messages.duplicate
  let tree ← makeParents request.messages.directory identity (above relativePath.names) tree
  -- The file is created before a stream reads its source.
  demand (tree.create relativePath.names (.file [] 1)).isSome request.messages.file
  let content ← request.content
  match tree.create relativePath.names (.file content 1) with
  | some tree => pure tree
  | none => .error request.messages.file

/-- The staging loop over a payload. -/
def stageFiles (identity : List Bytes → UInt64 × UInt64) :
    (staged : List Bytes) → List PayloadFile → StagingTree → Result StagingTree
  | _, [], tree => .ok tree
  | staged, file :: rest, tree => do
    let path := Path.ofText file.relativePath
    let tree ← stageFile identity staged path (stageRequest file) tree
    stageFiles identity (staged ++ [path.generic]) rest tree

/-- A new staging directory. -/
def stagingRoot (device inode : UInt64) : StagingTree where
  entries := [([], .directory device inode)]
  distinct := by simp
  closed := by simp

/-! ## Spellings -/

theorem relativeText_of_safe {value : Bytes} (h : safeRelative value = true) :
    ∃ names trailing, RelativeText value names trailing :=
  relativeText_of_safeText (by decide) h

/-- A path that both checks accept is spelled by its components. -/
theorem names_of_safe {value : Bytes} (h : safeRelative value = true)
    (hp : safeRelativePath (Path.ofText value) = true) :
    (Path.ofText value).names = splitSlash value ∧ ∀ n ∈ splitSlash value, n ≠ [] := by
  obtain ⟨names, trailing, htext⟩ := relativeText_of_safe h
  have hnames : (Path.ofText value).names = names ++ if trailing then [[]] else [] :=
    htext.pathNames
  cases trailing with
  | true =>
    have hsafe := (safeRelativePath_iff.mp hp).2.2
    rw [hnames, if_pos rfl] at hsafe
    exact absurd rfl (safeSegment_ne_nil
      (hsafe [] (List.mem_append_right _ (List.mem_singleton_self _))))
  | false =>
    have hsplit : splitSlash value = names := by
      rw [htext.spelled, if_neg Bool.false_ne_true, List.append_nil]
      exact splitSlash_joinSlash htext.nonempty fun n hn => (htext.named n hn).2
    rw [hnames, hsplit, if_neg Bool.false_ne_true, List.append_nil]
    exact ⟨rfl, fun n hn => (htext.named n hn).1⟩

/-! ## Normal payloads, continued -/

/-- Staging the file writes content of the recorded size and digest. -/
def PayloadFile.Bound (file : PayloadFile) : Prop :=
  ∀ content, stagedContent file = .ok content →
    Usk.sha256 content = file.sha256 ∧ UInt64.ofNat content.length = file.sizeBytes

theorem bound_of_checkIdentity {retained : Nat} {file : PayloadFile} {retained' : Nat}
    (h : checkIdentity retained file = .ok retained') : file.Bound := by
  intro content hcontent
  unfold checkIdentity at h
  unfold stagedContent at hcontent
  cases hreader : file.reader with
  | none =>
    rw [hreader] at h hcontent
    cases hcontent
    simp only [bind_eq_ok, demand_eq_ok] at h
    obtain ⟨-, -, -, hidentity, -⟩ := h
    rw [Bool.and_eq_true, beq_iff_eq, beq_iff_eq] at hidentity
    exact ⟨hidentity.2.symm, hidentity.1.symm⟩
  | some reader =>
    rw [hreader] at hcontent
    simp only [bind_eq_ok, demand_eq_ok] at hcontent
    obtain ⟨read, -, -, -, -, -, -, hread, hcontent⟩ := hcontent
    cases hcontent
    rw [Bool.and_eq_true, beq_iff_eq, beq_iff_eq] at hread
    exact ⟨hread.2, by rw [hread.1, UInt64.ofNat_toNat]⟩

theorem content_stageRequest (file : PayloadFile) :
    (stageRequest file).content = stagedContent file := by
  unfold stageRequest stagedContent
  cases file.reader <;> rfl

/-- The transaction takes the arguments of a validated file. -/
theorem valid_of_checkIdentity {retained : Nat} {file : PayloadFile} {retained' : Nat}
    (h : checkIdentity retained file = .ok retained') : (stageRequest file).valid = true := by
  unfold checkIdentity at h
  unfold stageRequest
  cases hreader : file.reader with
  | none => rfl
  | some reader =>
    rw [hreader] at h
    simp only [bind_eq_ok, demand_eq_ok, Bool.and_eq_true, beq_iff_eq] at h
    obtain ⟨-, ⟨⟨-, hsha⟩, hbuffer⟩, -⟩ := h
    simp only [hsha, hbuffer, Bool.true_and]
    decide

/-- What the first loop of the validation establishes, behind the path `previous`. -/
theorem checkFiles_eq_ok : ∀ {files : List PayloadFile} {previous : Option Bytes}
    {retained pathBytes : Nat} {folded : List Bytes} {u : Unit},
    checkFiles previous retained pathBytes folded files = .ok u →
    (∀ p ∈ previous, ∀ file ∈ files, p < file.relativePath) ∧
    files.Pairwise (fun left right => left.relativePath < right.relativePath) ∧
    ∀ file ∈ files, safeRelative file.relativePath = true ∧ file.Bound ∧
      (stageRequest file).valid = true
  | [], _, _, _, _, _, _ => by simp
  | file :: rest, previous, _, _, _, _, h => by
    simp only [checkFiles, bind_eq_ok, demand_eq_ok] at h
    obtain ⟨-, -, -, hpath, retained', hidentity, h⟩ := h
    obtain ⟨hafter, hordered, hrest⟩ := checkFiles_eq_ok h
    rw [Bool.and_eq_true, Bool.and_eq_true] at hpath
    have hprevious : ∀ p ∈ previous, p < file.relativePath := by
      intro p hp
      have := hpath.1.2
      rw [Option.mem_def.mp hp] at this
      exact of_decide_eq_true this
    refine ⟨fun p hp => ?_, ?_, ?_⟩
    · refine List.forall_mem_cons.mpr ⟨hprevious p hp, fun next hnext => ?_⟩
      exact ByteMap.key_lt_trans (hprevious p hp) (hafter _ rfl next hnext)
    · exact List.pairwise_cons.mpr ⟨hafter _ rfl, hordered⟩
    · exact List.forall_mem_cons.mpr ⟨⟨hpath.1.1, bound_of_checkIdentity hidentity,
        valid_of_checkIdentity hidentity⟩, hrest⟩

/-- What `normalize_files` returns. -/
structure Normalized (files : List PayloadFile) : Prop where
  ordered : files.Pairwise fun left right => left.relativePath < right.relativePath
  safe : ∀ file ∈ files, safeRelative file.relativePath = true
  bound : ∀ file ∈ files, file.Bound

theorem normalized_of_normalizeFiles {given files : List PayloadFile}
    (h : normalizeFiles given = .ok files) : Normalized files := by
  simp only [normalizeFiles, validateNormalizedFiles, bind_eq_ok] at h
  obtain ⟨-, -, bound, -, -, ⟨_, -, _, hcheck, -⟩, h⟩ := h
  cases h
  obtain ⟨-, hordered, hfiles⟩ := checkFiles_eq_ok hcheck
  exact ⟨hordered, fun file hfile => (hfiles file hfile).1,
    fun file hfile => (hfiles file hfile).2.1⟩

/-! ## What staging leaves -/

/-- What stands at a path, without the identity of a directory. -/
inductive Kind where
  | directory
  | file (content : Bytes) (links : Nat)
  | other

def kindOf : Node → Kind
  | .directory _ _ => .directory
  | .file content links => .file content links
  | _ => .other

def Stands (tree : StagingTree) (path : List Bytes) (kind : Kind) : Prop :=
  ∃ node, (path, node) ∈ tree.entries ∧ kindOf node = kind

theorem stands_create {tree tree' : StagingTree} {path : List Bytes} {node : Node}
    (h : tree.create path node = some tree') (q : List Bytes) (kind : Kind) :
    Stands tree' q kind ↔ Stands tree q kind ∨ q = path ∧ kind = kindOf node := by
  unfold Stands
  rw [(tree.create_eq_some h).2.2]
  constructor
  · rintro ⟨n, hn, rfl⟩
    rcases List.mem_append.mp hn with hn | hn
    · exact Or.inl ⟨n, hn, rfl⟩
    · cases List.mem_singleton.mp hn
      exact Or.inr ⟨rfl, rfl⟩
  · rintro (⟨n, hn, rfl⟩ | ⟨rfl, rfl⟩)
    · exact ⟨n, List.mem_append_left _ hn, rfl⟩
    · exact ⟨node, List.mem_append_right _ (List.mem_singleton_self _), rfl⟩

theorem stands_stagingRoot {device inode : UInt64} {q : List Bytes} {kind : Kind} :
    Stands (stagingRoot device inode) q kind ↔ q = [] ∧ kind = .directory := by
  constructor
  · rintro ⟨node, hmem, rfl⟩
    cases List.mem_singleton.mp hmem
    exact ⟨rfl, rfl⟩
  · rintro ⟨rfl, rfl⟩
    exact ⟨_, List.mem_singleton_self _, rfl⟩

section Staging

variable {message : String} {identity : List Bytes → UInt64 × UInt64}

theorem makeParents_stands : ∀ {paths : List (List Bytes)} {tree tree' : StagingTree},
    makeParents message identity paths tree = .ok tree' → ∀ q kind,
    Stands tree' q kind ↔ Stands tree q kind ∨ kind = .directory ∧ q ∈ paths
  | [], tree, tree', h, q, kind => by
    cases h
    simp
  | path :: rest, tree, tree', h, q, kind => by
    rw [makeParents] at h
    cases hfind : tree.find path with
    | none =>
      rw [hfind] at h
      dsimp only at h
      split at h
      · next made hmade =>
        rw [makeParents_stands h, stands_create hmade, List.mem_cons]
        simp only [kindOf]
        tauto
      · cases h
    | some node =>
      rw [hfind] at h
      cases node with
      | directory device inode =>
        have hstands : Stands tree path .directory := ⟨_, tree.mem_of_find hfind, rfl⟩
        rw [makeParents_stands h, List.mem_cons]
        constructor
        · rintro (hq | ⟨hk, hq⟩)
          · exact Or.inl hq
          · exact Or.inr ⟨hk, Or.inr hq⟩
        · rintro (hq | ⟨rfl, rfl | hq⟩)
          · exact Or.inl hq
          · exact Or.inl hstands
          · exact Or.inr ⟨rfl, hq⟩
      | file content links => cases h
      | link resolves => cases h
      | other => cases h

theorem stageFile_stands {staged : List Bytes} {path : Path} {request : StageRequest}
    {tree tree' : StagingTree} (h : stageFile identity staged path request tree = .ok tree') :
    safeRelativePath path = true ∧ ∃ content, request.content = .ok content ∧
      ∀ q kind, Stands tree' q kind ↔ Stands tree q kind ∨
        kind = .directory ∧ q ∈ above path.names ∨ q = path.names ∧ kind = .file content 1 := by
  simp only [stageFile, bind_eq_ok, demand_eq_ok, Bool.and_eq_true] at h
  obtain ⟨-, ⟨hsafe, -⟩, -, -, made, hmade, -, -, content, hcontent, h⟩ := h
  refine ⟨hsafe, content, hcontent, fun q kind => ?_⟩
  split at h
  · next created hcreated =>
    cases h
    rw [stands_create hcreated, makeParents_stands hmade, or_assoc]
    rfl
  · cases h

/-- What one staged file adds to the tree. -/
def Adds (file : PayloadFile) (q : List Bytes) (kind : Kind) : Prop :=
  kind = .directory ∧ q ∈ above (Path.ofText file.relativePath).names ∨
    q = (Path.ofText file.relativePath).names ∧
      ∃ content, stagedContent file = .ok content ∧ kind = .file content 1

/-- Staging adds what its files ask for and nothing else. -/
theorem stageFiles_stands : ∀ {files : List PayloadFile} {staged : List Bytes}
    {tree tree' : StagingTree}, stageFiles identity staged files tree = .ok tree' →
    (∀ file ∈ files, safeRelativePath (Path.ofText file.relativePath) = true ∧
      ∃ content, stagedContent file = .ok content) ∧
    ∀ q kind, Stands tree' q kind ↔ Stands tree q kind ∨ ∃ file ∈ files, Adds file q kind
  | [], _, tree, tree', h => by
    cases h
    simp
  | file :: rest, staged, tree, tree', h => by
    simp only [stageFiles, bind_eq_ok] at h
    obtain ⟨made, hmade, h⟩ := h
    obtain ⟨hsafe, content, hcontent, hstep⟩ := stageFile_stands hmade
    rw [content_stageRequest] at hcontent
    obtain ⟨hrest, hrun⟩ := stageFiles_stands h
    refine ⟨List.forall_mem_cons.mpr ⟨⟨hsafe, content, hcontent⟩, hrest⟩, fun q kind => ?_⟩
    have hadds : Adds file q kind ↔
        kind = .directory ∧ q ∈ above (Path.ofText file.relativePath).names ∨
          q = (Path.ofText file.relativePath).names ∧ kind = .file content 1 := by
      simp [Adds, hcontent]
    rw [hrun, hstep, ← hadds, List.exists_mem_cons_iff, or_assoc]

end Staging

end Usk.Lifecycle

import UniversalSetup.Base.Path
import UniversalSetup.Json.Schema

/-!
# Archive inspection requests

A request names an archive by an absolute path and sets six budgets for its inspection. Each budget
has a hard limit, so that what the inspection computes with them stays far below `2 ^ 64`.
-/

namespace Usk.Archive

open Json

/-! ## Hard limits -/

def maxRequestBytes : Nat := 64 * 1024
def maxRequestStringBytes : Nat := 32768
def maxRequestValues : Nat := 32
def maxInspectionElapsedMs : Nat := 10 * 60 * 1000
def maxRequestEntries : Nat := 100000
def maxRequestUncompressedBytes : Nat := 2 ^ 40
def maxRequestEntryBytes : Nat := 2 ^ 38
def maxRequestDepth : Nat := 256
def maxRequestRatio : Nat := 100000

/-- `Budgets`. -/
structure Budgets where
  maxEntries : Nat := 10000
  maxUncompressedBytes : Nat := 64 * 1024 * 1024 * 1024
  maxEntryBytes : Nat := 16 * 1024 * 1024 * 1024
  maxDepth : Nat := 64
  maxRatio : Nat := 1000
  maxElapsedMs : Nat := 30000

/-- `ArchiveRequest`. -/
structure ArchiveRequest where
  archivePath : Path
  budgets : Budgets

/-! ## Reading a request -/

/-- The bytes of a key inside a message. -/
def keyText (key : Bytes) : String :=
  String.ofList (key.map fun c => Char.ofNat c.toNat)

/-- `require_exact_members`. The names stand in the order of the set that the source makes. -/
def requireExactMembers (value : Value) (names : List String) (objectName : String) :
    Result Unit :=
  match value with
  | .object members =>
    match members.find? fun m => !(names.map ascii).contains m.1 with
    | some m => .error (objectName ++ " has an unexpected member: " ++ keyText m.1)
    | none =>
      match names.find? fun name => !(ByteMap.keys members).contains (ascii name) with
      | some name => .error (objectName ++ " is missing required member: " ++ name)
      | none => .ok ()
  | _ => .error (objectName ++ " must be a JSON object")

/-- `require_string`. -/
def requireString (object : Value) (key : String) : Result Bytes := do
  match ← object.get key with
  | .string s => .ok s
  | _ => .error ("archive inspection request field must be a string: " ++ key)

/-- `require_bounded_unsigned`. -/
def requireBoundedUnsigned (object : Value) (key : String) (maximum : Nat) : Result Nat := do
  match ← object.get key with
  | .unsigned n =>
    demand (decide (n.toNat ≤ maximum)) ("numeric request field exceeds its hard limit: " ++ key)
    demand (n != 0) ("numeric request field is outside its allowed range: " ++ key)
    pure n.toNat
  | _ => .error ("numeric request field must be an unsigned integer: " ++ key)

/-- `has_unc_or_device_prefix`. -/
def hasUncOrDevicePrefix (value : Bytes) : Bool :=
  [0x5c, 0x5c].isPrefixOf value || [0x2f, 0x2f].isPrefixOf value

/-- `require_normalized_absolute_local_path_utf8`. -/
def requireNormalizedAbsoluteLocalPathUtf8 (value : Bytes) (fieldName : String) :
    Result Path := do
  demand (validUtf8 value) (fieldName ++ " must be valid UTF-8")
  demand (!value.contains 0) (fieldName ++ " contains an embedded NUL")
  demand (!hasUncOrDevicePrefix value) (fieldName ++ " must not use a UNC or device namespace")
  let path := Path.ofText value
  demand path.isAbsolute (fieldName ++ " must be an absolute local filesystem path")
  demand (path.lexicallyNormal.native == value) (fieldName ++ " must be lexically normalized")
  pure path.lexicallyNormal

/-- The member `budgets` of a request. -/
def parseBudgets (budgets : Value) : Result Budgets := do
  requireExactMembers budgets ["max_depth", "max_elapsed_ms", "max_entries", "max_entry_bytes",
    "max_ratio", "max_uncompressed_bytes"] "archive inspection request budgets"
  let maxEntries ← requireBoundedUnsigned budgets "max_entries" maxRequestEntries
  let maxUncompressedBytes ←
    requireBoundedUnsigned budgets "max_uncompressed_bytes" maxRequestUncompressedBytes
  let maxEntryBytes ← requireBoundedUnsigned budgets "max_entry_bytes" maxRequestEntryBytes
  let maxDepth ← requireBoundedUnsigned budgets "max_depth" maxRequestDepth
  let maxRatio ← requireBoundedUnsigned budgets "max_ratio" maxRequestRatio
  let maxElapsedMs ← requireBoundedUnsigned budgets "max_elapsed_ms" maxInspectionElapsedMs
  pure ⟨maxEntries, maxUncompressedBytes, maxEntryBytes, maxDepth, maxRatio, maxElapsedMs⟩

/-- The limits under which a request is parsed. -/
def requestLimits : ParseLimits where
  maxBytes := maxRequestBytes
  maxDepth := 2
  maxValues := maxRequestValues
  maxStringBytes := maxRequestStringBytes

/-- `parse_archive_request`. -/
def parseArchiveRequest (text : Bytes) : Result ArchiveRequest := do
  let request ← parse text requestLimits
  requireExactMembers request ["archive_format", "archive_path", "budgets", "schema"]
    "archive inspection request"
  demand ((← requireString request "schema") == ascii "usk.archive_inspect_request.v1")
    "unsupported archive inspection request schema"
  demand ((← requireString request "archive_format") == ascii "zip")
    "WU3 supports only explicitly declared ZIP archives"
  let archivePath ← requireString request "archive_path"
  demand (!archivePath.isEmpty) "archive_path is required"
  demand (!archivePath.contains 0) "archive_path contains an embedded NUL"
  demand (decide (archivePath.length ≤ maxRequestStringBytes))
    "archive_path exceeds its hard length limit"
  let budgets ← parseBudgets (← request.get "budgets")
  let path ← requireNormalizedAbsoluteLocalPathUtf8 archivePath "archive_path"
  pure ⟨path, budgets⟩

/-! ## Accepted budgets -/

/-- The budgets that a request can set. -/
structure Budgets.Bounded (b : Budgets) : Prop where
  entries : b.maxEntries ≤ maxRequestEntries
  uncompressedBytes : b.maxUncompressedBytes ≤ maxRequestUncompressedBytes
  entryBytes : b.maxEntryBytes ≤ maxRequestEntryBytes
  depth : b.maxDepth ≤ maxRequestDepth
  ratio : b.maxRatio ≤ maxRequestRatio
  elapsedMs : b.maxElapsedMs ≤ maxInspectionElapsedMs

theorem requireBoundedUnsigned_le {object : Value} {key : String} {maximum n : Nat}
    (h : requireBoundedUnsigned object key maximum = .ok n) : n ≤ maximum := by
  rw [requireBoundedUnsigned, bind_eq_ok] at h
  obtain ⟨v, -, h⟩ := h
  cases v with
  | unsigned m =>
    simp only [bind_eq_ok, demand_eq_ok, decide_eq_true_eq, exists_const] at h
    obtain ⟨hle, -, hn⟩ := h
    cases hn
    exact hle
  | _ => cases h

/-- Every accepted request keeps to the hard limits. -/
theorem parseArchiveRequest_bounded {text : Bytes} {request : ArchiveRequest}
    (h : parseArchiveRequest text = .ok request) : request.budgets.Bounded := by
  simp only [parseArchiveRequest, bind_eq_ok] at h
  obtain ⟨_, -, _, -, _, -, _, -, _, -, _, -, _, -, _, -, _, -, _, -, v, -, b, hb, path, -, h⟩ := h
  cases h
  simp only [parseBudgets, bind_eq_ok] at hb
  obtain ⟨_, -, _, h1, _, h2, _, h3, _, h4, _, h5, _, h6, hb⟩ := hb
  cases hb
  exact ⟨requireBoundedUnsigned_le h1, requireBoundedUnsigned_le h2, requireBoundedUnsigned_le h3,
    requireBoundedUnsigned_le h4, requireBoundedUnsigned_le h5, requireBoundedUnsigned_le h6⟩

end Usk.Archive

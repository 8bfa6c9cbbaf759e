import UniversalSetup.Archive.Zip
import UniversalSetup.Base.Crc32

/-!
# Archive payloads

The files of an inspected archive are delivered in two ways. `inspect_stored_payload` reads each
file into memory and checks it there; `inspect_streaming_payload_impl` reads each file once in
chunks to check it, and hands out readers that deliver it again in chunks of the caller's choice.
A reader is a closure in the source; here it is a record of what the closure holds.
-/

namespace Usk.Archive

open Json (Result demand)

def maxMaterializedPayloadBytes : Nat := 512 * 1024 * 1024
def streamingPayloadBufferBytes : Nat := 64 * 1024

/-! ## Checksums -/

/-- The polynomial of both CRC implementations. -/
def crcPolynomial : BitVec 32 := 0xedb88320#32

/-- `payload_crc32`. -/
def payloadCrc32 (bytes : Bytes) : Nat :=
  (~~~(bytes.foldl (Crc.feed crcPolynomial) 0xffffffff#32)).toNat

/-- `PayloadIntegrity`. -/
structure PayloadIntegrity where
  sha256 : Sha256 := {}
  crc32 : BitVec 32 := 0xffffffff#32

namespace PayloadIntegrity

/-- `update`. -/
def update (integrity : PayloadIntegrity) (data : Bytes) : PayloadIntegrity where
  sha256 := integrity.sha256.update data
  crc32 := data.foldl (Crc.feedTable crcPolynomial) integrity.crc32

/-- `finish_sha256`. -/
def finishSha256 (integrity : PayloadIntegrity) : Bytes :=
  integrity.sha256.finish

/-- `finish_crc32`. -/
def finishCrc32 (integrity : PayloadIntegrity) : Nat :=
  (~~~integrity.crc32).toNat

end PayloadIntegrity

/-! ## What both ways have in common -/

/-- `source_identity_digest`. -/
def sourceIdentityDigest (identity : StableFileIdentity) : Bytes :=
  sha256 (identity.volumeId ++ 0x0a :: identity.fileId ++ 0x0a :: decimal identity.sizeBytes ++
    0x0a :: decimal identity.modifiedTimeNs ++ 0x0a :: decimal identity.linkCount)

/-- `normalized_prefix`. -/
def normalizedPrefix (stripPrefix : Bytes) (budgets : Budgets) : Result Bytes :=
  if stripPrefix.isEmpty then .ok []
  else do
    let normalized ← normalizePath stripPrefix budgets
    demand (!trailingSeparator stripPrefix) "strip prefix must not have a trailing separator"
    pure normalized

/-- `strip_entry_path`. -/
def stripEntryPath (entry leading : Bytes) (directory : Bool) : Result Bytes :=
  if leading.isEmpty then .ok entry
  else if entry == leading then
    if directory then .ok [] else .error "strip prefix resolves to a file entry"
  else if (leading ++ [0x2f]).isPrefixOf entry then .ok (entry.drop (leading.length + 1))
  else .error "archive entry is outside the reviewed strip prefix"

/-- The archive, opened again after its inspection. -/
def reopenSource (host : Host) (inspection : Inspection) : Result StableFile := do
  let source ← host.openFile inspection.path
  demand (source.identity.volumeId == inspection.identity.volumeId &&
    source.identity.fileId == inspection.identity.fileId &&
    source.identity.sizeBytes == inspection.identity.sizeBytes &&
    source.identity.modifiedTimeNs == inspection.identity.modifiedTimeNs)
    "source archive identity changed after inspection"
  let digest ← hashSourceUntil host 1 source
  demand (digest == inspection.sourceSha256) "source archive digest changed after inspection"
  pure source

/-- What a payload says about its archive. -/
structure PayloadOrigin where
  sourceSha256 : Bytes
  sourceIdentityDigest : Bytes
  entrySetDigest : Bytes
  archiveSizeBytes : Nat

def Inspection.origin (inspection : Inspection) : PayloadOrigin :=
  ⟨inspection.sourceSha256, sourceIdentityDigest inspection.identity, inspection.entrySetDigest,
    inspection.identity.sizeBytes⟩

/-! ## In memory -/

/-- `PayloadFile`. -/
structure PayloadFile where
  relativePath : Bytes
  bytes : Bytes
  sha256 : Bytes

/-- `StoredArchivePayload`. -/
structure StoredArchivePayload where
  origin : PayloadOrigin
  uncompressedBytes : Nat
  files : List PayloadFile

/-- The refusals of the materialization budget. -/
def payloadOverBudget : String :=
  "archive payload exceeds the public lifecycle materialization budget"
def capacityOverBudget : String :=
  "archive payload vector capacity exceeds the materialization budget"
def retainedOverBudget : String :=
  "retained archive payload exceeds the materialization budget"

/-- The variables of the loop over the entries. `paths` holds the folded paths so far. -/
structure Materialized where
  paths : List Bytes := []
  files : List PayloadFile := []
  retainedCapacity : Nat := 0
  uncompressedBytes : Nat := 0

/-- One file, read and checked in memory. The capacity of the vector that holds it is up to the
implementation. -/
def materializeFile (capacity : Nat → Nat) (source : StableFile) (entry : Entry) (path : Bytes)
    (s : Materialized) : Result Materialized := do
  demand (entry.compressionMethod == 0 && entry.compressedSize == entry.uncompressedSize)
    "public lifecycle materialization currently requires stored ZIP file entries"
  demand (!s.paths.contains (lowercaseAscii path)) "strip prefix creates a payload path collision"
  demand (decide (entry.compressedSize ≤ 2 ^ 64 - 1))
    "stored ZIP payload exceeds the addressable read size"
  let bytes ← source.read entry.dataOffset entry.compressedSize
  let entryCapacity := capacity bytes.length
  demand (decide (entryCapacity ≤ maxMaterializedPayloadBytes) &&
    decide (s.retainedCapacity ≤ maxMaterializedPayloadBytes - entryCapacity)) capacityOverBudget
  demand (payloadCrc32 bytes == entry.crc32)
    "stored ZIP payload CRC does not match reviewed metadata"
  demand (decide (entryCapacity ≤ maxMaterializedPayloadBytes) &&
    decide (s.retainedCapacity ≤ maxMaterializedPayloadBytes - entryCapacity)) retainedOverBudget
  pure { paths := lowercaseAscii path :: s.paths,
         files := s.files ++ [⟨path, bytes, sha256 bytes⟩],
         retainedCapacity := s.retainedCapacity + entryCapacity,
         uncompressedBytes := s.uncompressedBytes + entry.uncompressedSize }

/-- The loop over the entries. -/
def materializeEntries (capacity : Nat → Nat) (source : StableFile) (leading : Bytes) :
    List Entry → Materialized → Result Materialized
  | [], s => .ok s
  | entry :: rest, s => do
    let path ← stripEntryPath entry.normalizedPath leading entry.directory
    if entry.directory || path.isEmpty then materializeEntries capacity source leading rest s
    else do
      let s ← materializeFile capacity source entry path s
      materializeEntries capacity source leading rest s

/-- `inspect_stored_payload`. -/
def inspectStoredPayload (A : Arith) (capacity : Nat → Nat) (host : Host)
    (request stripPrefix : Bytes) : Result StoredArchivePayload := do
  let inspection ← inspectZip A host request
  demand (decide (inspection.uncompressedBytes ≤ maxMaterializedPayloadBytes)) payloadOverBudget
  let leading ← normalizedPrefix stripPrefix inspection.budgets
  let source ← reopenSource host inspection
  let s ← materializeEntries capacity source leading inspection.entries {}
  demand (!s.files.isEmpty) "archive payload has no files after strip prefix"
  host.check .collected
  pure ⟨inspection.origin, s.uncompressedBytes, s.files⟩

/-! ## In chunks -/

/-- `PayloadReader`: the archive, the entry to read and its index among the entries. -/
structure PayloadReader where
  source : StableFile
  entry : Entry
  index : Nat

/-- `stored_payload_reader`. The result holds the bytes that are written to the output. -/
def storedRead (host : Host) (reader : PayloadReader) (relativeOffset capacity : Nat) :
    Result Bytes := do
  let sizeBytes := reader.entry.uncompressedSize
  demand (decide (relativeOffset ≤ sizeBytes))
    "stored ZIP streaming reader offset exceeds the reviewed entry"
  host.check (.reading reader.index relativeOffset)
  if relativeOffset = sizeBytes then pure []
  else do
    demand (capacity != 0) "stored ZIP streaming reader requires an output buffer"
    reader.source.read (reader.entry.dataOffset + relativeOffset)
      (min capacity (sizeBytes - relativeOffset))

/-- A call of a reader. -/
def PayloadReader.read (host : Host) (reader : PayloadReader) (relativeOffset capacity : Nat) :
    Result Bytes :=
  if reader.entry.compressionMethod = 8 then
    host.deflateReader reader.source reader.entry relativeOffset capacity
  else storedRead host reader relativeOffset capacity

/-- `StreamingPayloadFile`. -/
structure StreamingPayloadFile where
  relativePath : Bytes
  sha256 : Bytes
  crc32 : Nat
  sizeBytes : Nat
  reader : PayloadReader

/-- `StreamingStoredArchivePayload`. -/
structure StreamingStoredArchivePayload where
  origin : PayloadOrigin
  uncompressedBytes : Nat
  payloadBufferBytes : Nat
  files : List StreamingPayloadFile

/-- The loop that reads a file in chunks. A chunk takes at least one byte. -/
def readChunks (host : Host) (reader : PayloadReader) (bufferBytes : Nat) :
    Nat → Nat → PayloadIntegrity → Result (Nat × PayloadIntegrity)
  | 0, offset, integrity => .ok (offset, integrity)
  | turns + 1, offset, integrity =>
    if offset < reader.entry.uncompressedSize then do
      host.check (.chunk reader.index offset)
      let capacity := min bufferBytes (reader.entry.uncompressedSize - offset)
      let data ← reader.read host offset capacity
      demand (data.length != 0 && decide (data.length ≤ capacity))
        "ZIP streaming inspection returned a short read"
      readChunks host reader bufferBytes turns (offset + data.length) (integrity.update data)
    else .ok (offset, integrity)

/-- The variables of the loop over the entries. -/
structure Streamed where
  paths : List Bytes := []
  files : List StreamingPayloadFile := []
  uncompressedBytes : Nat := 0

/-- The checks on the compression method. -/
def checkMethod (allowDeflate : Bool) (entry : Entry) : Result Unit := do
  demand (!(entry.compressionMethod == 0 && entry.compressedSize != entry.uncompressedSize))
    "stored ZIP entry sizes do not match"
  demand (!(entry.compressionMethod == 8 && !allowDeflate))
    "public lifecycle streaming currently requires stored ZIP file entries"
  demand (entry.compressionMethod == 0 || entry.compressionMethod == 8)
    "public lifecycle streaming requires stored or Deflate ZIP file entries"

/-- One file, read and checked in chunks. -/
def streamFile (host : Host) (source : StableFile) (bufferBytes : Nat) (allowDeflate : Bool)
    (index : Nat) (entry : Entry) (path : Bytes) (s : Streamed) : Result Streamed := do
  checkMethod allowDeflate entry
  demand (!s.paths.contains (lowercaseAscii path)) "strip prefix creates a payload path collision"
  let reader : PayloadReader := ⟨source, entry, index⟩
  let result ← readChunks host reader bufferBytes entry.uncompressedSize 0 {}
  let probe ← reader.read host result.1 1
  demand (probe.length == 0) "ZIP streaming payload exceeds the reviewed size"
  host.check (.summed index)
  demand (result.2.finishCrc32 == entry.crc32)
    "ZIP streaming payload CRC does not match reviewed metadata"
  pure { paths := lowercaseAscii path :: s.paths,
         files := s.files ++
          [⟨path, result.2.finishSha256, entry.crc32, entry.uncompressedSize, reader⟩],
         uncompressedBytes := s.uncompressedBytes + entry.uncompressedSize }

/-- The loop over the entries. -/
def streamEntries (host : Host) (source : StableFile) (bufferBytes : Nat) (allowDeflate : Bool)
    (leading : Bytes) : Nat → List Entry → Streamed → Result Streamed
  | _, [], s => .ok s
  | index, entry :: rest, s => do
    host.check (.payload index)
    let path ← stripEntryPath entry.normalizedPath leading entry.directory
    if entry.directory || path.isEmpty then
      streamEntries host source bufferBytes allowDeflate leading (index + 1) rest s
    else do
      let s ← streamFile host source bufferBytes allowDeflate index entry path s
      streamEntries host source bufferBytes allowDeflate leading (index + 1) rest s

/-- `inspect_streaming_payload_impl`. -/
def inspectStreamingPayload (A : Arith) (host : Host) (request stripPrefix : Bytes)
    (payloadBufferBytes : Nat) (allowDeflate : Bool) : Result StreamingStoredArchivePayload := do
  demand (payloadBufferBytes == streamingPayloadBufferBytes)
    "ZIP streaming buffer budget is invalid"
  let inspection ← inspectZip A host request
  let leading ← normalizedPrefix stripPrefix inspection.budgets
  let source ← reopenSource host inspection
  let s ← streamEntries host source payloadBufferBytes allowDeflate leading 0 inspection.entries {}
  demand (!s.files.isEmpty) "archive payload has no files after strip prefix"
  host.check .collected
  pure ⟨inspection.origin, s.uncompressedBytes, payloadBufferBytes, s.files⟩

end Usk.Archive

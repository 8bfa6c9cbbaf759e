import UniversalSetup.Archive.Request
import UniversalSetup.Base.Arith
import UniversalSetup.Base.ByteMap
import Mathlib.Data.List.Sort

/-!
# Inspecting ZIP archives

`inspect_zip` reads the end record, the optional ZIP64 records, the central directory and every
local header of an archive, and refuses whatever could be read in two ways. Sizes and offsets are
`std::uint64_t` values out of the file, so the code computes with an `Arith`; positions inside a
buffer that was read are small and are plain numbers.

The clock, the cancellation callback and changes to the file from outside can stop an inspection at
the points where the source asks for them. These points are `Checkpoint`s.
-/

namespace Usk.Archive

open Json (Result demand)

/-! ## The source file -/

/-- `StableFileIdentity`. -/
structure StableFileIdentity where
  volumeId : Bytes
  fileId : Bytes
  sizeBytes : Nat
  modifiedTimeNs : Nat
  linkCount : Nat

/-- `StableFile`: a regular file that was opened for reading. -/
structure StableFile where
  path : Path
  identity : StableFileIdentity
  content : Bytes
  sized : identity.sizeBytes = content.length

/-- `StableFile::read`. -/
def StableFile.read (source : StableFile) (offset size : Nat) : Result Bytes := do
  demand (decide (offset ≤ source.identity.sizeBytes) &&
    decide (size ≤ source.identity.sizeBytes - offset))
    "local archive read exceeds stable source bounds"
  pure ((source.content.drop offset).take size)

/-- Where the source looks at the clock, at the cancellation callback or at the file's metadata. -/
inductive Checkpoint where
  | hashing (pass offset : Nat)
  | hashed (pass : Nat)
  | entry (index : Nat)
  | scanned
  | inspected
  | payload (index : Nat)
  | chunk (index offset : Nat)
  | reading (index offset : Nat)
  | summed (index : Nat)
  | collected

/-! ## Little-endian numbers -/

/-- `little16`. -/
def little16 (data : Bytes) (offset : Nat) : Result Nat :=
  match data.drop offset with
  | a :: b :: _ => .ok (a.toNat + b.toNat * 2 ^ 8)
  | _ => .error "ZIP structure is truncated"

/-- `little32`. -/
def little32 (data : Bytes) (offset : Nat) : Result Nat :=
  match data.drop offset with
  | a :: b :: c :: d :: _ =>
    .ok (a.toNat + b.toNat * 2 ^ 8 + c.toNat * 2 ^ 16 + d.toNat * 2 ^ 24)
  | _ => .error "ZIP structure is truncated"

/-- `little64`. -/
def little64 (data : Bytes) (offset : Nat) : Result Nat := do
  let low ← little32 data offset
  let high ← little32 data (offset + 4)
  pure (low + high * 2 ^ 32)

/-! ## Entry paths -/

/-- `lowercase_ascii`. -/
def lowercaseAscii (value : Bytes) : Bytes :=
  value.map toLower

/-- `windows_reserved_name`. -/
def windowsReservedName (segment : Bytes) : Bool :=
  let base := lowercaseAscii (segment.takeWhile (· != 0x2e))
  base == ascii "con" || base == ascii "prn" || base == ascii "aux" || base == ascii "nul" ||
    base == ascii "clock$" ||
    (base.length == 4 && ((ascii "com").isPrefixOf base || (ascii "lpt").isPrefixOf base) &&
      (base.getLast?.any fun c => 0x31 ≤ c && c ≤ 0x39))

/-- `std::isalpha`. -/
def isAlpha (c : UInt8) : Bool :=
  (0x41 ≤ c && c ≤ 0x5a) || (0x61 ≤ c && c ≤ 0x7a)

/-- A separator of entry names. -/
def isSeparator (c : UInt8) : Bool :=
  c == 0x2f || c == 0x5c

/-- The checks on one segment of an entry name. -/
def checkSegment (segment : Bytes) : Result Unit := do
  demand (!(segment == ascii "." || segment == ascii ".."))
    "archive entry path contains traversal or dot segments"
  demand (!(segment.getLast? == some 0x2e || segment.getLast? == some 0x20 ||
    windowsReservedName segment))
    "archive entry path contains a reserved or ambiguous Windows name"

/-- The loop of `normalize_path`; the end of the name closes the last segment. -/
def pathSegments (trailingSeparator : Bool) : Bytes → List Bytes → Bytes → Result (List Bytes)
  | [], segments, segment =>
    if segment.isEmpty then
      if trailingSeparator && !segments.isEmpty then .ok segments
      else .error "archive entry path contains an empty or ambiguous segment"
    else do
      checkSegment segment
      pure (segments ++ [segment])
  | c :: rest, segments, segment =>
    if isSeparator c then
      if segment.isEmpty then
        .error "archive entry path contains an empty or ambiguous segment"
      else do
        checkSegment segment
        pathSegments trailingSeparator rest (segments ++ [segment]) []
    else if c == 0x3a then
      .error "archive entry path contains an alternate-data-stream separator"
    else pathSegments trailingSeparator rest segments (segment ++ [c])

def maxNameBytes : Nat := 4096

/-- `trailing_separator`. -/
def trailingSeparator (raw : Bytes) : Bool :=
  raw.getLast?.any isSeparator

/-- `normalize_path`. -/
def normalizePath (raw : Bytes) (budgets : Budgets) : Result Bytes := do
  demand (!raw.isEmpty && decide (raw.length ≤ maxNameBytes))
    "archive entry path is empty or exceeds the name budget"
  demand (raw.all fun c => 0x20 ≤ c && c < 0x7f)
    "archive entry path requires unsupported Unicode normalization"
  demand (!(raw.head?.any isSeparator || (raw.head?.any isAlpha && raw[1]? == some 0x3a)))
    "archive entry path is absolute, drive-qualified, or UNC-like"
  let segments ← pathSegments (trailingSeparator raw) raw [] []
  demand (!segments.isEmpty && decide (segments.length ≤ budgets.maxDepth))
    "archive entry path exceeds the depth budget"
  pure (joinSlash segments)

/-- The proper beginnings of a path that end before a slash, the shortest first. -/
def ancestors (seen : Bytes) : Bytes → List Bytes
  | [] => []
  | c :: rest =>
    if c = 0x2f then seen :: ancestors (seen ++ [c]) rest else ancestors (seen ++ [c]) rest

/-- `validate_path_collision`. The map holds for each folded path whether it is a directory. -/
def validatePathCollision (paths : List (Bytes × Bool)) (normalized : Bytes) (directory : Bool) :
    Result (List (Bytes × Bool)) :=
  let key := lowercaseAscii normalized
  match ByteMap.emplace paths key directory with
  | none => .error "archive contains duplicate or case-insensitive-colliding paths"
  | some paths => do
    demand ((ancestors [] key).all fun a => ByteMap.find paths a != some false)
      "archive path descends through an entry declared as a file"
    let subtree := key ++ [0x2f]
    demand (directory || !((ByteMap.lowerBound paths subtree).any fun e => subtree.isPrefixOf e.1))
      "archive file path collides with an existing directory subtree"
    pure paths

/-! ## Extra fields -/

/-- The values that a header leaves to its ZIP64 extra field. -/
structure Zip64Needs where
  uncompressedSize : Bool
  compressedSize : Bool
  localHeaderOffset : Bool
  diskStart : Bool

def Zip64Needs.any (needs : Zip64Needs) : Bool :=
  needs.uncompressedSize || needs.compressedSize || needs.localHeaderOffset || needs.diskStart

/-- `Zip64Extra`. -/
structure Zip64Extra where
  present : Bool := false
  uncompressedSize : Nat := 0
  compressedSize : Nat := 0
  localHeaderOffset : Nat := 0
  diskStart : Nat := 0

/-- A value of the ZIP64 extra field, if it is needed, and the offset after it. -/
def takeField (read : Bytes → Nat → Result Nat) (width : Nat) (data : Bytes) (fieldEnd : Nat)
    (needed : Bool) (message : String) (offset : Nat) : Result (Nat × Nat) :=
  if needed then do
    demand (decide (width ≤ fieldEnd - offset)) message
    let value ← read data offset
    pure (value, offset + width)
  else .ok (0, offset)

/-- The ZIP64 extra field. -/
def zip64Field (data : Bytes) (needs : Zip64Needs) (offset fieldEnd : Nat) :
    Result Zip64Extra := do
  demand needs.any "ZIP64 extra field is present when no sentinel requires it"
  let uncompressedSize ← takeField little64 8 data fieldEnd needs.uncompressedSize
    "ZIP64 extra field is missing uncompressed size" offset
  let compressedSize ← takeField little64 8 data fieldEnd needs.compressedSize
    "ZIP64 extra field is missing compressed size" uncompressedSize.2
  let localHeaderOffset ← takeField little64 8 data fieldEnd needs.localHeaderOffset
    "ZIP64 extra field is missing local-header offset" compressedSize.2
  let diskStart ← takeField little32 4 data fieldEnd needs.diskStart
    "ZIP64 extra field is missing disk number" localHeaderOffset.2
  demand (diskStart.2 == fieldEnd) "ZIP64 extra field contains ambiguous trailing values"
  pure ⟨true, uncompressedSize.1, compressedSize.1, localHeaderOffset.1, diskStart.1⟩

/-- One extra field, from the end of its header on. -/
def extraField (data : Bytes) (needs : Zip64Needs) (identifier offset fieldEnd : Nat)
    (zip64 : Zip64Extra) : Result Zip64Extra :=
  if identifier = 0x0001 then zip64Field data needs offset fieldEnd
  else if identifier = 0x7075 ∨ identifier = 0x9901 then
    .error "alternate Unicode paths and AES metadata are unsupported"
  else .ok zip64

/-- The loop over the extra fields. A field takes at least four bytes, so a range is read within as
many turns as it has bytes. -/
def extraFields (data : Bytes) (needs : Zip64Needs) (stop : Nat) :
    Nat → Nat → List Nat → Zip64Extra → Result Zip64Extra
  | 0, _, _, zip64 => .ok zip64
  | turns + 1, offset, identifiers, zip64 =>
    if offset < stop then do
      demand (decide (4 ≤ stop - offset)) "ZIP extra field header is truncated"
      let identifier ← little16 data offset
      let fieldSize ← little16 data (offset + 2)
      demand (decide (fieldSize ≤ stop - (offset + 4)) && !identifiers.contains identifier)
        "ZIP extra fields are truncated or duplicated"
      let zip64 ← extraField data needs identifier (offset + 4) (offset + 4 + fieldSize) zip64
      extraFields data needs stop turns (offset + 4 + fieldSize) (identifier :: identifiers) zip64
    else .ok zip64

/-- `parse_extra_fields`. -/
def parseExtraFields (data : Bytes) (offset size : Nat) (needs : Zip64Needs) :
    Result Zip64Extra := do
  demand (decide (offset ≤ data.length) && decide (size ≤ data.length - offset))
    "ZIP extra field range is truncated"
  let zip64 ← extraFields data needs (offset + size) size offset [] {}
  demand (!needs.any || zip64.present) "ZIP64 sentinel has no ZIP64 extra field"
  pure zip64

/-! ## Entries and hosts -/

def maxCentralDirectoryBytes : Nat := 64 * 1024 * 1024
def maxArchiveBytes : Nat := 2 ^ 40

/-- `Entry`. -/
structure Entry where
  normalizedPath : Bytes
  directory : Bool
  compressedSize : Nat
  uncompressedSize : Nat
  compressionMethod : Nat
  crc32 : Nat
  localHeaderOffset : Nat
  dataOffset : Nat
  dataEnd : Nat

/-- What an inspection is run against. -/
structure Host where
  openFile : Path → Result StableFile
  /-- The exception thrown at a checkpoint, if the host stops the run there. -/
  interrupt : Checkpoint → Option String
  now : Bytes
  /-- What zlib makes of a deflated entry: the bytes at an offset, up to a capacity. -/
  deflateReader : StableFile → Entry → Nat → Nat → Result Bytes

def Host.check (host : Host) (point : Checkpoint) : Result Unit :=
  match host.interrupt point with
  | none => .ok ()
  | some message => .error message

/-- `Inspection`. -/
structure Inspection where
  path : Path
  identity : StableFileIdentity
  sourceSha256 : Bytes
  entrySetDigest : Bytes
  inspectedAt : Bytes
  budgets : Budgets
  entries : List Entry
  fileCount : Nat
  directoryCount : Nat
  compressedBytes : Nat
  uncompressedBytes : Nat

/-- The loop of `hash_source_until` over chunks of 64 KiB. A chunk takes at least one byte. -/
def hashChunks (host : Host) (pass : Nat) : Nat → Nat → Bytes → Sha256 → Result Sha256
  | 0, _, _, hash => .ok hash
  | turns + 1, offset, rest, hash =>
    if rest.isEmpty then .ok hash
    else do
      host.check (.hashing pass offset)
      hashChunks host pass turns (offset + min 65536 rest.length) (rest.drop 65536)
        (hash.update (rest.take 65536))

/-- `hash_source_until`. -/
def hashSourceUntil (host : Host) (pass : Nat) (source : StableFile) : Result Bytes := do
  let hash ← hashChunks host pass source.content.length 0 source.content {}
  host.check (.hashed pass)
  pure hash.finish

/-- The line of an entry in `entry_set_digest`. -/
def entryLine (entry : Entry) : Bytes :=
  (if entry.directory then ascii "directory" else ascii "file") ++ 0 :: entry.normalizedPath ++
    0 :: decimal entry.uncompressedSize ++ 0 :: decimal entry.compressedSize ++
    0 :: decimal entry.crc32 ++ 0 :: decimal entry.compressionMethod ++ [0x0a]

/-- `entry_set_digest`. -/
def entrySetDigest (entries : List Entry) : Bytes :=
  (entries.foldl (fun (hash : Sha256) entry => hash.update (entryLine entry)) {}).finish

/-- `add_checked`. -/
def addChecked (A : Arith) (total value maximum : Nat) (name : String) : Result Nat := do
  demand (decide (value ≤ maximum)) (name ++ " exceeds its archive inspection budget")
  let room ← A.sub maximum value
  demand (decide (total ≤ room)) (name ++ " exceeds its archive inspection budget")
  A.add total value

/-! ## End records -/

/-- The search for the end record, from the end of the tail downwards. -/
def findEndRecord (tail : Bytes) : Nat → Result (Option Nat)
  | 0 => .ok none
  | position + 1 => do
    let signature ← little32 tail position
    if signature = 0x06054b50 then
      let commentLength ← little16 tail (position + 20)
      if position + 22 + commentLength = tail.length then pure (some position)
      else findEndRecord tail position
    else findEndRecord tail position

/-- What an end record says about the central directory. -/
structure EndRecord where
  entriesOnDisk : Nat
  entryCount : Nat
  centralSize : Nat
  centralOffset : Nat

/-- The end record of the classic format, at position `eocd` of the tail. -/
def classicEndRecord (tail : Bytes) (eocd : Nat) : Result EndRecord := do
  let disk ← little16 tail (eocd + 4)
  let centralDisk ← little16 tail (eocd + 6)
  demand (disk == 0 && centralDisk == 0) "multi-disk ZIP archives are unsupported"
  let entriesOnDisk ← little16 tail (eocd + 8)
  let entryCount ← little16 tail (eocd + 10)
  let centralSize ← little32 tail (eocd + 12)
  let centralOffset ← little32 tail (eocd + 16)
  pure ⟨entriesOnDisk, entryCount, centralSize, centralOffset⟩

/-- `needs_zip64`. -/
def EndRecord.needsZip64 (classic : EndRecord) : Bool :=
  classic.entriesOnDisk == 0xffff || classic.entryCount == 0xffff ||
    classic.centralSize == 0xffffffff || classic.centralOffset == 0xffffffff

/-- Whether the classic record repeats the ZIP64 one wherever it has no sentinel. -/
def EndRecord.agrees (classic zip64 : EndRecord) : Bool :=
  (classic.entriesOnDisk == 0xffff || classic.entriesOnDisk == zip64.entriesOnDisk) &&
    (classic.entryCount == 0xffff || classic.entryCount == zip64.entryCount) &&
    (classic.centralSize == 0xffffffff || classic.centralSize == zip64.centralSize) &&
    (classic.centralOffset == 0xffffffff || classic.centralOffset == zip64.centralOffset)

/-- The locator before the end record, if there is one. -/
def readLocator (A : Arith) (source : StableFile) (eocdOffset : Nat) : Result (Option Bytes) :=
  if 20 ≤ eocdOffset then do
    let locator ← source.read (← A.sub eocdOffset 20) 20
    let signature ← little32 locator 0
    pure (if signature = 0x07064b50 then some locator else none)
  else .ok none

/-- The ZIP64 end record that a locator points to, and its offset. -/
def zip64EndRecord (A : Arith) (source : StableFile) (eocdOffset : Nat) (locator : Bytes)
    (classic : EndRecord) : Result (EndRecord × Nat) := do
  let disk ← little32 locator 4
  let disks ← little32 locator 16
  demand (disk == 0 && disks == 1) "ZIP64 locator declares a multi-disk archive"
  let zip64Offset ← little64 locator 8
  let locatorOffset ← A.sub eocdOffset 20
  demand (decide (zip64Offset ≤ locatorOffset)) "ZIP64 end record offset is invalid"
  let room ← A.sub locatorOffset zip64Offset
  demand (decide (56 ≤ room)) "ZIP64 end record offset is invalid"
  let zip64 ← source.read zip64Offset 56
  let recordSize ← little64 zip64 4
  let signature ← little32 zip64 0
  demand (signature == 0x06064b50 && recordSize == 44)
    "ZIP64 end-of-central-directory record is malformed"
  let recordEnd ← A.add (← A.add zip64Offset 12) recordSize
  demand (recordEnd == locatorOffset) "ZIP64 end-of-central-directory record is malformed"
  let recordDisk ← little32 zip64 16
  let recordCentralDisk ← little32 zip64 20
  demand (recordDisk == 0 && recordCentralDisk == 0)
    "ZIP64 end record declares a multi-disk archive"
  let entriesOnDisk ← little64 zip64 24
  let entryCount ← little64 zip64 32
  let centralSize ← little64 zip64 40
  let centralOffset ← little64 zip64 48
  demand (entriesOnDisk == entryCount) "ZIP64 central-directory entry counts disagree"
  let record : EndRecord := ⟨entriesOnDisk, entryCount, centralSize, centralOffset⟩
  demand (classic.agrees record) "classic and ZIP64 end records disagree"
  pure (record, zip64Offset)

/-- The end record that counts, and where the central directory has to end. -/
def effectiveEndRecord (A : Arith) (source : StableFile) (eocdOffset : Nat) (classic : EndRecord) :
    Result (EndRecord × Nat) := do
  match ← readLocator A source eocdOffset with
  | some locator => zip64EndRecord A source eocdOffset locator classic
  | none =>
    if classic.needsZip64 then .error "ZIP64 locator is missing" else .ok (classic, eocdOffset)

/-- The bounds of the central directory. -/
def checkCentralDirectory (A : Arith) (budgets : Budgets) (record : EndRecord) (centralEnd : Nat) :
    Result Unit := do
  let message := "ZIP central-directory count, size, or bounds are invalid"
  demand (record.entryCount != 0 && decide (record.entryCount ≤ budgets.maxEntries) &&
    decide (record.centralSize ≤ maxCentralDirectoryBytes) &&
    decide (record.centralOffset ≤ centralEnd)) message
  let room ← A.sub centralEnd record.centralOffset
  demand (decide (record.centralSize ≤ room)) message
  let stop ← A.add record.centralOffset record.centralSize
  demand (stop == centralEnd && record.entriesOnDisk == record.entryCount) message

/-! ## Central directory records -/

/-- What a record of the central directory says about its entry. -/
structure CentralRecord where
  flags : Nat
  method : Nat
  crc32 : Nat
  compressed : Nat
  uncompressed : Nat
  name : Bytes
  externalAttributes : Nat
  localOffset : Nat
  recordSize : Nat

/-- A value, or the one of the ZIP64 extra field in place of a sentinel. -/
def resolve (sentinel value extra : Nat) : Nat :=
  if value = sentinel then extra else value

/-- The record at a position of the central directory. -/
def centralRecord (central : Bytes) (position : Nat) : Result CentralRecord := do
  let signature ← little32 central position
  demand (signature == 0x02014b50 && decide (46 ≤ central.length - position))
    "ZIP central-directory entry is truncated or malformed"
  let flags ← little16 central (position + 8)
  let method ← little16 central (position + 10)
  let crc32 ← little32 central (position + 16)
  let compressed32 ← little32 central (position + 20)
  let uncompressed32 ← little32 central (position + 24)
  let nameSize ← little16 central (position + 28)
  let extraSize ← little16 central (position + 30)
  let commentSize ← little16 central (position + 32)
  let diskStart16 ← little16 central (position + 34)
  let externalAttributes ← little32 central (position + 38)
  let localOffset32 ← little32 central (position + 42)
  let recordSize := 46 + nameSize + extraSize + commentSize
  demand (decide (recordSize ≤ central.length - position) && nameSize != 0)
    "ZIP central-directory variable fields are truncated"
  demand (method == 0 || method == 8) "ZIP entry uses an unsupported compression method"
  demand (flags &&& (if method = 8 then 0xf7f9 else 0xf7ff) == 0)
    "ZIP entry uses encrypted, streamed, patched, masked, multi-disk, or unsupported flags"
  let zip64 ← parseExtraFields central (position + 46 + nameSize) extraSize
    ⟨uncompressed32 == 0xffffffff, compressed32 == 0xffffffff, localOffset32 == 0xffffffff,
      diskStart16 == 0xffff⟩
  demand (resolve 0xffff diskStart16 zip64.diskStart == 0)
    "ZIP entry declares a nonzero or multi-disk start"
  pure
    { flags := flags, method := method, crc32 := crc32,
      compressed := resolve 0xffffffff compressed32 zip64.compressedSize,
      uncompressed := resolve 0xffffffff uncompressed32 zip64.uncompressedSize,
      name := (central.drop (position + 46)).take nameSize,
      externalAttributes := externalAttributes,
      localOffset := resolve 0xffffffff localOffset32 zip64.localHeaderOffset,
      recordSize := recordSize }

/-- `unix_type`: the file type bits of the mode in the external attributes. -/
def CentralRecord.unixType (record : CentralRecord) : Nat :=
  (record.externalAttributes >>> 16) &&& 0xf000

/-- `directory`. -/
def CentralRecord.directory (record : CentralRecord) : Bool :=
  trailingSeparator record.name || record.unixType == 0x4000 ||
    record.externalAttributes &&& 0x10 != 0

/-- The file type and the name of an entry. The result is the normalized name. -/
def checkKind (budgets : Budgets) (record : CentralRecord) : Result Bytes := do
  demand (record.unixType == 0x4000 || record.unixType == 0x8000 || record.unixType == 0)
    "ZIP entry is a link, device, socket, or unsupported Unix file type"
  demand (record.externalAttributes &&& 0x440 == 0)
    "ZIP entry declares reparse-like or device attributes"
  let normalized ← normalizePath record.name budgets
  demand (!((record.unixType == 0x8000 && record.directory) || (record.directory &&
    (record.compressed != 0 || record.uncompressed != 0 || record.method != 0))))
    "ZIP directory and file metadata disagree"
  pure normalized

/-- The variables of the loop over the central directory. -/
structure Scan where
  position : Nat := 0
  paths : List (Bytes × Bool) := []
  entries : List Entry := []
  fileCount : Nat := 0
  directoryCount : Nat := 0
  compressedBytes : Nat := 0
  uncompressedBytes : Nat := 0

/-- An entry may not unpack to more than its ratio allows. -/
def checkRatio (A : Arith) (budgets : Budgets) (record : CentralRecord) : Result Unit :=
  if record.compressed = 0 then
    demand (record.uncompressed == 0) "ZIP entry declares an unbounded compression ratio"
  else do
    let limit ← A.mul record.compressed budgets.maxRatio
    demand (decide (record.uncompressed ≤ limit)) "ZIP entry exceeds the compression-ratio budget"

/-- The size budgets, which only files use up. -/
def account (A : Arith) (budgets : Budgets) (record : CentralRecord) (s : Scan) : Result Scan :=
  if record.directory then .ok { s with directoryCount := s.directoryCount + 1 }
  else do
    demand (decide (record.uncompressed ≤ budgets.maxEntryBytes) &&
      decide (record.compressed ≤ maxArchiveBytes)) "ZIP entry exceeds the per-entry size budget"
    checkRatio A budgets record
    let uncompressedBytes ← addChecked A s.uncompressedBytes record.uncompressed
      budgets.maxUncompressedBytes "total uncompressed size"
    let compressedBytes ← addChecked A s.compressedBytes record.compressed maxArchiveBytes
      "total compressed size"
    pure { s with uncompressedBytes := uncompressedBytes, compressedBytes := compressedBytes,
                  fileCount := s.fileCount + 1 }

/-! ## Local headers -/

/-- The sizes of a local header, out of its 32-bit fields and its extra fields. -/
def localSizes (localHeader localVariables : Bytes) (nameSize extraSize : Nat) :
    Result (Nat × Nat) := do
  let compressed32 ← little32 localHeader 18
  let uncompressed32 ← little32 localHeader 22
  let zip64 ← parseExtraFields localVariables nameSize extraSize
    ⟨uncompressed32 == 0xffffffff, compressed32 == 0xffffffff, false, false⟩
  pure (resolve 0xffffffff compressed32 zip64.compressedSize,
    resolve 0xffffffff uncompressed32 zip64.uncompressedSize)

/-- The fixed part of a local header must repeat the central record. -/
def checkLocalHeader (localHeader : Bytes) (record : CentralRecord) : Result Unit := do
  let signature ← little32 localHeader 0
  let flags ← little16 localHeader 6
  let method ← little16 localHeader 8
  let crc32 ← little32 localHeader 14
  let nameSize ← little16 localHeader 26
  demand (signature == 0x04034b50 && flags == record.flags && method == record.method &&
    crc32 == record.crc32 && nameSize == record.name.length)
    "ZIP local and central headers disagree"

/-- The local header and the payload range of an entry. -/
def localEntry (A : Arith) (source : StableFile) (centralOffset : Nat) (record : CentralRecord)
    (normalized : Bytes) : Result Entry := do
  demand (decide (record.localOffset < centralOffset))
    "ZIP local header offset overlaps the central directory"
  let before ← A.sub centralOffset record.localOffset
  demand (decide (30 ≤ before)) "ZIP local header offset overlaps the central directory"
  let localHeader ← source.read record.localOffset 30
  checkLocalHeader localHeader record
  let localExtraSize ← little16 localHeader 28
  let variableSize ← A.add record.name.length localExtraSize
  let room ← A.sub before 30
  demand (decide (variableSize ≤ room))
    "ZIP local header variable fields overlap the central directory"
  let localVariables ← source.read (← A.add record.localOffset 30)
    (record.name.length + localExtraSize)
  demand (localVariables.take record.name.length == record.name)
    "ZIP local and central entry names disagree"
  let sizes ← localSizes localHeader localVariables record.name.length localExtraSize
  demand (sizes.1 == record.compressed && sizes.2 == record.uncompressed)
    "ZIP local and central sizes disagree"
  let dataOffset ← A.add (← A.add record.localOffset 30) variableSize
  demand (decide (dataOffset ≤ centralOffset)) "ZIP entry payload overlaps the central directory"
  let rest ← A.sub centralOffset dataOffset
  demand (decide (record.compressed ≤ rest)) "ZIP entry payload overlaps the central directory"
  let dataEnd ← A.add dataOffset record.compressed
  pure
    { normalizedPath := normalized, directory := record.directory,
      compressedSize := record.compressed, uncompressedSize := record.uncompressed,
      compressionMethod := record.method, crc32 := record.crc32,
      localHeaderOffset := record.localOffset, dataOffset := dataOffset, dataEnd := dataEnd }

/-! ## The inspection -/

/-- One turn of the loop over the central directory. -/
def scanEntry (A : Arith) (source : StableFile) (budgets : Budgets) (central : Bytes)
    (centralOffset : Nat) (s : Scan) : Result Scan := do
  let record ← centralRecord central s.position
  let normalized ← checkKind budgets record
  let counted ← account A budgets record s
  let paths ← validatePathCollision s.paths normalized record.directory
  let entry ← localEntry A source centralOffset record normalized
  pure { counted with paths := paths, entries := s.entries ++ [entry],
                      position := s.position + record.recordSize }

/-- The loop over the central directory. -/
def scanEntries (A : Arith) (host : Host) (source : StableFile) (budgets : Budgets)
    (central : Bytes) (centralOffset : Nat) : Nat → Scan → Result Scan
  | 0, s => .ok s
  | n + 1, s => do
    host.check (.entry s.entries.length)
    let s ← scanEntry A source budgets central centralOffset s
    scanEntries A host source budgets central centralOffset n s

/-- Each range has to begin where the one before it ends. -/
def checkAdjacent : List Entry → Result Unit
  | left :: right :: rest => do
    demand (left.dataEnd == right.localHeaderOffset)
      "ZIP entry ranges overlap or contain ambiguous unclaimed bytes"
    checkAdjacent (right :: rest)
  | _ => .ok ()

/-- The checks on the entries in the order of their local headers. -/
def checkRanges (entries : List Entry) (centralOffset : Nat) : Result Unit := do
  let physical := entries.insertionSort fun left right =>
    left.localHeaderOffset ≤ right.localHeaderOffset
  demand (physical.head?.any fun entry => entry.localHeaderOffset == 0)
    "ZIP archive contains a preamble or has no entry at offset zero"
  checkAdjacent physical
  demand (physical.getLast?.any fun entry => entry.dataEnd == centralOffset)
    "ZIP local entries leave ambiguous bytes before the central directory"

/-- The end record at the end of the file, and its offset. -/
def locateEndRecord (A : Arith) (source : StableFile) : Result (EndRecord × Nat) := do
  let tailSize := min source.identity.sizeBytes (22 + 65535)
  let tailOffset ← A.sub source.identity.sizeBytes tailSize
  let tail ← source.read tailOffset tailSize
  match ← findEndRecord tail (if 22 ≤ tail.length then tail.length - 22 + 1 else 0) with
  | none => .error "ZIP end-of-central-directory record is missing or ambiguous"
  | some eocd => do
    let classic ← classicEndRecord tail eocd
    let eocdOffset ← A.add tailOffset eocd
    pure (classic, eocdOffset)

/-- `inspect_zip` on an open file. -/
def inspectSource (A : Arith) (host : Host) (source : StableFile) (budgets : Budgets) :
    Result Inspection := do
  demand (decide (22 ≤ source.identity.sizeBytes) &&
    decide (source.identity.sizeBytes ≤ maxArchiveBytes)) "source is not a bounded ZIP archive"
  let sourceSha256 ← hashSourceUntil host 0 source
  let classic ← locateEndRecord A source
  let effective ← effectiveEndRecord A source classic.2 classic.1
  let record := effective.1
  checkCentralDirectory A budgets record effective.2
  let central ← source.read record.centralOffset record.centralSize
  let s ← scanEntries A host source budgets central record.centralOffset record.entryCount {}
  demand (s.position == central.length)
    "ZIP central directory contains trailing or uncounted records"
  host.check .scanned
  checkRanges s.entries record.centralOffset
  let entries := s.entries.insertionSort fun left right =>
    ¬right.normalizedPath < left.normalizedPath
  host.check .inspected
  pure
    { path := source.path, identity := source.identity, sourceSha256 := sourceSha256,
      entrySetDigest := entrySetDigest entries, inspectedAt := host.now, budgets := budgets,
      entries := entries, fileCount := s.fileCount, directoryCount := s.directoryCount,
      compressedBytes := s.compressedBytes, uncompressedBytes := s.uncompressedBytes }

/-- `inspect_zip`. -/
def inspectZip (A : Arith) (host : Host) (request : Bytes) : Result Inspection := do
  let parsed ← parseArchiveRequest request
  let source ← host.openFile parsed.archivePath
  inspectSource A host source parsed.budgets

end Usk.Archive

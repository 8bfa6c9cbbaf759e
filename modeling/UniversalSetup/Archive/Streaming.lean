import UniversalSetup.Archive.Payload
import UniversalSetup.Archive.Layout
import UniversalSetup.Base.Outcome

/-!
# The two ways to a payload agree

On an archive of stored entries the payload read in chunks is the payload read into memory: the same
files in the same order, with the same sizes, digests and bytes, whatever the capacities a reader is
called with. The chunked way has no limit on what it delivers, and its buffer has one size only.

What the clock and the caller's cancellation do to either way is in `Follows`: a run has the outcome
of the undisturbed run, or ends with the exception of the interruption.
-/

namespace Usk.Archive

open Json (Result demand demand_eq_ok bind_eq_ok exists_of_isOk)
open Outcome (Follows Agree)

variable {source : StableFile} {inspection : Inspection}

/-! ## Interruptions -/

/-- The host with other interruptions. -/
def Host.interrupted (host : Host) (interrupt : Checkpoint → Option String) : Host :=
  { host with interrupt := interrupt }

/-- The host without interruptions. -/
def Host.quiet (host : Host) : Host :=
  host.interrupted fun _ => none

/-- The exceptions of the interruptions. -/
def Host.Stops (host : Host) (message : String) : Prop :=
  ∃ point, host.interrupt point = some message

@[simp] theorem quiet_check (host : Host) (point : Checkpoint) : host.quiet.check point = .ok () :=
  rfl

@[simp] theorem quiet_interrupted (host : Host) (interrupt : Checkpoint → Option String) :
    (host.interrupted interrupt).quiet = host.quiet :=
  rfl

section Interruptions

variable (host : Host)

theorem check_follows (point : Checkpoint) :
    Follows host.Stops (host.check point) (host.quiet.check point) := by
  rw [quiet_check]
  unfold Host.check
  split
  · exact .refl _
  · next message h => exact .inr ⟨message, ⟨point, h⟩, rfl⟩

theorem hashChunks_follows (pass : Nat) : ∀ (turns offset : Nat) (rest : Bytes) (hash : Sha256),
    Follows host.Stops (hashChunks host pass turns offset rest hash)
      (hashChunks host.quiet pass turns offset rest hash)
  | 0, _, _, _ => .refl _
  | turns + 1, offset, rest, hash => by
    unfold hashChunks
    split
    · exact .refl _
    · exact (check_follows host _).bind fun _ _ => hashChunks_follows pass turns _ _ _

theorem hashSourceUntil_follows (pass : Nat) (source : StableFile) :
    Follows host.Stops (hashSourceUntil host pass source)
      (hashSourceUntil host.quiet pass source) :=
  (hashChunks_follows host pass _ _ _ _).bind fun _ _ =>
    (check_follows host _).bind fun _ _ => .refl _

theorem scanEntries_follows (A : Arith) (source : StableFile) (budgets : Budgets) (central : Bytes)
    (centralOffset : Nat) : ∀ (n : Nat) (s : Scan),
    Follows host.Stops (scanEntries A host source budgets central centralOffset n s)
      (scanEntries A host.quiet source budgets central centralOffset n s)
  | 0, _ => .refl _
  | n + 1, _ =>
    (check_follows host _).bind fun _ _ => (Follows.refl _).bind fun _ _ =>
      scanEntries_follows A source budgets central centralOffset n _

theorem inspectSource_follows (A : Arith) (source : StableFile) (budgets : Budgets) :
    Follows host.Stops (inspectSource A host source budgets)
      (inspectSource A host.quiet source budgets) := by
  unfold inspectSource
  refine (Follows.refl _).bind fun _ _ => ?_
  refine (hashSourceUntil_follows host 0 source).bind fun _ _ => ?_
  refine (Follows.refl _).bind fun _ _ => (Follows.refl _).bind fun _ _ => ?_
  refine (Follows.refl _).bind fun _ _ => (Follows.refl _).bind fun _ _ => ?_
  refine (scanEntries_follows host A source budgets _ _ _ _).bind fun _ _ => ?_
  refine (Follows.refl _).bind fun _ _ => (check_follows host _).bind fun _ _ => ?_
  exact (Follows.refl _).bind fun _ _ => (check_follows host _).bind fun _ _ => .refl _

theorem inspectZip_follows (A : Arith) (request : Bytes) :
    Follows host.Stops (inspectZip A host request) (inspectZip A host.quiet request) :=
  (Follows.refl _).bind fun parsed _ => (Follows.refl _).bind fun source _ =>
    inspectSource_follows host A source parsed.budgets

theorem reopenSource_follows (inspection : Inspection) :
    Follows host.Stops (reopenSource host inspection) (reopenSource host.quiet inspection) :=
  (Follows.refl _).bind fun source _ => (Follows.refl _).bind fun _ _ =>
    (hashSourceUntil_follows host 1 source).bind fun _ _ => .refl _

theorem inspectStoredPayload_follows (A : Arith) (capacity : Nat → Nat)
    (request stripPrefix : Bytes) :
    Follows host.Stops (inspectStoredPayload A capacity host request stripPrefix)
      (inspectStoredPayload A capacity host.quiet request stripPrefix) := by
  unfold inspectStoredPayload
  refine (inspectZip_follows host A request).bind fun inspection _ => ?_
  refine (Follows.refl _).bind fun _ _ => (Follows.refl _).bind fun _ _ => ?_
  refine (reopenSource_follows host inspection).bind fun _ _ => ?_
  refine (Follows.refl _).bind fun _ _ => (Follows.refl _).bind fun _ _ => ?_
  exact (check_follows host _).bind fun _ _ => .refl _

theorem read_follows (reader : PayloadReader) (relativeOffset capacity : Nat) :
    Follows host.Stops (reader.read host relativeOffset capacity)
      (reader.read host.quiet relativeOffset capacity) := by
  unfold PayloadReader.read
  split
  · exact .refl _
  · exact (Follows.refl _).bind fun _ _ => (check_follows host _).bind fun _ _ => .refl _

theorem readChunks_follows (reader : PayloadReader) (bufferBytes : Nat) :
    ∀ (turns offset : Nat) (integrity : PayloadIntegrity),
    Follows host.Stops (readChunks host reader bufferBytes turns offset integrity)
      (readChunks host.quiet reader bufferBytes turns offset integrity)
  | 0, _, _ => .refl _
  | turns + 1, offset, integrity => by
    unfold readChunks
    split
    · refine (check_follows host _).bind fun _ _ => (read_follows host reader _ _).bind fun _ _ =>
        ?_
      exact (Follows.refl _).bind fun _ _ => readChunks_follows reader bufferBytes turns _ _
    · exact .refl _

theorem streamFile_follows (source : StableFile) (bufferBytes : Nat) (allowDeflate : Bool)
    (index : Nat) (entry : Entry) (path : Bytes) (s : Streamed) :
    Follows host.Stops (streamFile host source bufferBytes allowDeflate index entry path s)
      (streamFile host.quiet source bufferBytes allowDeflate index entry path s) := by
  unfold streamFile
  refine (Follows.refl _).bind fun _ _ => (Follows.refl _).bind fun _ _ => ?_
  refine (readChunks_follows host _ _ _ _ _).bind fun _ _ => ?_
  refine (read_follows host _ _ _).bind fun _ _ => (Follows.refl _).bind fun _ _ => ?_
  exact (check_follows host _).bind fun _ _ => .refl _

theorem streamEntries_follows (source : StableFile) (bufferBytes : Nat) (allowDeflate : Bool)
    (leading : Bytes) : ∀ (entries : List Entry) (index : Nat) (s : Streamed),
    Follows host.Stops (streamEntries host source bufferBytes allowDeflate leading index entries s)
      (streamEntries host.quiet source bufferBytes allowDeflate leading index entries s)
  | [], _, _ => .refl _
  | entry :: rest, index, s => by
    unfold streamEntries
    refine (check_follows host _).bind fun _ _ => (Follows.refl _).bind fun path _ => ?_
    split
    · exact streamEntries_follows source bufferBytes allowDeflate leading rest _ s
    · exact (streamFile_follows host source bufferBytes allowDeflate index entry path s).bind
        fun s _ => streamEntries_follows source bufferBytes allowDeflate leading rest _ s

theorem inspectStreamingPayload_follows (A : Arith) (request stripPrefix : Bytes)
    (payloadBufferBytes : Nat) (allowDeflate : Bool) :
    Follows host.Stops
      (inspectStreamingPayload A host request stripPrefix payloadBufferBytes allowDeflate)
      (inspectStreamingPayload A host.quiet request stripPrefix payloadBufferBytes
        allowDeflate) := by
  unfold inspectStreamingPayload
  refine (Follows.refl _).bind fun _ _ => ?_
  refine (inspectZip_follows host A request).bind fun inspection _ => ?_
  refine (Follows.refl _).bind fun _ _ => ?_
  refine (reopenSource_follows host inspection).bind fun source _ => ?_
  refine (streamEntries_follows host source _ _ _ _ _ _).bind fun _ _ => ?_
  exact (Follows.refl _).bind fun _ _ => (check_follows host _).bind fun _ _ => .refl _

end Interruptions

/-! ## Checksums in chunks -/

namespace PayloadIntegrity

@[simp] theorem update_nil (integrity : PayloadIntegrity) : integrity.update [] = integrity :=
  rfl

theorem update_append (integrity : PayloadIntegrity) (x y : Bytes) :
    integrity.update (x ++ y) = (integrity.update x).update y := by
  unfold update
  rw [Sha256.update_append, List.foldl_append]

/-- However the data is cut up, the sums are those of the whole. -/
theorem foldl_update (chunks : List Bytes) : ∀ integrity : PayloadIntegrity,
    chunks.foldl update integrity = integrity.update chunks.flatten := by
  induction chunks with
  | nil => exact fun _ => rfl
  | cons chunk rest ih =>
    intro integrity
    rw [List.foldl_cons, ih, List.flatten_cons, update_append]

/-- The table computes what the bitwise division computes. -/
theorem finishCrc32_update (data : Bytes) : (update {} data).finishCrc32 = payloadCrc32 data := by
  have hfeed : Crc.feedTable crcPolynomial = Crc.feed crcPolynomial := by
    funext crc b
    exact Crc.feedTable_eq crcPolynomial crc b
  unfold finishCrc32 update payloadCrc32
  rw [hfeed]

theorem finishSha256_update (data : Bytes) : (update {} data).finishSha256 = Usk.sha256 data := by
  unfold Usk.sha256
  rfl

end PayloadIntegrity

/-! ## Readers of stored entries -/

namespace PayloadReader

/-- Calls of a reader one after the other, each from where the last one stopped. -/
def consume (host : Host) (reader : PayloadReader) : List Nat → Nat → Result Bytes
  | [], _ => .ok []
  | capacity :: rest, offset => do
    let data ← reader.read host offset capacity
    let more ← consume host reader rest (offset + data.length)
    pure (data ++ more)

/-- The reader delivers these bytes, however it is called. -/
def Delivers (host : Host) (reader : PayloadReader) (bytes : Bytes) : Prop :=
  ∀ (interrupt : Checkpoint → Option String) (capacities : List Nat), 0 ∉ capacities →
    Follows (host.interrupted interrupt).Stops
      (reader.consume (host.interrupted interrupt) capacities 0)
      (.ok (bytes.take capacities.sum))

/-- The bytes of a stored entry. -/
def payload (reader : PayloadReader) : Bytes :=
  (reader.source.content.drop reader.entry.dataOffset).take reader.entry.uncompressedSize

/-- A reader of a stored entry that lies within the archive. -/
structure Stored (reader : PayloadReader) : Prop where
  method : reader.entry.compressionMethod = 0
  within : reader.entry.dataOffset + reader.entry.uncompressedSize ≤ reader.source.content.length

theorem consume_follows (host : Host) (reader : PayloadReader) : ∀ (capacities : List Nat)
    (offset : Nat), Follows host.Stops (reader.consume host capacities offset)
      (reader.consume host.quiet capacities offset)
  | [], _ => .refl _
  | _ :: rest, _ =>
    (read_follows host reader _ _).bind fun _ _ =>
      (consume_follows host reader rest _).bind fun _ _ => .refl _

namespace Stored

variable {reader : PayloadReader} (h : reader.Stored) (host : Host)
include h

theorem payload_length : reader.payload.length = reader.entry.uncompressedSize := by
  have hwithin := h.within
  unfold payload
  rw [List.length_take, List.length_drop]
  omega

theorem read_quiet {offset capacity : Nat} (hoffset : offset ≤ reader.entry.uncompressedSize)
    (hcapacity : capacity ≠ 0) :
    reader.read host.quiet offset capacity = .ok ((reader.payload.drop offset).take capacity) := by
  have hwithin := h.within
  have hmethod : ¬reader.entry.compressionMethod = 8 := by
    rw [h.method]
    decide
  unfold PayloadReader.read
  rw [if_neg hmethod]
  simp only [storedRead, quiet_check, bind_eq_ok, demand_eq_ok, decide_eq_true_eq, exists_const]
  refine ⟨hoffset, trivial, ?_⟩
  split
  · next hend =>
    have hall : reader.payload.length ≤ offset := by
      rw [h.payload_length]
      omega
    rw [List.drop_of_length_le hall, List.take_nil]
    rfl
  · next hend =>
    refine bind_eq_ok.mpr ⟨(), ?_, read_eq_ok.mpr ⟨by omega, ?_⟩⟩
    · simpa using hcapacity
    · unfold payload
      rw [List.drop_take, List.drop_drop, List.take_take]

theorem consume_quiet : ∀ {capacities : List Nat} {offset : Nat}, 0 ∉ capacities →
    offset ≤ reader.entry.uncompressedSize →
    reader.consume host.quiet capacities offset =
      .ok ((reader.payload.drop offset).take capacities.sum)
  | [], _, _, _ => rfl
  | capacity :: rest, offset, hcapacities, hoffset => by
    rw [List.mem_cons, not_or] at hcapacities
    have hlength := h.payload_length
    have hread := h.read_quiet host hoffset (Ne.symm hcapacities.1)
    unfold consume
    refine bind_eq_ok.mpr ⟨_, hread, bind_eq_ok.mpr ⟨_, consume_quiet hcapacities.2 ?_, ?_⟩⟩
    · rw [List.length_take, List.length_drop]
      omega
    · -- The next call starts behind the bytes delivered, or at the end if there were too few.
      have hnext : reader.payload.drop
          (offset + ((reader.payload.drop offset).take capacity).length) =
          (reader.payload.drop offset).drop capacity := by
        rw [List.length_take, List.length_drop, List.drop_drop]
        rcases Nat.le_total capacity (reader.payload.length - offset) with hle | hle
        · rw [Nat.min_eq_left hle]
        · rw [Nat.min_eq_right hle, List.drop_of_length_le (by omega),
            List.drop_of_length_le (by omega)]
      rw [hnext, List.sum_cons, List.take_add]
      rfl

theorem delivers : reader.Delivers host reader.payload := by
  intro interrupt capacities hcapacities
  have hquiet := h.consume_quiet host hcapacities (Nat.zero_le _)
  have hfollows := consume_follows (host.interrupted interrupt) reader capacities 0
  rw [quiet_interrupted, hquiet, List.drop_zero] at hfollows
  exact hfollows

/-- The loop takes in the rest of the payload. -/
theorem readChunks_quiet {bufferBytes : Nat} (hbuffer : 0 < bufferBytes) :
    ∀ {turns offset : Nat} {integrity : PayloadIntegrity},
    offset ≤ reader.entry.uncompressedSize → reader.entry.uncompressedSize ≤ offset + turns →
    readChunks host.quiet reader bufferBytes turns offset integrity =
      .ok (reader.entry.uncompressedSize, integrity.update (reader.payload.drop offset)) := by
  have hlength := h.payload_length
  intro turns
  induction turns with
  | zero =>
    intro offset integrity hle hturns
    have heq : offset = reader.entry.uncompressedSize := by omega
    rw [List.drop_of_length_le (by omega), PayloadIntegrity.update_nil, ← heq]
    rfl
  | succ turns ih =>
    intro offset integrity hle hturns
    unfold readChunks
    split
    · next hlt =>
      have hread := h.read_quiet host hle
        (by omega : min bufferBytes (reader.entry.uncompressedSize - offset) ≠ 0)
      have hdata : ((reader.payload.drop offset).take
          (min bufferBytes (reader.entry.uncompressedSize - offset))).length =
          min bufferBytes (reader.entry.uncompressedSize - offset) := by
        rw [List.length_take, List.length_drop]
        omega
      refine bind_eq_ok.mpr ⟨(), rfl, bind_eq_ok.mpr ⟨_, hread, bind_eq_ok.mpr ⟨(), ?_, ?_⟩⟩⟩
      · rw [demand_eq_ok, hdata, Bool.and_eq_true, bne_iff_ne, decide_eq_true_eq]
        omega
      · rw [hdata, ih (by omega) (by omega), ← PayloadIntegrity.update_append,
          ← List.drop_drop, List.take_append_drop]
    · next hge =>
      have heq : offset = reader.entry.uncompressedSize := by omega
      rw [List.drop_of_length_le (by omega), PayloadIntegrity.update_nil, ← heq]

end Stored

end PayloadReader

/-! ## Agreement -/

/-- The refusals that only the way through memory has. -/
def OverBudget (message : String) : Prop :=
  message ∈ [payloadOverBudget, capacityOverBudget, retainedOverBudget]

/-- A file in memory and a file to be read in chunks. -/
structure SameFile (host : Host) (file : PayloadFile) (streamed : StreamingPayloadFile) :
    Prop where
  relativePath : streamed.relativePath = file.relativePath
  sizeBytes : streamed.sizeBytes = file.bytes.length
  sha256 : streamed.sha256 = file.sha256
  crc32 : streamed.crc32 = payloadCrc32 file.bytes
  bytes : streamed.reader.Delivers host file.bytes

/-- The same payload: the same files in the same order. -/
structure SamePayload (host : Host) (payload : StoredArchivePayload)
    (streamed : StreamingStoredArchivePayload) : Prop where
  origin : streamed.origin = payload.origin
  uncompressedBytes : streamed.uncompressedBytes = payload.uncompressedBytes
  files : List.Forall₂ (SameFile host) payload.files streamed.files

/-- The variables of the two loops. -/
structure SameSoFar (host : Host) (m : Materialized) (s : Streamed) : Prop where
  paths : s.paths = m.paths
  files : List.Forall₂ (SameFile host) m.files s.files
  uncompressedBytes : s.uncompressedBytes = m.uncompressedBytes

theorem demand_agree {excused : String → Prop} (holds : Bool) (message message' : String) :
    Agree excused (fun _ _ => holds = true) (demand holds message) (demand holds message') := by
  cases holds
  · exact .failed _ _
  · exact .ok rfl

theorem overBudget_of_demand {holds : Bool} {message e : String} (h : OverBudget message)
    (he : demand holds message = .error e) : OverBudget e := by
  cases holds
  · cases he
    exact h
  · cases he

/-- An entry that lies within a file of a size that an inspection accepts. -/
structure Entry.Within (entry : Entry) (source : StableFile) : Prop where
  bound : source.content.length ≤ maxArchiveBytes
  range : entry.dataOffset + entry.compressedSize ≤ source.content.length

theorem streamFile_agree {entry : Entry} {m : Materialized} {s : Streamed} (capacity : Nat → Nat)
    (host : Host) (allowDeflate : Bool) (index : Nat) (path : Bytes)
    (hmethod : entry.compressionMethod = 0) (hwithin : entry.Within source)
    (hsame : SameSoFar host m s) :
    Agree OverBudget (SameSoFar host) (materializeFile capacity source entry path m)
      (streamFile host.quiet source streamingPayloadBufferBytes allowDeflate index entry path
        s) := by
  obtain ⟨hbound, hrange⟩ := hwithin
  unfold materializeFile streamFile
  have hcheck : checkMethod allowDeflate entry = demand
      (entry.compressionMethod == 0 && entry.compressedSize == entry.uncompressedSize)
      "stored ZIP entry sizes do not match" := by
    unfold checkMethod
    rw [hmethod]
    cases hsize : entry.compressedSize == entry.uncompressedSize
    · simp [bne, hsize, demand]
      rfl
    · simp [bne, hsize, demand]
      rfl
  rw [hcheck, hsame.paths]
  refine (demand_agree _ _ _).bind fun _ _ _ hsize => Agree.same fun _ _ => ?_
  rw [Bool.and_eq_true, beq_iff_eq, beq_iff_eq] at hsize
  have hstored : PayloadReader.Stored ⟨source, entry, index⟩ := ⟨hmethod, hsize.2 ▸ hrange⟩
  have hread : source.read entry.dataOffset entry.compressedSize =
      .ok (PayloadReader.payload ⟨source, entry, index⟩) :=
    read_eq_ok.mpr ⟨hrange, by rw [hsize.2]; rfl⟩
  have haddressable : entry.compressedSize ≤ 2 ^ 64 - 1 := by
    unfold maxArchiveBytes at hbound
    omega
  -- In memory: the read succeeds, and what is left are the budgets and the checksum.
  refine Agree.left (a := ()) (demand_eq_ok.mpr (decide_eq_true haddressable)) ?_
  refine Agree.left hread ?_
  refine Agree.skip (fun _ => overBudget_of_demand (by simp [OverBudget])) fun _ _ => ?_
  -- In chunks: the loop ends behind the last byte with the sums of the whole payload.
  refine Agree.right (hstored.readChunks_quiet host (by decide) (Nat.zero_le _) (by simp)) ?_
  have hprobe := hstored.read_quiet host (Nat.le_refl _) Nat.one_ne_zero
  rw [List.drop_of_length_le (Nat.le_of_eq hstored.payload_length), List.take_nil] at hprobe
  refine Agree.right hprobe (Agree.right rfl (Agree.right rfl ?_))
  rw [List.drop_zero, PayloadIntegrity.finishCrc32_update, PayloadIntegrity.finishSha256_update]
  refine (demand_agree _ _ _).bind fun _ _ _ hcrc => ?_
  refine Agree.skip (fun _ => overBudget_of_demand (by simp [OverBudget])) fun _ _ => ?_
  exact .ok
    { paths := rfl,
      files := List.rel_append hsame.files (.cons
        { relativePath := rfl, sizeBytes := hstored.payload_length.symm, sha256 := rfl,
          crc32 := (beq_iff_eq.mp hcrc).symm, bytes := hstored.delivers host } .nil),
      uncompressedBytes := by rw [hsame.uncompressedBytes] }

theorem streamEntries_agree {source : StableFile} (capacity : Nat → Nat) (host : Host)
    (allowDeflate : Bool) (leading : Bytes) : ∀ {entries : List Entry} {m : Materialized}
    {s : Streamed} (index : Nat), (∀ e ∈ entries, e.compressionMethod = 0 ∧ e.Within source) →
    SameSoFar host m s →
    Agree OverBudget (SameSoFar host) (materializeEntries capacity source leading entries m)
      (streamEntries host.quiet source streamingPayloadBufferBytes allowDeflate leading index
        entries s)
  | [], _, _, _, _, hsame => .ok hsame
  | entry :: rest, m, s, index, hentries, hsame => by
    obtain ⟨⟨hmethod, hwithin⟩, hrest⟩ := List.forall_mem_cons.mp hentries
    unfold materializeEntries streamEntries
    refine Agree.right (quiet_check host _) (Agree.same fun path _ => ?_)
    split
    · exact streamEntries_agree capacity host allowDeflate leading (index + 1) hrest hsame
    · exact (streamFile_agree capacity host allowDeflate index path hmethod hwithin hsame).bind
        fun _ _ _ hsame =>
          streamEntries_agree capacity host allowDeflate leading (index + 1) hrest hsame

/-! ## The archive -/

theorem inspectSource_bounded {A : Arith} {host : Host} {budgets : Budgets}
    (h : inspectSource A host source budgets = .ok inspection) :
    inspection.identity = source.identity ∧ source.identity.sizeBytes ≤ maxArchiveBytes := by
  simp only [inspectSource, bind_eq_ok, demand_eq_ok, Bool.and_eq_true, decide_eq_true_eq] at h
  obtain ⟨_, ⟨-, hbound⟩, _, -, _, -, _, -, _, -, _, -, _, -, _, -, _, -, _, -, _, -, h⟩ := h
  cases h
  exact ⟨rfl, hbound⟩

/-- A range of a tiling that is not empty ends where the tiling ends, or before. -/
theorem Layout.Describes.dataEnd_le {layout : Layout} {file : Bytes}
    (h : layout.Describes file inspection) :
    ∀ e ∈ inspection.entries, e.dataOffset + e.compressedSize ≤ file.length := by
  intro e he
  obtain ⟨entries, hperm, hall⟩ := h.entries
  obtain ⟨hlt, hend⟩ := range_of_mem hall e (hperm.mem_iff.mpr he)
  have hlast := ((h.tiles.covers (e.dataEnd - 1)).mpr ⟨e, he, by omega, by omega⟩).2
  have hstop := h.stop
  have hcentral : layout.centralOffset ≤ layout.endOffset := by
    have hsum : layout.centralEnd = layout.centralOffset + layout.centralSize := rfl
    cases hzip : layout.zip64
    · have := h.classic hzip
      omega
    · have := (h.extended hzip).stop
      omega
  omega

/-- The entries of an accepted archive lie within every file of its size. -/
theorem inspectZip_within {host : Host} {request : Bytes}
    (h : inspectZip .wrapping host request = .ok inspection)
    (hsource : source.identity.sizeBytes = inspection.identity.sizeBytes) :
    ∀ e ∈ inspection.entries, e.Within source := by
  rw [inspectZip_exact] at h
  simp only [inspectZip, bind_eq_ok] at h
  obtain ⟨parsed, -, original, -, h⟩ := h
  obtain ⟨layout, -, hlayout, -⟩ := inspectSource_layout h
  obtain ⟨hidentity, hbound⟩ := inspectSource_bounded h
  have hlength : source.content.length = original.content.length := by
    rw [← source.sized, ← original.sized, hsource, hidentity]
  intro e he
  refine ⟨?_, hlength ▸ hlayout.dataEnd_le e he⟩
  rw [hlength, ← original.sized]
  exact hbound

theorem reopenSource_size {host : Host} (h : reopenSource host inspection = .ok source) :
    source.identity.sizeBytes = inspection.identity.sizeBytes := by
  simp only [reopenSource, bind_eq_ok, demand_eq_ok, Bool.and_eq_true, beq_iff_eq] at h
  obtain ⟨reopened, -, _, ⟨⟨-, hsize⟩, -⟩, _, -, _, -, h⟩ := h
  cases h
  exact hsize

/-- The two ways, left alone. -/
theorem inspectStreamingPayload_agree (capacity : Nat → Nat) (host : Host)
    (request stripPrefix : Bytes) (allowDeflate : Bool)
    (h : inspectZip .wrapping host.quiet request = .ok inspection)
    (hstored : ∀ e ∈ inspection.entries, e.compressionMethod = 0) :
    Agree OverBudget (SamePayload host)
      (inspectStoredPayload .wrapping capacity host.quiet request stripPrefix)
      (inspectStreamingPayload .wrapping host.quiet request stripPrefix streamingPayloadBufferBytes
        allowDeflate) := by
  unfold inspectStoredPayload inspectStreamingPayload
  refine Agree.right (b := ()) rfl (Agree.left h (Agree.right h ?_))
  refine Agree.skip (fun _ => overBudget_of_demand (by simp [OverBudget])) fun _ _ => ?_
  refine Agree.same fun leading _ => Agree.same fun source hsource => ?_
  have hentries : ∀ e ∈ inspection.entries, e.compressionMethod = 0 ∧ e.Within source :=
    fun e he => ⟨hstored e he, inspectZip_within h (reopenSource_size hsource) e he⟩
  refine (streamEntries_agree capacity host allowDeflate leading 0 hentries
    ⟨rfl, .nil, rfl⟩).bind fun m s _ hsame => ?_
  have hempty : s.files.isEmpty = m.files.isEmpty := by
    rw [Bool.eq_iff_iff, List.isEmpty_iff_length_eq_zero, List.isEmpty_iff_length_eq_zero,
      hsame.files.length_eq]
  rw [hempty]
  refine Agree.same fun _ _ => Agree.same fun _ _ => ?_
  exact .ok
    { origin := rfl, uncompressedBytes := hsame.uncompressedBytes, files := hsame.files }

/-! ## A small archive -/

theorem sampleArchive_stored : ∃ inspection,
    inspectZip .wrapping sampleHost sampleRequest = .ok inspection ∧
    ∀ e ∈ inspection.entries, e.compressionMethod = 0 := by
  have hany : (inspectZip .wrapping sampleHost sampleRequest).toOption.any
      (fun i => i.entries.all fun e => e.compressionMethod == 0) = true := by decide +kernel
  obtain ⟨inspection, h, hall⟩ := Json.exists_of_any hany
  refine ⟨inspection, h, fun e he => ?_⟩
  exact beq_iff_eq.mp (List.all_eq_true.mp hall e he)

/-- The chunked way has one buffer size. With another it refuses what is accepted in memory. -/
theorem other_buffer_refused : ∃ inspection,
    inspectZip .wrapping sampleHost sampleRequest = .ok inspection ∧
    (∀ e ∈ inspection.entries, e.compressionMethod = 0) ∧
    (∃ payload, inspectStoredPayload .wrapping id sampleHost sampleRequest (ascii "d") =
      .ok payload) ∧
    inspectStreamingPayload .wrapping sampleHost sampleRequest (ascii "d") 1 false =
      .error "ZIP streaming buffer budget is invalid" := by
  obtain ⟨inspection, h, hstored⟩ := sampleArchive_stored
  exact ⟨inspection, h, hstored, exists_of_isOk (by decide +kernel), rfl⟩

/-! ## The result -/

/--
On an accepted archive of stored entries the two ways accept alike, apart from the budgets of the
way through memory, and deliver the same payload in chunks of any sizes. An interruption may end
either of them and changes nothing else. The chunked way refuses every buffer size but its own, and
its checksums are those of the whole payload, however it is cut up.
-/
theorem streaming_matches_materializing (capacity : Nat → Nat) (host : Host)
    (request stripPrefix : Bytes) (allowDeflate : Bool) (inspection : Inspection)
    (haccepted : inspectZip .wrapping host request = .ok inspection)
    (hstored : ∀ e ∈ inspection.entries, e.compressionMethod = 0) :
    Agree OverBudget (SamePayload host)
      (inspectStoredPayload .wrapping capacity host.quiet request stripPrefix)
      (inspectStreamingPayload .wrapping host.quiet request stripPrefix streamingPayloadBufferBytes
        allowDeflate) ∧
    (∀ interrupt, Follows (host.interrupted interrupt).Stops
      (inspectStoredPayload .wrapping capacity (host.interrupted interrupt) request stripPrefix)
      (inspectStoredPayload .wrapping capacity host.quiet request stripPrefix)) ∧
    (∀ interrupt, Follows (host.interrupted interrupt).Stops
      (inspectStreamingPayload .wrapping (host.interrupted interrupt) request stripPrefix
        streamingPayloadBufferBytes allowDeflate)
      (inspectStreamingPayload .wrapping host.quiet request stripPrefix streamingPayloadBufferBytes
        allowDeflate)) ∧
    (∀ interrupt bufferBytes, bufferBytes ≠ streamingPayloadBufferBytes →
      inspectStreamingPayload .wrapping (host.interrupted interrupt) request stripPrefix bufferBytes
        allowDeflate = .error "ZIP streaming buffer budget is invalid") ∧
    ∀ chunks : List Bytes, (chunks.foldl PayloadIntegrity.update {}).finishCrc32 =
      payloadCrc32 chunks.flatten := by
  have hquiet := (inspectZip_follows host .wrapping request).eq_of_ok haccepted
  refine ⟨inspectStreamingPayload_agree capacity host request stripPrefix allowDeflate hquiet
    hstored, fun interrupt => ?_, fun interrupt => ?_, fun interrupt bufferBytes hbuffer => ?_,
    fun chunks => ?_⟩
  · exact inspectStoredPayload_follows (host.interrupted interrupt) .wrapping capacity request
      stripPrefix
  · exact inspectStreamingPayload_follows (host.interrupted interrupt) .wrapping request stripPrefix
      streamingPayloadBufferBytes allowDeflate
  · unfold inspectStreamingPayload
    rw [beq_false_of_ne hbuffer]
    rfl
  · rw [PayloadIntegrity.foldl_update, PayloadIntegrity.finishCrc32_update]

/-- The stored and the streaming reader deliver one payload for the small archive. -/
theorem sampleArchive_streamed : ∃ payload streamed,
    inspectStoredPayload .wrapping id sampleHost sampleRequest (ascii "d") = .ok payload ∧
    inspectStreamingPayload .wrapping sampleHost sampleRequest (ascii "d")
      streamingPayloadBufferBytes false = .ok streamed ∧
    SamePayload sampleHost payload streamed := by
  obtain ⟨inspection, h, hstored⟩ := sampleArchive_stored
  obtain ⟨payload, hpayload⟩ := exists_of_isOk
    (by decide +kernel : (inspectStoredPayload .wrapping id sampleHost sampleRequest
      (ascii "d")).isOk = true)
  obtain ⟨streamed, hstreamed⟩ := exists_of_isOk
    (by decide +kernel : (inspectStreamingPayload .wrapping sampleHost sampleRequest (ascii "d")
      streamingPayloadBufferBytes false).isOk = true)
  refine ⟨payload, streamed, hpayload, hstreamed, ?_⟩
  refine @Agree.of_ok _ _ _ OverBudget _ _ _ _ _ hpayload hstreamed ?_
  exact (streaming_matches_materializing id sampleHost sampleRequest (ascii "d") false inspection h
    hstored).left

end Usk.Archive

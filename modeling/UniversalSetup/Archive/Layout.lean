import UniversalSetup.Archive.Exact
import UniversalSetup.Base.Tiling

/-!
# The layout of an accepted archive

An archive that the inspection accepts is one sequence of pieces without a gap: the local entries,
the central directory, the ZIP64 records if there are any, and the end record with its comment.
Every local header repeats its central record. `Layout.Describes` is that statement about the bytes
of the file; it does not mention the checks of the inspection.
-/

namespace Usk.Archive

open Json (Result demand demand_eq_ok bind_eq_ok)
open Arith (checked)

variable {found : EndRecord × Nat} {eocdOffset n size position centralOffset offset : Nat}
  {entry : Entry} {budgets : Budgets} {entries : List Entry} {source : StableFile}
  {record : CentralRecord}

/-! ## Pieces of a file -/

/-- What a local header says about its entry. -/
structure LocalHeader where
  flags : Nat
  method : Nat
  crc32 : Nat
  compressed : Nat
  uncompressed : Nat
  name : Bytes
  extraSize : Nat

/-- The local header at an offset of a file. -/
structure LocalHeaderAt (file : Bytes) (offset : Nat) (header : LocalHeader) : Prop where
  signature : little32 file offset = .ok 0x04034b50
  flags : little16 file (offset + 6) = .ok header.flags
  method : little16 file (offset + 8) = .ok header.method
  crc32 : little32 file (offset + 14) = .ok header.crc32
  nameSize : little16 file (offset + 26) = .ok header.name.length
  extraSize : little16 file (offset + 28) = .ok header.extraSize
  name : (file.drop (offset + 30)).take header.name.length = header.name
  sizes : localSizes ((file.drop offset).take 30)
    ((file.drop (offset + 30)).take (header.name.length + header.extraSize)) header.name.length
    header.extraSize = .ok (header.compressed, header.uncompressed)

/-- A local header repeats its central record. -/
structure LocalHeader.Agrees (header : LocalHeader) (record : CentralRecord) : Prop where
  name : header.name = record.name
  method : header.method = record.method
  flags : header.flags = record.flags
  crc32 : header.crc32 = record.crc32
  compressed : header.compressed = record.compressed
  uncompressed : header.uncompressed = record.uncompressed

/-- The entry of a central record: its range is the local header followed by the payload. -/
structure EntryOf (file : Bytes) (record : CentralRecord) (entry : Entry) : Prop where
  header : ∃ header, LocalHeaderAt file record.localOffset header ∧ header.Agrees record ∧
    entry.dataOffset = record.localOffset + 30 + header.name.length + header.extraSize
  compressedSize : entry.compressedSize = record.compressed
  uncompressedSize : entry.uncompressedSize = record.uncompressed
  compressionMethod : entry.compressionMethod = record.method
  crc32 : entry.crc32 = record.crc32
  localHeaderOffset : entry.localHeaderOffset = record.localOffset
  dataEnd : entry.dataEnd = entry.dataOffset + record.compressed

/-- The records between two positions of the central directory. -/
inductive RecordsFrom (central : Bytes) : Nat → List CentralRecord → Nat → Prop
  | nil (position : Nat) : RecordsFrom central position [] position
  | cons {position stop : Nat} {record : CentralRecord} {rest : List CentralRecord} :
      centralRecord central position = .ok record →
      RecordsFrom central (position + record.recordSize) rest stop →
      RecordsFrom central position (record :: rest) stop

/-- Where the pieces of an archive lie. -/
structure Layout where
  centralOffset : Nat
  centralSize : Nat
  records : List CentralRecord
  zip64 : Bool
  endOffset : Nat
  commentSize : Nat

namespace Layout

def centralEnd (layout : Layout) : Nat :=
  layout.centralOffset + layout.centralSize

/-- The bytes of the central directory. -/
def central (layout : Layout) (file : Bytes) : Bytes :=
  (file.drop layout.centralOffset).take layout.centralSize

/-- The ZIP64 end record and its locator, between the central directory and the end record. -/
structure Zip64At (layout : Layout) (file : Bytes) : Prop where
  signature : little32 file layout.centralEnd = .ok 0x06064b50
  recordSize : little64 file (layout.centralEnd + 4) = .ok 44
  locator : little32 file (layout.centralEnd + 56) = .ok 0x07064b50
  offset : little64 file (layout.centralEnd + 56 + 8) = .ok layout.centralEnd
  stop : layout.centralEnd + 56 + 20 = layout.endOffset

/-- An archive is laid out like this, from its first to its last byte. -/
structure Describes (layout : Layout) (file : Bytes) (inspection : Inspection) : Prop where
  tiles : Tiles Entry.localHeaderOffset Entry.dataEnd inspection.entries 0 layout.centralOffset
  entries : ∃ entries : List Entry, entries.Perm inspection.entries ∧
    List.Forall₂ (EntryOf file) layout.records entries
  directory : RecordsFrom (layout.central file) 0 layout.records layout.centralSize
  printable : ∀ record ∈ layout.records, ∀ c ∈ record.name, 0x20 ≤ c ∧ c < 0x7f
  classic : layout.zip64 = false → layout.centralEnd = layout.endOffset
  extended : layout.zip64 = true → layout.Zip64At file
  endRecord : little32 file layout.endOffset = .ok 0x06054b50
  comment : little16 file (layout.endOffset + 20) = .ok layout.commentSize
  stop : layout.endOffset + 22 + layout.commentSize = file.length

end Layout

/-! ## Reading a slice -/

/-- What a slice starts with at a position, the file goes on with there. -/
theorem drop_of_slice {file start rest : Bytes} {offset size position : Nat}
    (h : ((file.drop offset).take size).drop position = start ++ rest) :
    ∃ tail, file.drop (offset + position) = start ++ tail := by
  rw [List.drop_take, List.drop_drop] at h
  refine ⟨rest ++ (file.drop (offset + position)).drop (size - position), ?_⟩
  rw [← List.append_assoc, ← h, List.take_append_drop]

theorem little16_eq_ok {data : Bytes} : little16 data offset = .ok n ↔
    ∃ a b rest, data.drop offset = a :: b :: rest ∧ a.toNat + b.toNat * 2 ^ 8 = n := by
  unfold little16
  split
  · next a b rest hd =>
    constructor
    · intro h
      exact ⟨a, b, rest, hd, Except.ok.inj h⟩
    · rintro ⟨a', b', rest', hd', rfl⟩
      cases hd.symm.trans hd'
      rfl
  · next hno =>
    constructor
    · intro h
      cases h
    · rintro ⟨a, b, rest, hd, -⟩
      exact absurd hd (hno a b rest)

theorem little32_eq_ok {data : Bytes} : little32 data offset = .ok n ↔
    ∃ a b c d rest, data.drop offset = a :: b :: c :: d :: rest ∧
      a.toNat + b.toNat * 2 ^ 8 + c.toNat * 2 ^ 16 + d.toNat * 2 ^ 24 = n := by
  unfold little32
  split
  · next a b c d rest hd =>
    constructor
    · intro h
      exact ⟨a, b, c, d, rest, hd, Except.ok.inj h⟩
    · rintro ⟨a', b', c', d', rest', hd', rfl⟩
      cases hd.symm.trans hd'
      rfl
  · next hno =>
    constructor
    · intro h
      cases h
    · rintro ⟨a, b, c, d, rest, hd, -⟩
      exact absurd hd (hno a b c d rest)

theorem little16_slice {file : Bytes}
    (h : little16 ((file.drop offset).take size) position = .ok n) :
    little16 file (offset + position) = .ok n := by
  obtain ⟨a, b, rest, hd, hn⟩ := little16_eq_ok.mp h
  obtain ⟨tail, htail⟩ := @drop_of_slice file [a, b] rest _ _ _ hd
  exact little16_eq_ok.mpr ⟨a, b, tail, htail, hn⟩

theorem little32_slice {file : Bytes}
    (h : little32 ((file.drop offset).take size) position = .ok n) :
    little32 file (offset + position) = .ok n := by
  obtain ⟨a, b, c, d, rest, hd, hn⟩ := little32_eq_ok.mp h
  obtain ⟨tail, htail⟩ := @drop_of_slice file [a, b, c, d] rest _ _ _ hd
  exact little32_eq_ok.mpr ⟨a, b, c, d, tail, htail, hn⟩

theorem little64_slice {file : Bytes}
    (h : little64 ((file.drop offset).take size) position = .ok n) :
    little64 file (offset + position) = .ok n := by
  simp only [little64, bind_eq_ok] at h ⊢
  obtain ⟨low, hlow, high, hhigh, h⟩ := h
  rw [Nat.add_assoc]
  exact ⟨low, little32_slice hlow, high, little32_slice hhigh, h⟩

/-! ## The end of the file -/

theorem findEndRecord_spec {tail : Bytes} : ∀ {n eocd : Nat},
    findEndRecord tail n = .ok (some eocd) → little32 tail eocd = .ok 0x06054b50 ∧
      ∃ commentSize, little16 tail (eocd + 20) = .ok commentSize ∧
        eocd + 22 + commentSize = tail.length
  | 0, _, h => by cases h
  | n + 1, eocd, h => by
    simp only [findEndRecord, bind_eq_ok] at h
    obtain ⟨signature, hsignature, h⟩ := h
    split at h
    · next hmatch =>
      rw [bind_eq_ok] at h
      obtain ⟨commentSize, hcomment, h⟩ := h
      split at h
      · next hend =>
        cases h
        exact ⟨hmatch ▸ hsignature, commentSize, hcomment, hend⟩
      · exact findEndRecord_spec h
    · exact findEndRecord_spec h

/-- The end record and its comment reach to the last byte. -/
theorem locateEndRecord_spec (h : locateEndRecord checked source = .ok found) :
    little32 source.content found.2 = .ok 0x06054b50 ∧
      ∃ commentSize, little16 source.content (found.2 + 20) = .ok commentSize ∧
        found.2 + 22 + commentSize = source.content.length := by
  simp only [locateEndRecord, bind_eq_ok] at h
  obtain ⟨tailOffset, htail, tail, hread, position, hfound, h⟩ := h
  cases position with
  | none => cases h
  | some eocd =>
    simp only [bind_eq_ok] at h
    obtain ⟨classic, -, eocdOffset, hadd, h⟩ := h
    cases h
    obtain ⟨-, rfl⟩ := Arith.checked_add.mp hadd
    obtain ⟨hle, htail⟩ := Arith.checked_sub.mp htail
    obtain ⟨hrange, rfl⟩ := read_eq_ok.mp hread
    obtain ⟨hsignature, commentSize, hcomment, hend⟩ := findEndRecord_spec hfound
    refine ⟨little32_slice hsignature, commentSize, ?_, ?_⟩
    · have := little16_slice hcomment
      rwa [← Nat.add_assoc] at this
    · rw [source.sized] at htail hle hrange hend
      rw [List.length_take, List.length_drop] at hend
      dsimp only
      omega

/-- A locator stands right before the end record. -/
theorem readLocator_spec {locator : Bytes}
    (h : readLocator checked source eocdOffset = .ok (some locator)) :
    20 ≤ eocdOffset ∧ locator = (source.content.drop (eocdOffset - 20)).take 20 ∧
      little32 locator 0 = .ok 0x07064b50 := by
  unfold readLocator at h
  split at h
  · next h20 =>
    simp only [bind_eq_ok, Arith.checked_sub] at h
    obtain ⟨_, ⟨-, rfl⟩, data, hread, signature, hsignature, h⟩ := h
    split at h
    · next hmatch =>
      cases h
      obtain ⟨-, rfl⟩ := read_eq_ok.mp hread
      exact ⟨h20, rfl, hmatch ▸ hsignature⟩
    · cases h
  · cases h

/-- The ZIP64 end record fills the space up to its locator, which points to it. -/
theorem zip64EndRecord_spec {source : StableFile} {eocdOffset : Nat} {classic : EndRecord}
    {found : EndRecord × Nat} (h20 : 20 ≤ eocdOffset)
    (h : zip64EndRecord checked source eocdOffset
      ((source.content.drop (eocdOffset - 20)).take 20) classic = .ok found) :
    little32 source.content found.2 = .ok 0x06064b50 ∧
      little64 source.content (found.2 + 4) = .ok 44 ∧
      little64 source.content (eocdOffset - 20 + 8) = .ok found.2 ∧
      found.2 + 56 + 20 = eocdOffset := by
  simp only [zip64EndRecord, bind_eq_ok, Arith.checked_sub, Arith.checked_add, demand_eq_ok,
    Bool.and_eq_true, beq_iff_eq] at h
  obtain ⟨_, -, _, -, _, -, zip64Offset, hoffset, _, ⟨-, rfl⟩, _, -, room, -, _, -, zip64, hread,
    recordSize, hsize, signature, hsignature, _, ⟨rfl, rfl⟩, _, ⟨-, rfl⟩, _, ⟨-, rfl⟩, _, hend, _,
      -,
    _, -, _, -, _, -, _, -, _, -, _, -, _, -, _, -, h⟩ := h
  cases h
  obtain ⟨-, rfl⟩ := read_eq_ok.mp hread
  have hsignature := little32_slice hsignature
  rw [Nat.add_zero] at hsignature
  refine ⟨hsignature, little64_slice hsize, little64_slice hoffset, ?_⟩
  dsimp only
  omega

/-- Where the central directory has to end: at the end record, or at a ZIP64 end record. -/
theorem effectiveEndRecord_spec {classic : EndRecord}
    (h : effectiveEndRecord checked source eocdOffset classic = .ok found) :
    found.2 = eocdOffset ∨
      (little32 source.content found.2 = .ok 0x06064b50 ∧
        little64 source.content (found.2 + 4) = .ok 44 ∧
        little32 source.content (found.2 + 56) = .ok 0x07064b50 ∧
        little64 source.content (found.2 + 56 + 8) = .ok found.2 ∧
        found.2 + 56 + 20 = eocdOffset) := by
  simp only [effectiveEndRecord, bind_eq_ok] at h
  obtain ⟨locator, hlocator, h⟩ := h
  cases locator with
  | none =>
    dsimp only at h
    split at h
    · cases h
    · cases h
      exact Or.inl rfl
  | some locator =>
    obtain ⟨h20, rfl, hsignature⟩ := readLocator_spec hlocator
    obtain ⟨h1, h2, h3, hstop⟩ := zip64EndRecord_spec h20 h
    have hsignature := little32_slice hsignature
    have heq : eocdOffset - 20 = found.2 + 56 := by omega
    rw [heq] at h3 hsignature
    exact Or.inr ⟨h1, h2, hsignature, h3, hstop⟩

/-! ## Entries -/

/-- The fixed part of a local header, in the file. -/
theorem checkLocalHeader_spec {file : Bytes} {u : Unit}
    (h : checkLocalHeader ((file.drop offset).take 30) record = .ok u) :
    little32 file offset = .ok 0x04034b50 ∧ little16 file (offset + 6) = .ok record.flags ∧
      little16 file (offset + 8) = .ok record.method ∧
      little32 file (offset + 14) = .ok record.crc32 ∧
      little16 file (offset + 26) = .ok record.name.length := by
  simp only [checkLocalHeader, bind_eq_ok, demand_eq_ok, Bool.and_eq_true, beq_iff_eq] at h
  obtain ⟨_, h1, _, h2, _, h3, _, h4, _, h5, ⟨⟨⟨rfl, rfl⟩, rfl⟩, rfl⟩, rfl⟩ := h
  exact ⟨little32_slice h1, little16_slice h2, little16_slice h3, little32_slice h4,
    little16_slice h5⟩

/-- An accepted entry has the header that its central record asks for. -/
theorem localEntry_spec {normalized : Bytes}
    (h : localEntry checked source centralOffset record normalized = .ok entry) :
    EntryOf source.content record entry := by
  simp only [localEntry, bind_eq_ok, Arith.checked_sub, Arith.checked_add, demand_eq_ok,
    Bool.and_eq_true, beq_iff_eq] at h
  obtain ⟨_, -, _, -, _, -, localHeader, hread, _, hcheck, extraSize, hextra, _, ⟨-, rfl⟩, _, -, _,
    -, _, ⟨-, rfl⟩, body, hbody, _, hname, sizes, hsizes, _, ⟨hcomp, huncomp⟩, _,
    ⟨-, rfl⟩, _, ⟨-, rfl⟩, _, -, _, -, _, -, _, ⟨-, rfl⟩, h⟩ := h
  cases h
  obtain ⟨-, rfl⟩ := read_eq_ok.mp hread
  obtain ⟨-, rfl⟩ := read_eq_ok.mp hbody
  obtain ⟨h1, h2, h3, h4, h5⟩ := checkLocalHeader_spec hcheck
  rw [List.take_take, Nat.min_eq_left (Nat.le_add_right _ _)] at hname
  refine ⟨⟨⟨record.flags, record.method, record.crc32, sizes.1, sizes.2, record.name, extraSize⟩,
    ⟨h1, h2, h3, h4, h5, little16_slice hextra, hname, hsizes⟩,
    ⟨rfl, rfl, rfl, rfl, hcomp, huncomp⟩, ?_⟩, rfl, rfl, rfl, rfl, rfl, rfl⟩
  dsimp only
  omega

theorem printable_of_checkKind {normalized : Bytes}
    (h : checkKind budgets record = .ok normalized) : ∀ c ∈ record.name, 0x20 ≤ c ∧ c < 0x7f := by
  simp only [checkKind, normalizePath, bind_eq_ok, demand_eq_ok, List.all_eq_true, Bool.and_eq_true,
    decide_eq_true_eq] at h
  obtain ⟨-, -, -, -, _, ⟨-, -, -, hprintable, -⟩, -⟩ := h
  exact hprintable

theorem scanEntry_spec {central : Bytes} {s s' : Scan}
    (h : scanEntry checked source budgets central centralOffset s = .ok s') :
    ∃ record entry, centralRecord central s.position = .ok record ∧
      (∀ c ∈ record.name, 0x20 ≤ c ∧ c < 0x7f) ∧ EntryOf source.content record entry ∧
      s'.entries = s.entries ++ [entry] ∧ s'.position = s.position + record.recordSize := by
  simp only [scanEntry, bind_eq_ok] at h
  obtain ⟨record, hrecord, normalized, hkind, counted, -, paths, -, entry, hentry, h⟩ := h
  cases h
  exact ⟨record, entry, hrecord, printable_of_checkKind hkind, localEntry_spec hentry, rfl, rfl⟩

/-- The loop reads the records one after the other. -/
theorem scanEntries_spec {host : Host} {source : StableFile} {budgets : Budgets}
    {central : Bytes} {centralOffset : Nat} : ∀ {n : Nat} {s s' : Scan},
    scanEntries checked host source budgets central centralOffset n s = .ok s' →
    ∃ records entries, RecordsFrom central s.position records s'.position ∧
      (∀ record ∈ records, ∀ c ∈ record.name, 0x20 ≤ c ∧ c < 0x7f) ∧
      List.Forall₂ (EntryOf source.content) records entries ∧ s'.entries = s.entries ++ entries
  | 0, s, s', h => by
    cases h
    exact ⟨[], [], .nil _, List.forall_mem_nil _, .nil, (List.append_nil _).symm⟩
  | n + 1, s, s', h => by
    simp only [scanEntries, bind_eq_ok] at h
    obtain ⟨_, -, next, hnext, h⟩ := h
    obtain ⟨record, entry, hrecord, hname, hentry, hentries, hposition⟩ := scanEntry_spec hnext
    obtain ⟨records, entries, hrecords, hnames, hall, hrest⟩ := scanEntries_spec h
    refine ⟨record :: records, entry :: entries, ?_, List.forall_mem_cons.mpr ⟨hname, hnames⟩,
      .cons hentry hall, ?_⟩
    · rw [hposition] at hrecords
      exact .cons hrecord hrecords
    · rw [hrest, hentries, List.append_assoc]
      rfl

/-! ## Ranges -/

theorem isChain_of_checkAdjacent : ∀ {entries : List Entry} {u : Unit},
    checkAdjacent entries = .ok u →
    entries.IsChain fun left right => left.dataEnd = right.localHeaderOffset
  | [], _, _ => .nil
  | [_], _, _ => .singleton _
  | left :: right :: rest, u, h => by
    simp only [checkAdjacent, bind_eq_ok, demand_eq_ok, beq_iff_eq] at h
    obtain ⟨_, hadjacent, h⟩ := h
    exact List.isChain_cons_cons.mpr ⟨hadjacent, isChain_of_checkAdjacent h⟩

theorem EntryOf.range {file : Bytes} (h : EntryOf file record entry) :
    entry.localHeaderOffset < entry.dataEnd ∧
      entry.dataEnd = entry.dataOffset + entry.compressedSize := by
  obtain ⟨header, -, -, hdata⟩ := h.header
  rw [h.localHeaderOffset, h.dataEnd, hdata, h.compressedSize]
  omega

theorem record_of_mem {file : Bytes} {records : List CentralRecord}
    (h : List.Forall₂ (EntryOf file) records entries) :
    ∀ e ∈ entries, ∃ record ∈ records, EntryOf file record e := by
  induction h with
  | nil => exact fun e he => absurd he List.not_mem_nil
  | cons hof _ ih =>
    refine List.forall_mem_cons.mpr ⟨⟨_, List.mem_cons_self, hof⟩, fun e he => ?_⟩
    obtain ⟨record, hrecord, hof'⟩ := ih e he
    exact ⟨record, List.mem_cons_of_mem _ hrecord, hof'⟩

theorem range_of_mem {file : Bytes} {records : List CentralRecord}
    (h : List.Forall₂ (EntryOf file) records entries) :
    ∀ e ∈ entries, e.localHeaderOffset < e.dataEnd ∧
      e.dataEnd = e.dataOffset + e.compressedSize := by
  intro e he
  obtain ⟨record, -, hof⟩ := record_of_mem h e he
  exact hof.range

/-- The ranges that pass the checks tile everything before the central directory. -/
theorem tiles_of_checkRanges {u : Unit} (hle : ∀ e ∈ entries, e.localHeaderOffset ≤ e.dataEnd)
    (h : checkRanges entries centralOffset = .ok u) :
    Tiles Entry.localHeaderOffset Entry.dataEnd entries 0 centralOffset := by
  simp only [checkRanges, bind_eq_ok, demand_eq_ok, Option.any_eq_true, beq_iff_eq] at h
  obtain ⟨_, ⟨first, hfirst, hzero⟩, _, hchain, last, hlast, hend⟩ := h
  have hperm := List.perm_insertionSort
    (fun left right : Entry => left.localHeaderOffset ≤ right.localHeaderOffset) entries
  refine (tiles_of_chain (isChain_of_checkAdjacent hchain)
    (fun e he => hle e (hperm.mem_iff.mp he)) ?_ ?_).perm hperm
  · rw [hfirst, Option.map_some, hzero]
  · rw [hlast, Option.map_some, hend]

/-- An accepted archive is laid out without gaps, before the end record that was found. -/
theorem inspectSource_layout {host : Host} {inspection : Inspection}
    (h : inspectSource checked host source budgets = .ok inspection) :
    ∃ (layout : Layout) (classic : EndRecord), layout.Describes source.content inspection ∧
      locateEndRecord checked source = .ok (classic, layout.endOffset) := by
  simp only [inspectSource, bind_eq_ok] at h
  obtain ⟨_, -, sha, -, classic, hclassic, effective, heffective, _, hbounds, central, hcentral, s,
    hscan, _, hposition, _, -, _, hranges, _, -, h⟩ := h
  cases h
  obtain ⟨hsignature, commentSize, hcomment, hend⟩ := locateEndRecord_spec hclassic
  have hstop := checkCentralDirectory_le hbounds
  obtain ⟨hrange, rfl⟩ := read_eq_ok.mp hcentral
  obtain ⟨records, entries, hrecords, hnames, hall, hentries⟩ := scanEntries_spec hscan
  rw [demand_eq_ok, beq_iff_eq, List.length_take, List.length_drop] at hposition
  have hposition : s.position = effective.1.centralSize := by omega
  rw [hposition] at hrecords
  rw [List.nil_append] at hentries
  have hle : ∀ e ∈ s.entries, e.localHeaderOffset ≤ e.dataEnd := by
    rw [hentries]
    exact fun e he => Nat.le_of_lt (range_of_mem hall e he).1
  have hperm := List.perm_insertionSort
    (fun left right : Entry => ¬right.normalizedPath < left.normalizedPath) s.entries
  have htiles := (tiles_of_checkRanges hle hranges).perm hperm.symm
  rcases effectiveEndRecord_spec heffective with heq | ⟨h1, h2, h3, h4, h5⟩
  · refine ⟨⟨effective.1.centralOffset, effective.1.centralSize, records, false, classic.2,
      commentSize⟩, classic.1, ⟨htiles, ⟨entries, ?_, hall⟩, hrecords, hnames,
      fun _ => hstop.trans heq, ?_, hsignature, hcomment, hend⟩, hclassic⟩
    · exact hentries ▸ hperm.symm
    · intro hfalse
      cases hfalse
  · refine ⟨⟨effective.1.centralOffset, effective.1.centralSize, records, true, classic.2,
      commentSize⟩, classic.1, ⟨htiles, ⟨entries, ?_, hall⟩, hrecords, hnames, ?_, fun _ => ?_,
      hsignature, hcomment, hend⟩, hclassic⟩
    · exact hentries ▸ hperm.symm
    · intro htrue
      cases htrue
    · rw [← hstop] at h1 h2 h3 h4 h5
      exact ⟨h1, h2, h3, h4, h5⟩

/--
An inspection never wraps around: it computes the same with machine arithmetic and with arithmetic
that stops where it would. And an archive that it accepts is tiled by its pieces from the first to
the last byte, with local headers that repeat the central directory.
-/
theorem accepted_archive_tiled (host : Host) (request : Bytes) :
    inspectZip .wrapping host request = inspectZip .checked host request ∧
    ∀ inspection, inspectZip .wrapping host request = .ok inspection →
      ∃ (parsed : ArchiveRequest) (source : StableFile) (layout : Layout),
        parseArchiveRequest request = .ok parsed ∧ host.openFile parsed.archivePath = .ok source ∧
        layout.Describes source.content inspection := by
  have hexact := inspectZip_exact host request
  refine ⟨hexact, fun inspection h => ?_⟩
  rw [hexact] at h
  simp only [inspectZip, bind_eq_ok] at h
  obtain ⟨parsed, hparsed, source, hsource, h⟩ := h
  obtain ⟨layout, -, hlayout, -⟩ := inspectSource_layout h
  exact ⟨parsed, source, layout, hparsed, hsource, hlayout⟩

/-! ## A small archive -/

/-- Little-endian bytes of a number. -/
def littleBytes : Nat → Nat → Bytes
  | 0, _ => []
  | width + 1, n => UInt8.ofNat (n % 256) :: littleBytes width (n / 256)

/-- The part that a local header and a central record have in common, from the flags on. -/
def sampleFields (crc32 size nameSize : Nat) : Bytes :=
  littleBytes 2 0 ++ littleBytes 2 0 ++ littleBytes 4 0 ++ littleBytes 4 crc32 ++
    littleBytes 4 size ++ littleBytes 4 size ++ littleBytes 2 nameSize ++ littleBytes 2 0

def sampleLocal (name payload : Bytes) (crc32 : Nat) : Bytes :=
  littleBytes 4 0x04034b50 ++ littleBytes 2 20 ++ sampleFields crc32 payload.length name.length ++
    name ++ payload

def sampleCentral (name payload : Bytes) (crc32 offset : Nat) : Bytes :=
  littleBytes 4 0x02014b50 ++ littleBytes 4 20 ++ sampleFields crc32 payload.length name.length ++
    littleBytes 10 0 ++ littleBytes 4 offset ++ name

/-- An end record without a comment. -/
def sampleEnd (count size offset : Nat) : Bytes :=
  littleBytes 4 0x06054b50 ++ littleBytes 4 0 ++ littleBytes 2 count ++ littleBytes 2 count ++
    littleBytes 4 size ++ littleBytes 4 offset ++ littleBytes 2 0

/-- A stored archive: the directory `d` and the file `d/f`. The central directory names the file
first. -/
def sampleArchive : Bytes :=
  sampleLocal (ascii "d/") [] 0 ++ sampleLocal (ascii "d/f") (ascii "hi") 0xd8932aac ++
    sampleCentral (ascii "d/f") (ascii "hi") 0xd8932aac 32 ++ sampleCentral (ascii "d/") [] 0 0 ++
    sampleEnd 2 97 67

def archiveFile (content : Bytes) : StableFile where
  path := ⟨ascii "/a.zip"⟩
  identity := ⟨hexId 1, hexId 2, content.length, 0, 1⟩
  content
  sized := rfl

/-- A host whose only file is an archive. -/
def archiveHost (content : Bytes) : Host where
  openFile _ := .ok (archiveFile content)
  interrupt _ := none
  now := ascii "2026-01-01T00:00:00Z"
  deflateReader _ _ _ _ := .error "ZIP Deflate stream is truncated or malformed"

def sampleHost : Host :=
  archiveHost sampleArchive

def sampleRequest : Bytes :=
  Json.canonical (.object [(ascii "archive_format", .string (ascii "zip")),
    (ascii "archive_path", .string (ascii "/a.zip")),
    (ascii "budgets", .object [(ascii "max_depth", .unsigned 8),
      (ascii "max_elapsed_ms", .unsigned 1000), (ascii "max_entries", .unsigned 10),
      (ascii "max_entry_bytes", .unsigned 100), (ascii "max_ratio", .unsigned 10),
      (ascii "max_uncompressed_bytes", .unsigned 100)]),
    (ascii "schema", .string (ascii "usk.archive_inspect_request.v1"))])

theorem sampleArchive_accepted :
    ∃ inspection, inspectZip .wrapping sampleHost sampleRequest = .ok inspection :=
  Json.exists_of_isOk (by decide +kernel)

/-- The small archive is accepted, and its layout tiles it. -/
theorem sampleArchive_tiled :
    ∃ (inspection : Inspection) (layout : Layout),
      inspectZip .wrapping sampleHost sampleRequest = .ok inspection ∧
      layout.Describes sampleArchive inspection := by
  obtain ⟨inspection, h⟩ := sampleArchive_accepted
  obtain ⟨parsed, source, layout, -, hsource, hlayout⟩ :=
    (accepted_archive_tiled sampleHost sampleRequest).2 inspection h
  cases hsource
  exact ⟨inspection, layout, h, hlayout⟩

end Usk.Archive

import UniversalSetup.Archive.Collision
import UniversalSetup.Archive.EntryName

/-!
# Accepted archives keep to their budgets

The loop over the central directory compares each entry with the budgets of the request before it is
counted, in an order that varies from check to check. After the loop the budgets hold for the whole
list: for every entry, and for the sums over all of them. Nothing that was computed on the way left
the range of `std::uint64_t`.
-/

namespace Usk.Archive

open Json (Result demand demand_eq_ok bind_eq_ok)
open Arith (checked)

variable {normalized : Bytes} {budgets : Budgets} {record : CentralRecord} {source : StableFile}
  {inspection : Inspection}

/-! ## One entry -/

/-- An entry that keeps to the budgets. -/
structure Entry.Budgeted (budgets : Budgets) (e : Entry) : Prop where
  uncompressed : e.uncompressedSize ≤ budgets.maxEntryBytes
  compressed : e.compressedSize ≤ maxArchiveBytes
  ratio : e.uncompressedSize ≤ e.compressedSize * budgets.maxRatio
  depth : (splitSlash e.normalizedPath).length ≤ budgets.maxDepth
  normal : normalizePath e.normalizedPath budgets = .ok e.normalizedPath

/-- What an accepted central record has passed before it is counted. -/
structure CentralRecord.Within (budgets : Budgets) (record : CentralRecord) : Prop where
  uncompressed : record.uncompressed ≤ budgets.maxEntryBytes
  compressed : record.compressed ≤ maxArchiveBytes
  ratio : record.uncompressed ≤ record.compressed * budgets.maxRatio

theorem addChecked_eq_ok {total value maximum sum : Nat} {name : String}
    (h : addChecked checked total value maximum name = .ok sum) :
    sum = total + value ∧ sum ≤ maximum := by
  simp only [addChecked, bind_eq_ok, demand_eq_ok, decide_eq_true_eq, Arith.checked_sub,
    Arith.checked_add] at h
  obtain ⟨_, hvalue, room, ⟨-, hroom⟩, _, htotal, -, hsum⟩ := h
  omega

theorem ratio_of_checkRatio {u : Unit} (h : checkRatio checked budgets record = .ok u) :
    record.uncompressed ≤ record.compressed * budgets.maxRatio := by
  unfold checkRatio at h
  split at h
  · rw [demand_eq_ok, beq_iff_eq] at h
    omega
  · simp only [bind_eq_ok, Arith.checked_mul, demand_eq_ok, decide_eq_true_eq] at h
    obtain ⟨limit, ⟨-, rfl⟩, hle⟩ := h
    exact hle

/-- A directory has no bytes. -/
theorem sizes_of_checkKind (h : checkKind budgets record = .ok normalized)
    (hdirectory : record.directory = true) : record.compressed = 0 ∧ record.uncompressed = 0 := by
  simp only [checkKind, bind_eq_ok, demand_eq_ok, hdirectory, Bool.and_true, Bool.true_and,
    Bool.not_eq_true', Bool.or_eq_false_iff, bne_eq_false_iff_eq] at h
  obtain ⟨_, -, _, -, _, -, _, ⟨-, ⟨hcompressed, huncompressed⟩, -⟩, -⟩ := h
  exact ⟨hcompressed, huncompressed⟩

theorem normalizePath_of_checkKind (h : checkKind budgets record = .ok normalized) :
    normalizePath record.name budgets = .ok normalized := by
  simp only [checkKind, bind_eq_ok] at h
  obtain ⟨_, -, _, -, _, hnormalized, _, -, h⟩ := h
  cases h
  exact hnormalized

/-- The counters after one more record. A directory adds nothing. -/
theorem account_spec {s s' : Scan} (hkind : checkKind budgets record = .ok normalized)
    (h : account checked budgets record s = .ok s') :
    record.Within budgets ∧
      s'.uncompressedBytes = s.uncompressedBytes + record.uncompressed ∧
      s'.compressedBytes = s.compressedBytes + record.compressed ∧
      (s.uncompressedBytes ≤ budgets.maxUncompressedBytes →
        s'.uncompressedBytes ≤ budgets.maxUncompressedBytes) ∧
      (s.compressedBytes ≤ maxArchiveBytes → s'.compressedBytes ≤ maxArchiveBytes) := by
  unfold account at h
  split at h
  · next hdirectory =>
    obtain ⟨hcompressed, huncompressed⟩ := sizes_of_checkKind hkind hdirectory
    cases h
    refine ⟨⟨?_, ?_, ?_⟩, ?_, ?_, id, id⟩ <;> simp only [hcompressed, huncompressed] <;> omega
  · simp only [bind_eq_ok, demand_eq_ok, Bool.and_eq_true, decide_eq_true_eq] at h
    obtain ⟨_, ⟨huncompressed, hcompressed⟩, _, hratio, total, htotal, packed, hpacked, h⟩ := h
    obtain ⟨htotal, hmaximum⟩ := addChecked_eq_ok htotal
    obtain ⟨hpacked, hbound⟩ := addChecked_eq_ok hpacked
    cases h
    exact ⟨⟨huncompressed, hcompressed, ratio_of_checkRatio hratio⟩, htotal, hpacked,
      fun _ => hmaximum, fun _ => hbound⟩

/-- The depth of a normalized name is counted by its segments. -/
theorem depth_of_normalizePath {raw result : Bytes} (h : normalizePath raw budgets = .ok result) :
    (splitSlash result).length ≤ budgets.maxDepth := by
  obtain ⟨segments, hname, rfl⟩ := normalizePath_eq_ok.mp h
  rw [hname.splitSlash_normalized]
  exact hname.depth.2

theorem normal_of_normalizePath {raw result : Bytes} (h : normalizePath raw budgets = .ok result) :
    normalizePath result budgets = .ok result := by
  obtain ⟨segments, hname, rfl⟩ := normalizePath_eq_ok.mp h
  exact normalizePath_eq_ok.mpr ⟨segments, hname.normalized, rfl⟩

/-! ## The loop -/

/-- The counters of the loop are those of the entries so far, and keep to the budgets. -/
structure Scan.Totals (budgets : Budgets) (s : Scan) : Prop where
  entries : ∀ e ∈ s.entries, e.Budgeted budgets
  uncompressed : s.uncompressedBytes = (s.entries.map Entry.uncompressedSize).sum
  compressed : s.compressedBytes = (s.entries.map Entry.compressedSize).sum
  uncompressed_le : s.uncompressedBytes ≤ budgets.maxUncompressedBytes
  compressed_le : s.compressedBytes ≤ maxArchiveBytes

theorem totals_start (budgets : Budgets) : Scan.Totals budgets {} :=
  ⟨fun _ he => absurd he List.not_mem_nil, rfl, rfl, Nat.zero_le _, Nat.zero_le _⟩

theorem recordSize_le {central : Bytes} {position : Nat}
    (h : centralRecord central position = .ok record) :
    position + record.recordSize ≤ central.length := by
  simp only [centralRecord, bind_eq_ok, demand_eq_ok, Bool.and_eq_true, decide_eq_true_eq] at h
  obtain ⟨_, hsignature, _, -, _, -, _, -, _, -, _, -, _, -, nameSize, -, extraSize, -, commentSize,
    -, _, -, _, -, _, -, _, ⟨hsize, -⟩, _, -, _, -, zip64, -, _, -, h⟩ := h
  cases h
  obtain ⟨a, b, c, d, rest, hdrop, -⟩ := little32_eq_ok.mp hsignature
  have hlength := congrArg List.length hdrop
  rw [List.length_drop, List.length_cons] at hlength
  dsimp only
  omega

theorem scanEntry_totals {central : Bytes} {centralOffset : Nat} {s s' : Scan}
    (hs : s.Totals budgets)
    (h : scanEntry checked source budgets central centralOffset s = .ok s') :
    s'.Totals budgets ∧ s'.entries.length = s.entries.length + 1 ∧
      s'.position ≤ central.length := by
  simp only [scanEntry, bind_eq_ok] at h
  obtain ⟨record, hrecord, normalized, hkind, counted, hcounted, paths, -, entry, hentry, h⟩ := h
  obtain ⟨hwithin, huncompressed, hcompressed, htotal, hpacked⟩ := account_spec hkind hcounted
  have hof := localEntry_spec hentry
  have hpath : entry.normalizedPath = normalized := congrArg Prod.fst (localEntry_pathKind hentry)
  cases h
  refine ⟨⟨?_, ?_, ?_, htotal hs.uncompressed_le, hpacked hs.compressed_le⟩, ?_,
    recordSize_le hrecord⟩
  · refine List.forall_mem_append.mpr ⟨hs.entries, List.forall_mem_singleton.mpr
      ⟨?_, ?_, ?_, ?_, ?_⟩⟩
    · exact hof.uncompressedSize ▸ hwithin.uncompressed
    · exact hof.compressedSize ▸ hwithin.compressed
    · exact hof.uncompressedSize ▸ hof.compressedSize ▸ hwithin.ratio
    · exact hpath ▸ depth_of_normalizePath (normalizePath_of_checkKind hkind)
    · exact hpath ▸ normal_of_normalizePath (normalizePath_of_checkKind hkind)
  · rw [List.map_append, List.sum_append, ← hs.uncompressed, huncompressed, List.map_singleton,
      List.sum_singleton, hof.uncompressedSize]
  · rw [List.map_append, List.sum_append, ← hs.compressed, hcompressed, List.map_singleton,
      List.sum_singleton, hof.compressedSize]
  · exact List.length_append

theorem scanEntries_totals {host : Host} {source : StableFile} {budgets : Budgets}
    {central : Bytes} {centralOffset : Nat} : ∀ {n : Nat} {s s' : Scan}, s.Totals budgets →
    s.position ≤ central.length →
    scanEntries checked host source budgets central centralOffset n s = .ok s' →
    s'.Totals budgets ∧ s'.entries.length = s.entries.length + n ∧ s'.position ≤ central.length
  | 0, s, s', hs, hposition, h => by
    cases h
    exact ⟨hs, rfl, hposition⟩
  | n + 1, s, s', hs, _, h => by
    simp only [scanEntries, bind_eq_ok] at h
    obtain ⟨_, -, next, hnext, h⟩ := h
    obtain ⟨htotals, hlength, hposition⟩ := scanEntry_totals hs hnext
    obtain ⟨htotals, hrest, hposition⟩ := scanEntries_totals htotals hposition h
    exact ⟨htotals, by omega, hposition⟩

/-! ## Whole inspections -/

/-- An inspection that keeps to its budgets. -/
structure Inspection.Within (inspection : Inspection) : Prop where
  count : inspection.entries.length ≤ inspection.budgets.maxEntries
  entries : ∀ e ∈ inspection.entries, e.Budgeted inspection.budgets
  uncompressed : inspection.uncompressedBytes =
    (inspection.entries.map Entry.uncompressedSize).sum
  compressed : inspection.compressedBytes = (inspection.entries.map Entry.compressedSize).sum
  uncompressed_le : inspection.uncompressedBytes ≤ inspection.budgets.maxUncompressedBytes
  compressed_le : inspection.compressedBytes ≤ maxArchiveBytes

theorem entryCount_le {record : EndRecord} {centralEnd : Nat} {u : Unit}
    (h : checkCentralDirectory checked budgets record centralEnd = .ok u) :
    record.entryCount ≤ budgets.maxEntries ∧ record.centralSize ≤ maxCentralDirectoryBytes := by
  simp only [checkCentralDirectory, bind_eq_ok, demand_eq_ok, Bool.and_eq_true,
    decide_eq_true_eq] at h
  obtain ⟨_, ⟨⟨⟨-, hcount⟩, hsize⟩, -⟩, -⟩ := h
  exact ⟨hcount, hsize⟩

theorem inspectSource_within {host : Host}
    (h : inspectSource checked host source budgets = .ok inspection) :
    inspection.Within ∧ inspection.budgets = budgets := by
  simp only [inspectSource, bind_eq_ok] at h
  obtain ⟨_, -, sha, -, classic, -, effective, -, _, hbounds, central, hcentral, s, hscan, _, -, _,
    -, _, -, _, -, h⟩ := h
  obtain ⟨hcount, -⟩ := entryCount_le hbounds
  obtain ⟨htotals, hlength, -⟩ := scanEntries_totals (totals_start budgets) (Nat.zero_le _) hscan
  have hperm := List.perm_insertionSort
    (fun left right : Entry => ¬right.normalizedPath < left.normalizedPath) s.entries
  have hentries : s.entries.length = effective.1.entryCount :=
    hlength.trans (Nat.zero_add _)
  cases h
  refine ⟨⟨?_, fun e he => htotals.entries e (hperm.mem_iff.mp he), ?_, ?_,
    htotals.uncompressed_le, htotals.compressed_le⟩, rfl⟩
  · rw [hperm.length_eq, hentries]
    exact hcount
  · exact htotals.uncompressed.trans (hperm.map _).sum_eq.symm
  · exact htotals.compressed.trans (hperm.map _).sum_eq.symm

theorem Layout.Describes.centralOffset_le {layout : Layout} {file : Bytes}
    (h : layout.Describes file inspection) : layout.centralOffset ≤ file.length := by
  have hstop := h.stop
  cases hzip64 : layout.zip64 with
  | false =>
    have hend := h.classic hzip64
    unfold Layout.centralEnd at hend
    omega
  | true =>
    have hend := (h.extended hzip64).stop
    unfold Layout.centralEnd at hend
    omega

/-- The offsets of an entry lie in this order, and none of them behind the end of the file. -/
structure Entry.Inside (size : Nat) (e : Entry) : Prop where
  header : e.localHeaderOffset + 30 ≤ e.dataOffset
  data : e.dataOffset + e.compressedSize = e.dataEnd
  stop : e.dataEnd ≤ size

theorem Layout.Describes.inside {layout : Layout} {file : Bytes}
    (h : layout.Describes file inspection) : ∀ e ∈ inspection.entries, e.Inside file.length := by
  intro e he
  obtain ⟨entries, hperm, hall⟩ := h.entries
  obtain ⟨record, -, hof⟩ := record_of_mem hall e (hperm.mem_iff.mpr he)
  obtain ⟨header, -, -, hdata⟩ := hof.header
  have hheader : e.localHeaderOffset + 30 ≤ e.dataOffset := by
    rw [hof.localHeaderOffset, hdata]
    omega
  have hend : e.dataOffset + e.compressedSize = e.dataEnd := by
    rw [hof.compressedSize, hof.dataEnd]
  -- the last byte of the range lies before the central directory
  have hlast : InRange Entry.localHeaderOffset Entry.dataEnd e (e.dataEnd - 1) :=
    ⟨by omega, by omega⟩
  have hbefore := ((h.tiles.covers _).mpr ⟨e, he, hlast⟩).2
  have hcentral := h.centralOffset_le
  exact ⟨hheader, hend, by omega⟩

theorem size_le_of_inspectSource {host : Host}
    (h : inspectSource checked host source budgets = .ok inspection) :
    source.content.length ≤ maxArchiveBytes := by
  simp only [inspectSource, bind_eq_ok, demand_eq_ok, Bool.and_eq_true, decide_eq_true_eq] at h
  obtain ⟨_, ⟨-, hsize⟩, -⟩ := h
  exact source.sized ▸ hsize

/-- Nothing wraps around in an inspection, and what it accepts keeps to every budget of its request:
the number of entries, the size and the ratio of each, the depth of their paths, and both totals. -/
theorem accepted_within_budgets (host : Host) (request : Bytes) :
    inspectZip .wrapping host request = inspectZip .checked host request ∧
    (∀ central position record, centralRecord central position = .ok record →
      position + record.recordSize ≤ central.length) ∧
    ∀ inspection, inspectZip .wrapping host request = .ok inspection →
      ∃ parsed source, parseArchiveRequest request = .ok parsed ∧
        host.openFile parsed.archivePath = .ok source ∧ inspection.budgets = parsed.budgets ∧
        inspection.Within ∧ source.content.length < 2 ^ 64 ∧
        (∀ e ∈ inspection.entries, e.Inside source.content.length ∧
          e.compressedSize * inspection.budgets.maxRatio < 2 ^ 64) ∧
        inspection.uncompressedBytes < 2 ^ 64 ∧ inspection.compressedBytes < 2 ^ 64 := by
  refine ⟨inspectZip_exact host request, fun _ _ _ => recordSize_le, fun inspection h => ?_⟩
  rw [inspectZip_exact] at h
  simp only [inspectZip, bind_eq_ok] at h
  obtain ⟨parsed, hparsed, source, hsource, h⟩ := h
  have hbounded := parseArchiveRequest_bounded hparsed
  obtain ⟨layout, -, hlayout, -⟩ := inspectSource_layout h
  obtain ⟨hwithin, hbudgets⟩ := inspectSource_within h
  have hsize := size_le_of_inspectSource h
  have harchive : maxArchiveBytes < 2 ^ 64 := by decide
  refine ⟨parsed, source, hparsed, hsource, hbudgets, hwithin, by omega, fun e he => ?_, ?_, ?_⟩
  · have hratio : inspection.budgets.maxRatio ≤ maxRequestRatio := hbudgets ▸ hbounded.ratio
    have hproduct := Nat.mul_le_mul (hwithin.entries e he).compressed hratio
    have hrange : maxArchiveBytes * maxRequestRatio < 2 ^ 64 := by decide
    exact ⟨hlayout.inside e he, by omega⟩
  · have htotal := hwithin.uncompressed_le
    have hrequest : inspection.budgets.maxUncompressedBytes ≤ maxRequestUncompressedBytes :=
      hbudgets ▸ hbounded.uncompressedBytes
    have hrange : maxRequestUncompressedBytes < 2 ^ 64 := by decide
    omega
  · have htotal := hwithin.compressed_le
    omega

/-- The small archive is within the budgets of its request. -/
theorem sampleArchive_within :
    ∃ inspection, inspectZip .wrapping sampleHost sampleRequest = .ok inspection ∧
      inspection.Within := by
  obtain ⟨inspection, h⟩ := sampleArchive_accepted
  obtain ⟨-, -, hwithin⟩ := accepted_within_budgets sampleHost sampleRequest
  obtain ⟨parsed, source, -, -, -, hwithin, -⟩ := hwithin inspection h
  exact ⟨inspection, h, hwithin⟩

end Usk.Archive

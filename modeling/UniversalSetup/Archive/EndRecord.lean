import UniversalSetup.Archive.Layout

/-!
# End records

The search for the end record goes from the end of the file towards its beginning and stops at the
first position that it can read as one. What lies before that position is not asked: the comment of
a central record may hold another end record, which a reader that searches from the other side
takes.

The signature of an end record has a byte that no other signature and no name of an entry has, so
that only the other parts of the layout can hold a second one: the numbers of the headers, the extra
fields, the payloads and the comments of the central records.
-/

namespace Usk.Archive

open Json (Result demand_eq_ok bind_eq_ok)
open Arith (checked)

/-- A position of a file can be read as an end record: it has the signature, and its comment reaches
to the end of the file. -/
def EndRecordAt (file : Bytes) (position : Nat) : Prop :=
  little32 file position = .ok 0x06054b50 ∧ ∃ commentSize,
    little16 file (position + 20) = .ok commentSize ∧ position + 22 + commentSize = file.length

/-! ## The search -/

theorem exists_little16 {data : Bytes} {offset : Nat} (h : offset + 2 ≤ data.length) :
    ∃ n, little16 data offset = .ok n := by
  have hlength : 2 ≤ (data.drop offset).length := by
    rw [List.length_drop]
    omega
  unfold little16
  match data.drop offset, hlength with
  | a :: b :: rest, _ => exact ⟨_, rfl⟩

theorem exists_little32 {data : Bytes} {offset : Nat} (h : offset + 4 ≤ data.length) :
    ∃ n, little32 data offset = .ok n := by
  have hlength : 4 ≤ (data.drop offset).length := by
    rw [List.length_drop]
    omega
  unfold little32
  match data.drop offset, hlength with
  | a :: b :: c :: d :: rest, _ => exact ⟨_, rfl⟩

/-- What one position decides, if it lies far enough from the end. -/
theorem findEndRecord_succ {tail : Bytes} {position : Nat} (h : position + 22 ≤ tail.length) :
    (EndRecordAt tail position ∧ findEndRecord tail (position + 1) = .ok (some position)) ∨
      (¬EndRecordAt tail position ∧
        findEndRecord tail (position + 1) = findEndRecord tail position) := by
  obtain ⟨signature, hsignature⟩ := @exists_little32 tail position (by omega)
  obtain ⟨commentSize, hcomment⟩ := @exists_little16 tail (position + 20) (by omega)
  have hrecord : EndRecordAt tail position ↔
      signature = 0x06054b50 ∧ position + 22 + commentSize = tail.length := by
    simp only [EndRecordAt, hsignature, hcomment, Except.ok.injEq, exists_eq_left']
  have hsearch : findEndRecord tail (position + 1) =
      if signature = 0x06054b50 then
        if position + 22 + commentSize = tail.length then .ok (some position)
        else findEndRecord tail position
      else findEndRecord tail position := by
    rw [findEndRecord, hsignature]
    show (if signature = 0x06054b50 then _ else _) = _
    rw [hcomment]
    rfl
  rw [hrecord, hsearch]
  by_cases h1 : signature = 0x06054b50
  · by_cases h2 : position + 22 + commentSize = tail.length
    · exact .inl ⟨⟨h1, h2⟩, by rw [if_pos h1, if_pos h2]⟩
    · exact .inr ⟨fun h => h2 h.2, by rw [if_pos h1, if_neg h2]⟩
  · exact .inr ⟨fun h => h1 h.1, by rw [if_neg h1]⟩

/-- The search passes only positions that are no end record. -/
theorem findEndRecord_last {tail : Bytes} : ∀ {n eocd : Nat}, n + 21 ≤ tail.length →
    findEndRecord tail n = .ok (some eocd) → EndRecordAt tail eocd ∧ eocd < n ∧
      ∀ p, eocd < p → p < n → ¬EndRecordAt tail p
  | 0, _, _, h => by cases h
  | n + 1, eocd, hn, h => by
    rcases @findEndRecord_succ tail n (by omega) with ⟨hrecord, hfound⟩ | ⟨hrecord, hnext⟩
    · cases hfound.symm.trans h
      exact ⟨hrecord, Nat.lt_succ_self n, fun p hlow hhigh => by omega⟩
    · rw [hnext] at h
      obtain ⟨hat, hlt, hpassed⟩ := findEndRecord_last (by omega) h
      refine ⟨hat, by omega, fun p hlow hhigh => ?_⟩
      rcases Nat.lt_succ_iff_lt_or_eq.mp hhigh with hhigh | rfl
      · exact hpassed p hlow hhigh
      · exact hrecord

theorem findEndRecord_none {tail : Bytes} : ∀ {n : Nat}, n + 21 ≤ tail.length →
    (findEndRecord tail n = .ok none ↔ ∀ p < n, ¬EndRecordAt tail p)
  | 0, _ => ⟨fun _ p hp => absurd hp (Nat.not_lt_zero p), fun _ => rfl⟩
  | n + 1, hn => by
    have ih := @findEndRecord_none tail n (by omega)
    rcases @findEndRecord_succ tail n (by omega) with ⟨hrecord, hfound⟩ | ⟨hrecord, hnext⟩
    · rw [hfound]
      exact ⟨(nomatch ·), fun hall => absurd hrecord (hall n (Nat.lt_succ_self n))⟩
    · rw [hnext, ih]
      constructor
      · intro hall p hp
        rcases Nat.lt_succ_iff_lt_or_eq.mp hp with hp | rfl
        · exact hall p hp
        · exact hrecord
      · exact fun hall p hp => hall p (Nat.lt_succ_of_lt hp)

/-! ## The record that was found -/

theorem EndRecordAt.bounds {file : Bytes} {position : Nat} (h : EndRecordAt file position) :
    position + 22 ≤ file.length ∧ file.length ≤ position + 22 + 65535 := by
  obtain ⟨-, commentSize, hcomment, hend⟩ := h
  have := little16_lt hcomment
  omega

/-- Positions of the end of a file, and of the file. -/
theorem endRecordAt_drop {file : Bytes} {offset position : Nat} (h : offset ≤ file.length) :
    EndRecordAt (file.drop offset) position ↔ EndRecordAt file (offset + position) := by
  have hend (size : Nat) : position + 22 + size = (file.drop offset).length ↔
      offset + position + 22 + size = file.length := by
    rw [List.length_drop]
    omega
  simp only [EndRecordAt, hend]
  simp only [little16, little32, List.drop_drop, Nat.add_assoc]

/-- The record that was found is the last that the file has. -/
theorem locateEndRecord_last {source : StableFile} {found : EndRecord × Nat}
    (h : locateEndRecord checked source = .ok found) : EndRecordAt source.content found.2 ∧
      ∀ p, EndRecordAt source.content p → p ≤ found.2 := by
  simp only [locateEndRecord, bind_eq_ok] at h
  obtain ⟨tailOffset, htail, tail, hread, position, hfound, h⟩ := h
  cases position with
  | none => cases h
  | some eocd =>
    simp only [bind_eq_ok] at h
    obtain ⟨classic, -, eocdOffset, hadd, h⟩ := h
    cases h
    obtain ⟨-, rfl⟩ := Arith.checked_add.mp hadd
    obtain ⟨hle, htail⟩ := Arith.checked_sub.mp htail
    obtain ⟨hrange, rfl⟩ := read_eq_ok.mp hread
    rw [source.sized] at htail hle hrange hfound
    have hsize : (source.content.drop tailOffset).length ≤
        min source.content.length (22 + 65535) := by
      rw [List.length_drop]
      omega
    rw [List.take_of_length_le hsize] at hfound
    split at hfound
    · next h22 =>
      obtain ⟨hat, -, hpassed⟩ := findEndRecord_last (by omega) hfound
      refine ⟨(endRecordAt_drop (by omega)).mp hat, fun p hp => ?_⟩
      -- a later record would lie in the part that the search has passed
      obtain ⟨hlow, hhigh⟩ := hp.bounds
      by_contra hlt
      have hp' : EndRecordAt (source.content.drop tailOffset) (p - tailOffset) := by
        rw [endRecordAt_drop (by omega), Nat.add_sub_cancel' (by omega)]
        exact hp
      rw [List.length_drop] at hpassed
      exact hpassed (p - tailOffset) (by omega) (by omega) hp'
    · cases hfound

/-! ## Where a second record can be -/

namespace Layout

/-- Where a record of the central directory begins that comes behind some others. -/
def recordOffset (layout : Layout) (before : List CentralRecord) : Nat :=
  layout.centralOffset + (before.map CentralRecord.recordSize).sum

/-- The places of an archive that are neither in a signature nor in a name, from the first local
header to the end record. -/
inductive Loose (layout : Layout) (file : Bytes) : Nat → Prop
  | localNumbers {record : CentralRecord} {x : Nat} (hrecord : record ∈ layout.records)
      (hlow : record.localOffset + 4 ≤ x) (hhigh : x < record.localOffset + 30) :
        Loose layout file x
  /-- The extra field of a local header and the payload. -/
  | payload {record : CentralRecord} {extraSize x : Nat} (hrecord : record ∈ layout.records)
      (hextra : little16 file (record.localOffset + 28) = .ok extraSize)
      (hlow : record.localOffset + 30 + record.name.length ≤ x)
      (hhigh : x < record.localOffset + 30 + record.name.length + extraSize + record.compressed) :
      Loose layout file x
  | centralNumbers {before after : List CentralRecord} {record : CentralRecord} {x : Nat}
      (hrecords : layout.records = before ++ record :: after)
      (hlow : layout.recordOffset before + 4 ≤ x) (hhigh : x < layout.recordOffset before + 46) :
      Loose layout file x
  /-- The extra field and the comment of a central record. -/
  | comment {before after : List CentralRecord} {record : CentralRecord} {x : Nat}
      (hrecords : layout.records = before ++ record :: after)
      (hlow : layout.recordOffset before + 46 + record.name.length ≤ x)
      (hhigh : x < layout.recordOffset before + record.recordSize) : Loose layout file x
  | zip64Numbers {x : Nat} (hzip64 : layout.zip64 = true) (hlow : layout.centralEnd + 4 ≤ x)
      (hhigh : x < layout.centralEnd + 56) : Loose layout file x
  | locatorNumbers {x : Nat} (hzip64 : layout.zip64 = true) (hlow : layout.centralEnd + 60 ≤ x)
      (hhigh : x < layout.centralEnd + 76) : Loose layout file x

end Layout

section

variable {file name : Bytes} {offset n p x : Nat} {layout : Layout} {inspection : Inspection}

theorem byte_of_little32 {i : Nat} (h : little32 file offset = .ok n) (hi : i < 4) :
    ∃ c, file[offset + i]? = some c ∧ c.toNat = n / 256 ^ i % 256 := by
  obtain ⟨a, b, c, d, rest, hdrop, rfl⟩ := little32_eq_ok.mp h
  have ha := a.toNat_lt
  have hb := b.toNat_lt
  have hc := c.toNat_lt
  have hd := d.toNat_lt
  rw [← List.getElem?_drop, hdrop]
  match i, hi with
  | 0, _ => exact ⟨a, rfl, by omega⟩
  | 1, _ => exact ⟨b, rfl, by omega⟩
  | 2, _ => exact ⟨c, rfl, by omega⟩
  | 3, _ => exact ⟨d, rfl, by omega⟩

/-- The third byte of the signature of an end record. -/
theorem EndRecordAt.third (h : EndRecordAt file p) : file[p + 2]? = some 5 := by
  obtain ⟨c, hc, hvalue⟩ := byte_of_little32 h.1 (by decide : 2 < 4)
  rw [hc, UInt8.toNat_inj.mp (hvalue.trans (rfl : _ = (5 : UInt8).toNat))]

/-- No other signature has this byte. -/
theorem not_signature (h : little32 file offset = .ok n) (hn : ∀ i < 4, n / 256 ^ i % 256 ≠ 5)
    (hx : file[x]? = some 5) (hlow : offset ≤ x) : offset + 4 ≤ x := by
  by_contra hhigh
  obtain ⟨i, rfl⟩ := Nat.exists_eq_add_of_le hlow
  obtain ⟨c, hc, hvalue⟩ := byte_of_little32 h (show i < 4 by omega)
  rw [hx] at hc
  cases hc
  exact hn i (by omega) hvalue.symm

/-- No name has it. -/
theorem not_name (h : name <+: file.drop offset) (hname : ∀ c ∈ name, 0x20 ≤ c ∧ c < 0x7f)
    (hx : file[x]? = some 5) (hlow : offset ≤ x) : offset + name.length ≤ x := by
  by_contra hhigh
  obtain ⟨i, rfl⟩ := Nat.exists_eq_add_of_le hlow
  obtain ⟨rest, hrest⟩ := h
  rw [← List.getElem?_drop, ← hrest, List.getElem?_append_left (by omega)] at hx
  exact absurd (hname 5 (List.mem_of_getElem? hx)).1 (by decide)

theorem EntryOf.loose {record : CentralRecord} {entry : Entry} (h : EntryOf file record entry)
    (hrecord : record ∈ layout.records) (hname : ∀ c ∈ record.name, 0x20 ≤ c ∧ c < 0x7f)
    (hx : file[x]? = some 5) (hlow : entry.localHeaderOffset ≤ x) (hhigh : x < entry.dataEnd) :
    layout.Loose file x := by
  obtain ⟨header, hat, hagrees, hdata⟩ := h.header
  rw [h.localHeaderOffset] at hlow
  rw [h.dataEnd, hdata, hagrees.name] at hhigh
  have hnumbers := not_signature hat.signature (by decide) hx hlow
  by_cases h30 : x < record.localOffset + 30
  · exact .localNumbers hrecord hnumbers h30
  · have hheader : record.name <+: file.drop (record.localOffset + 30) := by
      rw [← hagrees.name, ← hat.name]
      exact List.take_prefix _ _
    exact .payload hrecord hat.extraSize (not_name hheader hname hx (by omega)) hhigh

theorem centralRecord_spec {central : Bytes} {position : Nat} {record : CentralRecord}
    (h : centralRecord central position = .ok record) :
    little32 central position = .ok 0x02014b50 ∧ record.name <+: central.drop (position + 46) := by
  simp only [centralRecord, bind_eq_ok, demand_eq_ok, Bool.and_eq_true, beq_iff_eq] at h
  obtain ⟨_, hsignature, _, ⟨rfl, -⟩, _, -, _, -, _, -, _, -, _, -, _, -, _, -, _, -, _, -, _, -, _,
    -, _, -, _, -, _, -, _, -, _, -, h⟩ := h
  cases h
  exact ⟨hsignature, List.take_prefix _ _⟩

/-- The records of the central directory from some position on. -/
theorem RecordsFrom.loose {position stop : Nat} {rest : List CentralRecord}
    (h : RecordsFrom (layout.central file) position rest stop) :
    ∀ {before : List CentralRecord}, layout.records = before ++ rest →
      position = (before.map CentralRecord.recordSize).sum →
      (∀ record ∈ layout.records, ∀ c ∈ record.name, 0x20 ≤ c ∧ c < 0x7f) →
      file[x]? = some 5 → layout.recordOffset before ≤ x → x < layout.centralOffset + stop →
      layout.Loose file x := by
  induction h with
  | nil position =>
    rintro before - rfl - - hlow hhigh
    exact absurd hhigh (Nat.not_lt.mpr hlow)
  | @cons position stop record rest hrecord _ ih =>
    rintro before hrecords rfl hnames hx hlow hhigh
    obtain ⟨hsignature, hname⟩ := centralRecord_spec hrecord
    have hsignature := little32_slice hsignature
    obtain ⟨tail, htail⟩ : ∃ tail, file.drop (layout.recordOffset before + 46) =
        record.name ++ tail := by
      obtain ⟨tail, htail⟩ := hname
      rw [Layout.recordOffset, Nat.add_assoc]
      exact drop_of_slice htail.symm
    have hnumbers := not_signature hsignature (by decide) hx hlow
    by_cases h46 : x < layout.recordOffset before + 46
    · exact .centralNumbers hrecords hnumbers h46
    · by_cases hinside : x < layout.recordOffset before + record.recordSize
      · refine .comment hrecords (not_name ⟨tail, htail.symm⟩ (hnames record ?_) hx (by omega))
          hinside
        rw [hrecords]
        exact List.mem_append_right _ List.mem_cons_self
      · refine @ih (before ++ [record]) ?_ ?_ hnames hx ?_ hhigh
        · rw [hrecords, List.append_assoc, List.singleton_append]
        · rw [List.map_append, List.sum_append, List.map_singleton, List.sum_singleton]
        · rw [Layout.recordOffset, List.map_append, List.sum_append, List.map_singleton,
            List.sum_singleton, ← Nat.add_assoc]
          exact Nat.not_lt.mp hinside

/-- The signature of a second record has its third byte in a loose place. -/
theorem Layout.Describes.loose (h : layout.Describes file inspection) (hp : EndRecordAt file p)
    (hlt : p < layout.endOffset) : layout.Loose file (p + 2) := by
  have hx := hp.third
  have hbefore : p + 2 < layout.endOffset := by
    by_contra hbeyond
    obtain ⟨i, hi⟩ := Nat.exists_eq_add_of_le (Nat.not_lt.mp hbeyond)
    obtain ⟨c, hc, hvalue⟩ := byte_of_little32 h.endRecord (show i < 4 by omega)
    rw [← hi, hx] at hc
    cases hc
    have hfirst : i = 0 ∨ i = 1 := by omega
    rcases hfirst with rfl | rfl
    · exact absurd hvalue (by decide)
    · exact absurd hvalue (by decide)
  by_cases hlocal : p + 2 < layout.centralOffset
  · obtain ⟨entry, hentry, hlow, hhigh⟩ := (h.tiles.covers _).mp ⟨Nat.zero_le _, hlocal⟩
    obtain ⟨entries, hperm, hall⟩ := h.entries
    obtain ⟨record, hrecord, hof⟩ := record_of_mem hall entry (hperm.mem_iff.mpr hentry)
    exact hof.loose hrecord (h.printable record hrecord) hx hlow hhigh
  · by_cases hcentral : p + 2 < layout.centralEnd
    · exact @RecordsFrom.loose _ _ _ _ _ _ h.directory [] rfl rfl h.printable hx
        (Nat.not_lt.mp hlocal) hcentral
    · -- only an archive with ZIP64 records has anything between the directory and the end record
      cases hzip64 : layout.zip64 with
      | false =>
        have hend := h.classic hzip64
        omega
      | true =>
        have hzip := h.extended hzip64
        have hstop := hzip.stop
        have hnumbers := not_signature hzip.signature (by decide) hx (Nat.not_lt.mp hcentral)
        by_cases h56 : p + 2 < layout.centralEnd + 56
        · exact .zip64Numbers hzip64 hnumbers h56
        · have hlocator := not_signature hzip.locator (by decide) hx (Nat.not_lt.mp h56)
          exact .locatorNumbers hzip64 hlocator (by omega)

end

/-- The end record of an accepted archive is the last position that can be read as one. It is the
only one exactly if no loose place of the archive holds another: no number of a header, no extra
field, no payload and no comment of a central record. -/
theorem end_record_unique_iff (host : Host) (request : Bytes) (inspection : Inspection)
    (h : inspectZip .wrapping host request = .ok inspection) :
    ∃ parsed source layout, parseArchiveRequest request = .ok parsed ∧
      host.openFile parsed.archivePath = .ok source ∧
      Layout.Describes layout source.content inspection ∧
      EndRecordAt source.content layout.endOffset ∧
      (∀ p, EndRecordAt source.content p → p ≤ layout.endOffset) ∧
      ((∀ p, source.content.length ≤ p + (22 + 65535) → EndRecordAt source.content p →
          p = layout.endOffset) ↔
        ∀ p < layout.endOffset, layout.Loose source.content (p + 2) →
          ¬EndRecordAt source.content p) := by
  rw [inspectZip_exact] at h
  simp only [inspectZip, bind_eq_ok] at h
  obtain ⟨parsed, hparsed, source, hsource, h⟩ := h
  obtain ⟨layout, classic, hlayout, hclassic⟩ := inspectSource_layout h
  obtain ⟨hat, hlast⟩ := locateEndRecord_last hclassic
  refine ⟨parsed, source, layout, hparsed, hsource, hlayout, hat, hlast, ?_⟩
  constructor
  · intro hunique p hp _ hrecord
    have heq := hunique p (hrecord.bounds.2.trans (Nat.add_assoc p 22 65535).le) hrecord
    omega
  · intro hnone p _ hrecord
    rcases Nat.lt_or_eq_of_le (hlast p hrecord) with hlt | heq
    · exact absurd hrecord (hnone p hlt (hlayout.loose hrecord hlt))
    · exact heq

/-- The small archive has its only end record at offset 164. -/
theorem sampleArchive_end_record :
    ∃ inspection, inspectZip .wrapping sampleHost sampleRequest = .ok inspection ∧
      EndRecordAt sampleArchive 164 ∧ ∀ p, EndRecordAt sampleArchive p → p = 164 := by
  obtain ⟨inspection, h⟩ := sampleArchive_accepted
  obtain ⟨parsed, source, layout, -, hsource, -, hat, hlast, hiff⟩ :=
    end_record_unique_iff sampleHost sampleRequest inspection h
  cases hsource
  change EndRecordAt sampleArchive layout.endOffset at hat
  have hsize : sampleArchive.length = 186 := by decide +kernel
  have h164 : EndRecordAt sampleArchive 164 := ⟨rfl, 0, rfl, hsize.symm⟩
  have hoffset : layout.endOffset = 164 := by
    have hbounds := hat.bounds
    have hle := hlast 164 h164
    omega
  rw [hoffset] at hiff
  have hnone : ∀ p < 164, ¬EndRecordAt sampleArchive p :=
    (findEndRecord_none (by omega)).mp (Json.toOption_eq_some.mp (by decide +kernel))
  refine ⟨inspection, h, h164, fun p hp => hiff.mpr (fun q hq _ => hnone q hq) p ?_ hp⟩
  exact hp.bounds.2.trans (Nat.add_assoc p 22 65535).le

/-! ## Two end records -/

/-- What stands in the comment of the central record: an end record without entries, whose own
comment is the end record of the archive. -/
def innerEndRecord : Bytes :=
  littleBytes 4 0x06054b50 ++ littleBytes 16 0 ++ littleBytes 2 22

/-- A stored archive of one file `f`, with an end record in the comment of its central record. -/
def doubleArchive : Bytes :=
  sampleLocal (ascii "f") (ascii "hi") 0xd8932aac ++
    littleBytes 4 0x02014b50 ++ littleBytes 4 20 ++ sampleFields 0xd8932aac 2 1 ++
    littleBytes 2 22 ++ littleBytes 8 0 ++ littleBytes 4 0 ++ ascii "f" ++ innerEndRecord ++
    sampleEnd 1 69 33

def doubleHost : Host :=
  archiveHost doubleArchive

/-- The archive is accepted, and two of its positions can be read as its end record. -/
theorem two_end_records_accepted :
    (∃ inspection, inspectZip .wrapping doubleHost sampleRequest = .ok inspection) ∧
      doubleHost.openFile ⟨ascii "/a.zip"⟩ = .ok (archiveFile doubleArchive) ∧
      EndRecordAt doubleArchive 80 ∧ EndRecordAt doubleArchive 102 := by
  have hsize : doubleArchive.length = 124 := by decide +kernel
  exact ⟨Json.exists_of_isOk (by decide +kernel), rfl, ⟨rfl, 22, rfl, hsize.symm⟩,
    ⟨rfl, 0, rfl, hsize.symm⟩⟩

end Usk.Archive

import UniversalSetup.Base.Disk
import UniversalSetup.State.Ownership

/-!
# The records of the owned files

The state repository keeps one record for each ownership manifest, in a directory of its own and
under the identifier of the manifest. The writer has no bound on the size of a record. The reader
has one of 16 MiB, but leaves the parser at its default limits, which are smaller.
-/

namespace Usk.State

open Json

variable {id : Bytes} {disk : Disk} {manifest : OwnershipManifest}

/-- A repository. The constructor brings the root into normal form. -/
structure StateRepository where
  root : Path
  normal : root.IsNormal

/-- The name of a record. -/
def recordName (id : Bytes) : Bytes :=
  id ++ ascii ".json"

namespace StateRepository

variable (repository : StateRepository)

/-- `root_ / "ownership"`. -/
def ownershipRoot : Path :=
  repository.root.join ⟨ascii "ownership"⟩

def ownershipPath (manifestId : Bytes) : Path :=
  repository.ownershipRoot.join ⟨recordName manifestId⟩

end StateRepository

/-- The manifest that is recorded: sorted and with its digest. -/
def OwnershipManifest.recorded (manifest : OwnershipManifest) : OwnershipManifest :=
  { manifest.sorted with manifestDigest := ownershipDigest manifest.sorted }

namespace StateRepository

variable (repository : StateRepository)

def writeOwnership (disk : Disk) (manifest : OwnershipManifest) :
    Result (OwnershipManifest × Disk) := do
  disk.requireSafeDirectory repository.ownershipRoot
  let manifest ← validateOwnership manifest
  let manifest := { manifest with manifestDigest := ownershipDigest manifest }
  let disk ← disk.writeNewDurableText (repository.ownershipPath manifest.manifestId)
    (ownershipRecord manifest)
  pure (manifest, disk)

/-- `read_ownership`. The path is normalized by `read_stable_text`. -/
def readOwnership (disk : Disk) (manifestId : Bytes) : Result OwnershipManifest := do
  demand (validIdentifier manifestId) "ownership lookup id is invalid"
  let text ← disk.readStableText (repository.ownershipPath manifestId).lexicallyNormal
    maximumOwnershipBytes
  decodeOwnershipRecord text manifestId

end StateRepository

/-! ## Paths -/

theorem slash_not_mem_identifier (h : validIdentifier id = true) : (0x2f : UInt8) ∉ id := by
  simp only [validIdentifier, Bool.and_eq_true, List.all_eq_true] at h
  intro hmem
  have hbyte := h.2 _ hmem
  revert hbyte
  decide

theorem plain_recordName (h : (0x2f : UInt8) ∉ id) : PlainName (recordName id) := by
  have hlong : 4 < (recordName id).length := by
    rw [recordName, List.length_append]
    have hsuffix : (ascii ".json").length = 5 := by decide
    omega
  have hne : ∀ {other : Bytes}, other.length ≤ 4 → recordName id ≠ other := by
    rintro _ hother rfl
    omega
  refine ⟨hne (by decide), fun hslash => ?_, hne (by decide), hne (by decide)⟩
  rcases List.mem_append.mp hslash with hid | hsuffix
  · exact h hid
  · revert hsuffix
    decide

theorem ownershipRoot_normal (repository : StateRepository) : NormalPath repository.ownershipRoot
    (repository.root.segments ++ [ascii "ownership"]) false :=
  repository.normal.join (by decide)

/-- The names on the way to an ownership record. -/
def ownershipSegments (repository : StateRepository) (id : Bytes) : List Bytes :=
  repository.root.segments ++ [ascii "ownership"] ++ [recordName id]

theorem ownershipPath_normal (repository : StateRepository) (h : validIdentifier id = true) :
    NormalPath (repository.ownershipPath id) (ownershipSegments repository id) false :=
  (ownershipRoot_normal repository).join (plain_recordName (slash_not_mem_identifier h))

/-! ## Writing and reading -/

theorem closed_recorded (h : manifest.sorted.Closed) : manifest.recorded.Closed :=
  h.renamed h.identified rfl rfl

theorem sorted_recorded (manifest : OwnershipManifest) :
    manifest.recorded.sorted = manifest.recorded :=
  congrArg (fun sorted : OwnershipManifest =>
    { sorted with manifestDigest := ownershipDigest manifest.sorted }) (sorted_sorted manifest)

theorem utf8_recorded (h : manifest.Utf8) : manifest.recorded.Utf8 :=
  ⟨h.targetRoot, fun file hfile => h.files file ((sortFiles_perm _).mem_iff.mp hfile),
    fun directory hdirectory => h.directories directory
      ((sortDirectories_perm _).mem_iff.mp hdirectory)⟩

theorem OwnershipManifest.Closed.validIdentifier (h : manifest.Closed) :
    validIdentifier manifest.manifestId = true := by
  have hidentified := h.identified
  simp only [OwnershipManifest.identified, Bool.and_eq_true] at hidentified
  exact hidentified.1.1.1.1

/-- What `write_ownership` does. -/
structure WroteOwnership (repository : StateRepository) (disk : Disk) (manifest : OwnershipManifest)
    (disk' : Disk) : Prop where
  closed : manifest.sorted.Closed
  short : (repository.ownershipPath manifest.manifestId).native.length < Disk.pathMax
  added : disk.addFile (ownershipSegments repository manifest.manifestId)
    (ownershipRecord manifest.recorded) = some disk'

theorem writeOwnership_eq_ok {repository : StateRepository} {disk' : Disk}
    {written : OwnershipManifest}
    (h : repository.writeOwnership disk manifest = .ok (written, disk')) :
    written = manifest.recorded ∧ WroteOwnership repository disk manifest disk' := by
  simp only [StateRepository.writeOwnership, bind_eq_ok, validateOwnership_eq_ok] at h
  obtain ⟨-, -, _, ⟨hclosed, rfl⟩, _, hwrite, h⟩ := h
  cases h
  have hpath := ownershipPath_normal repository hclosed.validIdentifier
  obtain ⟨hshort, hadd⟩ := Disk.writeNewDurableText_eq_ok hwrite
  rw [hpath.lexicallyNormal, hpath.segments_eq] at hadd
  exact ⟨rfl, hclosed, hshort, hadd⟩

/-- The reader decodes the record that was written, whatever else it does. -/
theorem WroteOwnership.readOwnership_iff {repository : StateRepository} {disk' : Disk}
    {found : OwnershipManifest} (h : WroteOwnership repository disk manifest disk')
    (hsize : (ownershipRecord manifest.recorded).length ≤ maximumOwnershipBytes) :
    repository.readOwnership disk' manifest.manifestId = .ok found ↔
      decodeOwnershipRecord (ownershipRecord manifest.recorded) manifest.manifestId =
        .ok found := by
  have hid : validIdentifier manifest.manifestId = true := h.closed.validIdentifier
  have hpath := ownershipPath_normal repository hid
  have hread : ∀ text, disk'.readStableText
      (repository.ownershipPath manifest.manifestId).lexicallyNormal maximumOwnershipBytes =
        .ok text ↔ text = ownershipRecord manifest.recorded := by
    intro text
    rw [hpath.lexicallyNormal, Disk.readStableText_addFile h.added hpath h.short]
    exact and_iff_left hsize
  simp only [StateRepository.readOwnership, bind_eq_ok, demand_eq_ok, hread]
  constructor
  · rintro ⟨-, -, _, rfl, hdecode⟩
    exact hdecode
  · intro hdecode
    exact ⟨(), hid, _, rfl, hdecode⟩

/-- What is read has passed the validation. -/
theorem closed_of_read {repository : StateRepository}
    (h : repository.readOwnership disk id = .ok manifest) : manifest.Closed := by
  simp only [StateRepository.readOwnership, decodeOwnershipRecord, parseOwnership, bind_eq_ok] at h
  obtain ⟨_, -, _, -, _, -, _, -, _, -, _, ⟨_, -, _, -, _, -, hvalid⟩, _, -, _, -, h⟩ := h
  cases h
  obtain ⟨hclosed, rfl⟩ := validateOwnership_eq_ok.mp hvalid
  exact hclosed

/-- A manifest that passes validation can be written where no record of its name is. -/
theorem writeOwnership_succeeds {repository : StateRepository} (hclosed : manifest.sorted.Closed)
    (hsafe : disk.requireSafeDirectory repository.ownershipRoot = .ok ())
    (hshort : (repository.ownershipPath manifest.manifestId).native.length < Disk.pathMax)
    (hfree : disk.tree.find (ownershipSegments repository manifest.manifestId) = none) :
    ∃ disk', repository.writeOwnership disk manifest = .ok (manifest.recorded, disk') := by
  have hid : validIdentifier manifest.manifestId = true := hclosed.validIdentifier
  have hpath := ownershipPath_normal repository hid
  have hroot := ownershipRoot_normal repository
  obtain ⟨disk', hadd⟩ := Disk.exists_addFile (ownershipRecord manifest.recorded) hfree
    (Disk.hasParent_of_safe hroot hsafe _) hpath.plain
  have hwrite := Disk.writeNewDurableText_of_added hroot hpath hsafe hshort hadd
  simp only [StateRepository.writeOwnership, bind_eq_ok, validateOwnership_eq_ok]
  exact ⟨disk', (), hsafe, manifest.sorted, ⟨hclosed, rfl⟩, disk', hwrite, rfl⟩

/-- A state directory without records. -/
def sampleDisk : Disk :=
  .ofEntries [([], .directory 1 1), ([ascii "ownership"], .directory 1 2),
    ([ascii "installed"], .directory 1 3)] (by decide +kernel)

def sampleRepository : StateRepository :=
  ⟨⟨ascii "/"⟩, isNormal_root⟩

/-- The manifest of an installation with one file in one directory. -/
def sampleManifest : OwnershipManifest :=
  { manifestId := ascii "ownership.editor.t1"
    manifestDigest := []
    installId := ascii "editor"
    targetRoot := ascii "/opt/editor"
    createdByTransactionId := ascii "t1"
    files := [⟨ascii "bin/editor", List.replicate 64 0x30, 5⟩]
    directories := [ascii "bin"] }

theorem closed_sampleManifest : sampleManifest.sorted.Closed where
  identified := by decide +kernel
  safeFiles := by decide +kernel
  digests := by decide +kernel
  distinctFiles := by decide +kernel
  safeDirectories := by decide +kernel
  distinctDirectories := by decide +kernel
  apart := by decide +kernel
  parents := by decide +kernel

theorem utf8_sampleManifest : sampleManifest.Utf8 where
  targetRoot := validUtf8_of_ascii (by decide +kernel)
  files := List.forall_mem_singleton.mpr (validUtf8_of_ascii (by decide +kernel))
  directories := List.forall_mem_singleton.mpr (validUtf8_of_ascii (by decide +kernel))

/-- Manifests under the name of the sample can be written to the empty directory. -/
theorem sample_writes {manifest : OwnershipManifest}
    (hid : manifest.manifestId = sampleManifest.manifestId) (hclosed : manifest.sorted.Closed) :
    ∃ disk, sampleRepository.writeOwnership sampleDisk manifest =
      .ok (manifest.recorded, disk) := by
  refine writeOwnership_succeeds hclosed (by decide +kernel) ?_ ?_
  · rw [hid]
    decide +kernel
  · rw [hid]
    decide +kernel

/-- A written manifest is read back exactly if its record keeps to the limits of the parser. -/
theorem written_ownership_is_read {repository : StateRepository} {disk disk' : Disk}
    {manifest written : OwnershipManifest} (hutf8 : manifest.Utf8)
    (hwrite : repository.writeOwnership disk manifest = .ok (written, disk'))
    (hsize : (ownershipRecord manifest.recorded).length ≤ maximumOwnershipBytes) :
    repository.readOwnership disk' manifest.manifestId = .ok written ↔
      (ownershipRecord manifest.recorded).length ≤ ParseLimits.maxBytes {} ∧
        9 + 2 * manifest.directories.length + 4 * manifest.files.length ≤
          ParseLimits.maxValues {} := by
  obtain ⟨rfl, hwrote⟩ := writeOwnership_eq_ok hwrite
  rw [hwrote.readOwnership_iff hsize]
  have hdecode := decodeOwnershipRecord_iff (closed_recorded hwrote.closed)
    (sorted_recorded manifest) (utf8_recorded hutf8) rfl hsize
  have hdirectories : manifest.recorded.directories.length = manifest.directories.length :=
    (sortDirectories_perm _).length_eq
  have hfiles : manifest.recorded.files.length = manifest.files.length :=
    (sortFiles_perm _).length_eq
  rw [hdirectories, hfiles] at hdecode
  exact hdecode

/-- The manifest is written to the sample disk and read back. -/
theorem sampleManifest_is_read : ∃ disk,
    sampleRepository.writeOwnership sampleDisk sampleManifest =
      .ok (sampleManifest.recorded, disk) ∧
      sampleRepository.readOwnership disk sampleManifest.manifestId =
        .ok sampleManifest.recorded := by
  obtain ⟨disk, hwrite⟩ := sample_writes rfl closed_sampleManifest
  have hlength : (ownershipRecord sampleManifest.recorded).length ≤ 300000 := by
    refine (@ownershipRecord_length_le _ (closed_recorded closed_sampleManifest)
      (validSha256_sha256 _) 16 ?_ ?_).trans ?_
    · decide +kernel
    · decide +kernel
    · decide +kernel
  refine ⟨disk, hwrite, (written_ownership_is_read utf8_sampleManifest hwrite ?_).mpr ⟨?_, ?_⟩⟩
  · exact hlength.trans (by decide)
  · exact hlength.trans (by decide)
  · decide

/-! ## A manifest that is not read back -/

theorem safeRelative_of_digits {value : Bytes} (hshort : 2 < value.length)
    (hlong : value.length ≤ 4096) (hdigits : value.all isDigit = true) :
    safeRelative value = true := by
  have hnot : ∀ {c : UInt8}, isDigit c = false → c ∉ value := by
    intro c hc hmem
    rw [List.all_eq_true.mp hdigits c hmem] at hc
    cases hc
  have hhead : ∀ {c : UInt8}, isDigit c = false → value.head? ≠ some c :=
    fun hc heq => hnot hc (List.mem_of_mem_head? heq)
  have hne : ∀ {other : Bytes}, other.length ≤ 2 → value ≠ other := by
    rintro _ hother rfl
    omega
  simp only [safeRelative, safeText, safePart, Bool.and_eq_true, Bool.or_eq_true,
    Bool.or_eq_false_iff, beq_eq_false_iff_ne, bne_iff_ne, ne_eq, decide_eq_true_eq,
    Bool.not_eq_true', List.contains_eq_mem, decide_eq_false_iff_not,
    splitSlash_of_not_mem (hnot (by decide)), safeParts, List.isEmpty_eq_false_iff]
  exact ⟨⟨⟨⟨⟨⟨hne (by decide), hlong⟩, hhead (by decide)⟩, hhead (by decide)⟩, hnot (by decide)⟩,
    hnot (by decide)⟩, .inr ⟨⟨hne (by decide), hne (by decide)⟩, hne (by decide)⟩⟩

/-- A manifest with so many directories. -/
def manyDirectories (count : Nat) : OwnershipManifest :=
  { sampleManifest with
    files := []
    directories := (List.range count).map (padded 5) }

section Many

variable {count : Nat}

theorem ordered_manyDirectories (h : count ≤ 10 ^ 5) :
    (manyDirectories count).directories.Pairwise fun left right => left < right := by
  refine List.pairwise_map.mpr (List.pairwise_lt_range.imp_of_mem fun {a b} _ hb hlt => ?_)
  exact padded_lt ((List.mem_range.mp hb).trans_le h) hlt

theorem sorted_manyDirectories (h : count ≤ 10 ^ 5) :
    (manyDirectories count).sorted = manyDirectories count := by
  have hdirectories : sortDirectories (manyDirectories count).directories =
      (manyDirectories count).directories :=
    ((ordered_manyDirectories h).imp fun hlt => List.le_of_lt hlt).insertionSort_eq
  unfold OwnershipManifest.sorted
  rw [hdirectories]
  rfl

theorem closed_manyDirectories (h : count ≤ 10 ^ 5) : (manyDirectories count).Closed where
  identified := closed_sampleManifest.identified
  safeFiles := List.forall_mem_nil _
  digests := List.forall_mem_nil _
  distinctFiles := List.nodup_nil
  safeDirectories := List.forall_mem_map.mpr fun n _ => safeRelative_of_digits
    (by rw [padded_length]; decide) (by rw [padded_length]; decide) (isDigit_padded 5 n)
  distinctDirectories := (ordered_manyDirectories h).imp fun {a b} hlt (heq : a = b) =>
    List.lt_irrefl b (heq ▸ hlt)
  apart := List.forall_mem_nil _
  parents := List.forall_mem_nil _

theorem utf8_manyDirectories (count : Nat) : (manyDirectories count).Utf8 where
  targetRoot := utf8_sampleManifest.targetRoot
  files := List.forall_mem_nil _
  directories := List.forall_mem_map.mpr fun n _ => validUtf8_of_ascii fun _ hc =>
    isDigit_ascii (List.all_eq_true.mp (isDigit_padded 5 n) _ hc)

theorem manyDirectories_length_le (h : count ≤ 10 ^ 5) :
    (ownershipRecord (manyDirectories count).recorded).length ≤ 250000 + count * 52 := by
  have hclosed : (manyDirectories count).sorted.Closed :=
    (sorted_manyDirectories h).symm ▸ closed_manyDirectories h
  have hlist : (manyDirectories count).recorded.directories = (List.range count).map (padded 5) :=
    congrArg OwnershipManifest.directories (sorted_manyDirectories h)
  have hle := @ownershipRecord_length_le _ (closed_recorded hclosed) (validSha256_sha256 _) 5
    (List.forall_mem_nil _) (by
      rw [hlist]
      exact List.forall_mem_map.mpr fun n _ => (padded_length 5 n).le)
  rw [hlist, List.length_map, List.length_range] at hle
  exact hle.trans (Nat.le_of_eq (by
    show 250000 + count * 52 + 0 * 530 = _
    omega))

end Many

/-- The record of a manifest with 50000 directories is far below the bound of the reader and has
more values than the parser takes. -/
theorem manyDirectories_unreadable : ∃ written disk, (manyDirectories 50000).Utf8 ∧
    sampleRepository.writeOwnership sampleDisk (manyDirectories 50000) = .ok (written, disk) ∧
    (ownershipRecord (manyDirectories 50000).recorded).length ≤ maximumOwnershipBytes ∧
    sampleRepository.readOwnership disk (manyDirectories 50000).manifestId ≠ .ok written := by
  obtain ⟨count, hcount⟩ : ∃ count, count = 50000 := ⟨_, rfl⟩
  rw [← hcount]
  have hbound : count ≤ 10 ^ 5 := hcount.le.trans (by decide)
  have hclosed : (manyDirectories count).sorted.Closed :=
    (sorted_manyDirectories hbound).symm ▸ closed_manyDirectories hbound
  obtain ⟨disk, hwrite⟩ := @sample_writes (manyDirectories count) rfl hclosed
  have hsize :
    (ownershipRecord (manyDirectories count).recorded).length ≤ maximumOwnershipBytes := by
    have hle := manyDirectories_length_le hbound
    unfold maximumOwnershipBytes
    omega
  refine ⟨_, disk, utf8_manyDirectories count, hwrite, hsize, fun hread => ?_⟩
  rw [(writeOwnership_eq_ok hwrite).2.readOwnership_iff hsize] at hread
  have hvalues := ((decodeOwnershipRecord_iff (closed_recorded hclosed) (sorted_recorded _)
    (utf8_recorded (utf8_manyDirectories count)) rfl hsize).mp hread).2
  have hlength : (manyDirectories count).recorded.directories.length = count := by
    rw [show (manyDirectories count).recorded.directories = (List.range count).map (padded 5) from
      congrArg OwnershipManifest.directories (sorted_manyDirectories hbound), List.length_map,
      List.length_range]
  rw [hlength, hcount] at hvalues
  have hmax : ParseLimits.maxValues {} = 100000 := rfl
  omega

end Usk.State

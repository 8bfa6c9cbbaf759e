import UniversalSetup.Base.RelativePath
import UniversalSetup.State.Ownership

/-!
# Manifests as directory trees

A manifest describes a directory tree if its files and directories can stand side by side: no file
is on the way to another entry, and every directory on the way is listed. Entries are compared by
their names here. `validate_ownership` compares texts, and looks at the parents of the files only.
-/

namespace Usk.State

open Json

theorem relativeText_of_safe {value : Bytes} (h : safeRelative value = true) :
    ∃ names trailing, RelativeText value names trailing :=
  relativeText_of_safeText rfl h

/-- The names of a safe path are plain. -/
theorem plainName_of_safeRelative {value : Bytes} (h : safeRelative value = true) :
    ∀ n ∈ (⟨value⟩ : Path).segments, PlainName n := by
  intro n hn
  rw [Path.segments_eq_filter, List.mem_filter] at hn
  simp only [safeRelative, safeText, Bool.and_eq_true] at h
  have hne : n ≠ [] := by simpa using hn.2
  have hsafe := (safe_of_safeParts h.2).2 n hn.1 hne
  simp only [safePart, Bool.not_eq_true', Bool.or_eq_false_iff, beq_eq_false_iff_ne] at hsafe
  exact ⟨hne, not_slash_of_mem_splitSlash hn.1, hsafe.1.2, hsafe.2⟩

theorem relative_of_safeRelative {value : Bytes} (h : safeRelative value = true) :
    (⟨value⟩ : Path).isEmpty = false ∧ (⟨value⟩ : Path).isAbsolute = false := by
  simp only [safeRelative, safeText, Bool.and_eq_true, bne_iff_ne] at h
  refine ⟨?_, ?_⟩
  · rw [Path.isEmpty, List.isEmpty_eq_false_iff]
    exact h.1.1.1.1.1.1
  · rw [Path.isAbsolute, beq_eq_false_iff_ne]
    exact h.1.1.1.1.2

/-- The names of an entry. -/
def entryNames (value : Bytes) : List Bytes :=
  (Path.ofText value).segments

/-- The parents that the loop of `validate_ownership` goes through. A slash at the end makes the
path without it a parent. -/
theorem mem_parentPaths {value parent : Bytes} {names : List Bytes} {trailing : Bool}
    (h : RelativeText value names trailing) :
    parent ∈ parentPaths value ↔ ∃ above, above ≠ [] ∧ above <+: names ∧
      (trailing = false → above ≠ names) ∧ parent = joinSlash above := by
  simp only [parentPaths, List.mem_map, mem_inits_between, Path.ofText, h.pathNames]
  constructor
  · rintro ⟨above, ⟨hne, hpre, hproper⟩, rfl⟩
    cases trailing with
    | false =>
      rw [if_neg Bool.false_ne_true, List.append_nil] at hpre hproper
      exact ⟨above, hne, hpre, fun _ => hproper, rfl⟩
    | true =>
      rw [if_pos rfl] at hpre hproper
      refine ⟨above, hne, ?_, fun hf => absurd hf.symm Bool.false_ne_true, rfl⟩
      exact (List.prefix_concat_iff.mp hpre).resolve_left hproper
  · rintro ⟨above, hne, hpre, hproper, rfl⟩
    refine ⟨above, ⟨hne, hpre.trans (List.prefix_append _ _), fun heq => ?_⟩, rfl⟩
    cases trailing with
    | false =>
      rw [if_neg Bool.false_ne_true, List.append_nil] at heq
      exact hproper rfl heq
    | true =>
      have hlength := hpre.length_le
      rw [heq, if_pos rfl, List.length_append, List.length_singleton] at hlength
      omega

/-- The names lead through listed directories. -/
def OwnershipManifest.Lists (manifest : OwnershipManifest) (names : List Bytes) : Prop :=
  ∀ above, above ≠ [] → above <+: names → above ≠ names →
    ∃ directory ∈ manifest.directories, entryNames directory = above

/-- The manifest of a directory tree. -/
structure OwnershipManifest.Realizable (manifest : OwnershipManifest) : Prop where
  files : ∀ file ∈ manifest.files, ∀ other ∈ manifest.files, file ≠ other →
    ¬entryNames file.relativePath <+: entryNames other.relativePath
  directories : ∀ file ∈ manifest.files, ∀ directory ∈ manifest.directories,
    ¬entryNames file.relativePath <+: entryNames directory
  fileParents : ∀ file ∈ manifest.files, manifest.Lists (entryNames file.relativePath)
  directoryParents : ∀ directory ∈ manifest.directories, manifest.Lists (entryNames directory)

/-- What the validation leaves open. -/
structure OwnershipManifest.Tidy (manifest : OwnershipManifest) : Prop where
  files : ∀ file ∈ manifest.files, file.relativePath.getLast? ≠ some 0x2f
  apart : ∀ file ∈ manifest.files, file.relativePath ++ [0x2f] ∉ manifest.directories
  directoryParents : ∀ directory ∈ manifest.directories, manifest.Lists (entryNames directory)

section

variable {manifest : OwnershipManifest} (hclosed : manifest.Closed)

include hclosed

theorem OwnershipManifest.Closed.tidy_of_realizable (h : manifest.Realizable) : manifest.Tidy := by
  refine ⟨fun file hfile hend => ?_, fun file hfile hmem => ?_, h.directoryParents⟩
  · -- the path without its slash is listed as a directory
    obtain ⟨names, trailing, htext⟩ := relativeText_of_safe (hclosed.safeFiles file hfile)
    have hmem := hclosed.parents file hfile (joinSlash names) ((mem_parentPaths htext).mpr
      ⟨names, htext.nonempty, List.prefix_refl _, fun hf => absurd (htext.trailing_iff.mpr hend)
        (Bool.eq_false_iff.mp hf), rfl⟩)
    refine h.directories file hfile _ hmem ?_
    unfold entryNames Path.ofText
    rw [htext.segments_eq, segments_joinSlash htext.named]
  · obtain ⟨names, trailing, htext⟩ := relativeText_of_safe (hclosed.safeDirectories _ hmem)
    have hspelled := htext.spelled_of_trailing (by rw [List.getLast?_concat])
    refine h.directories file hfile _ hmem ?_
    unfold entryNames Path.ofText
    rw [htext.segments_eq, List.append_cancel_right hspelled,
      segments_joinSlash htext.named]

/-- A file is no listed directory. -/
theorem OwnershipManifest.Closed.entryNames_ne (h : manifest.Tidy) {file : OwnedFile}
    (hfile : file ∈ manifest.files) {directory : Bytes}
      (hdirectory : directory ∈ manifest.directories) :
    entryNames file.relativePath ≠ entryNames directory := by
  intro heq
  obtain ⟨names, trailing, htext⟩ := relativeText_of_safe (hclosed.safeFiles file hfile)
  obtain ⟨names', trailing', htext'⟩ :=
    relativeText_of_safe (hclosed.safeDirectories directory hdirectory)
  unfold entryNames Path.ofText at heq
  rw [htext.segments_eq, htext'.segments_eq] at heq
  have hspelled := htext.spelled_of_not_trailing (h.files file hfile)
  by_cases hend : directory.getLast? = some 0x2f
  · refine h.apart file hfile ?_
    rw [hspelled, heq, ← htext'.spelled_of_trailing hend]
    exact hdirectory
  · refine hclosed.apart file hfile ?_
    rw [hspelled, heq, ← htext'.spelled_of_not_trailing hend]
    exact hdirectory

theorem OwnershipManifest.Closed.lists_file {file : OwnedFile}
    (hfile : file ∈ manifest.files) : manifest.Lists (entryNames file.relativePath) := by
  obtain ⟨names, trailing, htext⟩ := relativeText_of_safe (hclosed.safeFiles file hfile)
  intro above hne hpre hproper
  unfold entryNames Path.ofText at hpre hproper
  rw [htext.segments_eq] at hpre hproper
  refine ⟨joinSlash above, hclosed.parents file hfile _ ((mem_parentPaths htext).mpr
    ⟨above, hne, hpre, fun _ => hproper, rfl⟩), ?_⟩
  exact segments_joinSlash fun n hn => htext.named n (hpre.subset hn)

/-- No file is on the way along names whose leading parts are listed. -/
theorem OwnershipManifest.Closed.not_above (h : manifest.Tidy) {file : OwnedFile}
    (hfile : file ∈ manifest.files) {names : List Bytes} (hlists : manifest.Lists names)
    (hne : entryNames file.relativePath ≠ names) : ¬entryNames file.relativePath <+: names := by
  intro hpre
  obtain ⟨own, trailing, htext⟩ := relativeText_of_safe (hclosed.safeFiles file hfile)
  have hnonempty : entryNames file.relativePath ≠ [] := by
    unfold entryNames Path.ofText
    rw [htext.segments_eq]
    exact htext.nonempty
  obtain ⟨directory, hdirectory, heq⟩ := hlists _ hnonempty hpre hne
  exact hclosed.entryNames_ne h hfile hdirectory heq.symm

theorem OwnershipManifest.Closed.realizable_of_tidy (h : manifest.Tidy) : manifest.Realizable where
  files := by
    intro file hfile other hother hne
    refine hclosed.not_above h hfile (hclosed.lists_file hother) fun heq => hne ?_
    obtain ⟨names, trailing, htext⟩ := relativeText_of_safe (hclosed.safeFiles file hfile)
    obtain ⟨names', trailing', htext'⟩ := relativeText_of_safe (hclosed.safeFiles other hother)
    unfold entryNames Path.ofText at heq
    rw [htext.segments_eq, htext'.segments_eq] at heq
    refine List.inj_on_of_nodup_map hclosed.distinctFiles hfile hother ?_
    rw [htext.spelled_of_not_trailing (h.files file hfile), heq,
      ← htext'.spelled_of_not_trailing (h.files other hother)]
  directories := fun _ hfile _ hdirectory => hclosed.not_above h hfile
    (h.directoryParents _ hdirectory) (hclosed.entryNames_ne h hfile hdirectory)
  fileParents := fun _ hfile => hclosed.lists_file hfile
  directoryParents := h.directoryParents

end

/-- An accepted manifest describes a directory tree exactly if the parents of its directories are
listed too and no slash at the end of a path hides a conflict. -/
theorem accepted_manifest_realizable_iff {manifest valid : OwnershipManifest}
    (h : validateOwnership manifest = .ok valid) : valid.Realizable ↔ valid.Tidy := by
  obtain ⟨hclosed, rfl⟩ := validateOwnership_eq_ok.mp h
  exact ⟨hclosed.tidy_of_realizable, hclosed.realizable_of_tidy⟩

/-- A manifest with one file and one directory. -/
def pairManifest (file directory : Bytes) : OwnershipManifest :=
  { manifestId := ascii "manifest"
    manifestDigest := []
    installId := ascii "install"
    targetRoot := ascii "/opt/install"
    createdByTransactionId := ascii "transaction"
    files := [⟨file, List.replicate 64 0x30, 0⟩]
    directories := [directory] }

/-- A file in a listed directory can stand on a disk. -/
theorem file_in_directory_realizable :
    (pairManifest (ascii "bin/tool") (ascii "bin")).Realizable := by
  have hvalid : validateOwnership (pairManifest (ascii "bin/tool") (ascii "bin")) =
      .ok (pairManifest (ascii "bin/tool") (ascii "bin")) := toOption_eq_some.mp (by decide +kernel)
  refine (accepted_manifest_realizable_iff hvalid).mpr ⟨by decide +kernel, by decide +kernel, ?_⟩
  refine List.forall_mem_singleton.mpr fun above hne hpre hproper => ?_
  have hnames : entryNames (ascii "bin") = [ascii "bin"] := by decide +kernel
  rw [hnames] at hpre hproper
  rcases List.prefix_cons_iff.mp hpre with hnil | ⟨rest, rfl, hrest⟩
  · exact absurd hnil hne
  · rw [List.prefix_nil.mp hrest] at hproper
    exact absurd rfl hproper

/-- A file above a directory is accepted, where the directory above it is not listed. -/
theorem file_above_directory_accepted :
    validateOwnership (pairManifest (ascii "a") (ascii "a/b")) =
        .ok (pairManifest (ascii "a") (ascii "a/b")) ∧
      ¬(pairManifest (ascii "a") (ascii "a/b")).Realizable := by
  refine ⟨toOption_eq_some.mp (by decide +kernel), fun h => ?_⟩
  exact h.directories _ List.mem_cons_self _ List.mem_cons_self (by decide +kernel)

end Usk.State

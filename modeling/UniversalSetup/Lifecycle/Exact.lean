import UniversalSetup.Base.Shown
import UniversalSetup.Base.Stable
import UniversalSetup.Lifecycle.Verify
import UniversalSetup.State.Realizable

/-!
# Verification in the presence of links and permissions

`verify_manifest` over a file system in which links are followed and directories may be closed to
the process. A report that passes tells that the owned files are there with their content and that
no other path was met. It does not tell that the owned directories are there, since their status is
reported but not counted, and not what stands in directories that cannot be opened. With these two
the tree is the owned one (`pass_exact_iff`).
-/

namespace Usk.Lifecycle.Linked

open Json (Result bind_eq_ok)
open State Posix

variable {q : Path} {names : List Bytes}

/-! ## The report -/

/-- One round of the loop over the owned files. A path with no answer counts as missing. -/
def verifyFile (fs : FileSystem) (root : Path) (file : OwnedFile) : FileVerification :=
  let path := root.join ⟨file.relativePath⟩
  let item := fun status actual =>
    { relativePath := file.relativePath, status, expectedSha256 := file.sha256,
      actualSha256 := actual : FileVerification }
  match fs.status path, fs.symlinkStatus path with
  | .found _ (.file _ _ _ _ _), .found _ (.link _) => item .wrongType []
  | .found _ (.file _ _ _ _ _), _ =>
    match stableFile fs path with
    | .ok actual =>
      item (if actual.content.length == file.sizeBytes.toNat &&
          Usk.sha256 actual.content == file.sha256 then .present else .modified)
        (Usk.sha256 actual.content)
    | .error _ => item .unreadable []
  | .found _ _, _ => item .wrongType []
  | _, _ => item .missing []

/-- One round of the loop over the owned directories. -/
def verifyDirectory (fs : FileSystem) (root : Path) (directory : Bytes) : DirectoryVerification :=
  let path := root.join ⟨directory⟩
  match fs.status path, fs.symlinkStatus path with
  | .found _ (.directory _ _ _ _), .found _ (.link _) => ⟨directory, .wrongType⟩
  | .found _ (.directory _ _ _ _), _ => ⟨directory, .present⟩
  | .found _ _, _ => ⟨directory, .wrongType⟩
  | _, _ => ⟨directory, .missing⟩

/-- The root is a directory and no link. It is asked for without an error code, so that a look-up
that fails is thrown. -/
def rootPresent (fs : FileSystem) (root : Path) : Result Bool :=
  match fs.status root, fs.symlinkStatus root with
  | .failed, _ => .error "filesystem error: status"
  | .found _ (.directory _ _ _ _), .failed => .error "filesystem error: symlink_status"
  | .found _ (.directory _ _ _ _), .found _ (.link _) => .ok false
  | .found _ (.directory _ _ _ _), _ => .ok true
  | _, _ => .ok false

/-- The relative paths that the walk over the root comes to. Directories that cannot be opened are
skipped. -/
def pathsMet (fs : FileSystem) (root : Path) : List Bytes :=
  match fs.status root with
  | .found top _ => (entriesMet fs top).map fun e => joinSlash e.1
  | _ => []

/-- `verify_manifest` of the tree at a root. -/
def verifyManifest (fs : FileSystem) (state : InstalledState) (ownership : OwnershipManifest)
    (reportId verifiedAt : Bytes) (root : Path) : Result VerificationReport :=
  manifestReport (verifyFile fs root) (verifyDirectory fs root) (rootPresent fs root)
    (pathsMet fs root) state ownership reportId verifiedAt

/-! ## What a report tells -/

section

variable {fs : FileSystem} {root : Path}

/-- On one tree without links the verification of the other operations gives the same answers about
the owned directories and the root. -/
theorem verification_agrees {storage : Storage} {directory : Bytes} (h : Shows fs storage.disk)
    (hroot : root.isAbsolute = true) (hshort : root.native.length < Disk.pathMax)
    (hbelow : (root.join ⟨directory⟩).native.length < Disk.pathMax) :
    Lifecycle.verifyDirectory storage root directory = verifyDirectory fs root directory ∧
      ((storage.status root).map fun node => node.any Node.isDirectory) = rootPresent fs root := by
  constructor
  · obtain ⟨hstatus, hfailed, hsame⟩ := h.status (isAbsolute_join hroot _) hbelow
    rw [Lifecycle.verifyDirectory, verifyDirectory, hstatus, hsame]
    cases hfound : fs.status (root.join ⟨directory⟩) with
    | found place o => cases o <;> rfl
    | missing => rfl
    | failed => exact absurd hfound hfailed
  · obtain ⟨hstatus, hfailed, hsame⟩ := h.status hroot hshort
    rw [rootPresent, hstatus, hsame]
    cases hfound : fs.status root with
    | found place o => cases o <;> rfl
    | missing => rfl
    | failed => exact absurd hfound hfailed

/-- A file that is reported as present. -/
theorem verifyFile_present {file : OwnedFile} (h : (verifyFile fs root file).status = .present) :
    (∃ place device inode links readable content, fs.status (root.join ⟨file.relativePath⟩) =
      .found place (.file device inode links readable content)) ∧
    ∃ actual, stableFile fs (root.join ⟨file.relativePath⟩) = .ok actual ∧
      actual.content.length = file.sizeBytes.toNat ∧ Usk.sha256 actual.content = file.sha256 := by
  unfold verifyFile at h
  dsimp only at h
  split at h
  · cases h
  · next place device inode links readable content hstatus hlink =>
    refine ⟨⟨place, device, inode, links, readable, content, hstatus⟩, ?_⟩
    split at h
    · next actual hactual =>
      refine ⟨actual, hactual, ?_⟩
      dsimp only at h
      split at h
      · next hsame =>
        rw [Bool.and_eq_true, beq_iff_eq, beq_iff_eq] at hsame
        exact hsame
      · cases h
    · cases h
  · cases h
  · cases h

/-- A report that passes. -/
theorem of_pass {state : InstalledState} {ownership : OwnershipManifest}
    {reportId verifiedAt : Bytes} {report : VerificationReport}
    (h : verifyManifest fs state ownership reportId verifiedAt root = .ok report)
    (hpass : report.status = .pass) :
    rootPresent fs root = .ok true ∧
    (∀ file ∈ ownership.files, (verifyFile fs root file).status = .present) ∧
    ∀ path ∈ pathsMet fs root,
      path ∈ ownership.files.map OwnedFile.relativePath ++ ownership.directories := by
  have hsound : report.status ≠ .fail := by
    rw [hpass]
    decide
  obtain ⟨hroot, hfiles, hpaths⟩ := of_manifestReport h hsound
  exact ⟨hroot, hfiles, hpaths hpass⟩

end

/-! ## Owned paths -/

/-- The names of an owned path. -/
def ownedNames (relativePath : Bytes) : List Bytes :=
  Path.segments ⟨relativePath⟩

/-- The place belongs to the manifest. -/
def Owned (manifest : OwnershipManifest) (names : List Bytes) : Prop :=
  (∃ file ∈ manifest.files, ownedNames file.relativePath = names) ∨
    ∃ directory ∈ manifest.directories, ownedNames directory = names

/-- The tree below a place is exactly the owned one. -/
structure Exact (fs : FileSystem) (top : List Bytes) (manifest : OwnershipManifest) : Prop where
  files : ∀ file ∈ manifest.files, ∃ device inode links readable content,
    fs.find (top ++ ownedNames file.relativePath) =
      some (.file device inode links readable content) ∧
    content.length = file.sizeBytes.toNat ∧ Usk.sha256 content = file.sha256
  directories : ∀ directory ∈ manifest.directories,
    (fs.find (top ++ ownedNames directory)).any Object.isDirectory = true
  only : ∀ names, names ≠ [] → fs.find (top ++ names) ≠ none → Owned manifest names

/-- The names of a path are the owned ones, unless it ends in a slash. -/
theorem names_cases (value : Bytes) : (⟨value⟩ : Path).names = ownedNames value ∨
    (⟨value⟩ : Path).names = ownedNames value ++ [[]] := by
  unfold ownedNames
  rw [Path.segments_eq_filter]
  unfold Path.names
  dsimp only
  split
  · exact .inr rfl
  · exact .inl rfl

/-! ## Where paths lead -/

section

variable {fs : FileSystem} {root : Path} {segments top place found more : List Bytes}
  {last trailing : Bool} {budget : Nat} {o middle : Object}

/-- A slash at the end of a path asks for a directory. -/
theorem lookup_slash (h : fs.lookup last budget place [[]] = .found found o) :
    found = place ∧ o.isDirectory = true := by
  have hlook : ∀ follow, fs.look last follow place [[]] = .found found o →
      found = place ∧ o.isDirectory = true := by
    intro follow h
    rw [FileSystem.look] at h
    split at h
    · next hplace =>
      rw [if_pos rfl, FileSystem.look, hplace] at h
      cases h
      exact ⟨rfl, rfl⟩
    · cases h
  cases budget with
  | zero => exact hlook _ h
  | succ budget => exact hlook _ h

/-- The root leads to the same place with and without a slash at its end. -/
theorem lookup_root (hroot : NormalPath root segments trailing)
    (h : fs.status root = .found top o) :
    ∃ middle, fs.lookup true FileSystem.maximumLinks [] segments = .found top middle := by
  unfold FileSystem.status at h
  rw [hroot.names] at h
  cases trailing with
  | false =>
    rw [if_neg Bool.false_ne_true, List.append_nil] at h
    exact ⟨o, h⟩
  | true =>
    rw [if_pos rfl] at h
    obtain ⟨place, middle, left, hplace, hend⟩ := FileSystem.lookup_append (List.cons_ne_nil _ _) h
    obtain ⟨rfl, -⟩ := lookup_slash hend
    exact ⟨middle, hplace⟩

/-- What is found below the root is found from the place of the root. -/
theorem lookup_below (htop : fs.lookup true FileSystem.maximumLinks [] segments = .found top middle)
    (hmore : more ≠ [])
    (h : fs.lookup last FileSystem.maximumLinks [] (segments ++ more) = .found place o) :
    ∃ left, fs.lookup last left top more = .found place o := by
  obtain ⟨_, _, left, hfirst, hrest⟩ := FileSystem.lookup_append hmore h
  rw [htop] at hfirst
  cases hfirst
  exact ⟨left, hrest⟩

/-- What a stable file below the root is, if no link stands on the way. -/
theorem stableFile_below_root (hroot : NormalPath root segments trailing)
    (htop : fs.lookup true FileSystem.maximumLinks [] segments = .found top middle)
    (hq : q.isEmpty = false) (ha : q.isAbsolute = false) (hplain : ∀ n ∈ q.names, PlainName n)
    (hfree : fs.LinkFree top q.names) {actual : StableFile}
    (h : stableFile fs (root.join q) = .ok actual) :
    fs.find (top ++ q.names) = some (.file actual.device actual.inode 1 true actual.content) := by
  obtain ⟨place, hstatus⟩ := symlinkStatus_of_stableFile h
  unfold FileSystem.symlinkStatus at hstatus
  rw [(Path.normalPath_join hroot hq ha hplain).names, if_neg Bool.false_ne_true,
    List.append_nil] at hstatus
  obtain ⟨left, hfound⟩ := lookup_below htop (names_ne_nil_of_relative hq ha) hstatus
  rw [← List.append_nil q.names] at hfound
  refine @FileSystem.lookup_eq_found fs false false left q.names top place _ hplain ?_ hfound
  intro above hne hpre hend target
  obtain ⟨below, hbelow⟩ := hpre
  have hshort : above ≠ q.names := by
    rcases hend with hshort | hlast | hslash
    · exact hshort
    · cases hlast
    · cases hslash
  obtain ⟨front, name, rfl⟩ := (List.eq_nil_or_concat' above).resolve_left hne
  rw [← List.append_assoc]
  refine hfree front name below ?_ ?_ target
  · rw [← hbelow, List.append_assoc, List.singleton_append]
  · rintro rfl
    exact hshort (by rw [← hbelow, List.append_nil])

/-- A file is not reached over a path that ends in a slash. -/
theorem not_file_of_slash (hroot : NormalPath root segments trailing)
    (hq : q.isEmpty = false) (ha : q.isAbsolute = false) (hnames : q.names = names ++ [[]])
    {device inode : UInt64} {links : Nat} {readable : Bool} {content : Bytes} :
    fs.status (root.join q) ≠ .found place (.file device inode links readable content) := by
  intro h
  unfold FileSystem.status at h
  rw [Path.names_join root hq ha, hroot.segments_eq, hnames, ← List.append_assoc] at h
  obtain ⟨_, _, _, -, hend⟩ := FileSystem.lookup_append (List.cons_ne_nil _ _) h
  obtain ⟨-, hdirectory⟩ := lookup_slash hend
  cases hdirectory

end

section

variable {fs : FileSystem} {root : Path} {segments top : List Bytes} {trailing : Bool}
  {middle : Object} {ownership : OwnershipManifest}

theorem ownedNames_joinSlash (hne : names ≠ []) (hplain : ∀ n ∈ names, PlainName n) :
    ownedNames (joinSlash names) = names := by
  unfold ownedNames Path.segments
  rw [names_joinSlash hne (fun n hn => (hplain n hn).noSlash) fun n hn => (hplain n hn).nonempty]
  exact filter_nonempty hplain

/-- Where the owned directories are real, no link stands on the way to an owned file. -/
theorem linkFree_owned (hclosed : ownership.Closed)
    (hreal : ∀ directory ∈ ownership.directories,
      (fs.find (top ++ ownedNames directory)).any Object.isDirectory = true)
    {file : OwnedFile} (hfile : file ∈ ownership.files)
    (hnames : (⟨file.relativePath⟩ : Path).names = ownedNames file.relativePath) :
    fs.LinkFree top (ownedNames file.relativePath) := by
  intro above name below heq hbelow target htarget
  have hplain := plainName_of_safeRelative (hclosed.safeFiles file hfile)
  have hpre : above ++ [name] <+: ownedNames file.relativePath :=
    ⟨below, by rw [heq, List.append_assoc, List.singleton_append]⟩
  have hparent : joinSlash (above ++ [name]) ∈ parentPaths file.relativePath := by
    unfold parentPaths
    refine List.mem_map_of_mem ?_
    rw [show Path.names (Path.ofText file.relativePath) = _ from hnames]
    refine mem_inits_between.mpr ⟨by simp, hpre, ?_⟩
    rw [heq]
    intro hsame
    have hlength := congrArg List.length hsame
    have hpos := List.length_pos_iff.mpr hbelow
    simp only [List.length_append, List.length_cons, List.length_nil] at hlength
    omega
  have hdirectory := hreal _ (hclosed.parents file hfile _ hparent)
  rw [ownedNames_joinSlash (by simp) fun n hn => hplain n (hpre.subset hn), ← List.append_assoc,
    htarget] at hdirectory
  cases hdirectory

/-- A present file stands at its place, if the owned directories are real. -/
theorem file_of_present (hroot : NormalPath root segments trailing)
    (htop : fs.lookup true FileSystem.maximumLinks [] segments = .found top middle)
    (hclosed : ownership.Closed)
    (hreal : ∀ directory ∈ ownership.directories,
      (fs.find (top ++ ownedNames directory)).any Object.isDirectory = true)
    {file : OwnedFile} (hfile : file ∈ ownership.files)
    (h : (verifyFile fs root file).status = .present) :
    ∃ device inode links readable content, fs.find (top ++ ownedNames file.relativePath) =
        some (.file device inode links readable content) ∧
      content.length = file.sizeBytes.toNat ∧ Usk.sha256 content = file.sha256 := by
  obtain ⟨⟨place, device, inode, links, readable, content, hstatus⟩, actual, hactual, hsize,
    hsha⟩ := verifyFile_present h
  have hsafe := hclosed.safeFiles file hfile
  obtain ⟨hq, ha⟩ := relative_of_safeRelative hsafe
  rcases names_cases file.relativePath with hnames | hnames
  · have hfree := linkFree_owned hclosed hreal hfile hnames
    have hplain : ∀ n ∈ ownedNames file.relativePath, PlainName n :=
      plainName_of_safeRelative hsafe
    rw [← hnames] at hfree hplain ⊢
    exact ⟨_, _, _, _, _, stableFile_below_root hroot htop hq ha hplain hfree hactual, hsize, hsha⟩
  · exact absurd hstatus (not_file_of_slash hroot hq ha hnames)

theorem status_of_rootPresent (h : rootPresent fs root = .ok true) :
    ∃ top directory, fs.status root = .found top directory := by
  unfold rootPresent at h
  cases hstatus : fs.status root with
  | found top directory => exact ⟨top, directory, rfl⟩
  | missing =>
    rw [hstatus] at h
    cases h
  | failed =>
    rw [hstatus] at h
    cases h

/-- A path of the walk that the manifest lists is owned. -/
theorem owned_of_mem (hne : names ≠ []) (hplain : ∀ n ∈ names, PlainName n)
    (h : joinSlash names ∈ ownership.files.map OwnedFile.relativePath ++ ownership.directories) :
    Owned ownership names := by
  rcases List.mem_append.mp h with h | h
  · obtain ⟨file, hfile, heq⟩ := List.mem_map.mp h
    exact .inl ⟨file, hfile, by rw [heq, ownedNames_joinSlash hne hplain]⟩
  · exact .inr ⟨_, h, ownedNames_joinSlash hne hplain⟩

/-- What a passing report does not tell: the owned directories are there, and what stands in
directories that cannot be opened is owned. -/
structure Settled (fs : FileSystem) (top : List Bytes) (manifest : OwnershipManifest) : Prop where
  directories : ∀ directory ∈ manifest.directories,
    (fs.find (top ++ ownedNames directory)).any Object.isDirectory = true
  hidden : ∀ names, fs.find (top ++ names) ≠ none →
    (∃ above, above <+: names ∧ above ≠ names ∧ opens fs top above = false) → Owned manifest names

/-- A passing report is right about a tree just if the tree is settled. -/
theorem pass_exact_iff (hroot : NormalPath root segments trailing) {manifest : OwnershipManifest}
    (hvalid : validateOwnership manifest = .ok ownership) {state : InstalledState}
    {reportId verifiedAt : Bytes} {report : VerificationReport}
    (h : verifyManifest fs state ownership reportId verifiedAt root = .ok report)
    (hpass : report.status = .pass) :
    ∃ top directory, fs.status root = .found top directory ∧
      (Exact fs top ownership ↔ Settled fs top ownership) := by
  have hclosed : ownership.Closed := by
    obtain ⟨hclosed, rfl⟩ := validateOwnership_eq_ok.mp hvalid
    exact hclosed
  obtain ⟨hpresent, hfiles, hpaths⟩ := of_pass h hpass
  obtain ⟨top, directory, hstatus⟩ := status_of_rootPresent hpresent
  obtain ⟨middle, htop⟩ := lookup_root hroot hstatus
  refine ⟨top, directory, hstatus, fun hexact => ⟨hexact.directories, ?_⟩, ?_⟩
  · rintro names hfind ⟨above, hpre, hneq, -⟩
    refine hexact.only names ?_ hfind
    rintro rfl
    exact hneq (List.prefix_nil.mp hpre)
  · rintro ⟨hreal, hhidden⟩
    refine ⟨fun file hfile => ?_, hreal, fun names hne hfind => ?_⟩
    · exact file_of_present hroot htop hclosed hreal hfile (hfiles file hfile)
    · obtain ⟨o, ho⟩ := Option.ne_none_iff_exists'.mp hfind
      have hplain : ∀ n ∈ names, PlainName n := fun n hn =>
        FileSystem.plain_of_find ho n (List.mem_append_right _ hn)
      by_cases hopened : ∀ above, above <+: names → above ≠ names → opens fs top above = true
      · refine owned_of_mem hne hplain (hpaths _ ?_)
        unfold pathsMet
        rw [hstatus]
        exact List.mem_map_of_mem (f := fun e => joinSlash e.1)
          (mem_entriesMet.mpr ⟨hne, ho, hopened⟩)
      · simp only [not_forall, Bool.not_eq_true] at hopened
        obtain ⟨above, hpre, hneq, hclosed⟩ := hopened
        exact hhidden names hfind ⟨above, hpre, hneq, hclosed⟩

end

/-! ## An editor -/

def editorManifest : OwnershipManifest where
  manifestId := ascii "manifest-1"
  manifestDigest := []
  installId := ascii "editor"
  targetRoot := ascii "/t"
  createdByTransactionId := ascii "transaction-1"
  files := [⟨ascii "bin/editor", Usk.sha256 (ascii "a"), 1⟩]
  directories := [ascii "bin"]

/-- The directory of the editor is a link to another one. -/
def linkedEditor : FileSystem :=
  .ofEntries [([], .directory 1 1 true true), ([ascii "t"], .directory 1 2 true true),
    ([ascii "t", ascii "bin"], .link ⟨ascii "/o"⟩), ([ascii "o"], .directory 1 3 true true),
    ([ascii "o", ascii "editor"], .file 1 4 1 true (ascii "a"))] (by decide)

def installedEditor : FileSystem :=
  .ofEntries [([], .directory 1 1 true true), ([ascii "t"], .directory 1 2 true true),
    ([ascii "t", ascii "bin"], .directory 1 3 true true),
    ([ascii "t", ascii "bin", ascii "editor"], .file 1 4 1 true (ascii "a"))] (by decide)

/-- The report passes although the file is reached over a link and the directory is none. -/
theorem linked_directory_passes :
    validateOwnership editorManifest = .ok editorManifest ∧
    (verifyManifest linkedEditor (stateOf editorManifest) editorManifest (ascii "r") (ascii "v")
      (.ofParts true [ascii "t"])).toOption.map (fun report => report.status) = some .pass ∧
    linkedEditor.find ([ascii "t"] ++ ownedNames (ascii "bin")) = some (.link ⟨ascii "/o"⟩) ∧
    linkedEditor.find ([ascii "t"] ++ ownedNames (ascii "bin/editor")) = none := by
  refine ⟨?_, ?_, ?_, ?_⟩ <;> decide +kernel

/-- The installation of the editor passes its verification. -/
theorem installed_editor_exact : ∃ top directory,
    installedEditor.status (.ofParts true [ascii "t"]) = .found top directory ∧
    (Exact installedEditor top editorManifest ↔ Settled installedEditor top editorManifest) := by
  have hroot : NormalPath (.ofParts true [ascii "t"]) [ascii "t"] false :=
    normalPath_ofParts (@FileSystem.plain_of_find installedEditor _ _ rfl)
  have hvalid : validateOwnership editorManifest = .ok editorManifest := by decide +kernel
  have hstatus : (verifyManifest installedEditor (stateOf editorManifest) editorManifest (ascii "r")
      (ascii "v") (.ofParts true [ascii "t"])).toOption.map (fun report => report.status) =
        some .pass := by decide +kernel
  obtain ⟨report, hreport, hpass⟩ := Option.map_eq_some_iff.mp hstatus
  exact pass_exact_iff hroot hvalid (Json.toOption_eq_some.mp hreport) hpass

end Usk.Lifecycle.Linked

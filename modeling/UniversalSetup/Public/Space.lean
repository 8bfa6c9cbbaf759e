import UniversalSetup.Lifecycle.Agreement
import UniversalSetup.Public.Plan
import UniversalSetup.State.Realizable

/-!
# The space for a move

`move.plan` asks for the recorded sizes of the owned files and an overhead at the destination, while
`apply_move` copies the complete tree there, with the files that the manifest does not list. The
sizes of the owned files are the recorded ones, because a damaged installation is not moved. So the
space is enough exactly if the unlisted files fit into the overhead.
-/

namespace Usk.Public

open Json Lifecycle Policy State

variable {p root : Path} {content installId : Bytes} {state : InstalledState} {host : PublicHost}
  {config : PublicConfig} {storage : Storage} {manifest : OwnershipManifest}
  {repository : StateRepository} {plan : MovePlan}

/-- What the staging loop of `apply_move` copies. -/
def copiedBytes (plan : MovePlan) : Nat :=
  (plan.completeFiles.map fun entry => entry.file.sizeBytes.toNat).sum

/-- The files below a directory. -/
def treeFiles (storage : Storage) (root : Path) : List PreimageFile :=
  (listingEntries (storage.disk.tree.part root.segments)).filterMap preimageOf

/-- The manifest lists the file. -/
def listed (manifest : OwnershipManifest) (file : PreimageFile) : Bool :=
  (manifest.files.map OwnedFile.relativePath).contains file.relativePath

/-- The size of the files that the manifest does not list. -/
def unlistedBytes (manifest : OwnershipManifest) (files : List PreimageFile) : Nat :=
  ((files.filter fun file => !listed manifest file).map fun file => file.sizeBytes.toNat).sum

/-! ## Owned files in the tree -/

theorem directory_of_resolve_slash {disk : Disk} {place : List Bytes} :
    ∀ {names at' : List Bytes}, disk.resolve at' (names ++ [[]]) = some place →
      (disk.tree.find place).any Node.isDirectory = true
  | [], at', h => by
    rw [List.nil_append, Disk.resolve] at h
    split at h
    · next hdirectory =>
      rw [if_pos (.inl rfl), Disk.resolve] at h
      cases h
      exact hdirectory
    · cases h
  | name :: rest, at', h => by
    rw [List.cons_append, Disk.resolve] at h
    split at h
    · split at h
      · exact directory_of_resolve_slash h
      · split at h
        · exact directory_of_resolve_slash h
        · exact directory_of_resolve_slash h
    · cases h

/-- The last component of a path to a file is a name. -/
theorem names_of_status {links : Nat} (h : storage.status p = .ok (some (.file content links)))
    (names : List Bytes) : (storage.fromRoot p).names ≠ names ++ [[]] := by
  intro hnames
  unfold Storage.status at h
  split at h
  · cases h
  · split at h
    · rw [hnames] at h
      obtain ⟨place, hplace, hfind⟩ := Option.bind_eq_some_iff.mp (Except.ok.inj h)
      have hdirectory := directory_of_resolve_slash hplace
      rw [hfind] at hdirectory
      cases hdirectory
    · cases h

theorem stableFile_eq_ok {file : Bytes × FileStamp} (hp : p.isAbsolute = true)
    (h : storage.stableFile p = .ok file) :
    storage.disk.tree.find p.lexicallyNormal.segments = some (.file file.1 1) := by
  rw [Storage.stableFile, bind_eq_ok] at h
  obtain ⟨path, hpath, h⟩ := h
  rw [absoluteNormal_of_absolute hp hpath] at h
  rcases hnode : storage.disk.node p.lexicallyNormal with _ | _ | node
  · rw [hnode] at h
    cases h
  · rw [hnode] at h
    cases h
  · rw [hnode] at h
    cases node with
    | file content links =>
      simp only [bind_eq_ok, demand_eq_ok, beq_iff_eq] at h
      obtain ⟨_, rfl, h⟩ := h
      cases h
      exact Disk.find_of_node hnode
    | _ => cases h

/-- An owned file that is present stands in the tree, with the recorded size. -/
theorem find_of_present {file : OwnedFile} (hroot : root.isAbsolute = true)
    (hsafe : State.safeRelative file.relativePath = true)
    (h : (verifyFile storage root file).status = .present) : ∃ names content, names ≠ [] ∧
      joinSlash names = file.relativePath ∧
      storage.disk.tree.find (root.lexicallyNormal.segments ++ names) =
        some (.file content 1) ∧ UInt64.ofNat content.length = file.sizeBytes := by
  obtain ⟨hempty, habsolute⟩ := relative_of_safeRelative hsafe
  obtain ⟨names, trailing, htext⟩ := State.relativeText_of_safe hsafe
  have hjoin := Path.isAbsolute_join hroot habsolute
  unfold verifyFile at h
  dsimp only at h
  split at h
  · next content links hstatus =>
    have htrailing : trailing = false := by
      cases trailing with
      | false => rfl
      | true =>
        refine absurd ?_ (names_of_status hstatus (root.segments ++ names))
        rw [Storage.fromRoot, if_pos hjoin, Path.names_join root hempty habsolute, htext.pathNames,
          if_pos rfl, List.append_assoc]
    subst htrailing
    split at h
    · next actual hactual =>
      split at h
      · next hsame =>
        simp only [observeMaintenanceFile, bind_eq_ok] at hactual
        obtain ⟨found, hfound, hactual⟩ := hactual
        cases hactual
        rw [Bool.and_eq_true, beq_iff_eq] at hsame
        refine ⟨names, found.1, htext.nonempty, by simpa using htext.spelled.symm, ?_, hsame.1⟩
        have hfind := stableFile_eq_ok hjoin hfound
        have hplain := plainName_of_safeRelative hsafe
        rwa [Path.segments_normal_join hroot hempty habsolute hplain, htext.segments_eq] at hfind
      · cases h
    · cases h
  · cases h
  · cases h
  · cases h

/-- Every owned file of an installation that is not damaged is present. -/
theorem present_of_verified {reportId verifiedAt : Bytes} {report : VerificationReport}
    (h : verifyManifest storage state manifest reportId verifiedAt root = .ok report)
    (hsound : report.status ≠ .fail) :
    ∀ file ∈ manifest.files, (verifyFile storage root file).status = .present :=
  (of_manifestReport h hsound).2.1

theorem mem_treeFiles {names : List Bytes} {links : Nat} (hne : names ≠ [])
    (hfind : storage.disk.tree.find (root.segments ++ names) = some (.file content links)) :
    ⟨joinSlash names, sha256 content, UInt64.ofNat content.length⟩ ∈ treeFiles storage root := by
  have hentry : (⟨joinSlash names, sha256 content, UInt64.ofNat content.length, false⟩ :
      CanonicalPreimageEntry) ∈ listingEntries (storage.disk.tree.part root.segments) :=
    mem_listingEntries.mpr ⟨names, _, storage.disk.tree.mem_part.mpr hfind, hne, rfl⟩
  exact List.mem_filterMap.mpr ⟨_, hentry, rfl⟩

/-! ## The sizes -/

/-- What is listed has the recorded sizes. -/
theorem sum_listed {files : List PreimageFile} {manifest : OwnershipManifest}
    (hdistinct : (files.map (·.relativePath)).Nodup)
    (howned : (manifest.files.map OwnedFile.relativePath).Nodup)
    (hthere : ∀ owned ∈ manifest.files, ∃ file ∈ files,
      file.relativePath = owned.relativePath ∧ file.sizeBytes = owned.sizeBytes) :
    ((files.filter (listed manifest)).map fun file => file.sizeBytes.toNat).sum =
      (manifest.files.map fun file => file.sizeBytes.toNat).sum := by
  have hperm : ((files.filter (listed manifest)).map
        fun file => (file.relativePath, file.sizeBytes)).Perm
      (manifest.files.map fun file => (file.relativePath, file.sizeBytes)) := by
    rw [List.perm_ext_iff_of_nodup]
    · rintro ⟨path, size⟩
      simp only [List.mem_map, List.mem_filter, listed, List.contains_iff_mem, Prod.mk.injEq]
      constructor
      · rintro ⟨file, ⟨hfile, owned, hmem, hpath⟩, rfl, rfl⟩
        obtain ⟨other, hother, hpath', hsize⟩ := hthere owned hmem
        have hsame := List.inj_on_of_nodup_map hdistinct hother hfile (hpath'.trans hpath)
        rw [hsame] at hsize
        exact ⟨owned, hmem, hpath, hsize.symm⟩
      · rintro ⟨owned, hmem, rfl, rfl⟩
        obtain ⟨file, hfile, hpath, hsize⟩ := hthere owned hmem
        exact ⟨file, ⟨hfile, owned, hmem, hpath.symm⟩, hpath, hsize⟩
    · refine List.Nodup.of_map Prod.fst ?_
      rw [List.map_map]
      exact hdistinct.sublist (List.filter_sublist.map _)
    · refine List.Nodup.of_map Prod.fst ?_
      rwa [List.map_map]
  have hsum := (hperm.map fun pair => pair.2.toNat).sum_eq
  rwa [List.map_map, List.map_map] at hsum

theorem sum_filter_add (files : List PreimageFile) (p : PreimageFile → Bool) :
    (files.map fun file => file.sizeBytes.toNat).sum =
      ((files.filter p).map fun file => file.sizeBytes.toNat).sum +
        ((files.filter fun file => !p file).map fun file => file.sizeBytes.toNat).sum := by
  rw [← List.sum_append, ← List.map_append]
  exact ((List.filter_append_perm p files).symm.map _).sum_eq

/-- What the loop over the owned files adds up, without a wrap. -/
theorem requiredBytesOf_eq_ok : ∀ {files : List OwnedFile} {start required : Nat},
    start < 2 ^ 64 → requiredBytesOf start files = .ok required →
    required = start + (files.map fun file => file.sizeBytes.toNat).sum ∧ required < 2 ^ 64
  | [], start, required, hstart, h => by
    cases h
    exact ⟨rfl, hstart⟩
  | file :: rest, start, required, hstart, h => by
    simp only [requiredBytesOf, bind_eq_ok, require_eq_ok, decide_eq_true_eq] at h
    obtain ⟨_, hfits, h⟩ := h
    have hsize := file.sizeBytes.toNat_lt
    obtain ⟨hsum, hbound⟩ := requiredBytesOf_eq_ok (by omega) h
    rw [List.map_cons, List.sum_cons]
    exact ⟨by omega, hbound⟩

theorem requiredBytes_of_inspected {host : TargetHost} {activation : Activation}
    {request : TargetInspectionRequest} {inspected : InspectedTarget}
    (h : inspectAndEvaluateLiveTarget host activation request = .ok inspected) :
    inspected.evidence.requiredBytes = request.requiredBytes := by
  simp only [inspectAndEvaluateLiveTarget, bind_eq_ok] at h
  obtain ⟨evidence, hevidence, h⟩ := h
  cases h
  unfold inspectLiveTarget at hevidence
  split at hevidence
  · cases hevidence
    rfl
  · simp only [bind_eq_ok] at hevidence
    obtain ⟨_, -, _, -, _, -, _, -, hevidence⟩ := hevidence
    cases hevidence
    rfl

/-- The plan lists the files of the tree. -/
theorem completeTree_files {entries : List PreimageEntry}
    (h : completeTree storage root = .ok entries) :
    (entries.map PreimageEntry.file).Perm (treeFiles storage root) := by
  simp only [completeTree, readCompleteTree, bind_eq_ok] at h
  obtain ⟨_, ⟨_, -, walk, hwalk, _, -, hfiles⟩, h⟩ := h
  cases hfiles
  cases h
  rw [treeFiles, ← List.nil_append ((listingEntries _).filterMap preimageOf),
    ← (walkTree_eq hwalk).2, List.map_map]
  show (List.map id _).Perm _
  rw [List.map_id]
  exact List.perm_insertionSort _ _

theorem nodup_treeFiles (storage : Storage) (root : Path) :
    ((treeFiles storage root).map (·.relativePath)).Nodup := by
  have hnames : ∀ e ∈ storage.disk.tree.part root.segments, ∀ n ∈ e.1, EntryName n := by
    intro e he n hn
    have hmem := storage.disk.tree.mem_of_find (storage.disk.tree.mem_part.mp he)
    have hplain := storage.disk.plain _ hmem n (List.mem_append_right _ hn)
    exact ⟨hplain.nonempty, hplain.noSlash⟩
  exact (nodup_listingEntries (storage.disk.tree.distinct_part _) hnames).sublist
    (preimageOf_sublist _)

/-! ## The records of a plan -/

theorem installId_of_candidates {repository : StateRepository} {disk : Disk} {installId : Bytes} :
    ∀ {entries : List (Bytes × Node)} {candidates : List InstalledState},
      repository.readCandidates disk installId entries = .ok candidates →
        ∀ state ∈ candidates, state.installId = installId
  | [], _, h, state, hstate => by
    cases h
    cases hstate
  | entry :: rest, _, h, state, hstate => by
    simp only [StateRepository.readCandidates, bind_eq_ok] at h
    obtain ⟨candidate, -, others, hothers, h⟩ := h
    cases h
    split at hstate
    · next hsame =>
      rcases List.mem_cons.mp hstate with rfl | hstate
      · exact eq_of_beq hsame
      · exact installId_of_candidates hothers state hstate
    · exact installId_of_candidates hothers state hstate

theorem installId_of_read {disk : Disk} (h : repository.readInstalled disk installId = .ok state) :
    state.installId = installId := by
  simp only [StateRepository.readInstalled, bind_eq_ok] at h
  obtain ⟨_, -, _, -, candidates, hcandidates, h⟩ := h
  split at h
  · cases h
  · next result hlast =>
    simp only [bind_eq_ok] at h
    obtain ⟨_, -, h⟩ := h
    cases h
    have hmem := (List.perm_insertionSort _ _).mem_iff.mp (List.mem_of_getLast? hlast)
    exact installId_of_candidates hcandidates _ hmem

/-- The public command and the lifecycle read the same records. -/
theorem loadCurrent_of_read {ownershipName : Bytes} {installed : InstalledState}
    (hinstalled : currentInstall host config installId = .ok installed)
    (hopen : openState host.storage (lifecycleRoots config).stateRoot = .ok repository)
    (hname : ownershipId installed = .ok ownershipName)
    (hread : repository.readOwnership host.storage.disk ownershipName = .ok manifest) :
    loadCurrent host.storage (lifecycleRoots config) installed.installId =
      .ok (installed, manifest) := by
  simp only [currentInstall, bind_eq_ok, lift_eq_ok] at hinstalled
  obtain ⟨_, -, opened, hopened, hstate⟩ := hinstalled
  cases hopen.symm.trans hopened
  simp only [ownershipId, bind_eq_ok, require_eq_ok] at hname
  obtain ⟨_, hreference, hname⟩ := hname
  simp only [loadCurrent, ownershipIdFromRef, bind_eq_ok, demand_eq_ok]
  refine ⟨repository, hopen, installed, ?_, ownershipName, ⟨(), hreference, ?_⟩, manifest, hread,
    rfl⟩
  · rwa [installId_of_read hstate]
  · cases hname
    rfl

theorem isAbsolute_of_join {q : Path} (hq : q.isAbsolute = false)
    (h : (p.join q).isAbsolute = true) : p.isAbsolute = true := by
  unfold Path.join at h
  rw [hq, if_neg Bool.false_ne_true] at h
  unfold Path.isAbsolute
  cases hp : p.native with
  | nil =>
    rw [Path.isEmpty, hp, List.isEmpty_nil, Bool.true_or, if_pos rfl] at h
    exact absurd (hq.symm.trans h) Bool.false_ne_true
  | cons c rest =>
    rw [hp] at h
    split at h
    · exact h
    · exact h

/-- The root of an installation that a command works on is absolute. -/
theorem isAbsolute_of_policy {source : Path} {operation : String}
    {destination : Option InspectedTarget} {digest : Bytes}
    (h : operationPolicyDigest host config root source operation destination = .ok digest) :
    root.isAbsolute = true := by
  simp only [operationPolicyDigest, bind_eq_ok, lift_eq_ok, require_eq_ok] at h
  obtain ⟨_, -, _, -, current, hcurrent, _, haccepted, -⟩ := h
  exact isAbsolute_of_join (by decide) (isAbsolute_of_inspected hcurrent haccepted)

/-- What a move plan is made from. -/
theorem planMove_tree {roots : LifecycleRoots} {planId createdAt policyDigest : Bytes}
    {newRoot : Path} {current : InstalledState × OwnershipManifest}
    (h : planMove storage roots installId planId createdAt newRoot policyDigest = .ok plan)
    (hcurrent : loadCurrent storage roots installId = .ok current) :
    (∀ file ∈ current.2.files,
      (verifyFile storage ⟨current.1.targetRoot⟩ file).status = .present) ∧
    storage.absoluteNormal ⟨current.1.targetRoot⟩ = .ok plan.oldRoot ∧
    completeTree storage plan.oldRoot = .ok plan.completeFiles := by
  simp only [planMove, bind_eq_ok, demand_eq_ok] at h
  obtain ⟨_, -, found, hfound, report, hreport, _, hsound, oldRoot, hold, _, -, _, -, _, -, _, -,
    _, -, files, hfiles, _, -, _, -, h⟩ := h
  cases h
  cases hcurrent.symm.trans hfound
  exact ⟨present_of_verified hreport (bne_iff_ne.mp hsound), hold, hfiles⟩

theorem copiedBytes_of_tree (h : completeTree storage plan.oldRoot = .ok plan.completeFiles) :
    copiedBytes plan =
      ((treeFiles storage plan.oldRoot).map fun file => file.sizeBytes.toNat).sum := by
  have hsum := ((completeTree_files h).map fun file => file.sizeBytes.toNat).sum_eq
  rwa [List.map_map] at hsum

/-- The bytes that a plan copies: the recorded ones and the unlisted ones. -/
theorem copiedBytes_eq (hroot : root.isAbsolute = true) (hclosed : manifest.Closed)
    (hpresent : ∀ file ∈ manifest.files, (verifyFile storage root file).status = .present)
    (hold : storage.absoluteNormal root = .ok plan.oldRoot)
    (htree : completeTree storage plan.oldRoot = .ok plan.completeFiles) :
    copiedBytes plan = (manifest.files.map fun file => file.sizeBytes.toNat).sum +
      unlistedBytes manifest (treeFiles storage plan.oldRoot) := by
  have hthere : ∀ owned ∈ manifest.files, ∃ file ∈ treeFiles storage plan.oldRoot,
      file.relativePath = owned.relativePath ∧ file.sizeBytes = owned.sizeBytes := by
    intro owned howned
    obtain ⟨names, content, hne, hpath, hfind, hsize⟩ :=
      find_of_present hroot (hclosed.safeFiles owned howned) (hpresent owned howned)
    rw [← absoluteNormal_of_absolute hroot hold] at hfind
    exact ⟨_, mem_treeFiles hne hfind, hpath, hsize⟩
  rw [copiedBytes_of_tree htree, sum_filter_add _ (listed manifest),
    sum_listed (nodup_treeFiles storage plan.oldRoot) hclosed.distinctFiles hthere]
  rfl

/-! ## Enough space -/

/-- A move is planned with enough space for what it copies exactly if the files that the manifest
does not list fit into the overhead. -/
theorem move_space_enough_iff {host : PublicHost} {config : PublicConfig} {request : Value}
    {bundle : MovePlanBundle} (h : buildMovePlan host config request = .ok bundle) :
    ∃ current, loadCurrent host.storage (lifecycleRoots config) bundle.installed.installId =
        .ok current ∧
      (copiedBytes bundle.plan ≤ bundle.destination.evidence.requiredBytes.toNat ↔
        unlistedBytes current.2 (treeFiles host.storage bundle.plan.oldRoot) ≤
          setupOverheadBytes) := by
  simp only [buildMovePlan, bind_eq_ok, lift_eq_ok, require_eq_ok] at h
  obtain ⟨_, -, _, -, _, -, installId, -, installed, hinstalled, destination, -, repository, hopen,
    name, hname, ownership, hread, required, hrequired, inspected, hinspected, _, -, _, -, _,
      hpolicy,
    _, -, _, -, plan, hplan, h⟩ := h
  cases h
  have hcurrent := loadCurrent_of_read hinstalled hopen hname hread
  obtain ⟨hpresent, hold, htree⟩ := planMove_tree hplan hcurrent
  obtain ⟨hsum, hbound⟩ := requiredBytesOf_eq_ok (by decide) hrequired
  refine ⟨_, hcurrent, ?_⟩
  rw [copiedBytes_eq (isAbsolute_of_policy hpolicy) (closed_of_read hread) hpresent hold htree,
    requiredBytes_of_inspected hinspected, UInt64.toNat_ofNat_of_lt' hbound, hsum]
  dsimp only
  omega

/-- The files of the installation, with a note that its manifest does not list. -/
def notedDisk : Disk :=
  .ofEntries (sampleDisk.tree.entries ++
    [([ascii "srv", ascii "editor", ascii "note"], .file (ascii "note") 1)]) (by decide +kernel)

def notedHost : PublicHost :=
  { sampleHost with storage := { sampleHost.storage with disk := notedDisk } }

theorem notedHost_fits : (buildMovePlan notedHost sampleConfig
    (moveRequest (ascii "/srv/moved"))).toOption.any (fun bundle =>
      (loadCurrent notedHost.storage (lifecycleRoots sampleConfig)
        bundle.installed.installId).toOption.any fun current => decide (unlistedBytes current.2
          (treeFiles notedHost.storage bundle.plan.oldRoot) = 4)) = true := by
  decide +kernel

/-- The note is copied as well, and fits into the overhead. -/
theorem move_aside_has_space : ∃ bundle current,
    buildMovePlan notedHost sampleConfig (moveRequest (ascii "/srv/moved")) = .ok bundle ∧
      loadCurrent notedHost.storage (lifecycleRoots sampleConfig) bundle.installed.installId =
        .ok current ∧
      unlistedBytes current.2 (treeFiles notedHost.storage bundle.plan.oldRoot) = 4 ∧
      copiedBytes bundle.plan ≤ bundle.destination.evidence.requiredBytes.toNat := by
  obtain ⟨bundle, hbundle, hfits⟩ := exists_of_any notedHost_fits
  obtain ⟨current, hcurrent, hfour⟩ := exists_of_any hfits
  replace hfour := of_decide_eq_true hfour
  obtain ⟨found, hfound, hiff⟩ := move_space_enough_iff hbundle
  cases hcurrent.symm.trans hfound
  refine ⟨bundle, current, hbundle, hcurrent, hfour, hiff.mpr ?_⟩
  rw [hfour]
  decide

/-! ## A log that is not owned -/

/-- One byte more than the overhead. -/
def logContent : Bytes :=
  List.replicate 16777217 0

theorem length_logContent : logContent.length = 16777217 :=
  List.length_replicate

/-- The files of the installation, with a log that it has written. -/
def loggedDisk : Disk :=
  .ofEntries (sampleDisk.tree.entries ++
    [([ascii "srv", ascii "editor", ascii "log"], .file logContent 1)]) (by decide +kernel)

def loggedHost : PublicHost :=
  { sampleHost with storage := { sampleHost.storage with disk := loggedDisk } }

theorem loggedHost_part : loggedHost.storage.disk.tree.part (Path.segments ⟨ascii "/srv/editor"⟩) =
    [([], .directory 1 7), ([ascii "bin"], .directory 1 8),
      ([ascii "bin", ascii "editor"], .file sampleContent 1),
      ([ascii "log"], .file logContent 1)] := by
  rfl

theorem loggedHost_managed : Managed ⟨ascii "/srv/editor"⟩
    (loggedHost.storage.disk.tree.part (Path.segments ⟨ascii "/srv/editor"⟩)) where
  rooted := ⟨1, 7, by rw [loggedHost_part]; exact List.mem_cons_self⟩
  distinct := loggedHost.storage.disk.tree.distinct_part _
  entries := by
    rw [loggedHost_part]
    simp only [List.forall_mem_cons, List.not_mem_nil, false_imp_iff, implies_true, and_true,
      ne_eq, not_true_eq_false, true_and]
    have hnamed : ∀ n ∈ [ascii "bin", ascii "editor", ascii "log"], EntryName n := by
      unfold EntryName
      decide
    simp only [List.forall_mem_cons, List.not_mem_nil, false_imp_iff, implies_true, and_true]
      at hnamed
    refine ⟨fun _ => ⟨by simpa using hnamed.1, by decide, by decide, .inl ⟨1, 8, rfl⟩⟩,
      fun _ => ⟨by simpa using ⟨hnamed.1, hnamed.2.1⟩, by decide, by decide,
        .inr ⟨_, rfl, by decide, by decide⟩⟩,
      fun _ => ⟨by simpa using hnamed.2.2, by decide, by decide, .inr ⟨_, rfl, ?_, by decide⟩⟩⟩
    rw [length_logContent]
    decide
  files := by
    simp only [loggedHost_part, weigh_root, weigh_cons, countFile]
    decide
  directories := by
    simp only [loggedHost_part, weigh_root, weigh_cons, countDirectory]
    decide
  paths := by
    simp only [loggedHost_part, weigh_root, weigh_cons, countPathBytes]
    decide
  bytes := by
    have hfile : ∀ names content, countBytes names (.file content 1) = content.length :=
      fun _ _ => rfl
    have hrest : weigh countBytes [] = 0 ∧ countBytes [ascii "bin"] (.directory 1 8) = 0 ∧
      sampleContent.length = 5 := by decide
    rw [loggedHost_part, weigh_root, weigh_cons, weigh_cons, weigh_cons, hfile, hfile,
      length_logContent, hrest.1, hrest.2.1, hrest.2.2]
    unfold maximumPreimageLogicalBytes
    omega

/-- The records of the installation. -/
def editorRecords : InstalledState × OwnershipManifest :=
  (stateOf editorManifest.recorded, editorManifest.recorded)

theorem loggedHost_current : loadCurrent loggedHost.storage (lifecycleRoots sampleConfig)
    (ascii "editor") = .ok editorRecords :=
  toOption_eq_some.mp (by decide +kernel)

theorem loggedHost_verified : (verifyBefore loggedHost.storage editorRecords (ascii "plan")
    (ascii "2026-01-02T00:00:00Z")).toOption.any (fun report => report.status != .fail) = true := by
  decide +kernel

theorem rootText_ok {storage : Storage} {p : Path} (h : p.isEmpty = false) :
    ∃ text, rootText storage p = .ok text := by
  refine ⟨_, bind_eq_ok.mpr ⟨_, bind_eq_ok.mpr ⟨_, if_neg ?_, rfl⟩, rfl⟩⟩
  rw [h]
  exact Bool.false_ne_true

theorem movePlanPayload_ok (haudit : plan.roots.auditRoot.isEmpty = false)
    (hstate : plan.roots.stateRoot.isEmpty = false) :
    ∃ payload, movePlanPayload storage plan = .ok payload := by
  obtain ⟨audit, haudit⟩ := @rootText_ok storage _ haudit
  obtain ⟨state, hstate⟩ := @rootText_ok storage _ hstate
  exact ⟨_, bind_eq_ok.mpr ⟨audit, haudit, bind_eq_ok.mpr ⟨state, hstate, rfl⟩⟩⟩

/-- The log does not stand in the way of a plan. -/
theorem loggedHost_planMove (policyDigest : Bytes) : ∃ plan,
    planMove loggedHost.storage (lifecycleRoots sampleConfig) (ascii "editor") (ascii "plan")
      (ascii "2026-01-02T00:00:00Z") ⟨ascii "/srv/moved"⟩ policyDigest = .ok plan := by
  obtain ⟨report, hreport, hsound⟩ := exists_of_any loggedHost_verified
  obtain ⟨files, hfiles⟩ := readCompleteTree_ok loggedHost_managed
  obtain ⟨identity, hidentity⟩ := exists_of_isOk (show
    (loggedHost.storage.disk.directoryIdentity ⟨ascii "/srv/editor"⟩).isOk = true by decide +kernel)
  refine ⟨_, bind_eq_ok.mpr ⟨(), by decide +kernel, bind_eq_ok.mpr ⟨_, loggedHost_current,
    bind_eq_ok.mpr ⟨report, hreport, bind_eq_ok.mpr ⟨(), demand_eq_ok.mpr hsound,
    bind_eq_ok.mpr ⟨⟨ascii "/srv/editor"⟩, by decide +kernel,
    bind_eq_ok.mpr ⟨⟨ascii "/srv/moved"⟩, by decide +kernel,
    bind_eq_ok.mpr ⟨(), by decide +kernel, bind_eq_ok.mpr ⟨false, by decide +kernel,
    bind_eq_ok.mpr ⟨(), by decide +kernel, bind_eq_ok.mpr ⟨identity, hidentity,
    bind_eq_ok.mpr ⟨_, bind_eq_ok.mpr ⟨_, hfiles, rfl⟩, bind_eq_ok.mpr ⟨(), by decide +kernel,
    bind_eq_ok.mpr ⟨_, (movePlanPayload_ok rfl rfl).choose_spec, rfl⟩⟩⟩⟩⟩⟩⟩⟩⟩⟩⟩⟩⟩⟩

/-- The inspection of the destination, and the policy that goes with it. -/
theorem loggedHost_inspected : (inspectAndEvaluateLiveTarget loggedHost.toTargetHost
    sampleConfig.activation
    { targetClass := .operatorAcceptance, targetRoot := ⟨ascii "/srv/moved"⟩
      authorizedAcceptanceRoot := sampleConfig.acceptanceRoot
      sourceArchive := setupMarkerPath sampleConfig, requiredBytes := UInt64.ofNat 16777221
      persistentEffects :=
        [ascii "copy and verify the complete managed closure to " ++
          Path.generic ⟨ascii "/srv/moved"⟩,
          ascii "retain the old root pending explicit later acceptance"] }).toOption.any
    (fun inspected => inspected.decision.accepted &&
      inspected.evidence.targetState == .nonexistent &&
      (operationPolicyDigest loggedHost sampleConfig ⟨editorRecords.1.targetRoot⟩
        (setupMarkerPath sampleConfig) "move" (some inspected)).isOk) = true := by
  decide +kernel

/-- The size of the installation, for any log. -/
theorem sum_editor (content : Bytes) :
    (((listingEntries [([], .directory 1 7), ([ascii "bin"], .directory 1 8),
      ([ascii "bin", ascii "editor"], .file sampleContent 1),
      ([ascii "log"], .file content 1)]).filterMap preimageOf).map
        fun file => file.sizeBytes.toNat).sum = 5 + (UInt64.ofNat content.length).toNat := by
  have hcontent : (UInt64.ofNat sampleContent.length).toNat = 5 := by decide
  simp [listingEntries, entryOf, preimageOf, hcontent]

/-- The plan of a move asks for less than what it copies. -/
theorem move_with_log_short : ∃ bundle,
    buildMovePlan loggedHost sampleConfig (moveRequest (ascii "/srv/moved")) = .ok bundle ∧
      bundle.destination.evidence.requiredBytes.toNat < copiedBytes bundle.plan := by
  obtain ⟨inspected, hinspected, hchecks⟩ := exists_of_any loggedHost_inspected
  rw [Bool.and_eq_true, Bool.and_eq_true] at hchecks
  obtain ⟨⟨haccepted, hfree⟩, hpolicy⟩ := hchecks
  obtain ⟨policy, hpolicy⟩ := exists_of_isOk hpolicy
  obtain ⟨plan, hplan⟩ := loggedHost_planMove policy
  have hrecords := loggedHost_current
  simp only [loadCurrent, bind_eq_ok] at hrecords
  obtain ⟨repository, hopen, state, hstate, id, hid, manifest, hmanifest, hrecords⟩ := hrecords
  cases hrecords
  have hname : ownershipId (stateOf editorManifest.recorded) = .ok id := by
    simp only [ownershipIdFromRef, bind_eq_ok, demand_eq_ok] at hid
    obtain ⟨_, hreference, hid⟩ := hid
    exact bind_eq_ok.mpr ⟨(), require_eq_ok.mpr hreference, by cases hid; rfl⟩
  have hinstalled : currentInstall loggedHost sampleConfig (ascii "editor") =
      .ok (stateOf editorManifest.recorded) :=
    bind_eq_ok.mpr ⟨(), by decide +kernel, bind_eq_ok.mpr ⟨repository, lift_eq_ok.mpr hopen,
      lift_eq_ok.mpr hstate⟩⟩
  refine ⟨⟨plan, stateOf editorManifest.recorded, inspected⟩, ?_, ?_⟩
  · exact bind_eq_ok.mpr ⟨(), by decide +kernel,
      bind_eq_ok.mpr ⟨ascii "usk.move_plan_request.v1", by decide +kernel,
      bind_eq_ok.mpr ⟨(), by decide +kernel, bind_eq_ok.mpr ⟨ascii "editor", by decide +kernel,
      bind_eq_ok.mpr ⟨_, hinstalled,
      bind_eq_ok.mpr ⟨(⟨ascii "/srv/moved"⟩, .operatorAcceptance), by decide +kernel,
      bind_eq_ok.mpr ⟨repository, lift_eq_ok.mpr hopen, bind_eq_ok.mpr ⟨id, hname,
      bind_eq_ok.mpr ⟨_, lift_eq_ok.mpr hmanifest, bind_eq_ok.mpr ⟨16777221, by decide +kernel,
      bind_eq_ok.mpr ⟨inspected, lift_eq_ok.mpr hinspected,
      bind_eq_ok.mpr ⟨(), require_eq_ok.mpr haccepted, bind_eq_ok.mpr ⟨(), require_eq_ok.mpr hfree,
      bind_eq_ok.mpr ⟨policy, hpolicy, bind_eq_ok.mpr ⟨ascii "plan", by decide +kernel,
      bind_eq_ok.mpr ⟨ascii "2026-01-02T00:00:00Z", by decide +kernel,
      bind_eq_ok.mpr ⟨plan, lift_eq_ok.mpr hplan, rfl⟩⟩⟩⟩⟩⟩⟩⟩⟩⟩⟩⟩⟩⟩⟩⟩⟩
  · obtain ⟨-, hold, htree⟩ := planMove_tree hplan loggedHost_current
    have hroot : plan.oldRoot = ⟨ascii "/srv/editor"⟩ :=
      absoluteNormal_of_absolute (by decide +kernel) hold
    show inspected.evidence.requiredBytes.toNat < copiedBytes plan
    rw [requiredBytes_of_inspected hinspected, copiedBytes_of_tree htree, hroot, treeFiles,
      loggedHost_part, sum_editor, length_logContent]
    decide

end Usk.Public

import UniversalSetup.State.Installed
import UniversalSetup.State.Repository

/-!
# The records of the installed states

The repository keeps the snapshots of all installations in one directory. The reader of one
installation decodes every record there before it looks at whose it is. `write_new_durable_text`
puts the bytes of a record in place, so that a crash of the writer can leave a part of them.
-/

namespace Usk.State

open Json

/-- `install_id + "." + transaction_id + ".json"`. -/
def snapshotName (installId transactionId : Bytes) : Bytes :=
  recordName (installId ++ ascii "." ++ transactionId)

namespace StateRepository

variable (repository : StateRepository)

/-- `root_ / "installed"`. -/
def installedRoot : Path :=
  repository.root.join ⟨ascii "installed"⟩

def snapshotPath (installId transactionId : Bytes) : Path :=
  repository.installedRoot.join ⟨snapshotName installId transactionId⟩

/-- The ownership manifest that a state refers to is the one that it is bound to. -/
def checkBinding (disk : Disk) (state : InstalledState) (message : String) : Result Unit := do
  let ownership ← repository.readOwnership disk state.ownershipRecordId
  demand (ownership.manifestDigest == state.ownershipManifestDigest &&
    ownership.installId == state.installId && ownership.targetRoot == state.targetRoot) message

/-! ## Writing -/

/-- `write_installed` up to the record that it writes. -/
def prepareInstalled (disk : Disk) (state : InstalledState) : Result Bytes := do
  disk.requireSafeDirectory repository.installedRoot
  validateInstalled state
  repository.checkBinding disk state "installed state does not bind the exact ownership manifest"
  serializeInstalledState state

def writeInstalled (disk : Disk) (state : InstalledState) : Result Disk := do
  let text ← repository.prepareInstalled disk state
  disk.writeNewDurableText (repository.snapshotPath state.installId state.transactionId) text

/-- What `write_installed` leaves if it crashes: before it creates the record, or after it has
written so many bytes of it. -/
def crashInstalled (disk : Disk) (state : InstalledState) : Option Nat → Result Disk
  | none => .ok disk
  | some written => do
    let text ← repository.prepareInstalled disk state
    disk.writeNewDurableText (repository.snapshotPath state.installId state.transactionId)
      (text.take written)

end StateRepository

/-! ## Reading -/

/-- A regular file with the name of a record. -/
def isRecord (entry : Bytes × Node) : Bool :=
  (match entry.2 with
    | .file _ _ => true
    | _ => false) &&
  decide (5 < entry.1.length) && entry.1.drop (entry.1.length - 5) == ascii ".json"

/-- `std::tie(created_at, transaction_id)`. -/
def InstalledState.notAfter (left right : InstalledState) : Prop :=
  left.createdAt < right.createdAt ∨
    left.createdAt = right.createdAt ∧ left.transactionId ≤ right.transactionId

instance : DecidableRel InstalledState.notAfter := fun left right =>
  inferInstanceAs (Decidable (left.createdAt < right.createdAt ∨
    left.createdAt = right.createdAt ∧ left.transactionId ≤ right.transactionId))

namespace StateRepository

variable (repository : StateRepository)

/-- One turn of the loop over the directory. -/
def readCandidate (disk : Disk) (entry : Bytes × Node) : Result InstalledState := do
  demand (isRecord entry) "installed-state repository contains an unsafe entry"
  let text ← disk.readStableText (repository.installedRoot.join ⟨entry.1⟩).lexicallyNormal
    maximumInstalledBytes
  let candidate ← decodeInstalledRecord text
  demand (entry.1 == snapshotName candidate.installId candidate.transactionId ||
    entry.1 == recordName candidate.installId)
    "installed-state filename does not bind its record identity"
  pure candidate

/-- The loop over the directory. -/
def readCandidates (disk : Disk) (installId : Bytes) :
    List (Bytes × Node) → Result (List InstalledState)
  | [] => .ok []
  | entry :: rest => do
    let candidate ← repository.readCandidate disk entry
    let candidates ← readCandidates disk installId rest
    pure (if candidate.installId == installId then candidate :: candidates else candidates)

def readInstalled (disk : Disk) (installId : Bytes) : Result InstalledState := do
  demand (validIdentifier installId) "installed-state lookup id is invalid"
  disk.requireSafeDirectory repository.installedRoot
  let candidates ← repository.readCandidates disk installId (disk.list repository.installedRoot)
  match (candidates.insertionSort InstalledState.notAfter).getLast? with
  | none => .error "installed-state record does not exist"
  | some result => do
    repository.checkBinding disk result "installed-state ownership binding no longer validates"
    pure result

def readInstalledSnapshot (disk : Disk) (installId transactionId : Bytes) :
    Result InstalledState := do
  demand (validIdentifier installId && validIdentifier transactionId)
    "installed-state snapshot identity is invalid"
  let text ← disk.readStableText (repository.snapshotPath installId transactionId).lexicallyNormal
    maximumInstalledBytes
  let result ← decodeInstalledRecord text
  demand (result.installId == installId && result.transactionId == transactionId)
    "installed-state snapshot lookup identity mismatch"
  repository.checkBinding disk result
    "installed-state snapshot ownership binding no longer validates"
  pure result

end StateRepository

/-! ## Paths -/

theorem installedRoot_normal (repository : StateRepository) : NormalPath repository.installedRoot
    (repository.root.segments ++ [ascii "installed"]) false :=
  repository.normal.join (by decide)

theorem plain_snapshotName {installId transactionId : Bytes}
    (hinstall : validIdentifier installId = true)
    (htransaction : validIdentifier transactionId = true) :
    PlainName (snapshotName installId transactionId) := by
  refine plain_recordName fun hslash => ?_
  rcases List.mem_append.mp hslash with hslash | hslash
  · rcases List.mem_append.mp hslash with hslash | hslash
    · exact slash_not_mem_identifier hinstall hslash
    · revert hslash
      decide
  · exact slash_not_mem_identifier htransaction hslash

/-- The names on the way to the record of an installed state. -/
def installedSegments (repository : StateRepository) (name : Bytes) : List Bytes :=
  repository.root.segments ++ [ascii "installed"] ++ [name]

theorem installed_normal (repository : StateRepository) {name : Bytes} (h : PlainName name) :
    NormalPath (repository.installedRoot.join ⟨name⟩) (installedSegments repository name) false :=
  (installedRoot_normal repository).join h

/-- Ownership records and installed states are in two directories. -/
theorem ownershipSegments_ne (repository : StateRepository) (id name : Bytes) :
    ownershipSegments repository id ≠ installedSegments repository name := by
  unfold ownershipSegments installedSegments
  rw [List.append_assoc, List.append_assoc]
  intro heq
  have hname := (List.cons.inj (List.append_cancel_left heq)).1
  revert hname
  decide

/-! ## A new record -/

section NewRecord

variable {repository : StateRepository} {disk disk' : Disk} {name content : Bytes}

/-- The records that were there are read as before. -/
theorem readCandidate_of_ne (hadd : disk.addFile (installedSegments repository name) content =
    some disk') {entry : Bytes × Node} (hplain : PlainName entry.1) (hne : entry.1 ≠ name) :
    repository.readCandidate disk' entry = repository.readCandidate disk entry := by
  have hpath := installed_normal repository hplain
  unfold StateRepository.readCandidate
  rw [hpath.lexicallyNormal, Disk.readStableText_addFile_of_ne hadd]
  rw [hpath.segments_eq]
  exact fun heq => hne (List.cons.inj (List.append_cancel_left heq)).1

theorem readCandidates_congr {installId : Bytes} : ∀ {entries : List (Bytes × Node)},
    (∀ entry ∈ entries, repository.readCandidate disk' entry =
      repository.readCandidate disk entry) →
    repository.readCandidates disk' installId entries =
      repository.readCandidates disk installId entries
  | [], _ => rfl
  | entry :: rest, h => by
    rw [StateRepository.readCandidates, StateRepository.readCandidates, h entry List.mem_cons_self,
      readCandidates_congr fun other hother => h other (List.mem_cons_of_mem entry hother)]

theorem requireSafeDirectory_installed
    (hadd : disk.addFile (installedSegments repository name) content = some disk') :
    disk'.requireSafeDirectory repository.installedRoot =
      disk.requireSafeDirectory repository.installedRoot := by
  unfold Disk.requireSafeDirectory
  rw [Disk.node_addFile hadd]
  rw [(installedRoot_normal repository).segments_eq]
  simp [installedSegments]

theorem readOwnership_installed (hadd : disk.addFile (installedSegments repository name) content =
    some disk') (id : Bytes) :
    repository.readOwnership disk' id = repository.readOwnership disk id := by
  unfold StateRepository.readOwnership
  cases hid : validIdentifier id with
  | false => rfl
  | true =>
    have hpath := ownershipPath_normal repository hid
    rw [hpath.lexicallyNormal, Disk.readStableText_addFile_of_ne hadd]
    rw [hpath.segments_eq]
    exact ownershipSegments_ne repository id name

theorem checkBinding_installed (hadd : disk.addFile (installedSegments repository name) content =
    some disk') (state : InstalledState) (message : String) :
    repository.checkBinding disk' state message = repository.checkBinding disk state message := by
  unfold StateRepository.checkBinding
  rw [readOwnership_installed hadd]

/-- One more record at the end of the directory. -/
theorem readCandidates_concat {installId : Bytes} {entry : Bytes × Node} :
    ∀ {entries : List (Bytes × Node)} {candidates : List InstalledState},
      repository.readCandidates disk installId (entries ++ [entry]) = .ok candidates ↔
        ∃ earlier candidate, repository.readCandidates disk installId entries = .ok earlier ∧
          repository.readCandidate disk entry = .ok candidate ∧
          candidates = earlier ++ if candidate.installId == installId then [candidate] else []
  | [], candidates => by
    simp only [List.nil_append, StateRepository.readCandidates, bind_eq_ok]
    constructor
    · rintro ⟨candidate, hread, _, hnil, h⟩
      cases hnil
      cases h
      exact ⟨[], candidate, rfl, hread, (List.nil_append _).symm⟩
    · rintro ⟨_, candidate, hnil, hread, rfl⟩
      cases hnil
      exact ⟨candidate, hread, [], rfl, rfl⟩
  | first :: rest, candidates => by
    simp only [List.cons_append, StateRepository.readCandidates, bind_eq_ok,
      readCandidates_concat]
    constructor
    · rintro ⟨one, hone, _, ⟨earlier, candidate, hrest, hread, rfl⟩, h⟩
      cases h
      refine ⟨_, candidate, ⟨one, hone, earlier, hrest, rfl⟩, hread, ?_⟩
      split
      · rfl
      · rfl
    · rintro ⟨_, candidate, ⟨one, hone, earlier, hrest, h⟩, hread, rfl⟩
      cases h
      refine ⟨one, hone, _, ⟨earlier, candidate, hrest, hread, rfl⟩, ?_⟩
      split
      · rfl
      · rfl

/-- The reader of an installation after a record of another one was added: it fails or has the same
result as before. -/
theorem readInstalled_addFile {installId : Bytes} {state : InstalledState}
    (hadd : disk.addFile (installedSegments repository name) content = some disk')
    (hread : repository.readInstalled disk installId = .ok state)
    (hother : ∀ candidate, repository.readCandidate disk' (name, .file content 1) = .ok candidate →
      candidate.installId ≠ installId) :
    repository.readInstalled disk' installId = .ok state ↔
      ∃ candidate, repository.readCandidate disk' (name, .file content 1) = .ok candidate := by
  have hroot := installedRoot_normal repository
  have hlist : disk'.list repository.installedRoot =
      disk.list repository.installedRoot ++ [(name, .file content 1)] := by
    refine Disk.list_addFile ?_
    rw [hroot.segments_eq]
    exact hadd
  have hearlier : repository.readCandidates disk' installId (disk.list repository.installedRoot) =
      repository.readCandidates disk installId (disk.list repository.installedRoot) := by
    refine readCandidates_congr fun entry hentry => ?_
    rw [Disk.mem_list, hroot.segments_eq] at hentry
    refine readCandidate_of_ne hadd (disk.plain _ hentry entry.1 (by simp)) fun heq => ?_
    obtain ⟨node, hnode⟩ := disk.tree.find_of_mem hentry
    rw [heq] at hnode
    cases hnode.symm.trans (disk.tree.create_eq_some (Disk.addFile_eq_some hadd).1).1
  simp only [StateRepository.readInstalled, bind_eq_ok, demand_eq_ok] at hread ⊢
  rw [hlist, requireSafeDirectory_installed hadd]
  simp only [readCandidates_concat, hearlier]
  obtain ⟨-, hid, u, hdirectory, candidates, hcandidates, hresult⟩ := hread
  constructor
  · rintro ⟨-, -, -, -, _, ⟨_, candidate, -, hcandidate, -⟩, -⟩
    exact ⟨candidate, hcandidate⟩
  · rintro ⟨candidate, hcandidate⟩
    refine ⟨(), hid, u, hdirectory, candidates, ⟨candidates, candidate, hcandidates, hcandidate,
      ?_⟩, ?_⟩
    · rw [if_neg (by simpa using hother candidate hcandidate), List.append_nil]
    · simp only [checkBinding_installed hadd]
      exact hresult

end NewRecord

/-! ## A crash of the writer -/

theorem prepareInstalled_eq_ok {repository : StateRepository} {disk : Disk} {state : InstalledState}
    {text : Bytes} (h : repository.prepareInstalled disk state = .ok text) :
    validateInstalled state = .ok () ∧ text = installedRecord state := by
  simp only [StateRepository.prepareInstalled, serializeInstalledState, bind_eq_ok] at h
  obtain ⟨-, -, _, hvalid, -, -, -, -, htext⟩ := h
  cases htext
  exact ⟨hvalid, rfl⟩

theorem validateInstalled_identifiers {state : InstalledState} {u : Unit}
    (h : validateInstalled state = .ok u) :
    validIdentifier state.installId = true ∧ validIdentifier state.transactionId = true := by
  simp only [validateInstalled, bind_eq_ok, demand_eq_ok] at h
  obtain ⟨-, hbound, -⟩ := h
  simp only [InstalledState.bound, Bool.and_eq_true] at hbound
  exact ⟨hbound.1.1.1.1.1.1.1.1.1.1.1.1.1.1, hbound.1.1.1.1.1.1.1.1.1.1.1.1.2⟩

/-- What the writer has put in place after so many bytes. -/
structure WroteInstalled (repository : StateRepository) (disk : Disk) (state : InstalledState)
    (written : Nat) (disk' : Disk) : Prop where
  valid : validateInstalled state = .ok ()
  short : (repository.snapshotPath state.installId state.transactionId).native.length < Disk.pathMax
  added : disk.addFile
    (installedSegments repository (snapshotName state.installId state.transactionId))
    ((installedRecord state).take written) = some disk'

theorem isRecord_recordName {id content : Bytes} (hid : id ≠ []) (links : Nat) :
    isRecord (recordName id, .file content links) = true := by
  have hlength : (recordName id).length = id.length + 5 := by
    rw [recordName, List.length_append]
    rfl
  have hpositive := List.length_pos_iff.mpr hid
  have hdrop : (recordName id).drop ((recordName id).length - 5) = ascii ".json" := by
    rw [hlength, Nat.add_sub_cancel, recordName, List.drop_left]
  simp only [isRecord, hdrop, Bool.true_and, Bool.and_eq_true, decide_eq_true_eq, beq_self_eq_true,
    and_true]
  omega

section Crash

variable {repository : StateRepository} {disk disk' : Disk} {state : InstalledState} {written : Nat}

theorem crashInstalled_eq_ok (h : repository.crashInstalled disk state (some written) = .ok disk') :
    WroteInstalled repository disk state written disk' := by
  simp only [StateRepository.crashInstalled, bind_eq_ok] at h
  obtain ⟨text, hprepare, hwrite⟩ := h
  obtain ⟨hvalid, rfl⟩ := prepareInstalled_eq_ok hprepare
  have hids := validateInstalled_identifiers hvalid
  have hpath := installed_normal repository (plain_snapshotName hids.1 hids.2)
  obtain ⟨hshort, hadd⟩ := Disk.writeNewDurableText_eq_ok hwrite
  unfold StateRepository.snapshotPath at hadd
  rw [hpath.lexicallyNormal, hpath.segments_eq] at hadd
  exact ⟨hvalid, hshort, hadd⟩

/-- The reader takes the record in place only if all of it is there. -/
theorem WroteInstalled.readCandidate_iff (h : WroteInstalled repository disk state written disk')
    {content : Bytes} {candidate : InstalledState} :
    repository.readCandidate disk'
        (snapshotName state.installId state.transactionId, .file content 1) = .ok candidate ↔
      candidate = state ∧ (installedRecord state).length ≤ written ∧ state.Readable := by
  have hids := validateInstalled_identifiers h.valid
  have hpath := installed_normal repository (plain_snapshotName hids.1 hids.2)
  have hread : ∀ text, disk'.readStableText (repository.installedRoot.join
      ⟨snapshotName state.installId state.transactionId⟩).lexicallyNormal maximumInstalledBytes =
        .ok text ↔ text = (installedRecord state).take written ∧
          ((installedRecord state).take written).length ≤ maximumInstalledBytes := by
    intro text
    rw [hpath.lexicallyNormal]
    exact Disk.readStableText_addFile h.added hpath h.short
  have hrecord : isRecord (snapshotName state.installId state.transactionId, .file content 1) =
      true := isRecord_recordName (by simp [show ascii "." ≠ [] by decide]) 1
  simp only [StateRepository.readCandidate, bind_eq_ok, demand_eq_ok, hread]
  constructor
  · rintro ⟨-, -, text, ⟨rfl, -⟩, found, hdecode, -, -, hfound⟩
    cases hfound
    by_cases hall : (installedRecord state).length ≤ written
    · rw [List.take_of_length_le hall, decodeInstalledRecord_iff h.valid] at hdecode
      exact ⟨hdecode.1, hall, hdecode.2⟩
    · exact absurd hdecode (decodeInstalledRecord_take_ne (Nat.lt_of_not_le hall))
  · rintro ⟨rfl, hall, hreadable⟩
    rw [List.take_of_length_le hall]
    refine ⟨(), hrecord, _, ⟨rfl, hreadable.1⟩, candidate,
      (decodeInstalledRecord_iff h.valid).mpr ⟨rfl, hreadable⟩, (), ?_, rfl⟩
    rw [beq_self_eq_true, Bool.true_or]

theorem crashInstalled_reads {installId : Bytes} {found : InstalledState}
    (hread : repository.readInstalled disk installId = .ok found)
    (hother : state.installId ≠ installId)
    (hwrote : WroteInstalled repository disk state written disk') :
    repository.readInstalled disk' installId = .ok found ↔
      (installedRecord state).length ≤ written ∧ state.Readable := by
  rw [readInstalled_addFile hwrote.added hread]
  · simp only [hwrote.readCandidate_iff, exists_eq_left]
  · intro candidate hcandidate
    rw [(hwrote.readCandidate_iff.mp hcandidate).1]
    exact hother

end Crash

/-! ## A repository with an installation -/

/-- A state of the installation that a manifest describes. -/
def stateOf (manifest : OwnershipManifest) : InstalledState :=
  { installId := manifest.installId
    productId := ascii "product"
    productVersion := ascii "1.0"
    recipeDigest := List.replicate 64 0x30
    sourceArchiveDigest := List.replicate 64 0x30
    targetRoot := manifest.targetRoot
    componentSelection := [ascii "core"]
    ownershipManifestRef := ascii "ownership/" ++ manifest.manifestId ++ ascii ".json"
    ownershipManifestDigest := manifest.manifestDigest
    entrypoints := [⟨ascii "main", ascii "bin/editor", ascii "application"⟩]
    setupAbiMajor := 1
    setupAbiMinor := 0
    providerRevision := ascii "provider"
    transactionId := manifest.createdByTransactionId
    createdAt := ascii "2026-01-01T00:00:00Z"
    lastVerification :=
      { reportId := ascii "verify"
        reportDigest := List.replicate 64 0x30
        status := ascii "pass"
        verifiedAt := ascii "2026-01-01T00:00:00Z" }
    auditChainId := ascii "audit"
    lifecycleStatus := ascii "installed" }

/-- The record can be created, and the writer can be stopped after any number of bytes. -/
theorem crashInstalled_succeeds {repository : StateRepository} {disk : Disk}
    {state : InstalledState}
    (written : Nat) (hsafe : disk.requireSafeDirectory repository.installedRoot = .ok ())
    (hprepare : repository.prepareInstalled disk state = .ok (installedRecord state))
    (hshort : (repository.snapshotPath state.installId state.transactionId).native.length <
      Disk.pathMax)
    (hfree : disk.tree.find (installedSegments repository
      (snapshotName state.installId state.transactionId)) = none) :
    ∃ disk', repository.crashInstalled disk state (some written) = .ok disk' := by
  have hids := validateInstalled_identifiers (prepareInstalled_eq_ok hprepare).1
  have hpath := installed_normal repository (plain_snapshotName hids.1 hids.2)
  have hroot := installedRoot_normal repository
  obtain ⟨disk', hadd⟩ := Disk.exists_addFile ((installedRecord state).take written) hfree
    (Disk.hasParent_of_safe hroot hsafe _) hpath.plain
  simp only [StateRepository.crashInstalled, bind_eq_ok]
  exact ⟨disk', _, hprepare,
    Disk.writeNewDurableText_of_added hroot hpath hsafe hshort hadd⟩

/-- The manifest of another installation. -/
def viewerManifest : OwnershipManifest :=
  { sampleManifest with
    manifestId := ascii "ownership.viewer.t2"
    installId := ascii "viewer"
    targetRoot := ascii "/opt/viewer" }

/-- A repository with an installation and with the manifest of another one. -/
def installedDisk : Disk :=
  .ofEntries [([], .directory 1 1), ([ascii "ownership"], .directory 1 2),
    ([ascii "installed"], .directory 1 3),
    ([ascii "ownership", ascii "ownership.editor.t1.json"],
      .file (ownershipRecord sampleManifest.recorded) 1),
    ([ascii "ownership", ascii "ownership.viewer.t2.json"],
      .file (ownershipRecord viewerManifest.recorded) 1),
    ([ascii "installed", ascii "editor.t1.json"],
      .file (installedRecord (stateOf sampleManifest.recorded)) 1)] (by decide +kernel)

theorem installedDisk_read : sampleRepository.readInstalled installedDisk (ascii "editor") =
    .ok (stateOf sampleManifest.recorded) :=
  toOption_eq_some.mp (by decide +kernel)

theorem viewer_prepared : sampleRepository.prepareInstalled installedDisk
    (stateOf viewerManifest.recorded) = .ok (installedRecord (stateOf viewerManifest.recorded)) :=
  toOption_eq_some.mp (by decide +kernel)

theorem viewer_valid : validateInstalled (stateOf viewerManifest.recorded) = .ok () :=
  (prepareInstalled_eq_ok viewer_prepared).1

theorem viewer_readable : (stateOf viewerManifest.recorded).Readable := by
  have hdecode : decodeInstalledRecord (installedRecord (stateOf viewerManifest.recorded)) =
      .ok (stateOf viewerManifest.recorded) := toOption_eq_some.mp (by decide +kernel)
  exact ((decodeInstalledRecord_iff viewer_valid).mp hdecode).2

/-- The writer of the other installation is stopped. -/
theorem sample_crash (written : Nat) : ∃ disk, sampleRepository.crashInstalled installedDisk
    (stateOf viewerManifest.recorded) (some written) = .ok disk :=
  crashInstalled_succeeds written (by decide +kernel) viewer_prepared (by decide +kernel)
    (by decide +kernel)

/-- A crash of the writer leaves another installation readable exactly if nothing of the record is
there, or all of it and the reader can decode it. -/
theorem crash_keeps_other_install {repository : StateRepository} {disk disk' : Disk}
    {installId : Bytes} {found state : InstalledState} {crash : Option Nat}
    (hread : repository.readInstalled disk installId = .ok found)
    (hother : state.installId ≠ installId)
    (hcrash : repository.crashInstalled disk state crash = .ok disk') :
    repository.readInstalled disk' installId = .ok found ↔
      crash = none ∨ ∃ written, crash = some written ∧
        (installedRecord state).length ≤ written ∧ state.Readable := by
  cases crash with
  | none =>
    cases hcrash
    exact iff_of_true hread (.inl rfl)
  | some written =>
    rw [crashInstalled_reads hread hother (crashInstalled_eq_ok hcrash)]
    constructor
    · intro h
      exact .inr ⟨written, rfl, h⟩
    · rintro (hnone | ⟨_, hsome, h⟩)
      · cases hnone
      · cases hsome
        exact h

/-- The record of one installation is whole, and the crash is in the record of the other. -/
theorem sample_install_kept : ∃ disk disk' written,
    sampleRepository.crashInstalled disk (stateOf viewerManifest.recorded) (some written) =
      .ok disk' ∧
    sampleRepository.readInstalled disk' (ascii "editor") =
      .ok (stateOf sampleManifest.recorded) := by
  obtain ⟨disk, hcrash⟩ := sample_crash (installedRecord (stateOf viewerManifest.recorded)).length
  exact ⟨installedDisk, disk, _, hcrash, (crash_keeps_other_install installedDisk_read
    (by decide +kernel) hcrash).mpr (.inr ⟨_, rfl, Nat.le_refl _, viewer_readable⟩)⟩

theorem installedRecord_ne_nil (state : InstalledState) : installedRecord state ≠ [] := by
  intro hnil
  cases (List.append_eq_nil_iff.mp hnil).2

/-- After a crash that leaves an empty record the other installation cannot be read. -/
theorem crash_hides_other_install : ∃ disk disk',
    sampleRepository.readInstalled disk (ascii "editor") = .ok (stateOf sampleManifest.recorded) ∧
    (stateOf viewerManifest.recorded).installId ≠ ascii "editor" ∧
    sampleRepository.crashInstalled disk (stateOf viewerManifest.recorded) (some 0) = .ok disk' ∧
    sampleRepository.readInstalled disk' (ascii "editor") ≠
      .ok (stateOf sampleManifest.recorded) := by
  have hread := installedDisk_read
  obtain ⟨disk, hcrash⟩ := sample_crash 0
  have hother : (stateOf viewerManifest.recorded).installId ≠ ascii "editor" := by decide +kernel
  refine ⟨installedDisk, disk, hread, hother, hcrash, fun hread' => ?_⟩
  have hlength := ((crashInstalled_reads hread hother (crashInstalled_eq_ok hcrash)).mp hread').1
  exact installedRecord_ne_nil _ (List.eq_nil_of_length_eq_zero (Nat.le_zero.mp hlength))

end Usk.State

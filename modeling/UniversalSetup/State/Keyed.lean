import UniversalSetup.State.Codec

/-!
# Snapshots by installation and transaction

The repository keeps one snapshot for an installation and a transaction, in a file whose name is
made of the two identifiers with a dot between them. Identifiers may have dots themselves, so that
two pairs can have one file.
-/

namespace Usk.State

open Json

theorem installedSegments_inj {repository : StateRepository} {name other : Bytes}
    (h : installedSegments repository name = installedSegments repository other) : name = other :=
  (List.cons.inj (List.append_cancel_left h)).1

/-- So many bytes of the record of a state are in place, and its manifest is there. -/
structure Stored (repository : StateRepository) (disk : Disk) (state : InstalledState)
    (written : Nat) : Prop where
  valid : validateInstalled state = .ok ()
  short : (repository.snapshotPath state.installId state.transactionId).native.length < Disk.pathMax
  found : disk.tree.find (installedSegments repository
    (snapshotName state.installId state.transactionId)) =
      some (.file ((installedRecord state).take written) 1)
  bound : ∀ message, repository.checkBinding disk state message = .ok ()

section

variable {repository : StateRepository} {disk disk' : Disk} {state other : InstalledState}
  {p : List Bytes} {content : Bytes} {written : Nat}

/-- A writer that is not stopped writes all bytes. -/
theorem writeInstalled_eq_crash (repository : StateRepository) (disk : Disk)
    (state : InstalledState) : repository.writeInstalled disk state =
      repository.crashInstalled disk state (some (installedRecord state).length) := by
  unfold StateRepository.writeInstalled StateRepository.crashInstalled
  cases hprepare : repository.prepareInstalled disk state with
  | error message => rfl
  | ok text =>
    obtain ⟨-, rfl⟩ := prepareInstalled_eq_ok hprepare
    show disk.writeNewDurableText _ _ = disk.writeNewDurableText _ ((installedRecord state).take _)
    rw [List.take_length]

theorem checkBinding_of_prepared {text : Bytes} {message : String}
    (h : repository.prepareInstalled disk state = .ok text) :
    repository.checkBinding disk state message = .ok () := by
  simp only [StateRepository.prepareInstalled, StateRepository.checkBinding, bind_eq_ok,
    demand_eq_ok] at h ⊢
  obtain ⟨-, -, -, -, -, hbinding, -⟩ := h
  exact hbinding

/-- A new record does not hinder the writer of another one up to its own record. -/
theorem prepareInstalled_addFile {name content : Bytes}
    (hadd : disk.addFile (installedSegments repository name) content = some disk') :
    repository.prepareInstalled disk' other = repository.prepareInstalled disk other := by
  unfold StateRepository.prepareInstalled
  rw [requireSafeDirectory_installed hadd, checkBinding_installed hadd]

theorem checkBinding_of_added {message : String} (hadd : disk.addFile p content = some disk')
    (h : repository.checkBinding disk state message = .ok ()) :
    repository.checkBinding disk' state message = .ok () := by
  simp only [StateRepository.checkBinding, StateRepository.readOwnership, bind_eq_ok] at h ⊢
  obtain ⟨ownership, ⟨_, hid, text, hread, hdecode⟩, hbinding⟩ := h
  exact ⟨ownership, ⟨_, hid, text, Disk.readStableText_of_added hadd hread, hdecode⟩, hbinding⟩

theorem Stored.of_added (h : Stored repository disk state written)
    (hadd : disk.addFile p content = some disk') : Stored repository disk' state written where
  valid := h.valid
  short := h.short
  found := by
    rw [Disk.find_addFile hadd, if_neg, h.found]
    rintro rfl
    cases h.found.symm.trans (disk.tree.create_eq_some (Disk.addFile_eq_some hadd).1).1
  bound := fun message => checkBinding_of_added hadd (h.bound message)

theorem stored_of_crash (h : repository.crashInstalled disk state (some written) = .ok disk') :
    Stored repository disk' state written where
  valid := (crashInstalled_eq_ok h).valid
  short := (crashInstalled_eq_ok h).short
  found := by rw [Disk.find_addFile (crashInstalled_eq_ok h).added, if_pos rfl]
  bound := fun message => by
    have hadd := (crashInstalled_eq_ok h).added
    simp only [StateRepository.crashInstalled, bind_eq_ok] at h
    obtain ⟨text, hprepare, -⟩ := h
    exact checkBinding_of_added hadd (checkBinding_of_prepared hprepare)

/-- Only a whole record is read, and only under its own identifiers. -/
theorem Stored.read_iff (h : Stored repository disk state written) {installId transactionId : Bytes}
    (hname : snapshotName installId transactionId =
      snapshotName state.installId state.transactionId) {found : InstalledState} :
    repository.readInstalledSnapshot disk installId transactionId = .ok found ↔
      (found = state ∧ state.installId = installId ∧ state.transactionId = transactionId) ∧
        state.Readable ∧ (installedRecord state).length ≤ written := by
  have hids := validateInstalled_identifiers h.valid
  have hpath := installed_normal repository (plain_snapshotName hids.1 hids.2)
  have hnode : disk.node (repository.snapshotPath installId transactionId).lexicallyNormal =
      .ok (some (.file ((installedRecord state).take written) 1)) := by
    unfold StateRepository.snapshotPath
    rw [hname, hpath.lexicallyNormal]
    refine Disk.node_of_find h.short ?_ (.inl hpath.trailing_eq)
    rw [hpath.segments_eq, h.found]
  simp only [StateRepository.readInstalledSnapshot, Disk.readStableText, hnode, bind_eq_ok,
    demand_eq_ok, Bool.and_eq_true, beq_iff_eq, decide_eq_true_eq]
  constructor
  · rintro ⟨-, -, text, ⟨-, -, -, -, htext⟩, result, hdecode, -, hsame, -, -, hresult⟩
    cases htext
    cases hresult
    by_cases hall : (installedRecord state).length ≤ written
    · rw [List.take_of_length_le hall, decodeInstalledRecord_iff h.valid] at hdecode
      obtain ⟨rfl, hreadable⟩ := hdecode
      exact ⟨⟨rfl, hsame⟩, hreadable, hall⟩
    · exact absurd hdecode (decodeInstalledRecord_take_ne (Nat.lt_of_not_le hall))
  · rintro ⟨⟨rfl, rfl, rfl⟩, hreadable, hall⟩
    rw [List.take_of_length_le hall]
    exact ⟨(), hids, _, ⟨(), trivial, (), hreadable.1, rfl⟩, found,
      (decodeInstalledRecord_iff h.valid).mpr ⟨rfl, hreadable⟩, (), ⟨rfl, rfl⟩, (),
      h.bound _, rfl⟩

theorem readInstalledSnapshot_own (hwrite : repository.writeInstalled disk state = .ok disk') :
    repository.readInstalledSnapshot disk' state.installId state.transactionId = .ok state ↔
      state.Readable := by
  rw [writeInstalled_eq_crash] at hwrite
  rw [(stored_of_crash hwrite).read_iff rfl]
  simp

variable {installId transactionId : Bytes} (hinstall : validIdentifier installId = true)
  (htransaction : validIdentifier transactionId = true)

include hinstall htransaction

/-- A record under another name changes nothing. -/
theorem readInstalledSnapshot_addFile {name content : Bytes}
    (hadd : disk.addFile (installedSegments repository name) content = some disk')
    (hne : name ≠ snapshotName installId transactionId) :
    repository.readInstalledSnapshot disk' installId transactionId =
      repository.readInstalledSnapshot disk installId transactionId := by
  have hpath := installed_normal repository (plain_snapshotName hinstall htransaction)
  unfold StateRepository.readInstalledSnapshot StateRepository.snapshotPath
  rw [hpath.lexicallyNormal, Disk.readStableText_addFile_of_ne hadd]
  · simp only [checkBinding_installed hadd]
  · rw [hpath.segments_eq]
    exact fun heq => hne (installedSegments_inj heq).symm

/-- Another pair with the same file: before the write nothing was there, afterwards the record of
the other pair is. -/
theorem readInstalledSnapshot_collision (hwrite : repository.writeInstalled disk state = .ok disk')
    (hreadable : state.Readable)
    (hkey : (installId, transactionId) ≠ (state.installId, state.transactionId))
    (hname : snapshotName state.installId state.transactionId =
      snapshotName installId transactionId) :
    repository.readInstalledSnapshot disk' installId transactionId ≠
      repository.readInstalledSnapshot disk installId transactionId := by
  have hwrote := crashInstalled_eq_ok ((writeInstalled_eq_crash _ _ _).symm.trans hwrite)
  have hadd := hwrote.added
  have hshort := hwrote.short
  unfold StateRepository.snapshotPath at hshort
  rw [List.take_length, hname] at hadd
  rw [hname] at hshort
  have hpath := installed_normal repository (plain_snapshotName hinstall htransaction)
  have hbefore : disk.readStableText (repository.snapshotPath installId
      transactionId).lexicallyNormal maximumInstalledBytes =
        .error "local archive path is missing or is a symbolic link" := by
    have hnone := (disk.tree.create_eq_some (Disk.addFile_eq_some hadd).1).1
    unfold StateRepository.snapshotPath Disk.readStableText Disk.node
    rw [hpath.lexicallyNormal, if_pos hshort, hpath.segments_eq, hnone]
    rfl
  have hafter : disk'.readStableText (repository.snapshotPath installId
      transactionId).lexicallyNormal maximumInstalledBytes = .ok (installedRecord state) := by
    unfold StateRepository.snapshotPath
    rw [hpath.lexicallyNormal]
    exact (Disk.readStableText_addFile hadd hpath hshort).mpr ⟨rfl, hreadable.1⟩
  have hdecode : decodeInstalledRecord (installedRecord state) = .ok state :=
    (decodeInstalledRecord_iff hwrote.valid).mpr ⟨rfl, hreadable⟩
  have hmismatch : (state.installId == installId && state.transactionId == transactionId) =
      false := by
    rw [Bool.and_eq_false_imp, beq_iff_eq, beq_eq_false_iff_ne]
    rintro rfl rfl
    exact hkey rfl
  have hold : repository.readInstalledSnapshot disk installId transactionId =
      .error "local archive path is missing or is a symbolic link" := by
    unfold StateRepository.readInstalledSnapshot
    rw [hbefore, hinstall, htransaction]
    rfl
  have hnew : repository.readInstalledSnapshot disk' installId transactionId =
      .error "installed-state snapshot lookup identity mismatch" := by
    simp only [StateRepository.readInstalledSnapshot, hafter, hinstall, htransaction, demand, bind,
      Except.bind, Bool.and_self, if_true, hdecode, hmismatch, Bool.false_eq_true, if_false]
  rw [hold, hnew]
  intro heq
  have hmessage := Except.error.inj heq
  revert hmessage
  decide

end

/--
The file of a written snapshot is its own exactly if no other pair has the same name: then it is
read back, the snapshot of the other pair is read as before and can be written as before. To be read
back the record also has to keep to the limits of the reader.
-/
theorem snapshots_keyed_iff {repository : StateRepository} {disk disk' : Disk}
    {state : InstalledState} {installId transactionId : Bytes}
    (hwrite : repository.writeInstalled disk state = .ok disk')
    (hinstall : validIdentifier installId = true)
    (htransaction : validIdentifier transactionId = true)
    (hkey : (installId, transactionId) ≠ (state.installId, state.transactionId)) :
    (repository.readInstalledSnapshot disk' state.installId state.transactionId = .ok state ∧
      repository.readInstalledSnapshot disk' installId transactionId =
        repository.readInstalledSnapshot disk installId transactionId ∧
      ∀ other second, other.installId = installId → other.transactionId = transactionId →
        repository.writeInstalled disk other = .ok second →
        ∃ both, repository.writeInstalled disk' other = .ok both) ↔
    state.Readable ∧ snapshotName state.installId state.transactionId ≠
      snapshotName installId transactionId := by
  rw [readInstalledSnapshot_own hwrite]
  constructor
  · rintro ⟨hreadable, hsame, -⟩
    exact ⟨hreadable, fun hname => readInstalledSnapshot_collision hinstall htransaction hwrite
      hreadable hkey hname hsame⟩
  · rintro ⟨hreadable, hname⟩
    have hadd := (crashInstalled_eq_ok ((writeInstalled_eq_crash _ _ _).symm.trans hwrite)).added
    refine ⟨hreadable, readInstalledSnapshot_addFile hinstall htransaction hadd hname, ?_⟩
    rintro other second rfl rfl hother
    rw [writeInstalled_eq_crash] at hother ⊢
    have hwrote := crashInstalled_eq_ok hother
    simp only [StateRepository.crashInstalled, bind_eq_ok] at hother
    obtain ⟨text, hprepare, -⟩ := hother
    obtain ⟨-, rfl⟩ := prepareInstalled_eq_ok hprepare
    rw [← prepareInstalled_addFile hadd] at hprepare
    refine crashInstalled_succeeds _ ?_ hprepare hwrote.short ?_
    · simp only [StateRepository.prepareInstalled, bind_eq_ok] at hprepare
      obtain ⟨_, hsafe, -⟩ := hprepare
      exact hsafe
    · rw [Disk.find_addFile hadd, if_neg fun heq => hname (installedSegments_inj heq).symm]
      exact (disk.tree.create_eq_some (Disk.addFile_eq_some hwrote.added).1).1

/-- Writing the viewer leaves the snapshot of the editor as it was. -/
theorem viewerState_keyed : ∃ disk,
    sampleRepository.writeInstalled installedDisk (stateOf viewerManifest.recorded) = .ok disk ∧
    sampleRepository.readInstalledSnapshot disk (ascii "editor") (ascii "t1") =
      sampleRepository.readInstalledSnapshot installedDisk (ascii "editor") (ascii "t1") := by
  obtain ⟨disk, hcrash⟩ := sample_crash (installedRecord (stateOf viewerManifest.recorded)).length
  have hwrite := (writeInstalled_eq_crash _ _ _).trans hcrash
  refine ⟨disk, hwrite, ((snapshots_keyed_iff hwrite (by decide +kernel) (by decide +kernel)
    (by decide +kernel)).mpr ⟨viewer_readable, by decide +kernel⟩).2.1⟩

/-- The first of two states with one file keeps the second from being written. -/
theorem writeInstalled_occupied {repository : StateRepository} {disk disk' : Disk}
    {state other : InstalledState} (hwrite : repository.writeInstalled disk state = .ok disk')
    (hname : snapshotName state.installId state.transactionId =
      snapshotName other.installId other.transactionId) (both : Disk) :
    repository.writeInstalled disk' other ≠ .ok both := by
  intro hboth
  rw [writeInstalled_eq_crash] at hwrite hboth
  have hadd := (crashInstalled_eq_ok hwrite).added
  have hfree := (disk'.tree.create_eq_some
    (Disk.addFile_eq_some (crashInstalled_eq_ok hboth).added).1).1
  rw [← hname, Disk.find_addFile hadd, if_pos rfl] at hfree
  cases hfree

def dottedManifest (manifestId installId transactionId : String) : OwnershipManifest :=
  { sampleManifest with
    manifestId := ascii manifestId
    installId := ascii installId
    createdByTransactionId := ascii transactionId }

/-- A repository with two recorded manifests and no snapshot. -/
def dottedDisk : Disk :=
  .ofEntries [([], .directory 1 1), ([ascii "ownership"], .directory 1 2),
    ([ascii "installed"], .directory 1 3),
    ([ascii "ownership", ascii "first.json"],
      .file (ownershipRecord (dottedManifest "first" "a.b" "c").recorded) 1),
    ([ascii "ownership", ascii "second.json"],
      .file (ownershipRecord (dottedManifest "second" "a" "b.c").recorded) 1)] (by decide +kernel)

/-- The snapshots of `a.b` at `c` and of `a` at `b.c` can each be written, but not both. -/
theorem dotted_snapshot_blocks : ∃ first second,
    sampleRepository.writeInstalled dottedDisk
      (stateOf (dottedManifest "first" "a.b" "c").recorded) = .ok first ∧
    sampleRepository.writeInstalled dottedDisk
      (stateOf (dottedManifest "second" "a" "b.c").recorded) = .ok second ∧
    ∀ both, sampleRepository.writeInstalled first
      (stateOf (dottedManifest "second" "a" "b.c").recorded) ≠ .ok both := by
  obtain ⟨first, hfirst⟩ := exists_of_isOk (by decide +kernel :
    (sampleRepository.writeInstalled dottedDisk
      (stateOf (dottedManifest "first" "a.b" "c").recorded)).isOk = true)
  obtain ⟨second, hsecond⟩ := exists_of_isOk (by decide +kernel :
    (sampleRepository.writeInstalled dottedDisk
      (stateOf (dottedManifest "second" "a" "b.c").recorded)).isOk = true)
  exact ⟨first, second, hfirst, hsecond, writeInstalled_occupied hfirst (by decide +kernel)⟩

end Usk.State

import UniversalSetup.State.Keyed

/-!
# Whole runs of the repository

Writers of manifests and of snapshots come one after the other, in any order, and each of them can
be stopped after some bytes of its record. One that is refused changes nothing and is left out here.
What can be read in the end are the finished snapshots.
-/

namespace Usk.State

open Json

/-- A writer of the repository and how many bytes of its record it puts in place. -/
inductive Writer where
  | ownership (manifest : OwnershipManifest) (written : Nat)
  | installed (state : InstalledState) (written : Nat)

namespace StateRepository

variable (repository : StateRepository)

/-- What `write_ownership` leaves if it crashes after so many bytes of its record. -/
def crashOwnership (disk : Disk) (manifest : OwnershipManifest) (written : Nat) : Result Disk := do
  disk.requireSafeDirectory repository.ownershipRoot
  let manifest ← validateOwnership manifest
  let manifest := { manifest with manifestDigest := ownershipDigest manifest }
  disk.writeNewDurableText (repository.ownershipPath manifest.manifestId)
    ((ownershipRecord manifest).take written)

def step (disk : Disk) : Writer → Result Disk
  | .ownership manifest written => repository.crashOwnership disk manifest written
  | .installed state written => repository.crashInstalled disk state (some written)

def run (disk : Disk) (writers : List Writer) : Result Disk :=
  writers.foldlM repository.step disk

end StateRepository

/-- The directory of the snapshots has the records of some writers, and no others. -/
structure Holds (repository : StateRepository) (disk : Disk) (writers : List Writer) : Prop where
  stored : ∀ state written, .installed state written ∈ writers →
    Stored repository disk state written
  only : ∀ name node, disk.tree.find (installedSegments repository name) = some node →
    ∃ state written, .installed state written ∈ writers ∧
      name = snapshotName state.installId state.transactionId

section

variable {repository : StateRepository} {disk' : Disk}

theorem Holds.step {disk : Disk} {writers : List Writer} {writer : Writer}
    (h : Holds repository disk writers) (hstep : repository.step disk writer = .ok disk') :
    Holds repository disk' (writers ++ [writer]) := by
  cases writer with
  | ownership manifest written =>
    simp only [StateRepository.step, StateRepository.crashOwnership, bind_eq_ok,
      validateOwnership_eq_ok] at hstep
    obtain ⟨-, -, _, ⟨hclosed, rfl⟩, hwrite⟩ := hstep
    have hpath := ownershipPath_normal repository hclosed.validIdentifier
    have hadd := (Disk.writeNewDurableText_eq_ok hwrite).2
    rw [hpath.lexicallyNormal, hpath.segments_eq] at hadd
    constructor
    · intro state written hmem
      exact (h.stored state written (by simpa using hmem)).of_added hadd
    · intro name node hfind
      rw [Disk.find_addFile hadd, if_neg (ownershipSegments_ne repository _ name).symm] at hfind
      simpa using h.only name node hfind
  | installed state written =>
    have hadd := (crashInstalled_eq_ok hstep).added
    constructor
    · intro other bytes hmem
      rcases List.mem_append.mp hmem with hmem | hmem
      · exact (h.stored other bytes hmem).of_added hadd
      · cases List.mem_singleton.mp hmem
        exact stored_of_crash hstep
    · intro name node hfind
      rw [Disk.find_addFile hadd] at hfind
      split at hfind
      · next heq => exact ⟨state, written, by simp, installedSegments_inj heq⟩
      · obtain ⟨other, bytes, hmem, hname⟩ := h.only name node hfind
        exact ⟨other, bytes, List.mem_append_left _ hmem, hname⟩

theorem Holds.run : ∀ {later writers : List Writer} {disk : Disk}, Holds repository disk writers →
    repository.run disk later = .ok disk' → Holds repository disk' (writers ++ later)
  | [], writers, disk, h, hrun => by
    cases hrun
    rwa [List.append_nil]
  | writer :: rest, writers, disk, h, hrun => by
    simp only [StateRepository.run, List.foldlM_cons, bind_eq_ok] at hrun
    obtain ⟨next, hstep, hrest⟩ := hrun
    rw [List.append_cons]
    exact run (h.step hstep) hrest

end

/-- After any run of writers over a repository without snapshots, what is read for an installation
and a transaction is the snapshot that a writer for them has finished, if it keeps to the limits of
the reader: none is lost, changed or made up, whatever the other writers do and wherever they stop.
-/
theorem snapshots_after_run {repository : StateRepository} {disk disk' : Disk}
    {writers : List Writer} {installId transactionId : Bytes} {found : InstalledState}
    (hempty : disk.list repository.installedRoot = [])
    (hrun : repository.run disk writers = .ok disk') :
    repository.readInstalledSnapshot disk' installId transactionId = .ok found ↔
      (found.installId = installId ∧ found.transactionId = transactionId) ∧ found.Readable ∧
        ∃ written, .installed found written ∈ writers ∧
          (installedRecord found).length ≤ written := by
  have hstart : Holds repository disk [] := by
    refine ⟨fun _ _ hmem => (List.not_mem_nil hmem).elim, fun name node hfind => ?_⟩
    have hlisted : (name, node) ∈ disk.list repository.installedRoot := by
      rw [Disk.mem_list, (installedRoot_normal repository).segments_eq]
      exact disk.tree.mem_of_find hfind
    rw [hempty] at hlisted
    cases hlisted
  have hend := hstart.run hrun
  constructor
  · intro hread
    have hread' := hread
    simp only [StateRepository.readInstalledSnapshot, bind_eq_ok, demand_eq_ok,
      Bool.and_eq_true] at hread'
    obtain ⟨-, hids, text, htext, -⟩ := hread'
    have hpath := installed_normal repository (plain_snapshotName hids.1 hids.2)
    obtain ⟨links, hfind⟩ := Disk.readStableText_eq_ok htext
    rw [StateRepository.snapshotPath, hpath.lexicallyNormal, hpath.segments_eq] at hfind
    obtain ⟨state, written, hmem, hname⟩ := hend.only _ _ hfind
    obtain ⟨⟨rfl, hsame⟩, hreadable, hall⟩ := ((hend.stored _ _ hmem).read_iff hname).mp hread
    exact ⟨hsame, hreadable, written, hmem, hall⟩
  · rintro ⟨⟨rfl, rfl⟩, hreadable, written, hmem, hall⟩
    exact ((hend.stored _ _ hmem).read_iff rfl).mpr ⟨⟨rfl, rfl, rfl⟩, hreadable, hall⟩

def dottedState : InstalledState :=
  stateOf (dottedManifest "first" "a.b" "c").recorded

/-- An installation whose manifest is written first, and whose snapshot is broken off. -/
def brokenManifest : OwnershipManifest :=
  dottedManifest "third" "x" "y"

def brokenState : InstalledState :=
  stateOf brokenManifest.recorded

/-- A manifest, the beginning of a snapshot and a whole one. -/
def brokenRun : List Writer :=
  [.ownership brokenManifest 10000, .installed brokenState 7, .installed dottedState 10000]

theorem brokenRun_ok : (sampleRepository.run dottedDisk brokenRun).isOk = true := by
  decide +kernel

/-- A snapshot that was written to the end is read, one that was broken off is not. -/
theorem dottedState_read : ∃ disk, sampleRepository.run dottedDisk brokenRun = .ok disk ∧
    sampleRepository.readInstalledSnapshot disk (ascii "a.b") (ascii "c") = .ok dottedState ∧
    ∀ found, sampleRepository.readInstalledSnapshot disk (ascii "x") (ascii "y") ≠ .ok found := by
  obtain ⟨disk, hrun⟩ := exists_of_isOk brokenRun_ok
  have hvalid : validateInstalled dottedState = .ok () := toOption_eq_some.mp (by decide +kernel)
  obtain ⟨decoded, hdecoded⟩ := exists_of_isOk (by decide +kernel :
    (decodeInstalledRecord (installedRecord dottedState)).isOk = true)
  have hreadable := ((decodeInstalledRecord_iff hvalid).mp hdecoded).2
  refine ⟨disk, hrun, (snapshots_after_run rfl hrun).mpr ?_, fun found hread => ?_⟩
  · exact ⟨⟨rfl, rfl⟩, hreadable, 10000, by simp [brokenRun], by decide +kernel⟩
  · obtain ⟨⟨hinstall, -⟩, -, written, hmem, hall⟩ := (snapshots_after_run rfl hrun).mp hread
    simp only [brokenRun, List.mem_cons, reduceCtorEq, Writer.installed.injEq, List.not_mem_nil,
      false_or, or_false] at hmem
    rcases hmem with ⟨rfl, rfl⟩ | ⟨rfl, rfl⟩
    · revert hall
      decide +kernel
    · revert hinstall
      decide +kernel

end Usk.State

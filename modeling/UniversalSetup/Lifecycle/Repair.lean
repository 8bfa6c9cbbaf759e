import UniversalSetup.Lifecycle.Plans

/-!
# Repair plans

`plan_repair` looks up every owned file among the source files and compares the two numbers of
files. As the paths on both sides are distinct, the source is the owned closure.
-/

namespace Usk

open Json State

/-- What the manifest and the source of a repair both record of a file. -/
def State.OwnedFile.key (file : OwnedFile) : Bytes × Bytes :=
  (file.relativePath, file.sha256)

namespace Lifecycle

def PayloadFile.key (file : PayloadFile) : Bytes × Bytes :=
  (file.relativePath, file.sha256)

/-- An owned file that is not there as it was recorded. -/
def damaged (storage : Storage) (root : Path) (file : OwnedFile) : Bool :=
  (verifyFile storage root file).status != .present

variable {storage : Storage} {root : Path} {sources : List PayloadFile} {owned : List OwnedFile}

theorem verifyFile_key (file : OwnedFile) : (verifyFile storage root file).relativePath =
    file.relativePath ∧ (verifyFile storage root file).expectedSha256 = file.sha256 := by
  unfold verifyFile
  dsimp only
  repeat' split
  all_goals exact ⟨rfl, rfl⟩

/-- The loop over the verified files. -/
theorem affectedFiles_eq_ok : ∀ {owned : List OwnedFile} {affected : List Bytes},
    affectedFiles sources (owned.map (verifyFile storage root)) = .ok affected →
    (∀ file ∈ owned, file.key ∈ sources.map PayloadFile.key) ∧
      affected = (owned.filter (damaged storage root)).map OwnedFile.relativePath
  | [], _, h => by
    cases h
    simp
  | file :: rest, affected, h => by
    obtain ⟨hpath, hsha⟩ := @verifyFile_key storage root file
    simp only [List.map_cons, affectedFiles, hpath, hsha, bind_eq_ok, demand_eq_ok,
      List.any_eq_true, Bool.and_eq_true, beq_iff_eq] at h
    obtain ⟨-, ⟨source, hsource, hsame⟩, _, haffected, h⟩ := h
    obtain ⟨hrest, rfl⟩ := affectedFiles_eq_ok haffected
    cases h
    refine ⟨List.forall_mem_cons.mpr ⟨?_, hrest⟩, ?_⟩
    · exact List.mem_map.mpr ⟨source, hsource, Prod.ext hsame.1 hsame.2⟩
    · by_cases hpresent : (verifyFile storage root file).status = .present
      · simp [damaged, hpresent]
      · simp [List.filter_cons, damaged, hpresent]

section

variable (hdistinct : (owned.map OwnedFile.relativePath).Nodup)

include hdistinct

/-- Every owned file is in the source and there are as many, so that there are no others. -/
theorem perm_of_found (hfound : ∀ file ∈ owned, file.key ∈ sources.map PayloadFile.key)
    (hlength : sources.length = owned.length) :
    (owned.map OwnedFile.key).Perm (sources.map PayloadFile.key) := by
  have hnodup : (owned.map OwnedFile.key).Nodup := by
    refine List.Nodup.of_map Prod.fst ?_
    rwa [List.map_map]
  refine (hnodup.subperm (List.forall_mem_map.mpr hfound)).perm_of_length_le ?_
  rw [List.length_map, List.length_map, hlength]

/-- A path names one file, so that the affected paths name the damaged files. -/
theorem perm_replaced (hperm : (owned.map OwnedFile.key).Perm (sources.map PayloadFile.key)) :
    ((owned.filter (damaged storage root)).map OwnedFile.key).Perm
      ((sources.filter fun file => ((owned.filter (damaged storage root)).map
        OwnedFile.relativePath).contains file.relativePath).map PayloadFile.key) := by
  have hfilter := hperm.filter fun key => ((owned.filter (damaged storage root)).map
    OwnedFile.relativePath).contains key.1
  rw [List.filter_map, List.filter_map] at hfilter
  refine (List.Perm.of_eq (congrArg _ (List.filter_congr fun file hfile => ?_))).trans hfilter
  rw [Bool.eq_iff_iff, Function.comp_apply, List.contains_iff_mem, List.mem_map]
  constructor
  · intro hdamaged
    exact ⟨file, List.mem_filter.mpr ⟨hfile, hdamaged⟩, rfl⟩
  · rintro ⟨other, hother, hpath⟩
    obtain ⟨hmem, hdamaged⟩ := List.mem_filter.mp hother
    rwa [← List.inj_on_of_nodup_map hdistinct hmem hfile hpath]

end

/-- A repair is planned only from a source that has the owned files, each with the recorded digest,
and no others. The plan replaces the damaged files, at least one, and no file that is intact; what
is staged for a file has the recorded digest. -/
theorem repair_plan_exact {roots : LifecycleRoots} {installId planId createdAt : Bytes}
    {exactSourceFiles : List PayloadFile} {sourceDigest policyDigest : Bytes} {plan : RepairPlan}
    (h : planRepair storage roots installId planId createdAt exactSourceFiles sourceDigest
      policyDigest = .ok plan) :
    ∃ state manifest sources, loadCurrent storage roots installId = .ok (state, manifest) ∧
      normalizeFiles exactSourceFiles = .ok sources ∧
      (manifest.files.map OwnedFile.key).Perm (sources.map PayloadFile.key) ∧
      ((manifest.files.filter (damaged storage ⟨state.targetRoot⟩)).map OwnedFile.key).Perm
        (plan.replacementFiles.map PayloadFile.key) ∧
      plan.replacementFiles ≠ [] ∧ ∀ file ∈ plan.replacementFiles, file.Bound := by
  simp only [planRepair, bind_eq_ok, demand_eq_ok, beq_iff_eq] at h
  obtain ⟨-, -, sources, hsources, ⟨state, manifest⟩, hcurrent, before, hbefore, affected,
    haffected, -, hlength, -, hsome, -, -, payload, -, hplan⟩ := h
  cases hplan
  have hdistinct : (manifest.files.map OwnedFile.relativePath).Nodup := by
    simp only [loadCurrent, bind_eq_ok] at hcurrent
    obtain ⟨repository, -, state, -, id, -, ownership, hread, hpair⟩ := hcurrent
    cases hpair
    exact (closed_of_read hread).distinctFiles
  have hfiles : before.files = manifest.files.map (verifyFile storage ⟨state.targetRoot⟩) := by
    simp only [verifyBefore, verifyManifest, manifestReport, bind_eq_ok] at hbefore
    obtain ⟨_, -, _, -, _, -, _, -, hreport⟩ := hbefore
    cases hreport
    rfl
  rw [hfiles] at haffected
  obtain ⟨hfound, rfl⟩ := affectedFiles_eq_ok haffected
  have hperm := perm_of_found hdistinct hfound hlength
  have hreplaced := @perm_replaced storage ⟨state.targetRoot⟩ _ _ hdistinct hperm
  refine ⟨state, manifest, sources, hcurrent, hsources, hperm, hreplaced, fun hnil => ?_,
    fun file hfile => (normalized_of_normalizeFiles hsources).bound file
      (List.mem_of_mem_filter hfile)⟩
  dsimp only at hnil
  rw [hnil, List.map_nil, List.perm_nil, List.map_eq_nil_iff] at hreplaced
  rw [hreplaced] at hsome
  cases hsome

/-! ## A damaged file -/

def damagedManifest : OwnershipManifest :=
  { sampleManifest with
    files := [⟨ascii "bin/editor", Usk.sha256 (ascii "run"), 3⟩,
      ⟨ascii "readme", Usk.sha256 (ascii "hello"), 5⟩] }

/-- The records of an installation of two files, one of which has been changed. -/
def damagedDisk : Disk :=
  .ofEntries [([], .directory 1 1), ([ascii "ownership"], .directory 1 2),
    ([ascii "installed"], .directory 1 3),
    ([ascii "ownership", ascii "ownership.editor.t1.json"],
      .file (ownershipRecord damagedManifest.recorded) 1),
    ([ascii "installed", ascii "editor.t1.json"],
      .file (installedRecord (stateOf damagedManifest.recorded)) 1),
    ([ascii "opt"], .directory 1 4), ([ascii "opt", ascii "editor"], .directory 1 5),
    ([ascii "opt", ascii "editor", ascii "bin"], .directory 1 6),
    ([ascii "opt", ascii "editor", ascii "bin", ascii "editor"], .file (ascii "run") 1),
    ([ascii "opt", ascii "editor", ascii "readme"], .file (ascii "help!") 1)] (by decide +kernel)

def damagedStorage : Storage :=
  ⟨damagedDisk, fun _ => ⟨1, 9, 0⟩, ⟨ascii "/"⟩, isAbsolute_root⟩

def damagedRoots : LifecycleRoots :=
  ⟨⟨ascii "/staging"⟩, ⟨ascii "/"⟩, ⟨ascii "/audit"⟩⟩

/-- The source, in another order than the manifest. -/
def repairSource : List PayloadFile :=
  [{ relativePath := ascii "readme", bytes := ascii "hello" },
    { relativePath := ascii "bin/editor", bytes := ascii "run" }]

theorem damaged_loaded : loadCurrent damagedStorage damagedRoots (ascii "editor") =
    .ok (stateOf damagedManifest.recorded, damagedManifest.recorded) :=
  toOption_eq_some.mp (by decide +kernel)

theorem damaged_planned : (planRepair damagedStorage damagedRoots (ascii "editor") (ascii "plan")
    (ascii "2026-01-02T00:00:00Z") repairSource [] []).isOk = true := by
  decide +kernel

theorem damaged_readme : damagedManifest.recorded.files.filter
    (damaged damagedStorage ⟨ascii "/opt/editor"⟩) =
      [⟨ascii "readme", Usk.sha256 (ascii "hello"), 5⟩] := by
  decide +kernel

/-- Of two owned files only the changed one is replaced. -/
theorem changed_readme_replaced : ∃ plan, planRepair damagedStorage damagedRoots (ascii "editor")
      (ascii "plan") (ascii "2026-01-02T00:00:00Z") repairSource [] [] = .ok plan ∧
    plan.replacementFiles.map PayloadFile.key =
      [(ascii "readme", Usk.sha256 (ascii "hello"))] := by
  obtain ⟨plan, hplan⟩ := exists_of_isOk damaged_planned
  obtain ⟨state, manifest, -, hcurrent, -, -, hreplaced, -⟩ := repair_plan_exact hplan
  rw [damaged_loaded] at hcurrent
  cases hcurrent
  have hdamaged : (damagedManifest.recorded.files.filter (damaged damagedStorage
      ⟨(stateOf damagedManifest.recorded).targetRoot⟩)).map OwnedFile.key =
        [(ascii "readme", Usk.sha256 (ascii "hello"))] := congrArg _ damaged_readme
  rw [hdamaged] at hreplaced
  exact ⟨plan, hplan, (List.singleton_perm.mp hreplaced).symm⟩

end Lifecycle

end Usk

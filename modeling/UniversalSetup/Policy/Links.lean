import UniversalSetup.Base.Shown
import UniversalSetup.Policy.Inspect

/-!
# Links on the way to a target

The part of `inspect_live_target` that looks at the directories leading to a target, over a file
system with links and permissions. Whether a name exists is asked through links, so a link that
leads nowhere is taken for a name that is not there, and the look at the components ends before it.
The target itself is asked for as it is spelled, and its components in their normal form.
-/

namespace Usk.Policy.Linked

open Json (Result bind_eq_ok)
open Posix

variable {o : Object}

/-! ## The inspection -/

/-- What the inspection finds out besides the links: protected roots, the file system with its free
space, and the source. -/
structure Observed where
  excludedRootsAbsent : Bool
  localFilesystem : Bool
  filesystemKind : Bytes
  filesystemIdentityDigest : Bytes
  availableBytes : UInt64
  sourceTargetDistinct : Bool
  targetIdentityDigest : Bytes

/-- A host. What it observes may depend on the request, the directory above the target and its
state. -/
structure Host where
  fs : FileSystem
  observe : TargetInspectionRequest → Path → TargetState → Result Observed

/-- `fs::exists(path)`. -/
def existsAt (fs : FileSystem) (path : Path) : Result Bool :=
  match fs.status path with
  | .found _ _ => .ok true
  | .missing => .ok false
  | .failed => .error "filesystem error: status"

/-- `existing_ancestor` of an absolute path. -/
def existingAncestor (fs : FileSystem) (path : Path) : Result Path := do
  let path ← climb (existsAt fs) path.lexicallyNormal.names.length path.lexicallyNormal
  match fs.status path with
  | .found _ (.directory _ _ _ _) => pure path
  | _ => .error "target has no stable existing directory ancestor"

/-- `existing_components` of an absolute path. -/
def existingComponents (fs : FileSystem) (target : Path) : Result (List Path) := do
  let root : Path := ⟨ascii "/"⟩
  let components ← collectComponents (existsAt fs) root target.lexicallyNormal.names
  match fs.status root with
  | .found _ _ => pure (root :: components)
  | _ => pure components

/-- The component is there and no link. -/
def stable (fs : FileSystem) (path : Path) : Bool :=
  match fs.symlinkStatus path with
  | .found _ (.link _) => false
  | .found _ _ => true
  | _ => false

def componentsStable (fs : FileSystem) (components : List Path) : Bool :=
  components.all (stable fs)

/-- The directory is there, can be listed and has nothing in it. -/
def emptyDirectory (fs : FileSystem) (path : Path) : Bool :=
  match fs.status path with
  | .found place (.directory _ _ readable _) => readable && (fs.tree.children place).isEmpty
  | _ => false

def inspectLiveTarget (host : Host) (request : TargetInspectionRequest) : Result TargetEvidence :=
  if request.targetRoot.isEmpty || !request.targetRoot.isAbsolute then .ok request.unproven
  else do
    let ancestor ← existingAncestor host.fs request.targetRoot
    let components ← existingComponents host.fs request.targetRoot
    let state ← targetStateOf (existsAt host.fs) (emptyDirectory host.fs) request.targetRoot
    let observed ← host.observe request ancestor state
    pure { request.unproven with
      pathComponentsStable := componentsStable host.fs components
      mountRedirectionAbsent := componentsStable host.fs components
      excludedRootsAbsent := observed.excludedRootsAbsent
      targetState := state
      localFilesystem := observed.localFilesystem
      filesystemKind := observed.filesystemKind
      filesystemIdentityDigest := observed.filesystemIdentityDigest
      availableBytes := observed.availableBytes
      sourceTargetDistinct := observed.sourceTargetDistinct
      targetIdentityDigest := observed.targetIdentityDigest }

def inspectAndEvaluateLiveTarget (host : Host) (activation : Activation)
    (request : TargetInspectionRequest) : Result InspectedTarget := do
  let evidence ← inspectLiveTarget host request
  pure ⟨evidence, evaluateLiveTarget activation evidence⟩

/-- On one tree without links the inspection of the other operations sees the same: what exists,
and which components are stable. -/
theorem inspection_agrees {fs : FileSystem} {storage : Storage} {path : Path}
    (h : Shows fs storage.disk) (habsolute : path.isAbsolute = true)
    (hshort : path.native.length < Disk.pathMax) :
    storage.existsAt path = existsAt fs path ∧
      Policy.componentsStable storage [path] = componentsStable fs [path] := by
  obtain ⟨hstatus, hfailed, hsame⟩ := h.status habsolute hshort
  simp only [Storage.existsAt, existsAt, Policy.componentsStable, componentsStable, stable,
    List.all_cons, List.all_nil, hstatus, hsame]
  cases hfound : fs.status path with
  | found place o => cases o <;> exact ⟨rfl, rfl⟩
  | missing => exact ⟨rfl, rfl⟩
  | failed => exact absurd hfound hfailed

/-! ## Normal paths -/

section

variable {fs : FileSystem} {path : Path} {names : List Bytes} {trailing : Bool}

theorem status_of_find (h : NormalPath path names trailing) (hfind : fs.find names = some o)
    (hslash : trailing = true → o.isDirectory = true) (hlink : ∀ target, o ≠ .link target) :
    fs.status path = .found names o ∨ fs.status path = .failed := by
  unfold FileSystem.status
  rw [h.names]
  exact FileSystem.lookup_of_find h.plain hfind hslash (.inr hlink)

theorem find_of_status {found : List Bytes} (h : NormalPath path names trailing)
    (hfree : ∀ above, above ≠ [] → above <+: names → ∀ target, fs.find above ≠ some (.link target))
    (hstatus : fs.status path = .found found o) : fs.find names = some o := by
  unfold FileSystem.status at hstatus
  rw [h.names] at hstatus
  exact FileSystem.lookup_eq_found h.plain (fun above hne hpre _ => hfree above hne hpre) hstatus

/-- A component that is a link is not stable. -/
theorem not_stable_of_link {target : Path} (h : NormalPath path names false)
    (hfind : fs.find names = some (.link target)) : stable fs path = false := by
  have hstatus := @FileSystem.lookup_of_find fs false false FileSystem.maximumLinks names [] _
    h.plain hfind (fun hf => absurd hf Bool.false_ne_true) (.inl rfl)
  unfold stable FileSystem.symlinkStatus
  rw [h.names]
  rcases hstatus with hstatus | hstatus
  · rw [hstatus]
  · rw [hstatus]

theorem not_link_of_directory (h : o.isDirectory = true) : ∀ target, o ≠ .link target := by
  rintro target rfl
  cases h

/-- What stands above something is a directory. -/
theorem directory_above {place more : List Bytes} {name next : Bytes}
    (h : fs.find (place ++ name :: next :: more) = some o) :
    ∃ above, fs.find (place ++ [name]) = some above ∧ above.isDirectory = true := by
  rw [List.append_cons] at h
  exact fs.tree.directory_of_find_below h

/-- The components that are looked at are no links, and where the look ends a link could only be one
that leads nowhere. -/
theorem linkFree_of_stable : ∀ {parts place : List Bytes} {current : Path} {components : List Path},
    NormalPath current place false →
    collectComponents (existsAt fs) current parts = .ok components →
    componentsStable fs components = true →
    (∀ above, above ≠ [] → above <+: parts → (∀ n ∈ above, PlainName n) → ∀ target,
      fs.find (place ++ above) = some (.link target) →
      fs.status (.ofParts true (place ++ above)) ≠ .missing) →
    ∀ above, above ≠ [] → above <+: parts → (∀ n ∈ above, PlainName n) → ∀ target,
      fs.find (place ++ above) ≠ some (.link target)
  | [], _, _, _, _, _, _, _, above, hne, hpre, _, _ => absurd (List.prefix_nil.mp hpre) hne
  | part :: rest, place, current, components, hcurrent, hcollect, hstable, hleads, above, hne, hpre,
      hplain, target => by
    intro hlink
    obtain ⟨name, more, rfl⟩ := List.exists_cons_of_ne_nil hne
    obtain ⟨rfl, hmore⟩ := List.cons_prefix_cons.mp hpre
    have hname := hplain name List.mem_cons_self
    have hnext := hcurrent.join hname
    rw [collectComponents, existsAt] at hcollect
    cases hstatus : fs.status (current.join ⟨name⟩) with
    | failed =>
      rw [hstatus] at hcollect
      cases hcollect
    | missing =>
      cases more with
      | nil =>
        refine hleads [name] hne hpre hplain target hlink ?_
        rw [← hnext.eq_ofParts, hstatus]
      | cons next more =>
        obtain ⟨o, ho, hdirectory⟩ := directory_above hlink
        rcases status_of_find hnext ho (fun hf => absurd hf Bool.false_ne_true)
          (not_link_of_directory hdirectory) with hfound | hfound
        · rw [hstatus] at hfound
          cases hfound
        · rw [hstatus] at hfound
          cases hfound
    | found place' o =>
      rw [hstatus] at hcollect
      simp only [bind_eq_ok] at hcollect
      obtain ⟨collected, hcollected, hcomponents⟩ := hcollect
      cases hcomponents
      rw [componentsStable, List.all_cons, Bool.and_eq_true] at hstable
      cases more with
      | nil =>
        rw [not_stable_of_link hnext hlink] at hstable
        cases hstable.1
      | cons next more =>
        refine linkFree_of_stable hnext hcollected hstable.2 ?_ (next :: more)
          (List.cons_ne_nil _ _) hmore (fun n hn => hplain n (List.mem_cons_of_mem _ hn)) target ?_
        · intro above habove hbelow hplain' target' hlink'
          rw [List.append_assoc, List.singleton_append] at hlink' ⊢
          exact hleads (name :: above) (List.cons_ne_nil _ _) (List.cons_prefix_cons.mpr
            ⟨rfl, hbelow⟩) (List.forall_mem_cons.mpr ⟨hname, hplain'⟩) target' hlink'
        · rwa [List.append_assoc, List.singleton_append]

/-- The directory above the target is looked for from the target on. -/
theorem status_of_existingAncestor {ancestor : Path}
    (h : NormalPath path.lexicallyNormal names trailing)
    (hne : names ≠ []) (hancestor : existingAncestor fs path = .ok ancestor) :
    fs.status path.lexicallyNormal ≠ .failed := by
  intro hfailed
  obtain ⟨name, rest, rfl⟩ := List.exists_cons_of_ne_nil hne
  simp only [existingAncestor, bind_eq_ok, h.names, List.cons_append, List.length_cons, climb,
    existsAt, hfailed] at hancestor
  obtain ⟨_, hclimb, -⟩ := hancestor
  cases hclimb

/-- What stands at the place of a target that is missing with a slash at its end is not a file. -/
theorem directory_of_existingAncestor {ancestor : Path}
    (h : NormalPath path.lexicallyNormal names true) (hfind : fs.find names = some o)
    (hlink : ∀ target, o ≠ .link target) (hmissing : fs.status path.lexicallyNormal = .missing)
    (hancestor : existingAncestor fs path = .ok ancestor) : o.isDirectory = true := by
  obtain ⟨name, rest, hnames⟩ := List.exists_cons_of_ne_nil (h.nonempty rfl)
  have hlength : path.lexicallyNormal.names.length = rest.length + 1 + 1 := by
    rw [h.names, hnames, if_pos rfl, List.length_append, List.length_cons, List.length_singleton]
  have hparent : NormalPath path.lexicallyNormal.parentPath names false := h.parent
  simp only [existingAncestor, bind_eq_ok, hlength, climb, existsAt, hmissing] at hancestor
  obtain ⟨found, hclimb, hdirectory⟩ := hancestor
  rcases status_of_find hparent hfind (fun hf => absurd hf Bool.false_ne_true) hlink with hstatus
    | hstatus
  · rw [hstatus] at hclimb
    cases hclimb
    rw [hstatus] at hdirectory
    cases o with
    | directory device inode readable searchable => rfl
    | file => cases hdirectory
    | link target => exact absurd rfl (hlink target)
    | other => cases hdirectory
  · rw [hstatus] at hclimb
    cases hclimb

end

/-! ## Accepted targets -/

/-- What is known of a target that was accepted. -/
structure Accepted (host : Host) (target : Path) (state : TargetState) : Prop where
  absolute : target.isAbsolute = true
  ancestor : ∃ ancestor, existingAncestor host.fs target = .ok ancestor
  components : ∃ components,
    collectComponents (existsAt host.fs) ⟨ascii "/"⟩ target.lexicallyNormal.names = .ok components ∧
      componentsStable host.fs components = true
  state : targetStateOf (existsAt host.fs) (emptyDirectory host.fs) target = .ok state

theorem accepted_of_inspected {host : Host} {activation : Activation}
    {request : TargetInspectionRequest} {inspected : InspectedTarget}
    (h : inspectAndEvaluateLiveTarget host activation request = .ok inspected)
    (haccepted : inspected.decision.accepted = true) :
    Accepted host request.targetRoot inspected.evidence.targetState := by
  simp only [inspectAndEvaluateLiveTarget, bind_eq_ok] at h
  obtain ⟨evidence, hevidence, h⟩ := h
  cases h
  have hstable := (checks_of_accepted haccepted).2
  have habsolute := (checks_of_accepted haccepted).1
  unfold inspectLiveTarget at hevidence
  split at hevidence
  · cases hevidence
    cases hstable
  · simp only [bind_eq_ok] at hevidence
    obtain ⟨ancestor, hancestor, components, hcomponents, state, hstate, observed, -, hevidence⟩ :=
      hevidence
    cases hevidence
    refine ⟨habsolute, ⟨ancestor, hancestor⟩, ?_, hstate⟩
    simp only [existingComponents, bind_eq_ok] at hcomponents
    obtain ⟨collected, hcollected, hcomponents⟩ := hcomponents
    refine ⟨collected, hcollected, ?_⟩
    split at hcomponents
    · cases hcomponents
      exact (Bool.and_eq_true_iff.mp hstable).2
    · cases hcomponents
      exact hstable

section

variable {host : Host} {target : Path} {state : TargetState}

/-- Of a link on the way to an accepted target it is known that it leads nowhere. -/
theorem Accepted.linkFree (h : Accepted host target state)
    (hleads : ∀ place, place ≠ [] → place <+: Policy.components target → ∀ destination,
      host.fs.find place = some (.link destination) →
      host.fs.status (.ofParts true place) ≠ .missing) :
    ∀ place, place ≠ [] → place <+: Policy.components target → ∀ destination,
      host.fs.find place ≠ some (.link destination) := by
  obtain ⟨trailing, hnormal⟩ := normalPath_components h.absolute
  obtain ⟨components, hcollect, hstable⟩ := h.components
  have hroot : NormalPath ⟨ascii "/"⟩ [] false :=
    ⟨List.forall_mem_nil _, fun hf => absurd hf Bool.false_ne_true, rfl⟩
  intro place hne hpre
  refine linkFree_of_stable hroot hcollect hstable (fun above habove hbelow hplain => ?_) place hne
    ?_ fun n hn => hnormal.plain n (hpre.subset hn)
  · refine hleads above habove ?_
    rw [hnormal.names] at hbelow
    cases trailing with
    | false => rwa [if_neg Bool.false_ne_true, List.append_nil] at hbelow
    | true =>
      rw [if_pos rfl, List.prefix_concat_iff] at hbelow
      refine hbelow.resolve_left fun heq => (hplain [] ?_).nonempty rfl
      rw [heq]
      exact List.mem_append_right _ (List.mem_singleton_self _)
  · rw [hnormal.names]
    exact hpre.trans (List.prefix_append _ _)

theorem Accepted.missing_iff (h : Accepted host target state) :
    state = .nonexistent ↔ host.fs.status target = .missing := by
  have hstate := h.state
  unfold targetStateOf existsAt at hstate
  cases hstatus : host.fs.status target with
  | found place o =>
    rw [hstatus] at hstate
    refine iff_of_false ?_ Lookup.noConfusion
    rintro rfl
    dsimp only at hstate
    split at hstate
    · cases hstate
    · cases hstate
  | missing =>
    rw [hstatus] at hstate
    cases hstate
    exact iff_of_true rfl rfl
  | failed =>
    rw [hstatus] at hstate
    cases hstate

theorem find_root_ne_none (fs : FileSystem) : ∃ o, fs.find [] = some o ∧ o.isDirectory = true := by
  have hrooted := fs.rooted
  cases hfind : fs.tree.find [] with
  | none =>
    rw [hfind] at hrooted
    cases hrooted
  | some o =>
    rw [hfind] at hrooted
    exact ⟨o, hfind, hrooted⟩

/-- Without links on the way, an accepted target is missing in its normal form exactly if no entry
has its name. -/
theorem Accepted.status_iff (h : Accepted host target state)
    (hfree : ∀ place, place ≠ [] → place <+: Policy.components target → ∀ destination,
      host.fs.find place ≠ some (.link destination)) :
    host.fs.status target.lexicallyNormal = .missing ↔
      host.fs.find (Policy.components target) = none := by
  obtain ⟨trailing, hnormal⟩ := normalPath_components h.absolute
  obtain ⟨ancestor, hancestor⟩ := h.ancestor
  constructor
  · intro hmissing
    by_contra hsome
    obtain ⟨o, hfind⟩ := Option.ne_none_iff_exists'.mp hsome
    have hlink : ∀ destination, o ≠ .link destination := by
      rintro destination rfl
      by_cases hnil : Policy.components target = []
      · obtain ⟨o, hroot, hdirectory⟩ := find_root_ne_none host.fs
        rw [hnil, hroot] at hfind
        cases hfind
        cases hdirectory
      · exact hfree _ hnil (List.prefix_refl _) destination hfind
    have hslash : trailing = true → o.isDirectory = true := by
      rintro rfl
      exact directory_of_existingAncestor hnormal hfind hlink hmissing hancestor
    rcases status_of_find hnormal hfind hslash hlink with hstatus | hstatus
    · rw [hmissing] at hstatus
      cases hstatus
    · rw [hmissing] at hstatus
      cases hstatus
  · intro hnone
    have hne : Policy.components target ≠ [] := by
      intro hnil
      obtain ⟨o, hroot, -⟩ := find_root_ne_none host.fs
      rw [hnil, hroot] at hnone
      cases hnone
    cases hstatus : host.fs.status target.lexicallyNormal with
    | missing => rfl
    | failed => exact absurd hstatus (status_of_existingAncestor hnormal hne hancestor)
    | found place o =>
      rw [find_of_status hnormal hfree hstatus] at hnone
      cases hnone

end

/--
An accepted target has no link on the way to it, and no entry where it is reported as nonexistent,
exactly if no link on the way leads nowhere and the target as it is spelled is missing only if its
normal form is.
-/
theorem accepted_target_link_free_iff {host : Host} {activation : Activation}
    {request : TargetInspectionRequest} {inspected : InspectedTarget}
    (h : inspectAndEvaluateLiveTarget host activation request = .ok inspected)
    (haccepted : inspected.decision.accepted = true) :
    ((∀ place, place ≠ [] → place <+: Policy.components request.targetRoot → ∀ destination,
        host.fs.find place ≠ some (.link destination)) ∧
      (inspected.evidence.targetState = .nonexistent →
        host.fs.find (Policy.components request.targetRoot) = none)) ↔
    (∀ place, place ≠ [] → place <+: Policy.components request.targetRoot → ∀ destination,
        host.fs.find place = some (.link destination) →
        host.fs.status (.ofParts true place) ≠ .missing) ∧
      (host.fs.status request.targetRoot = .missing →
        host.fs.status request.targetRoot.lexicallyNormal = .missing) := by
  have hinspected := accepted_of_inspected h haccepted
  rw [hinspected.missing_iff]
  constructor
  · rintro ⟨hfree, hnone⟩
    refine ⟨fun place hne hpre destination hlink => absurd hlink (hfree place hne hpre destination),
      ?_⟩
    exact fun hmissing => (hinspected.status_iff hfree).mpr (hnone hmissing)
  · rintro ⟨hleads, hspelled⟩
    have hfree := hinspected.linkFree hleads
    exact ⟨hfree, fun hmissing => (hinspected.status_iff hfree).mp (hspelled hmissing)⟩

/-- A host that finds nothing else to object to, with `/opt` and one more entry in the root
directory. -/
def sampleHost (name : Bytes) (entry : Object)
    (laid : Laid [([], .directory 1 1 true true), ([ascii "opt"], .directory 1 2 true true),
      ([name], entry)]) : Host where
  fs := .ofEntries _ laid
  observe _ _ _ := .ok
    { excludedRootsAbsent := true
      localFilesystem := true
      filesystemKind := ascii "linux_ext4"
      filesystemIdentityDigest := List.replicate 64 0x30
      availableBytes := 4096
      sourceTargetDistinct := true
      targetIdentityDigest := List.replicate 64 0x30 }

def sampleRequest (target : String) : TargetInspectionRequest :=
  { targetClass := .managedPortable
    targetRoot := ⟨ascii target⟩
    authorizedAcceptanceRoot := ⟨[]⟩
    sourceArchive := ⟨ascii "/archive.zip"⟩
    requiredBytes := 1
    persistentEffects := [ascii "files below the target"] }

def plainHost : Host :=
  sampleHost (ascii "srv") .other (by decide)

/-- A new target on a host without links. -/
theorem new_target_accepted : ∃ inspected,
    inspectAndEvaluateLiveTarget plainHost .acceptedLivePortable (sampleRequest "/opt/app") =
      .ok inspected ∧ inspected.decision.accepted = true ∧
    ∀ place, place ≠ [] → place <+: [ascii "opt", ascii "app"] → ∀ destination,
      plainHost.fs.find place ≠ some (.link destination) := by
  obtain ⟨inspected, hinspected, haccepted⟩ := Json.exists_of_any (by decide +kernel :
    (inspectAndEvaluateLiveTarget plainHost .acceptedLivePortable
      (sampleRequest "/opt/app")).toOption.any (·.decision.accepted) = true)
  have hcomponents : Policy.components (sampleRequest "/opt/app").targetRoot =
      [ascii "opt", ascii "app"] := by decide +kernel
  have hlinks := accepted_target_link_free_iff hinspected haccepted
  rw [hcomponents] at hlinks
  refine ⟨inspected, hinspected, haccepted,
    (hlinks.mpr ⟨fun place _ _ destination hlink => ?_, ?_⟩).1⟩
  · have hmem := FileTree.mem_of_find _ hlink
    simp [plainHost, sampleHost, FileSystem.ofEntries] at hmem
  · exact fun _ => by decide +kernel

def danglingHost : Host :=
  sampleHost (ascii "app") (.link ⟨ascii "/nowhere"⟩) (by decide)

/-- A link that leads nowhere is accepted as a target that does not exist. -/
theorem dangling_link_accepted : ∃ inspected,
    inspectAndEvaluateLiveTarget danglingHost .acceptedLivePortable (sampleRequest "/app") =
      .ok inspected ∧ inspected.decision.accepted = true ∧
    inspected.evidence.targetState = .nonexistent ∧
    danglingHost.fs.find (Policy.components (sampleRequest "/app").targetRoot) =
      some (.link ⟨ascii "/nowhere"⟩) := by
  obtain ⟨inspected, hinspected, haccepted⟩ := Json.exists_of_any (by decide +kernel :
    (inspectAndEvaluateLiveTarget danglingHost .acceptedLivePortable
      (sampleRequest "/app")).toOption.any (·.decision.accepted) = true)
  refine ⟨inspected, hinspected, haccepted, ?_, by decide +kernel⟩
  exact (accepted_of_inspected hinspected haccepted).missing_iff.mpr (by decide +kernel)

end Usk.Policy.Linked

import UniversalSetup.Base.Storage
import UniversalSetup.Policy.Target

/-!
# The evidence for a target

`inspect_live_target` collects what the policy decides on: whether the target exists, which
directories lead to it, the file system it would be on, and whether it is a protected place or the
place of the source.
-/

namespace Usk.Policy

open Json (Result demand bind_eq_ok)

variable {activation : Activation} {evidence : TargetEvidence}

/-- The host of an inspection. `filesystemKind` is what the mount table says about a path, and
`available` is the free space there. -/
structure TargetHost where
  storage : Storage
  home : Option Path
  xdgDataHome : Option Path
  filesystemKind : Path → Bool × Bytes
  available : Path → Result UInt64

structure TargetInspectionRequest where
  targetClass : TargetClass
  targetRoot : Path
  authorizedAcceptanceRoot : Path
  sourceArchive : Path
  requiredBytes : UInt64
  persistentEffects : List Bytes

structure InspectedTarget where
  evidence : TargetEvidence
  decision : TargetPolicyDecision

/-- Evidence of which nothing is known beyond the request. -/
def TargetInspectionRequest.unproven (request : TargetInspectionRequest) : TargetEvidence :=
  { targetClass := request.targetClass
    targetRoot := request.targetRoot
    authorizedAcceptanceRoot := request.authorizedAcceptanceRoot
    targetState := .unproven
    targetIdentityDigest := []
    filesystemIdentityDigest := []
    filesystemKind := []
    persistentEffects := request.persistentEffects
    requiredBytes := request.requiredBytes
    availableBytes := 0
    explicitlySupplied := !request.targetRoot.isEmpty
    localFilesystem := false
    pathComponentsStable := false
    mountRedirectionAbsent := false
    excludedRootsAbsent := false
    sourceTargetDistinct := false
    persistentEffectsComplete := !request.persistentEffects.isEmpty }

/-! ## Places -/

/-- `same_or_below`. -/
def sameOrBelow (cwd root candidate : Path) : Bool :=
  match Path.absolute cwd root, Path.absolute cwd candidate with
  | .ok root, .ok candidate =>
    root.lexicallyNormal.same candidate.lexicallyNormal ||
      match candidate.lexicallyNormal.lexicallyRelative root.lexicallyNormal with
      | none => false
      | some parts => parts.all (· != ascii "..")
  | _, _ => false

/-- The loop of `existing_ancestor`. The counter is the number of components, after which the path
is the root directory. -/
def climb (existsAt : Path → Result Bool) : Nat → Path → Result Path
  | 0, path => .ok path
  | steps + 1, path =>
    match existsAt path with
    | .error _ => .error "target ancestor inspection failed"
    | .ok true => .ok path
    | .ok false => climb existsAt steps path.parentPath

/-- `existing_ancestor`, with the device and inode numbers of the directory. -/
def existingAncestor (storage : Storage) (path : Path) : Result (Path × UInt64 × UInt64) := do
  let path ← storage.absoluteNormal path
  let path ← climb storage.existsAt path.names.length path
  match storage.status path with
  | .ok (some (.directory device inode)) => pure (path, device, inode)
  | _ => .error "target has no stable existing directory ancestor"

/-- The loop of `existing_components`. -/
def collectComponents (existsAt : Path → Result Bool) : Path → List Bytes → Result (List Path)
  | _, [] => .ok []
  | current, part :: rest =>
    match existsAt (current.join ⟨part⟩) with
    | .error _ => .error "target component inspection failed"
    | .ok false => .ok []
    | .ok true => do
      let components ← collectComponents existsAt (current.join ⟨part⟩) rest
      pure (current.join ⟨part⟩ :: components)

def existingComponents (storage : Storage) (target : Path) : Result (List Path) := do
  let absolute ← storage.absoluteNormal target
  let root : Path := ⟨ascii "/"⟩
  let components ← collectComponents storage.existsAt root absolute.names
  pure (if storage.present root then root :: components else components)

/-- `components_stable`. -/
def componentsStable (storage : Storage) (components : List Path) : Bool :=
  components.all fun path =>
    match storage.status path with
    | .ok (some (.link _)) => false
    | .ok (some _) => true
    | _ => false

def systemRoots : List Path :=
  ["/bin", "/boot", "/dev", "/etc", "/lib", "/proc", "/root", "/run", "/sbin", "/sys", "/usr",
    "/var"].map fun root => ⟨ascii root⟩

def protectedRoots (host : TargetHost) : List Path :=
  systemRoots ++ ([host.home, host.xdgDataHome].filterMap id).flatMap fun value =>
    [value.join ⟨ascii ".steam"⟩, value.join ⟨ascii ".local/share/Steam"⟩]

def protectedRootAbsent (host : TargetHost) (target authorizedRoot : Path) : Bool :=
  let under := sameOrBelow host.storage.cwd
  (protectedRoots host).all fun root =>
    !(under root target || under target root) ||
      (!authorizedRoot.isEmpty && under authorizedRoot target && !under root authorizedRoot)

/-- `source_target_distinct`. A target that exists is the same object as the source if both are the
same file. -/
def sourceTargetDistinct (storage : Storage) (source target : Path) : Bool :=
  !source.isEmpty && !target.isEmpty && !sameOrBelow storage.cwd target source &&
    !(match storage.stableFile source, storage.stableFile target with
      | .ok found, .ok found' => decide (found.2.identity = found'.2.identity)
      | _, _ => false)

/-! ## Evidence -/

/-- The directory is there and has nothing in it. -/
def emptyDirectory (storage : Storage) (path : Path) : Bool :=
  match storage.status path with
  | .ok (some (.directory _ _)) =>
    match storage.disk.resolve [] (storage.fromRoot path).names with
    | some place => (storage.disk.tree.part place).all fun e => e.1.isEmpty
    | none => false
  | _ => false

def targetStateOf (existsAt : Path → Result Bool) (emptyDirectory : Path → Bool) (target : Path) :
    Result TargetState :=
  match existsAt target with
  | .error _ => .error "target state inspection failed"
  | .ok false => .ok .nonexistent
  | .ok true => .ok (if emptyDirectory target then .empty else .nonempty)

/-- The text of the target identity. The source is opened for it. -/
def identityText (storage : Storage) (request : TargetInspectionRequest) (state : TargetState)
    (ancestor : Path) (device inode : UInt64) (filesystem : Bytes) : Result Bytes := do
  let source ← storage.stableFile request.sourceArchive
  let root ← storage.absoluteNormal request.targetRoot
  pure (root.generic ++ [0x0a] ++ ascii (targetStateName state) ++ [0x0a] ++ ancestor.generic ++
    [0x0a] ++ hexId device ++ [0x3a] ++ hexId inode ++ [0x0a] ++ filesystem ++ [0x0a] ++
    hexId source.2.device ++ [0x0a] ++ hexId source.2.inode ++ [0x0a] ++
    decimal source.1.length ++ [0x0a] ++ decimal source.2.modified.toNat)

/-- The free space for the target. -/
def capacityAt (host : TargetHost) (ancestor : Path) : Result UInt64 :=
  match host.available ancestor with
  | .ok available => .ok available
  | .error _ => .error "target capacity inspection failed"

/-- The evidence from what was observed: the directory above the target with its numbers, the
components that exist, the state of the target and the free space. -/
def observedEvidence (host : TargetHost) (request : TargetInspectionRequest)
    (ancestor : Path × UInt64 × UInt64) (components : List Path) (state : TargetState)
    (available : UInt64) : TargetEvidence :=
  let kind := host.filesystemKind ancestor.1
  let filesystem := sha256 (kind.2 ++ 0x0a :: decimal ancestor.2.1.toNat)
  let identity :=
    identityText host.storage request state ancestor.1 ancestor.2.1 ancestor.2.2 filesystem
  { request.unproven with
    pathComponentsStable := componentsStable host.storage components
    mountRedirectionAbsent := componentsStable host.storage components
    excludedRootsAbsent :=
      protectedRootAbsent host request.targetRoot request.authorizedAcceptanceRoot
    targetState := state
    localFilesystem := kind.1
    filesystemKind := kind.2
    filesystemIdentityDigest := filesystem
    availableBytes := available
    sourceTargetDistinct := identity.toOption.isSome &&
      sourceTargetDistinct host.storage request.sourceArchive request.targetRoot
    targetIdentityDigest := (identity.toOption.map sha256).getD [] }

def inspectLiveTarget (host : TargetHost) (request : TargetInspectionRequest) :
    Result TargetEvidence :=
  if request.targetRoot.isEmpty || !request.targetRoot.isAbsolute then .ok request.unproven
  else do
    let ancestor ← existingAncestor host.storage request.targetRoot
    let components ← existingComponents host.storage request.targetRoot
    let state ← targetStateOf host.storage.existsAt (emptyDirectory host.storage) request.targetRoot
    let available ← capacityAt host ancestor.1
    pure (observedEvidence host request ancestor components state available)

def inspectAndEvaluateLiveTarget (host : TargetHost) (activation : Activation)
    (request : TargetInspectionRequest) : Result InspectedTarget := do
  let evidence ← inspectLiveTarget host request
  pure ⟨evidence, evaluateLiveTarget activation evidence⟩

/-! ## What a place being below another one means -/

theorem absolute_of_absolute {cwd p : Path} (h : p.isAbsolute = true) :
    Path.absolute cwd p = .ok p := by
  have hne : p.isEmpty = false := by
    rw [Path.isEmpty_eq, h]
    rfl
  rw [Path.absolute, hne, h]
  rfl

/-- The components of an absolute path in normal form. -/
def components (p : Path) : List Bytes :=
  p.lexicallyNormal.segments

theorem normalPath_components {p : Path} (h : p.isAbsolute = true) :
    ∃ trailing, NormalPath p.lexicallyNormal (components p) trailing := by
  obtain ⟨segments, trailing, hn⟩ := normalPath_lexicallyNormal h
  refine ⟨trailing, ?_⟩
  rw [components, hn.segments_eq]
  exact hn

theorem sameOrBelow_iff {cwd root candidate : Path} (hroot : root.isAbsolute = true)
    (hcandidate : candidate.isAbsolute = true) :
    sameOrBelow cwd root candidate = true ↔ components root <+: components candidate := by
  obtain ⟨t, hr⟩ := normalPath_components hroot
  obtain ⟨t', hc⟩ := normalPath_components hcandidate
  rw [sameOrBelow, absolute_of_absolute hroot, absolute_of_absolute hcandidate]
  dsimp only
  rw [Bool.or_eq_true]
  constructor
  · rintro (hsame | hbelow)
    · simp only [Path.same, Bool.and_eq_true, beq_iff_eq] at hsame
      rw [components, components, Path.segments, Path.segments, hsame.2]
    · by_contra hnot
      obtain ⟨parts, hparts, hup⟩ := lexicallyRelative_aside hc hr hnot
      rw [hparts] at hbelow
      exact absurd (List.all_eq_true.mp hbelow _ hup) (by decide)
  · rintro ⟨rest, hrest⟩
    rw [← hrest] at hc
    obtain ⟨parts, hparts, hup⟩ := lexicallyRelative_below hc hr
    refine Or.inr ?_
    rw [hparts]
    refine List.all_eq_true.mpr fun part hpart => ?_
    rw [bne_iff_ne]
    rintro rfl
    exact hup hpart

/-! ## Accepted targets -/

/-- An accepted target gets past each of the refusals. -/
theorem accepted_of_else {c : Prop} [Decidable c] {code detail : String}
    {rest : TargetPolicyDecision}
    (h : (if c then refuse code detail activation evidence else rest).accepted = true) :
    ¬c ∧ rest.accepted = true := by
  split at h
  · cases h
  · next hc => exact ⟨hc, h⟩

theorem checks_of_accepted (h : (evaluateLiveTarget activation evidence).accepted = true) :
    evidence.targetRoot.isAbsolute = true ∧ evidence.pathComponentsStable = true := by
  unfold evaluateLiveTarget at h
  obtain ⟨-, h⟩ := accepted_of_else h
  obtain ⟨-, h⟩ := accepted_of_else h
  obtain ⟨-, h⟩ := accepted_of_else h
  obtain ⟨hexplicit, h⟩ := accepted_of_else h
  obtain ⟨-, h⟩ := accepted_of_else h
  obtain ⟨-, h⟩ := accepted_of_else h
  obtain ⟨-, h⟩ := accepted_of_else h
  obtain ⟨hstable, -⟩ := accepted_of_else h
  rw [Bool.or_eq_true, not_or] at hexplicit
  exact ⟨by simpa using hexplicit.2, by simpa using hstable⟩

theorem targetRoot_of_inspected {host : TargetHost} {request : TargetInspectionRequest}
    (h : inspectLiveTarget host request = .ok evidence) :
    evidence.targetRoot = request.targetRoot := by
  unfold inspectLiveTarget at h
  split at h
  · cases h
    rfl
  · simp only [bind_eq_ok] at h
    obtain ⟨_, -, _, -, _, -, _, -, h⟩ := h
    cases h
    rfl

/-- An accepted target was given by an absolute path. -/
theorem isAbsolute_of_inspected {host : TargetHost} {request : TargetInspectionRequest}
    {inspected : InspectedTarget}
    (h : inspectAndEvaluateLiveTarget host activation request = .ok inspected)
    (haccepted : inspected.decision.accepted = true) : request.targetRoot.isAbsolute = true := by
  simp only [inspectAndEvaluateLiveTarget, bind_eq_ok] at h
  obtain ⟨evidence, hevidence, h⟩ := h
  cases h
  rw [← targetRoot_of_inspected hevidence]
  exact (checks_of_accepted haccepted).1

end Usk.Policy

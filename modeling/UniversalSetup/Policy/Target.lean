import UniversalSetup.Base.GenericPath
import UniversalSetup.Base.SelfDelimiting
import UniversalSetup.Base.Sha256
import Mathlib.Data.Set.Function

/-!
# The policy for live targets

`evaluate_live_target` decides on the evidence that was collected for a target, and returns with the
decision the digest of the evidence. The digest is over a list of fields, each a name and a value
with their lengths. Nothing that the decision depends on is outside of those fields, so that a
digest stands for one decision.
-/

namespace Usk.Policy

inductive TargetClass where
  | fixture
  | disposableTest
  | operatorAcceptance
  | managedPortable
  | imported
  | foreignOwned
  | steamManaged
  | perUser
  | systemWide
deriving DecidableEq

inductive Activation where
  | unavailable
  | operatorAcceptanceCandidate
  | acceptedLivePortable
deriving DecidableEq

inductive TargetState where
  | nonexistent
  | empty
  | nonempty
  | unproven
deriving DecidableEq

structure TargetEvidence where
  targetClass : TargetClass
  targetRoot : Path
  authorizedAcceptanceRoot : Path
  targetState : TargetState
  targetIdentityDigest : Bytes
  filesystemIdentityDigest : Bytes
  filesystemKind : Bytes
  persistentEffects : List Bytes
  requiredBytes : UInt64
  availableBytes : UInt64
  explicitlySupplied : Bool
  localFilesystem : Bool
  pathComponentsStable : Bool
  mountRedirectionAbsent : Bool
  excludedRootsAbsent : Bool
  sourceTargetDistinct : Bool
  persistentEffectsComplete : Bool
deriving DecidableEq

variable {evidence evidence' : TargetEvidence}

structure TargetPolicyDecision where
  accepted : Bool
  code : String
  detail : String
  targetBindingDigest : Bytes
deriving DecidableEq

def targetClassName : TargetClass → String
  | .fixture => "fixture"
  | .disposableTest => "disposable_test"
  | .operatorAcceptance => "operator_acceptance"
  | .managedPortable => "managed_portable"
  | .imported => "imported"
  | .foreignOwned => "foreign_owned"
  | .steamManaged => "steam_managed"
  | .perUser => "per_user"
  | .systemWide => "system_wide"

def activationName : Activation → String
  | .unavailable => "unavailable"
  | .operatorAcceptanceCandidate => "operator_acceptance_candidate"
  | .acceptedLivePortable => "accepted_live_portable"

def targetStateName : TargetState → String
  | .nonexistent => "nonexistent"
  | .empty => "empty"
  | .nonempty => "nonempty"
  | .unproven => "unproven"

/-! ## The digest -/

/-- `append_field`. -/
def field (name value : Bytes) : Bytes :=
  counted name ++ [0x3d] ++ counted value ++ [0x0a]

/-- `flag ? "true" : "false"`. -/
def flag (b : Bool) : Bytes :=
  ascii (if b then "true" else "false")

/-- The capacity that the digest binds, in the place of the bytes that are available. -/
def TargetEvidence.capacitySatisfied (evidence : TargetEvidence) : Bool :=
  evidence.requiredBytes != 0 && decide (evidence.requiredBytes ≤ evidence.availableBytes)

/-- The fields of `binding_digest` that are always there. -/
def fixedFields (activation : Activation) (evidence : TargetEvidence) : List (Bytes × Bytes) :=
  [(ascii "activation", ascii (activationName activation)),
    (ascii "target_class", ascii (targetClassName evidence.targetClass)),
    (ascii "target_root", evidence.targetRoot.lexicallyNormal.generic),
    (ascii "acceptance_root", evidence.authorizedAcceptanceRoot.lexicallyNormal.generic),
    (ascii "target_state", ascii (targetStateName evidence.targetState)),
    (ascii "target_identity_digest", evidence.targetIdentityDigest),
    (ascii "filesystem_identity_digest", evidence.filesystemIdentityDigest),
    (ascii "filesystem_kind", evidence.filesystemKind),
    (ascii "required_bytes", decimal evidence.requiredBytes.toNat),
    (ascii "capacity_satisfied", flag evidence.capacitySatisfied),
    (ascii "explicitly_supplied", flag evidence.explicitlySupplied),
    (ascii "local_filesystem", flag evidence.localFilesystem),
    (ascii "path_components_stable", flag evidence.pathComponentsStable),
    (ascii "mount_redirection_absent", flag evidence.mountRedirectionAbsent),
    (ascii "excluded_roots_absent", flag evidence.excludedRootsAbsent),
    (ascii "source_target_distinct", flag evidence.sourceTargetDistinct),
    (ascii "persistent_effects_complete", flag evidence.persistentEffectsComplete)]

def bindingFields (activation : Activation) (evidence : TargetEvidence) : List (Bytes × Bytes) :=
  fixedFields activation evidence ++
    evidence.persistentEffects.map fun effect => (ascii "effect", effect)

/-- The text that `binding_digest` hashes. -/
def bindingText (activation : Activation) (evidence : TargetEvidence) : Bytes :=
  (bindingFields activation evidence).flatMap fun f => field f.1 f.2

def bindingDigest (activation : Activation) (evidence : TargetEvidence) : Bytes :=
  sha256 (bindingText activation evidence)

/-! ## The decision -/

def strictlyBelow (root candidate : Path) : Bool :=
  if root.isEmpty || candidate.isEmpty || !root.isAbsolute || !candidate.isAbsolute then false
  else if root.lexicallyNormal.same candidate.lexicallyNormal then false
  else
    match candidate.lexicallyNormal.lexicallyRelative root.lexicallyNormal with
    | none => false
    | some parts => parts.all (· != ascii "..")

def refuse (code detail : String) (activation : Activation) (evidence : TargetEvidence) :
    TargetPolicyDecision :=
  ⟨false, code, detail, bindingDigest activation evidence⟩

def evaluateLiveTarget (activation : Activation) (evidence : TargetEvidence) :
    TargetPolicyDecision :=
  if activation = .unavailable then
    refuse "live_target_acceptance_required"
      "live portable setup is unavailable before an authorized M2 acceptance lane"
      activation evidence
  else if evidence.targetClass = .managedPortable ∧ activation ≠ .acceptedLivePortable then
    refuse "live_target_acceptance_required"
      "managed portable mutation requires a recorded human M2 Pass" activation evidence
  else if evidence.targetClass ≠ .operatorAcceptance ∧ evidence.targetClass ≠ .managedPortable then
    refuse "target_class_forbidden"
      "the selected target class is outside M2 live portable authority" activation evidence
  else if !evidence.explicitlySupplied || evidence.targetRoot.isEmpty ||
      !evidence.targetRoot.isAbsolute then
    refuse "target_not_explicit"
      "the operator must explicitly supply an absolute target root" activation evidence
  else if evidence.targetClass = .operatorAcceptance ∧
      strictlyBelow evidence.authorizedAcceptanceRoot evidence.targetRoot = false then
    refuse "target_outside_acceptance_root"
      "operator-acceptance targets must remain below the authorized acceptance root"
      activation evidence
  else if evidence.targetState ≠ .nonexistent ∧ evidence.targetState ≠ .empty then
    refuse "target_not_empty"
      "the selected install target must be nonexistent or proven empty" activation evidence
  else if !evidence.localFilesystem || evidence.filesystemKind.isEmpty ||
      !validSha256 evidence.filesystemIdentityDigest then
    refuse "target_filesystem_not_local"
      "the target filesystem must be local and identity-bound" activation evidence
  else if !evidence.pathComponentsStable then
    refuse "target_path_redirected"
      "a target path component is a link, reparse point, or unstable ancestor" activation evidence
  else if !evidence.mountRedirectionAbsent then
    refuse "target_mount_redirected"
      "the target path crosses an unapproved mount redirection" activation evidence
  else if !evidence.excludedRootsAbsent then
    refuse "target_root_excluded"
      "the target is within a protected, cloud-synchronized, Steam, or foreign-owned root"
      activation evidence
  else if evidence.requiredBytes = 0 ∨ evidence.availableBytes < evidence.requiredBytes then
    refuse "target_space_insufficient"
      "available target space does not satisfy the reviewed plan requirement" activation evidence
  else if !evidence.sourceTargetDistinct then
    refuse "source_target_same_object"
      "the source archive and selected target must be distinct filesystem objects"
      activation evidence
  else if !evidence.persistentEffectsComplete || evidence.persistentEffects.isEmpty then
    refuse "target_effects_incomplete"
      "every persistent effect must be available for operator review" activation evidence
  else if !validSha256 evidence.targetIdentityDigest then
    refuse "target_identity_unproven"
      "the selected target identity must be digest-bound" activation evidence
  else
    ⟨true, "", "live target satisfies the bounded M2 policy", bindingDigest activation evidence⟩

/-! ## What the text determines -/

theorem selfDelimiting_field : SelfDelimiting fun f : Bytes × Bytes => field f.1 f.2 :=
  (selfDelimiting_counted.pair selfDelimiting_counted [0x3d]).terminated [0x0a]

theorem field_ne_nil (f : Bytes × Bytes) : field f.1 f.2 ≠ [] := by
  unfold field
  simp

/-- No field list imitates another one. -/
theorem bindingFields_of_text {activation activation' : Activation}
    (h : bindingText activation evidence = bindingText activation' evidence') :
    bindingFields activation evidence = bindingFields activation' evidence' :=
  selfDelimiting_field.flatMap_injective field_ne_nil h

theorem activationName_injective {a b : Activation}
    (h : ascii (activationName a) = ascii (activationName b)) : a = b := by
  revert h
  cases a <;> cases b <;> decide

theorem targetClassName_injective {a b : TargetClass}
    (h : ascii (targetClassName a) = ascii (targetClassName b)) : a = b := by
  revert h
  cases a <;> cases b <;> decide

theorem targetStateName_injective {a b : TargetState}
    (h : ascii (targetStateName a) = ascii (targetStateName b)) : a = b := by
  revert h
  cases a <;> cases b <;> decide

theorem flag_injective {a b : Bool} (h : flag a = flag b) : a = b := by
  revert h
  cases a <;> cases b <;> decide

/-- Two pieces of evidence that agree in everything that the digest binds. -/
structure SameBinding (evidence evidence' : TargetEvidence) : Prop where
  targetClass : evidence.targetClass = evidence'.targetClass
  targetRoot : evidence.targetRoot.lexicallyNormal.generic =
    evidence'.targetRoot.lexicallyNormal.generic
  acceptanceRoot : evidence.authorizedAcceptanceRoot.lexicallyNormal.generic =
    evidence'.authorizedAcceptanceRoot.lexicallyNormal.generic
  targetState : evidence.targetState = evidence'.targetState
  targetIdentityDigest : evidence.targetIdentityDigest = evidence'.targetIdentityDigest
  filesystemIdentityDigest : evidence.filesystemIdentityDigest = evidence'.filesystemIdentityDigest
  filesystemKind : evidence.filesystemKind = evidence'.filesystemKind
  requiredBytes : evidence.requiredBytes = evidence'.requiredBytes
  capacitySatisfied : evidence.capacitySatisfied = evidence'.capacitySatisfied
  explicitlySupplied : evidence.explicitlySupplied = evidence'.explicitlySupplied
  localFilesystem : evidence.localFilesystem = evidence'.localFilesystem
  pathComponentsStable : evidence.pathComponentsStable = evidence'.pathComponentsStable
  mountRedirectionAbsent : evidence.mountRedirectionAbsent = evidence'.mountRedirectionAbsent
  excludedRootsAbsent : evidence.excludedRootsAbsent = evidence'.excludedRootsAbsent
  sourceTargetDistinct : evidence.sourceTargetDistinct = evidence'.sourceTargetDistinct
  persistentEffectsComplete :
    evidence.persistentEffectsComplete = evidence'.persistentEffectsComplete
  persistentEffects : evidence.persistentEffects = evidence'.persistentEffects

theorem sameBinding_of_fields {activation activation' : Activation}
    (h : bindingFields activation evidence = bindingFields activation' evidence') :
    activation = activation' ∧ SameBinding evidence evidence' := by
  obtain ⟨hfixed, heffects⟩ := List.append_inj h rfl
  have heffects' : evidence.persistentEffects = evidence'.persistentEffects :=
    List.map_injective_iff.mpr (fun _ _ heq => (Prod.mk.inj heq).2) heffects
  simp only [fixedFields, List.cons.injEq, Prod.mk.injEq, true_and, and_true] at hfixed
  obtain ⟨hactivation, hclass, hroot, hacceptance, hstate, hidentity, hfilesystem, hkind, hrequired,
    hcapacity, hexplicit, hlocal, hstable, hmount, hexcluded, hdistinct, hcomplete⟩ := hfixed
  exact ⟨activationName_injective hactivation,
    { targetClass := targetClassName_injective hclass
      targetRoot := hroot
      acceptanceRoot := hacceptance
      targetState := targetStateName_injective hstate
      targetIdentityDigest := hidentity
      filesystemIdentityDigest := hfilesystem
      filesystemKind := hkind
      requiredBytes := UInt64.toNat_inj.mp (decimal_injective hrequired)
      capacitySatisfied := flag_injective hcapacity
      explicitlySupplied := flag_injective hexplicit
      localFilesystem := flag_injective hlocal
      pathComponentsStable := flag_injective hstable
      mountRedirectionAbsent := flag_injective hmount
      excludedRootsAbsent := flag_injective hexcluded
      sourceTargetDistinct := flag_injective hdistinct
      persistentEffectsComplete := flag_injective hcomplete
      persistentEffects := heffects' }⟩

/-! ## What the decision reads -/

theorem strictlyBelow_congr {root root' candidate candidate' : Path}
    (hroot : root.lexicallyNormal.generic = root'.lexicallyNormal.generic)
    (hcandidate : candidate.lexicallyNormal.generic = candidate'.lexicallyNormal.generic) :
    strictlyBelow root candidate = strictlyBelow root' candidate' := by
  obtain ⟨hempty, habsolute, hnames⟩ := Path.of_normal_generic_eq hroot
  obtain ⟨hempty', habsolute', hnames'⟩ := Path.of_normal_generic_eq hcandidate
  unfold strictlyBelow Path.same Path.lexicallyRelative
  simp only [Path.isAbsolute_lexicallyNormal, hempty, habsolute, hnames, hempty', habsolute',
    hnames']

theorem insufficient_iff (evidence : TargetEvidence) :
    (evidence.requiredBytes = 0 ∨ evidence.availableBytes < evidence.requiredBytes) ↔
      evidence.capacitySatisfied = false := by
  unfold TargetEvidence.capacitySatisfied
  by_cases hzero : evidence.requiredBytes = 0
  · simp [hzero]
  · simp [hzero]

theorem SameBinding.bindingDigest_eq (h : SameBinding evidence evidence')
    (activation : Activation) :
    bindingDigest activation evidence = bindingDigest activation evidence' := by
  unfold bindingDigest bindingText bindingFields fixedFields
  rw [h.targetClass, h.targetRoot, h.acceptanceRoot, h.targetState, h.targetIdentityDigest,
    h.filesystemIdentityDigest, h.filesystemKind, h.requiredBytes, h.capacitySatisfied,
    h.explicitlySupplied, h.localFilesystem, h.pathComponentsStable, h.mountRedirectionAbsent,
    h.excludedRootsAbsent, h.sourceTargetDistinct, h.persistentEffectsComplete,
    h.persistentEffects]

/-- The decision does not depend on anything that the digest leaves out. -/
theorem SameBinding.evaluateLiveTarget_eq (h : SameBinding evidence evidence')
    (activation : Activation) :
    evaluateLiveTarget activation evidence = evaluateLiveTarget activation evidence' := by
  obtain ⟨hempty, habsolute, -⟩ := Path.of_normal_generic_eq h.targetRoot
  have hbelow := strictlyBelow_congr h.acceptanceRoot h.targetRoot
  unfold evaluateLiveTarget refuse
  simp only [insufficient_iff, h.bindingDigest_eq, hempty, habsolute, hbelow, h.targetClass,
    h.targetState, h.targetIdentityDigest, h.filesystemIdentityDigest, h.filesystemKind,
    h.capacitySatisfied, h.explicitlySupplied, h.localFilesystem, h.pathComponentsStable,
    h.mountRedirectionAbsent, h.excludedRootsAbsent, h.sourceTargetDistinct,
    h.persistentEffectsComplete, h.persistentEffects]

theorem targetBindingDigest_eq (activation : Activation) (evidence : TargetEvidence) :
    (evaluateLiveTarget activation evidence).targetBindingDigest =
      bindingDigest activation evidence := by
  unfold evaluateLiveTarget refuse
  simp only [apply_ite TargetPolicyDecision.targetBindingDigest, ite_self]

/-- Equal digests mean equal decisions, unless SHA-256 collides on the two texts. -/
theorem binding_digest_determines_decision {activation activation' : Activation}
    {evidence evidence' : TargetEvidence}
    (hinj : Set.InjOn sha256 {bindingText activation evidence, bindingText activation' evidence'})
    (h : (evaluateLiveTarget activation evidence).targetBindingDigest =
      (evaluateLiveTarget activation' evidence').targetBindingDigest) :
    (evaluateLiveTarget activation evidence).accepted =
        (evaluateLiveTarget activation' evidence').accepted ∧
      (evaluateLiveTarget activation evidence).code =
        (evaluateLiveTarget activation' evidence').code ∧
      (evaluateLiveTarget activation evidence).detail =
        (evaluateLiveTarget activation' evidence').detail := by
  rw [targetBindingDigest_eq, targetBindingDigest_eq] at h
  have htext := hinj (Set.mem_insert _ _) (Set.mem_insert_of_mem _ (Set.mem_singleton _)) h
  obtain ⟨rfl, hsame⟩ := sameBinding_of_fields (bindingFields_of_text htext)
  rw [hsame.evaluateLiveTarget_eq]
  exact ⟨rfl, rfl, rfl⟩

/-- Evidence that satisfies the policy. -/
def sampleEvidence : TargetEvidence :=
  { targetClass := .operatorAcceptance
    targetRoot := ⟨ascii "/accept/editor"⟩
    authorizedAcceptanceRoot := ⟨ascii "/accept"⟩
    targetState := .nonexistent
    targetIdentityDigest := List.replicate 64 0x30
    filesystemIdentityDigest := List.replicate 64 0x30
    filesystemKind := ascii "ext4"
    persistentEffects := [ascii "create /accept/editor"]
    requiredBytes := 1024
    availableBytes := 4096
    explicitlySupplied := true
    localFilesystem := true
    pathComponentsStable := true
    mountRedirectionAbsent := true
    excludedRootsAbsent := true
    sourceTargetDistinct := true
    persistentEffectsComplete := true }

/-- More available space and another spelling of the target change neither the text nor the
decision. -/
theorem sampleEvidence_decision :
    (evaluateLiveTarget .operatorAcceptanceCandidate sampleEvidence).accepted = true ∧
    (evaluateLiveTarget .operatorAcceptanceCandidate sampleEvidence).accepted =
      (evaluateLiveTarget .operatorAcceptanceCandidate
        { sampleEvidence with
          availableBytes := 8192, targetRoot := ⟨ascii "/accept/./editor"⟩ }).accepted := by
  have htext : bindingText .operatorAcceptanceCandidate sampleEvidence =
      bindingText .operatorAcceptanceCandidate
        { sampleEvidence with
          availableBytes := 8192, targetRoot := ⟨ascii "/accept/./editor"⟩ } := by decide +kernel
  refine ⟨by decide +kernel, (binding_digest_determines_decision ?_ ?_).1⟩
  · rw [← htext, Set.pair_eq_singleton]
    exact Set.injOn_singleton _ _
  · rw [targetBindingDigest_eq, targetBindingDigest_eq]
    exact congrArg sha256 htext

end Usk.Policy

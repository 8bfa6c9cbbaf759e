import UniversalSetup.Archive.Request
import UniversalSetup.Policy.Inspect

/-!
# Targets below the acceptance root

An operator's target has to be below the acceptance root, and the root itself is no target. The
policy compares the two paths first, and `std::filesystem` tells a path that ends in a slash from
the one without. A directory spelled in the other way is then at `.` from itself, which has no `..`
in it.
-/

namespace Usk.Policy

open Archive (requireNormalizedAbsoluteLocalPathUtf8)
open Json (bind_eq_ok demand_eq_ok)

theorem normalPath_of_required {value : Bytes} {fieldName : String} {path : Path}
    (h : requireNormalizedAbsoluteLocalPathUtf8 value fieldName = .ok path) :
    NormalPath path path.segments path.trailing := by
  simp only [requireNormalizedAbsoluteLocalPathUtf8, bind_eq_ok, demand_eq_ok] at h
  obtain ⟨-, -, -, -, -, -, -, habsolute, -, -, hpath⟩ := h
  cases hpath
  obtain ⟨segments, trailing, hn⟩ := normalPath_lexicallyNormal habsolute
  exact hn.isNormal

theorem same_iff {p q : Path} {segments segments' : List Bytes} {trailing trailing' : Bool}
    (h : NormalPath p segments trailing) (h' : NormalPath q segments' trailing') :
    p.same q = true ↔ p = q := by
  unfold Path.same
  rw [h.isAbsolute, h'.isAbsolute, beq_self_eq_true, Bool.true_and, beq_iff_eq]
  constructor
  · intro hnames
    rw [h.spelled, h'.spelled, ← h.names, ← h'.names, hnames]
  · intro heq
    rw [heq]

theorem strictlyBelow_iff {root candidate : Path} {segments segments' : List Bytes}
    {trailing trailing' : Bool} (h : NormalPath root segments trailing)
    (h' : NormalPath candidate segments' trailing') :
    strictlyBelow root candidate = true ↔ root ≠ candidate ∧ segments <+: segments' := by
  have hunder := @sameOrBelow_iff root root candidate h.isAbsolute h'.isAbsolute
  unfold components at hunder
  rw [h.lexicallyNormal, h'.lexicallyNormal, h.segments_eq, h'.segments_eq] at hunder
  rw [← hunder, sameOrBelow, absolute_of_absolute h.isAbsolute, absolute_of_absolute h'.isAbsolute]
  dsimp only
  rw [strictlyBelow, h.isEmpty, h'.isEmpty, h.isAbsolute, h'.isAbsolute, h.lexicallyNormal,
    h'.lexicallyNormal, if_neg (by decide)]
  by_cases hsame : root = candidate
  · rw [if_pos ((same_iff h h').mpr hsame)]
    exact iff_of_false Bool.false_ne_true fun hne => hne.1 hsame
  · have hdifferent := mt (same_iff h h').mp hsame
    rw [if_neg hdifferent, Bool.not_eq_true _ |>.mp hdifferent, Bool.false_or]
    exact (and_iff_right hsame).symm

/-- The policy takes a place to be below the root exactly if its names go on behind those of the
root, unless the two are one directory spelled with and without a slash at the end. -/
theorem strictly_below_exact_iff {rootText candidateText : Bytes} {field field' : String}
    {root candidate : Path}
    (hroot : requireNormalizedAbsoluteLocalPathUtf8 rootText field = .ok root)
    (hcandidate : requireNormalizedAbsoluteLocalPathUtf8 candidateText field' = .ok candidate) :
    (strictlyBelow root candidate = true ↔
      root.segments <+: candidate.segments ∧ root.segments ≠ candidate.segments) ↔
    (root.segments = candidate.segments → root = candidate) := by
  rw [strictlyBelow_iff (normalPath_of_required hroot) (normalPath_of_required hcandidate)]
  by_cases hsegments : root.segments = candidate.segments
  · rw [hsegments]
    simp
  · have hne : root ≠ candidate := fun heq => hsegments (heq ▸ rfl)
    simp [hsegments, hne]

/-- A slash at the end of the root does not matter for what is below it. -/
theorem target_in_root_below : ∃ root target,
    requireNormalizedAbsoluteLocalPathUtf8 (ascii "/srv/accept/") "acceptance_root" = .ok root ∧
    requireNormalizedAbsoluteLocalPathUtf8 (ascii "/srv/accept/editor") "target_root" = .ok target ∧
    strictlyBelow root target = true := by
  have hroot : requireNormalizedAbsoluteLocalPathUtf8 (ascii "/srv/accept/") "acceptance_root" =
      .ok ⟨ascii "/srv/accept/"⟩ := Json.toOption_eq_some.mp (by decide +kernel)
  have htarget : requireNormalizedAbsoluteLocalPathUtf8 (ascii "/srv/accept/editor")
      "target_root" = .ok ⟨ascii "/srv/accept/editor"⟩ := Json.toOption_eq_some.mp
        (by decide +kernel)
  refine ⟨_, _, hroot, htarget, ((strictly_below_exact_iff hroot htarget).mpr ?_).mpr ?_⟩
  · exact fun heq => absurd heq (by decide +kernel)
  · exact ⟨by decide +kernel, by decide +kernel⟩

/-- The acceptance root with a slash at its end is below the acceptance root. -/
theorem root_below_itself :
    requireNormalizedAbsoluteLocalPathUtf8 (ascii "/a") "acceptance_root" = .ok ⟨ascii "/a"⟩ ∧
    requireNormalizedAbsoluteLocalPathUtf8 (ascii "/a/") "target_root" = .ok ⟨ascii "/a/"⟩ ∧
    strictlyBelow ⟨ascii "/a"⟩ ⟨ascii "/a/"⟩ = true ∧
    Path.segments ⟨ascii "/a/"⟩ = Path.segments ⟨ascii "/a"⟩ :=
  ⟨Json.toOption_eq_some.mp (by decide +kernel), Json.toOption_eq_some.mp (by decide +kernel),
    by decide +kernel, by decide +kernel⟩

end Usk.Policy

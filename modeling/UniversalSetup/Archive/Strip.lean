import UniversalSetup.Archive.Bounds
import UniversalSetup.Archive.Payload

/-!
# Paths without their leading directory

A payload may leave out a directory that all of its entries lie in. The same bytes are cut off in
front of every path, so that two paths that were told apart before are told apart afterwards, and a
path does not begin to lie below a file. The loops over the entries ask once more whether two paths
collide; they never find any.
-/

namespace Usk.Archive

open Json (Result demand demand_eq_ok bind_eq_ok)
open Arith (checked)

variable {e : Entry} {leading path : Bytes}

/-! ## One path -/

/-- The bytes that are cut off. -/
def cutOff (leading : Bytes) : Bytes :=
  if leading.isEmpty then [] else leading ++ [0x2f]

theorem stripEntryPath_eq_ok {entry : Bytes} {directory : Bool} :
    stripEntryPath entry leading directory = .ok path ↔ entry = cutOff leading ++ path ∨
      (leading ≠ [] ∧ entry = leading ∧ directory = true ∧ path = []) := by
  unfold stripEntryPath cutOff
  by_cases hempty : leading = []
  · subst hempty
    rw [List.isEmpty_nil, if_pos rfl, if_pos rfl, List.nil_append, Except.ok.injEq]
    simp
  · have hne : leading.isEmpty = false := List.isEmpty_eq_false_iff.mpr hempty
    rw [hne, if_neg Bool.false_ne_true, if_neg Bool.false_ne_true]
    by_cases heq : entry = leading
    · have hlonger : ¬entry = leading ++ [0x2f] ++ path := by
        intro hlong
        have hlength := congrArg List.length (heq.symm.trans hlong)
        simp at hlength
      rw [if_pos (beq_iff_eq.mpr heq)]
      cases directory with
      | true =>
        rw [if_pos rfl, Except.ok.injEq]
        exact ⟨fun h => .inr ⟨hempty, heq, rfl, h.symm⟩, fun h =>
          (h.resolve_left hlonger).2.2.2.symm⟩
      | false =>
        rw [if_neg Bool.false_ne_true]
        exact ⟨(nomatch ·), fun h => nomatch (h.resolve_left hlonger).2.2.1⟩
    · rw [if_neg fun h => heq (beq_iff_eq.mp h)]
      split
      · next hstarts =>
        obtain ⟨rest, rfl⟩ := List.isPrefixOf_iff_prefix.mp hstarts
        have hdrop : (leading ++ [0x2f] ++ rest).drop (leading.length + 1) = rest :=
          List.drop_left' (List.length_append.trans rfl)
        rw [hdrop, Except.ok.injEq]
        constructor
        · rintro rfl
          exact .inl rfl
        · rintro (h | h)
          · exact List.append_cancel_left h
          · exact absurd h.2.1 heq
      · next hstarts =>
        refine ⟨(nomatch ·), ?_⟩
        rintro (rfl | h)
        · exact absurd (List.isPrefixOf_iff_prefix.mpr (List.prefix_append _ _)) hstarts
        · exact absurd h.2.1 heq

/-- The path of a file that lies behind what is cut off is a name again. -/
theorem entryName_behind {start : Bytes} {maxDepth : Nat} {segments : List Bytes}
    (hname : EntryName (joinSlash segments) maxDepth segments)
    (h : joinSlash segments = start ++ 0x2f :: path) :
    EntryName path maxDepth (path.splitOnP isSeparator) := by
  have hsegments : segments = start.splitOnP isSeparator ++ path.splitOnP isSeparator := by
    have hsplit := splitOnP_joinSlash (List.length_pos_iff.mp hname.depth.1)
      fun s hs c hc => (hname.mem_raw hs hc).2
    rw [← hsplit, h, List.splitOnP_append_cons start path (by decide)]
  have hmem : ∀ c ∈ path, c ∈ joinSlash segments := fun c hc =>
    h ▸ List.mem_append_right _ (List.mem_cons_of_mem _ hc)
  have hplain : ∀ s ∈ path.splitOnP isSeparator, PlainSegment s := fun s hs =>
    hname.plain s (hsegments ▸ List.mem_append_right _ hs)
  have hne : path ≠ [] := by
    rintro rfl
    exact (hplain [] (List.mem_singleton_self _)).nonempty rfl
  have hlength := congrArg List.length h
  have hdepth := congrArg List.length hsegments
  rw [List.length_append] at hlength hdepth
  rw [List.length_cons] at hlength
  refine ⟨⟨List.length_pos_iff.mpr hne, ?_⟩, fun c hc => hname.printable c (hmem c hc), ?_, ?_,
    fun hc => hname.colon (hmem _ hc), .inl rfl,
    ⟨List.length_pos_iff.mpr (List.splitOnP_ne_nil _ _), ?_⟩, hplain⟩
  · have hmax := hname.length.2
    omega
  · cases path with
    | nil => exact absurd rfl hne
    | cons c rest =>
      rw [List.head?_cons, Option.any_some, ← Bool.not_eq_true]
      intro hc
      refine (hplain [] ?_).nonempty rfl
      rw [List.splitOnP_cons_eq_if_modifyHead, if_pos hc]
      exact List.mem_cons_self
  · rintro letter rest rfl
    exact absurd (hmem _ (List.mem_cons_of_mem _ List.mem_cons_self)) hname.colon
  · have hmax := hname.depth.2
    omega

theorem normal_of_cutOff {budgets : Budgets}
    (h : normalizePath (cutOff leading ++ path) budgets = .ok (cutOff leading ++ path)) :
    path ≠ [] ∧ SafeRelative path ∧ normalizePath path budgets = .ok path := by
  have hname : ∃ segments, EntryName path budgets.maxDepth segments ∧ path =
    joinSlash segments := by
    obtain ⟨segments, hraw, hjoin⟩ := normalizePath_eq_ok.mp h
    rw [cutOff] at hjoin
    split at hjoin
    · rw [List.nil_append] at hjoin
      exact ⟨segments, hjoin ▸ hraw.normalized, hjoin⟩
    · rw [List.append_assoc, List.singleton_append] at hjoin
      have hsafe := hraw.safeRelative
      refine ⟨_, entryName_behind hraw.normalized hjoin.symm, (joinSlash_splitOnP fun c hc hsep =>
        ?_).symm⟩
      -- a normalized path has no backslash
      have hmem : c ∈ joinSlash segments :=
        hjoin ▸ List.mem_append_right _ (List.mem_cons_of_mem _ hc)
      rw [isSeparator, Bool.or_eq_true, beq_iff_eq, beq_iff_eq] at hsep
      exact hsep.resolve_right fun heq => hsafe.separator (heq ▸ hmem)
  obtain ⟨segments, hname, rfl⟩ := hname
  exact ⟨List.length_pos_iff.mp hname.length.1, hname.safeRelative,
    normalizePath_eq_ok.mpr ⟨segments, hname, rfl⟩⟩

/-! ## All paths -/

/-- The path of an entry in the payload, if it has one. -/
def strippedPath (leading : Bytes) (e : Entry) : Option PathKind :=
  match stripEntryPath e.normalizedPath leading e.directory with
  | .ok path => if path.isEmpty then none else some (path, e.directory)
  | .error _ => none

/-- The paths of the payload. -/
def strippedPaths (leading : Bytes) (entries : List Entry) : List PathKind :=
  entries.filterMap (strippedPath leading)

theorem strippedPath_eq_some {p : PathKind} :
    strippedPath leading e = some p ↔
      stripEntryPath e.normalizedPath leading e.directory = .ok p.1 ∧ p.1 ≠ [] ∧
        p.2 = e.directory := by
  obtain ⟨path, directory⟩ := p
  unfold strippedPath
  split
  · next found hfound =>
    rw [hfound, Except.ok.injEq]
    by_cases hempty : found = []
    · subst hempty
      rw [List.isEmpty_nil, if_pos rfl]
      exact ⟨(nomatch ·), fun ⟨heq, hne, _⟩ => absurd heq.symm hne⟩
    · rw [if_neg (by simpa using hempty), Option.some.injEq, Prod.mk.injEq]
      constructor
      · rintro ⟨rfl, rfl⟩
        exact ⟨rfl, hempty, rfl⟩
      · rintro ⟨rfl, -, rfl⟩
        exact ⟨rfl, rfl⟩
  · next message hfound =>
    rw [hfound]
    exact ⟨(nomatch ·), fun h => nomatch h.1⟩

/-- The whole path is what is cut off and what is left. -/
theorem path_of_strippedPath {p : PathKind} (h : strippedPath leading e = some p) :
    e.pathKind = (cutOff leading ++ p.1, p.2) := by
  obtain ⟨hstrip, hne, hdirectory⟩ := strippedPath_eq_some.mp h
  have hpath : e.normalizedPath = cutOff leading ++ p.1 :=
    (stripEntryPath_eq_ok.mp hstrip).resolve_right fun h => hne h.2.2.2
  rw [Entry.pathKind, hpath, hdirectory]

theorem lowercaseAscii_append (a b : Bytes) :
    lowercaseAscii (a ++ b) = lowercaseAscii a ++ lowercaseAscii b :=
  List.map_append

theorem ProperAncestor.append {p q : Bytes} (h : ProperAncestor p q) (start : Bytes) :
    ProperAncestor (start ++ p) (start ++ q) := by
  obtain ⟨rest, rfl⟩ := h
  exact ⟨rest, (List.append_assoc _ _ _).symm⟩

theorem collisionless_stripped {leading : Bytes} {entries : List Entry}
    (h : Collisionless (entries.map Entry.pathKind)) :
    Collisionless (strippedPaths leading entries) := by
  constructor
  · refine List.pairwise_filterMap.mpr ((List.pairwise_map.mp h.distinct).imp ?_)
    intro e e' hdistinct p hp p' hp' heq
    rw [path_of_strippedPath hp, path_of_strippedPath hp'] at hdistinct
    exact hdistinct (by rw [lowercaseAscii_append, lowercaseAscii_append, heq])
  · intro a ha hfile b hb hancestor
    obtain ⟨e, he, hstripped⟩ := List.mem_filterMap.mp ha
    obtain ⟨e', he', hstripped'⟩ := List.mem_filterMap.mp hb
    have houtside := h.outside _ (List.mem_map_of_mem he) (path_of_strippedPath hstripped ▸ hfile) _
      (List.mem_map_of_mem he')
    rw [path_of_strippedPath hstripped, path_of_strippedPath hstripped', lowercaseAscii_append,
      lowercaseAscii_append] at houtside
    exact houtside (hancestor.append _)

/-! ## The loops -/

/-- The folded paths that a loop has met. -/
def foldedPaths (leading : Bytes) (entries : List Entry) : List Bytes :=
  (strippedPaths leading entries).map fun p => lowercaseAscii p.1

theorem foldedPaths_skip {k : Bytes} {rest : List Entry} (h : k ∈ foldedPaths leading rest) :
    k ∈ foldedPaths leading (e :: rest) := by
  obtain ⟨p, hp, rfl⟩ := List.mem_map.mp h
  obtain ⟨e', he', hstripped⟩ := List.mem_filterMap.mp hp
  exact List.mem_map.mpr ⟨p, List.mem_filterMap.mpr ⟨e', List.mem_cons_of_mem e he', hstripped⟩,
    rfl⟩

theorem mem_foldedPaths {entries : List Entry} (he : e ∈ entries)
    (hstrip : stripEntryPath e.normalizedPath leading e.directory = .ok path) (hne : path ≠ []) :
    lowercaseAscii path ∈ foldedPaths leading entries :=
  List.mem_map.mpr ⟨(path, e.directory), List.mem_filterMap.mpr
    ⟨e, he, strippedPath_eq_some.mpr ⟨hstrip, hne, rfl⟩⟩, rfl⟩

theorem materializeEntries_paths {capacity : Nat → Nat} {source : StableFile} {leading : Bytes} :
    ∀ {entries : List Entry} {s s' : Materialized},
    materializeEntries capacity source leading entries s = .ok s' →
    ∀ k ∈ s'.paths, k ∈ s.paths ∨ k ∈ foldedPaths leading entries
  | [], s, s', h => by
    cases h
    exact fun k hk => .inl hk
  | e :: rest, s, s', h => by
    intro k hk
    simp only [materializeEntries, bind_eq_ok] at h
    obtain ⟨path, hpath, h⟩ := h
    split at h
    · exact (materializeEntries_paths h k hk).imp id foldedPaths_skip
    · next hkept =>
      rw [Bool.or_eq_true, not_or, List.isEmpty_iff] at hkept
      simp only [bind_eq_ok] at h
      obtain ⟨next, hnext, h⟩ := h
      simp only [materializeFile, bind_eq_ok] at hnext
      obtain ⟨_, -, _, -, _, -, _, -, _, -, _, -, _, -, hnext⟩ := hnext
      cases hnext
      rcases materializeEntries_paths h k hk with hk | hk
      · rcases List.mem_cons.mp hk with rfl | hk
        · exact .inr (mem_foldedPaths List.mem_cons_self hpath hkept.2)
        · exact .inl hk
      · exact .inr (foldedPaths_skip hk)

theorem streamEntries_paths {host : Host} {source : StableFile} {bufferBytes : Nat}
    {allowDeflate : Bool} {leading : Bytes} : ∀ {entries : List Entry} {index : Nat}
    {s s' : Streamed},
    streamEntries host source bufferBytes allowDeflate leading index entries s = .ok s' →
    ∀ k ∈ s'.paths, k ∈ s.paths ∨ k ∈ foldedPaths leading entries
  | [], index, s, s', h => by
    cases h
    exact fun k hk => .inl hk
  | e :: rest, index, s, s', h => by
    intro k hk
    simp only [streamEntries, bind_eq_ok] at h
    obtain ⟨_, -, path, hpath, h⟩ := h
    split at h
    · exact (streamEntries_paths h k hk).imp id foldedPaths_skip
    · next hkept =>
      rw [Bool.or_eq_true, not_or, List.isEmpty_iff] at hkept
      simp only [bind_eq_ok] at h
      obtain ⟨next, hnext, h⟩ := h
      simp only [streamFile, bind_eq_ok] at hnext
      obtain ⟨_, -, _, -, _, -, _, -, _, -, _, -, _, -, hnext⟩ := hnext
      cases hnext
      rcases streamEntries_paths h k hk with hk | hk
      · rcases List.mem_cons.mp hk with rfl | hk
        · exact .inr (mem_foldedPaths List.mem_cons_self hpath hkept.2)
        · exact .inl hk
      · exact .inr (foldedPaths_skip hk)

/-- A path that comes later was not met before. -/
theorem not_mem_foldedPaths {before after : List Entry}
    (h : Collisionless ((before ++ e :: after).map Entry.pathKind))
    (hstrip : stripEntryPath e.normalizedPath leading e.directory = .ok path) (hne : path ≠ []) :
    lowercaseAscii path ∉ foldedPaths leading before := by
  intro hmem
  obtain ⟨p, hp, heq⟩ := List.mem_map.mp hmem
  have hstripped : strippedPath leading e = some (path, e.directory) :=
    strippedPath_eq_some.mpr ⟨hstrip, hne, rfl⟩
  have hdistinct := (@collisionless_stripped leading _ h).distinct
  rw [strippedPaths, List.filterMap_append, List.filterMap_cons_some hstripped] at hdistinct
  exact (List.pairwise_append.mp hdistinct).2.2 p hp _ List.mem_cons_self heq

/-! ## Accepted archives -/

/-- The paths of the files of an accepted archive stay apart when a leading directory is left out:
they are not empty, they are normal forms, and they do not collide. The check that both loops make
finds no path that was met before. -/
theorem stripped_paths_collisionless {host : Host} {request : Bytes} {inspection : Inspection}
    (h : inspectZip .wrapping host request = .ok inspection) (leading : Bytes) :
    Collisionless (strippedPaths leading inspection.entries) ∧
    ∀ before e after path, inspection.entries = before ++ e :: after → e.directory = false →
      stripEntryPath e.normalizedPath leading e.directory = .ok path →
      path ≠ [] ∧ SafeRelative path ∧ normalizePath path inspection.budgets = .ok path ∧
      (path, false) ∈ strippedPaths leading inspection.entries ∧
      (∀ capacity source s, materializeEntries capacity source leading before {} = .ok s →
        s.paths.contains (lowercaseAscii path) = false) ∧
      ∀ reader source bufferBytes allowDeflate s,
        streamEntries reader source bufferBytes allowDeflate leading 0 before {} = .ok s →
        s.paths.contains (lowercaseAscii path) = false := by
  rw [inspectZip_exact] at h
  simp only [inspectZip, bind_eq_ok] at h
  obtain ⟨parsed, -, source, -, h⟩ := h
  have hcollisionless := inspectSource_collisionless h
  obtain ⟨hwithin, -⟩ := inspectSource_within h
  refine ⟨collisionless_stripped hcollisionless, fun before e after path hentries hfile hstrip =>
    ?_⟩
  have hmem : e ∈ inspection.entries := by
    rw [hentries]
    exact List.mem_append_right _ List.mem_cons_self
  have hpath : e.normalizedPath = cutOff leading ++ path := by
    refine (stripEntryPath_eq_ok.mp hstrip).resolve_right fun hdirectory => ?_
    rw [hfile] at hdirectory
    exact Bool.false_ne_true hdirectory.2.2.1
  have hnormal := (hwithin.entries e hmem).normal
  rw [hpath] at hnormal
  obtain ⟨hne, hsafe, hnormal⟩ := normal_of_cutOff hnormal
  rw [hentries] at hcollisionless
  have hnew := not_mem_foldedPaths hcollisionless hstrip hne
  have hfresh : ∀ paths : List Bytes, (∀ k ∈ paths, k ∈ [] ∨ k ∈ foldedPaths leading before) →
      paths.contains (lowercaseAscii path) = false := by
    intro paths hpaths
    rw [List.contains_eq_mem, decide_eq_false_iff_not]
    exact fun hmet => (hpaths _ hmet).elim List.not_mem_nil hnew
  refine ⟨hne, hsafe, hnormal, List.mem_filterMap.mpr ⟨e, hmem, ?_⟩, ?_, ?_⟩
  · exact strippedPath_eq_some.mpr ⟨hstrip, hne, hfile.symm⟩
  · exact fun _ _ s hs => hfresh _ (materializeEntries_paths hs)
  · exact fun _ _ _ _ s hs => hfresh _ (streamEntries_paths hs)

/-- A stored archive of the files `d/f` and `d/g`. -/
def pairArchive : Bytes :=
  sampleLocal (ascii "d/f") (ascii "hi") 0xd8932aac ++
    sampleLocal (ascii "d/g") (ascii "ho") 0x31f08f99 ++
    sampleCentral (ascii "d/f") (ascii "hi") 0xd8932aac 0 ++
    sampleCentral (ascii "d/g") (ascii "ho") 0x31f08f99 35 ++
    sampleEnd 2 98 70

def pairHost : Host :=
  archiveHost pairArchive

/-- Both files of the archive lie below the prefix, and the first one does not take the place of the
second. -/
theorem pairArchive_stripped :
    ∃ inspection first second, inspectZip .wrapping pairHost sampleRequest = .ok inspection ∧
      inspection.entries = [first, second] ∧
      strippedPaths (ascii "d") inspection.entries = [(ascii "f", false), (ascii "g", false)] ∧
      Collisionless (strippedPaths (ascii "d") inspection.entries) ∧
      ∀ capacity source s, materializeEntries capacity source (ascii "d") [first] {} = .ok s →
        s.paths.contains (lowercaseAscii (ascii "g")) = false := by
  have hany : (inspectZip .wrapping pairHost sampleRequest).toOption.any (fun found =>
      found.entries.map (fun e => (e.directory,
        stripEntryPath e.normalizedPath (ascii "d") e.directory)) ==
          [(false, .ok (ascii "f")), (false, .ok (ascii "g"))]) = true := by
    decide +kernel
  obtain ⟨inspection, h, hentries⟩ := Json.exists_of_any hany
  obtain ⟨first, rest, hcons, hfirst, hrest⟩ := List.map_eq_cons_iff.mp (beq_iff_eq.mp hentries)
  obtain ⟨second, hpair, hsecond⟩ := List.map_eq_singleton_iff.mp hrest
  rw [hpair] at hcons
  obtain ⟨hcollisionless, htaken⟩ := stripped_paths_collisionless h (ascii "d")
  rw [Prod.mk.injEq] at hfirst hsecond
  refine ⟨inspection, first, second, h, hcons, ?_, hcollisionless, ?_⟩
  · have hf : strippedPath (ascii "d") first = some (ascii "f", false) :=
      strippedPath_eq_some.mpr ⟨hfirst.2, by decide, hfirst.1.symm⟩
    have hg : strippedPath (ascii "d") second = some (ascii "g", false) :=
      strippedPath_eq_some.mpr ⟨hsecond.2, by decide, hsecond.1.symm⟩
    rw [hcons, strippedPaths, List.filterMap_cons_some hf, List.filterMap_cons_some hg]
    rfl
  · obtain ⟨-, -, -, -, hfresh, -⟩ := htaken [first] second [] _ hcons hsecond.1 hsecond.2
    exact hfresh

end Usk.Archive
